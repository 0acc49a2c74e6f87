import Mathlib

/-!
# Ordered lists of disjoint half-open intervals

The elements of a list stand for the intervals `[lo x, hi x)` of a linear order.

An element can be put in front of an ordered list iff it ends before everything the list covers (`ordered_cons_iff`);
all editing lemmas follow from that.
-/

namespace TextOS.Lib

open List

variable {α β : Type} [LinearOrder α] {lo hi : β → α} {l : List β} {x : β}

/-- Non-empty intervals, in order and disjoint. -/
def Ordered (lo hi : β → α) (l : List β) : Prop :=
  (∀ x ∈ l, lo x < hi x) ∧ l.Pairwise fun x y => hi x ≤ lo y

/-- The union of the intervals. -/
def cover (lo hi : β → α) (l : List β) : Set α := {a | ∃ x ∈ l, lo x ≤ a ∧ a < hi x}

/-- No interval of the list meets `[s, t)`. -/
def Apart (lo hi : β → α) (l : List β) (s t : α) : Prop := ∀ x ∈ l, hi x ≤ s ∨ t ≤ lo x

@[simp] theorem ordered_nil : Ordered lo hi [] := ⟨by simp, .nil⟩

@[simp] theorem cover_nil : cover lo hi [] = ∅ := by simp [cover]

@[simp] theorem cover_cons (x : β) (l : List β) : cover lo hi (x :: l) = Set.Ico (lo x) (hi x) ∪ cover lo hi l := by
  ext a
  simp [cover]

@[simp] theorem cover_append (l l' : List β) : cover lo hi (l ++ l') = cover lo hi l ∪ cover lo hi l' := by
  induction l with
  | nil => simp
  | cons x l ih => simp [ih, Set.union_assoc]

theorem Ordered.tail (h : Ordered lo hi (x :: l)) : Ordered lo hi l :=
  ⟨fun y hy => h.1 y (mem_cons_of_mem _ hy), (pairwise_cons.1 h.2).2⟩

theorem Ordered.head_lt (h : Ordered lo hi (x :: l)) : lo x < hi x := h.1 x mem_cons_self

theorem Ordered.head_le {x y : β} (h : Ordered lo hi (x :: l)) (hy : y ∈ l) :
    hi x ≤ lo y := (pairwise_cons.1 h.2).1 y hy

theorem Ordered.lo_mem_cover (h : Ordered lo hi l) (hx : x ∈ l) : lo x ∈ cover lo hi l := ⟨x, hx, le_rfl, h.1 x hx⟩

/-- **Adding an interval in front.** -/
theorem ordered_cons_iff :
    Ordered lo hi (x :: l) ↔ lo x < hi x ∧ (∀ a ∈ cover lo hi l, hi x ≤ a) ∧ Ordered lo hi l := by
  constructor
  · intro h
    refine ⟨h.head_lt, ?_, h.tail⟩
    rintro a ⟨y, hy, hya, -⟩
    exact (h.head_le hy).trans hya
  rintro ⟨hx, hc, hl⟩
  refine ⟨?_, pairwise_cons.2 ⟨fun y hy => hc _ (hl.lo_mem_cover hy), hl.2⟩⟩
  intro y hy
  rcases mem_cons.1 hy with rfl | hy
  · exact hx
  · exact hl.1 y hy

theorem Ordered.shrink {lo' hi' : β → α} (h : Ordered lo hi l)
    (hin : ∀ x ∈ l, lo x ≤ lo' x ∧ hi' x ≤ hi x ∧ lo' x < hi' x) : Ordered lo' hi' l :=
  ⟨fun x hx => (hin x hx).2.2, h.2.imp_of_mem fun hx hy hxy => (hin _ hx).2.1.trans (hxy.trans (hin _ hy).1)⟩

theorem ordered_map {γ : Type} {f : γ → β} {l : List γ} :
    Ordered lo hi (l.map f) ↔ Ordered (fun x => lo (f x)) (fun x => hi (f x)) l := by
  rw [Ordered, Ordered, forall_mem_map, pairwise_map]

theorem Ordered.eq_of_mem {x y : β} {a : α} (h : Ordered lo hi l) (hx : x ∈ l) (hy : y ∈ l)
    (hxa : lo x ≤ a ∧ a < hi x) (hya : lo y ≤ a ∧ a < hi y) : x = y := by
  induction l with
  | nil => cases hx
  | cons z l ih =>
    rcases mem_cons.1 hx with rfl | hx'
    · rcases mem_cons.1 hy with rfl | hy'
      · rfl
      · exact absurd ((h.head_le hy').trans hya.1) (not_le.2 hxa.2)
    rcases mem_cons.1 hy with rfl | hy'
    · exact absurd ((h.head_le hx').trans hxa.1) (not_le.2 hya.2)
    · exact ih h.tail hx' hy'

/-- If no interval ends where another one starts, an interval inside the cover is inside one of them. -/
theorem Ordered.subset_one {s t : α} (h : Ordered lo hi l) (hna : ∀ x ∈ l, ∀ y ∈ l, hi x ≠ lo y) (hst : s < t)
    (hsub : Set.Ico s t ⊆ cover lo hi l) : ∃ x ∈ l, lo x ≤ s ∧ t ≤ hi x := by
  obtain ⟨x, hx, hxs, hsx⟩ := hsub ⟨le_rfl, hst⟩
  refine ⟨x, hx, hxs, ?_⟩
  by_contra ht
  -- otherwise the end of `x` lies in another interval, which cannot start there nor inside `x`
  obtain ⟨y, hy, hyx, hxy⟩ := hsub ⟨hsx.le, not_le.1 ht⟩
  have hlt : lo y < hi x := lt_of_le_of_ne hyx (hna x hx y hy).symm
  obtain rfl : x = y := by
    rcases le_total (lo x) (lo y) with hle | hle
    · exact h.eq_of_mem hx hy ⟨hle, hlt⟩ ⟨le_rfl, hlt.trans hxy⟩
    · exact h.eq_of_mem hx hy ⟨le_rfl, h.1 x hx⟩ ⟨hle, (h.1 x hx).trans hxy⟩
  exact absurd hxy (lt_irrefl _)

/-- An interval goes in between. -/
theorem Ordered.insert {l l1 l2 : List β} (h : Ordered lo hi l) (hl : l = l1 ++ l2) (hx : lo x < hi x)
    (h1 : ∀ y ∈ l1, hi y ≤ lo x) (h2 : ∀ y ∈ l2, hi x ≤ lo y) : Ordered lo hi (l1 ++ x :: l2) := by
  subst hl
  obtain ⟨hp1, hp2, hp⟩ := pairwise_append.1 h.2
  constructor
  · intro y hy
    rw [mem_append, mem_cons] at hy
    rcases hy with hy | rfl | hy
    · exact h.1 y (by simp [hy])
    · exact hx
    · exact h.1 y (by simp [hy])
  refine pairwise_append.2 ⟨hp1, pairwise_cons.2 ⟨h2, hp2⟩, fun y hy z hz => ?_⟩
  rcases mem_cons.1 hz with rfl | hz
  · exact h1 y hy
  · exact hp y hy z hz

theorem Apart.tail {s t : α} (h : Apart lo hi (x :: l) s t) :
    Apart lo hi l s t := fun y hy => h y (mem_cons_of_mem _ hy)

/-- Two intervals, the second not empty and the first too, that are disjoint lie one before the other. -/
theorem le_or_le_of_disjoint {a b s t : α} (hab : a < b) (hst : s < t) (h : Disjoint (Set.Ico a b) (Set.Ico s t)) :
    b ≤ s ∨ t ≤ a := by
  rw [Set.Ico_disjoint_Ico] at h
  rcases le_total a s with has | hsa
  · left
    rw [max_eq_right has] at h
    exact (min_le_iff.1 h).resolve_right (not_le.2 hst)
  right
  rw [max_eq_left hsa] at h
  exact (min_le_iff.1 h).resolve_left (not_le.2 hab)

theorem disjoint_Ico_of_le {a b s t : α} (h : b ≤ s ∨ t ≤ a) : Disjoint (Set.Ico a b) (Set.Ico s t) := by
  rw [Set.Ico_disjoint_Ico]
  rcases h with h | h
  · exact (min_le_left _ _).trans (h.trans (le_max_right _ _))
  · exact (min_le_right _ _).trans (h.trans (le_max_left _ _))

/-- Intervals disjoint from `[s, t)` lie before or after it. -/
theorem apart_of_disjoint (hl : Ordered lo hi l) {s t : α} (hst : s < t)
    (h : Disjoint (cover lo hi l) (Set.Ico s t)) : Apart lo hi l s t := by
  intro x hx
  refine le_or_le_of_disjoint (hl.1 x hx) hst (h.mono_left ?_)
  intro a ha
  exact ⟨x, hx, ha.1, ha.2⟩

end TextOS.Lib
