import TextOS.Lib.Word
import TextOS.Mman.Space

/-!
# `munmap`: `kernel/mm/mman/mman.c`

The loop of `munmap` visits the areas that the range covers and cuts the range out of each: it splits an area, removes
it or moves one of its limits. `n` bounds the rounds of the loops.

- **what a call does, case by case** (`munmap_cases`): nothing, if the range is not valid or the two words before the
  head of the list look like an area in it; a read through `NULL`, if `rbtree_delete` makes one for an area in the
  range; or it cuts the range out of the areas;
- **`munmap` keeps every space well formed** (`munmap_spec`).
-/

namespace TextOS.Mman

open Lib BinTree List
open Relation (ReflTransGen)

def covered (vs vt s t : Nat) : Bool := max vs s < min vt t

/-- A new area for the part of the area `a` from `askEnd` on, and the area itself up to `askStart` only. -/
def Space.split (sp : Space) (a askStart askEnd : Nat) : Space :=
  (sp.alloc ((sp.areas a).startAt askEnd)).put a ((sp.areas a).endAt askStart)

/-- A round of the loop of `munmap` and the node it goes on with. A removed area keeps its links. -/
def munmapArea (n a askStart askEnd : Nat) (sp : Space) : Except Stop (Space × Option Nat) :=
  let area := sp.areas a
  let covStart := max area.s askStart
  let covEnd := min area.t askEnd
  if area.s < askStart ∧ askEnd < area.t then
    -- `vmm_new_vma(a)`
    (vmmSpRegst n sp.next (sp.split a askStart askEnd)).map fun sp₂ => (sp₂, listNext a sp₂.list)
  else if covStart = area.s ∧ area.t = covEnd then (vmmSpUnreg a sp).map fun sp₁ => (sp₁, listNext a sp.list)
  else if area.s = covStart then .ok (sp.put a (area.startAt covEnd), listNext a sp.list)
  else if area.t = covEnd then .ok (sp.put a (area.endAt covStart), listNext a sp.list)
  else .ok (sp, listNext a sp.list)

/-- The loop of `munmap` for at most the given number of rounds. -/
def munmapLoop (n askStart askEnd : Nat) : Nat → Option Nat → Space → Except Stop Space
  | _, none, sp => .ok sp
  | 0, some _, _ => .error .hang
  | k + 1, some a, sp =>
    if !covered (sp.lo a) (sp.hi a) askStart askEnd then .ok sp
    else (munmapArea n a askStart askEnd sp).bind fun r => munmapLoop n askStart askEnd k r.2 r.1

/-- The node the loop of `munmap` starts with. When no area starts at or before the range, the head of the list is taken
for an area: `junk` holds the two words that are read as its limits. -/
def munmapFirst (junk : Nat × Nat) (askStart askEnd : Nat) (sp : Space) : Option Nat :=
  let a := match vmmSpUpperbound sp askStart with
    | some a => listPrev a sp.list
    | none => sp.list.getLast?
  match a with
  | some a => if covered (sp.lo a) (sp.hi a) askStart askEnd then some a else listNext a sp.list
  | none => if covered junk.1 junk.2 askStart askEnd then none else sp.list.head?

/-- `-EINVAL`. -/
def einval : Int := -22

def munmap (n : Nat) (junk : Nat × Nat) (addr len : Nat) (sp : Space) : Except Stop (Int × Space) :=
  let askStart := addr
  let askEnd := u64 (addr + len)
  if askStart % 4096 ≠ 0 ∨ askEnd % 4096 ≠ 0 then .ok (einval, sp)
  else if askEnd ≤ askStart then .ok (einval, sp)
  else (munmapLoop n askStart askEnd n (munmapFirst junk askStart askEnd sp) sp).map fun sp' => (0, sp')

variable {sp sp' : Space} {a b k n askStart askEnd addr len : Nat} {area : Area} {l l' pre rest : List Nat}

/-! ## Cutting an area -/

@[simp] theorem put_self (sp : Space) (a : Nat) (area : Area) : (sp.put a area).areas a = area :=
    Function.update_self _ _ _

theorem put_of_ne (sp : Space) (area : Area) (h : b ≠ a) : (sp.put a area).areas b = sp.areas b :=
  Function.update_of_ne h _ _

theorem Wf.put (h : Wf sp) (hs : sp.lo a ≤ area.s) (ht : area.t ≤ sp.hi a) (hne : area.s < area.t) :
    Wf (sp.put a area) := by
  refine ⟨h.ordered.shrink fun b hb => ?_, h.inorder, h.root, h.old⟩
  have hb' := h.ordered.1 b hb
  unfold Space.lo Space.hi at *
  by_cases hba : b = a
  · rw [hba, put_self]
    exact ⟨hs, ht, hne⟩
  · rw [put_of_ne sp area hba]
    exact ⟨le_rfl, le_rfl, hb'⟩

theorem alloc_of_ne (sp : Space) (area : Area) (h : b ≠ sp.next) : (sp.alloc area).areas b = sp.areas b :=
    put_of_ne _ area h

theorem Wf.alloc (h : Wf sp) (area : Area) : Wf (sp.alloc area) := by
  refine ⟨h.ordered.shrink fun b hb => ?_, h.inorder, h.root, fun b hb => (h.old b hb).trans (Nat.lt_succ_self _)⟩
  have hb' := h.ordered.1 b hb
  have hbn : b ≠ sp.next := (h.old b hb).ne
  unfold Space.lo Space.hi at *
  rw [alloc_of_ne sp area hbn]
  exact ⟨le_rfl, le_rfl, hb'⟩

/-! ## Walking the list -/

theorem listNext_append (h : a ∉ l) : listNext a (l ++ a :: l') = l'.head? := by
  induction l with
  | nil => exact if_pos rfl
  | cons b l ih =>
    rw [mem_cons, not_or] at h
    rw [cons_append, listNext, if_neg (Ne.symm h.1), ih h.2]

theorem listNext_mem (h : listNext a l = some b) : b ∈ l := by
  induction l with
  | nil => cases h
  | cons c l ih =>
    rw [listNext] at h
    split at h
    · exact mem_cons_of_mem _ (mem_of_mem_head? h)
    · exact mem_cons_of_mem _ (ih h)

theorem listPrev_notMem (h : a ∉ l) (b : Nat) : listPrev a (b :: l) = none := by
  induction l generalizing b with
  | nil => rfl
  | cons c l ih =>
    rw [mem_cons, not_or] at h
    rw [listPrev, if_neg (Ne.symm h.1), ih h.2]

theorem listPrev_append (h : a ∉ l) (h' : a ∉ l') : listPrev a (l ++ a :: l') = l.getLast? := by
  induction l with
  | nil => exact listPrev_notMem h' a
  | cons b l ih =>
    cases l with
    | nil => exact if_pos rfl
    | cons c l =>
      rw [mem_cons, not_or] at h
      have hc : c ≠ a := fun hc => h.2 (hc ▸ mem_cons_self)
      rw [cons_append, cons_append, listPrev, if_neg hc, ← cons_append, ih h.2,
        getLast?_cons_cons]

theorem not_covered {vs vt s t : Nat} (hv : vs < vt) (hst : s < t) : covered vs vt s t = false ↔ vt ≤ s ∨ t ≤ vs := by
  simp only [covered, decide_eq_false_iff_not, not_lt]
  omega

/-! ## The loop -/

/-- Every area of the second space is inside an area of the first. -/
def Inside (sp sp' : Space) : Prop := ∀ b ∈ sp'.list, ∃ a ∈ sp.list, sp.lo a ≤ sp'.lo b ∧ sp'.hi b ≤ sp.hi a

theorem Inside.refl (sp : Space) : Inside sp sp := fun b hb => ⟨b, hb, le_rfl, le_rfl⟩

theorem Inside.trans {sp₁ sp₂ sp3 : Space} (h : Inside sp₁ sp₂) (h' : Inside sp₂ sp3) : Inside sp₁ sp3 := by
  intro c hc
  obtain ⟨b, hb, hlo', hhi'⟩ := h' c hc
  obtain ⟨a, ha, hlo, hhi⟩ := h b hb
  exact ⟨a, ha, hlo.trans hlo', hhi'.trans hhi⟩

theorem Inside.apart {s t : Nat} (h : Inside sp sp') (hapart : Apart sp.lo sp.hi sp.list s t) :
    Apart sp'.lo sp'.hi sp'.list s t := by
  intro b hb
  obtain ⟨a, ha, hlo, hhi⟩ := h b hb
  rcases hapart a ha with hle | hle
  · exact .inl (hhi.trans hle)
  · exact .inr (hle.trans hlo)

/-- What a round of the loop does to an area `a` that meets the range. -/
inductive Cuts (askStart askEnd : Nat) (sp : Space) : Space → Prop
  | split {a : Nat} {l l' : List Nat} {tree : RbTree Nat} (ha : a ∈ sp.list) (hs : sp.lo a < askStart)
      (hask : askStart < askEnd) (ht : askEnd < sp.hi a) (hlist : sp.list = l ++ l') :
      Cuts askStart askEnd sp { sp.split a askStart askEnd with list := l ++ sp.next :: l', tree }
  | remove {a : Nat} {tree : RbTree Nat} (ha : a ∈ sp.list) (hs : askStart ≤ sp.lo a) (ht : sp.hi a ≤ askEnd) :
      Cuts askStart askEnd sp { sp with list := sp.list.erase a, tree }
  | left {a : Nat} (ha : a ∈ sp.list) (hs : askStart ≤ sp.lo a) (hmeet : sp.lo a < askEnd) (ht : askEnd < sp.hi a) :
      Cuts askStart askEnd sp (sp.put a ((sp.areas a).startAt askEnd))
  | right {a : Nat} (ha : a ∈ sp.list) (hs : sp.lo a < askStart) (hmeet : askStart < sp.hi a) (ht : sp.hi a ≤ askEnd) :
      Cuts askStart askEnd sp (sp.put a ((sp.areas a).endAt askStart))

/-- A round in a well-formed space. -/
def Turn (askStart askEnd : Nat) (sp sp' : Space) : Prop := Wf sp ∧ Cuts askStart askEnd sp sp'

theorem split_self (sp : Space) (a askStart askEnd : Nat) :
    (sp.split a askStart askEnd).areas a = (sp.areas a).endAt askStart := put_self _ _ _

theorem split_next (h : a ≠ sp.next) : (sp.split a askStart askEnd).areas sp.next = (sp.areas a).startAt askEnd := by
  rw [Space.split, put_of_ne _ _ h.symm]
  exact put_self _ _ _

theorem split_of_ne (hba : b ≠ a) (hb : b ≠ sp.next) : (sp.split a askStart askEnd).areas b = sp.areas b := by
  rw [Space.split, put_of_ne _ _ hba, alloc_of_ne _ _ hb]

theorem inside_put (hs : sp.lo a ≤ area.s) (ht : area.t ≤ sp.hi a) : Inside sp (sp.put a area) := by
  intro b hb
  refine ⟨b, hb, ?_⟩
  unfold Space.lo Space.hi at *
  by_cases hba : b = a
  · rw [hba, put_self]
    exact ⟨hs, ht⟩
  · rw [put_of_ne sp area hba]
    exact ⟨le_rfl, le_rfl⟩

/-- A turn leaves only parts of what was there. -/
theorem Turn.inside (h : Turn askStart askEnd sp sp') : Inside sp sp' := by
  obtain ⟨h, hcut⟩ := h
  cases hcut with
  | @split a l l' tree ha hs hask ht hlist =>
    intro b hb
    have hb' : b ∈ sp.list ∨ b = sp.next := by
      have hb : b ∈ l ++ sp.next :: l' := hb
      rw [mem_append, mem_cons] at hb
      rw [hlist, mem_append]
      tauto
    have hne : a ≠ sp.next := (h.old a ha).ne
    unfold Space.lo Space.hi at *
    rcases hb' with hb' | rfl
    · by_cases hba : b = a
      · refine ⟨a, ha, ?_⟩
        rw [hba, split_self]
        exact ⟨le_rfl, (hask.trans ht).le⟩
      refine ⟨b, hb', ?_⟩
      rw [split_of_ne hba (h.old b hb').ne]
      exact ⟨le_rfl, le_rfl⟩
    refine ⟨a, ha, ?_⟩
    rw [split_next hne]
    exact ⟨(hs.trans hask).le, le_rfl⟩
  | remove ha hs ht => exact fun b hb => ⟨b, mem_of_mem_erase hb, le_rfl, le_rfl⟩
  | left ha hs hmeet ht => exact inside_put hmeet.le le_rfl
  | right ha hs hmeet ht => exact inside_put le_rfl hmeet.le

/-- The space after the loop: no area meets the range any more. -/
structure Cleared (askStart askEnd : Nat) (sp sp' : Space) : Prop where
  wf : Wf sp'
  apart : Apart sp'.lo sp'.hi sp'.list askStart askEnd
  inside : Inside sp sp'
  length : sp'.list.length ≤ sp.list.length + 1

/-- The area lies in the range: it is removed entirely. -/
def Space.within (sp : Space) (askStart askEnd a : Nat) : Bool :=
    decide (askStart ≤ sp.lo a) && decide (sp.hi a ≤ askEnd)

/-- `rbtree_delete` returns for each of the nodes, one after the other. -/
def DeletesAll : List Nat → RbTree Nat → Prop
  | [], _ => True
  | a :: l, t => Deletes a t ∧ ∀ t' ∈ rbtreeDelete a t, DeletesAll l t'

instance decDeletesAll : ∀ (l : List Nat) (t : RbTree Nat), Decidable (DeletesAll l t)
  | [], _ => .isTrue trivial
  | a :: l, t =>
    have : ∀ t', Decidable (DeletesAll l t') := decDeletesAll l
    inferInstanceAs (Decidable (Deletes a t ∧ ∀ t' ∈ rbtreeDelete a t, DeletesAll l t'))

theorem filter_within_nil (h : ∀ b ∈ l, askEnd < sp.hi b) : l.filter (sp.within askStart askEnd) = [] := by
  rw [filter_eq_nil_iff]
  intro b hb
  have := h b hb
  simp only [Space.within, Bool.and_eq_true, decide_eq_true_eq, not_and, not_le]
  omega

theorem filter_within_put (h : a ∉ l) :
    l.filter ((sp.put a area).within askStart askEnd) = l.filter (sp.within askStart askEnd) := by
  refine filter_congr fun b hb => ?_
  have hba : b ≠ a := fun e => h (e ▸ hb)
  rw [Space.within, Space.within, Space.lo, Space.hi, put_of_ne sp area hba]

theorem filter_within_cons (h : ¬ (askStart ≤ sp.lo a ∧ sp.hi a ≤ askEnd)) :
    (a :: l).filter (sp.within askStart askEnd) = l.filter (sp.within askStart askEnd) := by
  rw [filter_cons_of_neg]
  simpa [Space.within] using h

/-- How the loop ends: it cuts the range out of the areas, unless `rbtree_delete` reads through `NULL`. -/
def Ends (askStart askEnd : Nat) (sp : Space) (gone : List Nat) (r : Except Stop Space) : Prop :=
  (r = .error .null ∧ ¬ DeletesAll gone sp.tree) ∨
  (DeletesAll gone sp.tree ∧ ∃ sp', r = .ok sp' ∧ Cleared askStart askEnd sp sp' ∧
  ReflTransGen (Turn askStart askEnd) sp sp')

theorem munmapLoop_apart (h : Wf sp) (hask : askStart < askEnd)
    (hapart : Apart sp.lo sp.hi sp.list askStart askEnd) {ptr : Option Nat} (hptr : ∀ a ∈ ptr, a ∈ sp.list) :
    munmapLoop n askStart askEnd (k + 1) ptr sp = .ok sp := by
  cases ptr with
  | none => rfl
  | some a =>
    have ha := hptr a rfl
    rw [munmapLoop, (not_covered (h.ordered.1 a ha) hask).2 (hapart a ha)]
    rfl

/-- A range inside an area leaves a piece on both sides. -/
theorem munmapArea_split (h : Wf sp) (hlist : sp.list = pre ++ a :: rest) (hask : askStart < askEnd)
    (hs : sp.lo a < askStart) (ht : askEnd < sp.hi a) (hn : sp.list.length < n) :
    ∃ sp' ptr, munmapArea n a askStart askEnd sp = .ok (sp', ptr) ∧ Cuts askStart askEnd sp sp' ∧
      Cleared askStart askEnd sp sp' ∧ ∀ b ∈ ptr, b ∈ sp'.list := by
  have hmem : a ∈ sp.list := by simp [hlist]
  have hne : a ≠ sp.next := (h.old a hmem).ne
  obtain ⟨hprea, harest⟩ : (∀ b ∈ pre, sp.hi b ≤ sp.lo a) ∧ ∀ b ∈ rest, sp.hi a ≤ sp.lo b := by
    have hpair := h.ordered.2
    rw [hlist] at hpair
    obtain ⟨-, har, hpa⟩ := pairwise_append.1 hpair
    exact ⟨fun b hb => hpa b hb a mem_cons_self, (pairwise_cons.1 har).1⟩
  -- the two halves
  set sp₁ := sp.split a askStart askEnd with hsp1
  have ha1 : sp₁.areas a = (sp.areas a).endAt askStart := split_self sp a askStart askEnd
  have hna1 : sp₁.areas sp.next = (sp.areas a).startAt askEnd := split_next hne
  have hlo : sp₁.lo sp.next = askEnd := congrArg Area.s hna1
  have hhi : sp₁.hi sp.next = sp.hi a := (congrArg Area.t hna1).trans rfl
  have h1 : Wf sp₁ := by
    refine (h.alloc _).put ?_ ?_ hs
    · rw [Space.lo, alloc_of_ne _ _ hne]
      exact le_rfl
    · rw [Space.hi, alloc_of_ne _ _ hne]
      exact (hask.trans ht).le
  have hsplit : ∀ b ∈ sp.list, sp₁.hi b ≤ askStart ∨ askEnd ≤ sp₁.lo b ∧ sp.hi a ≤ sp₁.lo b := by
    intro b hb
    unfold Space.lo Space.hi at *
    by_cases hba : b = a
    · left
      rw [hba, ha1]
      exact le_rfl
    rw [hsp1, split_of_ne hba (h.old b hb).ne]
    rw [hlist, mem_append, mem_cons] at hb
    rcases hb with hb | hb | hb
    · exact .inl ((hprea b hb).trans hs.le)
    · exact absurd hb hba
    · exact .inr ⟨(ht.trans_le (harest b hb)).le, harest b hb⟩
  obtain ⟨l, l', tree, hreg, hll, hwf⟩ := vmmSpRegst_spec sp.next (n := n) h1
    (by rw [hlo, hhi]; exact ht)
    (fun b hb => by
      rw [hlo, hhi]
      rcases hsplit b hb with hle | hle
      · exact .inl (hle.trans hask.le)
      · exact .inr hle.2)
    (Nat.lt_succ_self _) hn
  have hll' : sp.list = l ++ l' := hll
  have hcuts : Cuts askStart askEnd sp { sp₁ with list := l ++ sp.next :: l', tree } := .split hmem hs hask ht hll'
  refine ⟨_, listNext a (l ++ sp.next :: l'), ?_, hcuts, ⟨hwf, ?_, Turn.inside ⟨h, hcuts⟩, ?_⟩,
    fun b hb => listNext_mem hb⟩
  · rw [munmapArea, if_pos ⟨hs, ht⟩, ← hsp1, hreg]
    rfl
  · intro b hb
    have hb : b ∈ l ++ sp.next :: l' := hb
    rw [mem_append, mem_cons] at hb
    rcases hb with hb | rfl | hb
    · exact (hsplit b (by simp [hll', hb])).imp_right And.left
    · exact .inr hlo.ge
    · exact (hsplit b (by simp [hll', hb])).imp_right And.left
  · rw [hll', length_append, length_append, length_cons]
    omega

theorem munmapArea_remove (hs : askStart ≤ sp.lo a) (ht : sp.hi a ≤ askEnd) : munmapArea n a askStart askEnd sp =
    (vmmSpUnreg a sp).map fun sp₁ => (sp₁, listNext a sp.list) := by
  unfold Space.lo Space.hi at *
  rw [munmapArea, if_neg (by omega), if_pos ⟨max_eq_left hs, (min_eq_left ht).symm⟩]

theorem munmapArea_left (hs : askStart ≤ sp.lo a) (ht : askEnd < sp.hi a) : munmapArea n a askStart askEnd sp =
    .ok (sp.put a ((sp.areas a).startAt askEnd), listNext a sp.list) := by
  unfold Space.lo Space.hi at *
  rw [munmapArea, if_neg (by omega), if_neg (by omega), if_pos (max_eq_left hs).symm, min_eq_right ht.le]

theorem munmapArea_right (hs : sp.lo a < askStart) (ht : sp.hi a ≤ askEnd) : munmapArea n a askStart askEnd sp =
    .ok (sp.put a ((sp.areas a).endAt askStart), listNext a sp.list) := by
  unfold Space.lo Space.hi at *
  rw [munmapArea, if_neg (by omega), if_neg (by omega), if_neg (by omega), if_pos (min_eq_left ht).symm,
    max_eq_right hs.le]

/-- **The loop cuts the range out of the areas it visits.** -/
theorem munmapLoop_spec (h : Wf sp) (hlist : sp.list = pre ++ rest) (hask : askStart < askEnd)
    (hpre : Apart sp.lo sp.hi pre askStart askEnd) (hrest : ∀ a ∈ rest, askStart < sp.hi a)
    (hk : rest.length < k) (hn : sp.list.length < n) :
    Ends askStart askEnd sp (rest.filter (sp.within askStart askEnd))
    (munmapLoop n askStart askEnd k rest.head? sp) := by
  induction rest generalizing pre sp k with
  | nil =>
    obtain ⟨k, rfl⟩ : ∃ j, k = j + 1 := ⟨k - 1, by omega⟩
    rw [append_nil] at hlist
    exact .inr ⟨trivial, sp, rfl, ⟨h, hlist ▸ hpre, .refl sp, by omega⟩, .refl⟩
  | cons a rest ih =>
    obtain ⟨k, rfl⟩ : ∃ j, k = j + 1 := ⟨k - 1, by omega⟩
    rw [length_cons] at hk
    obtain ⟨k, rfl⟩ : ∃ j, k = j + 1 := ⟨k - 1, by omega⟩
    have hmem : a ∈ sp.list := by simp [hlist]
    have hane := h.ordered.1 a hmem
    have hafter : ∀ b ∈ rest, sp.hi a ≤ sp.lo b := by
      have hpair := h.ordered.2
      rw [hlist] at hpair
      exact (pairwise_cons.1 (pairwise_append.1 hpair).2.1).1
    have hnodup := h.nodup
    rw [hlist] at hnodup
    have hnotpre : a ∉ pre := fun hp => (nodup_append.1 hnodup).2.2 a hp a mem_cons_self rfl
    have hnotrest : a ∉ rest := (nodup_cons.1 (nodup_append.1 hnodup).2.1).1
    have hnext : listNext a sp.list = rest.head? := by rw [hlist, listNext_append hnotpre]
    rw [head?_cons, munmapLoop]
    cases hcov : covered (sp.lo a) (sp.hi a) askStart askEnd with
    | false =>
      -- the areas from here on lie behind the range
      have hbehind : askEnd ≤ sp.lo a := by
        have := hrest a mem_cons_self
        rcases (not_covered hane hask).1 hcov with hle | hle
        · omega
        · exact hle
      have hgone : (a :: rest).filter (sp.within askStart askEnd) = [] := by
        refine filter_within_nil fun b hb => ?_
        rcases mem_cons.1 hb with rfl | hb
        · omega
        · have := hafter b hb
          have := h.ordered.1 b (by simp [hlist, hb])
          omega
      rw [hgone]
      refine .inr ⟨trivial, sp, rfl, ⟨h, ?_, .refl sp, by omega⟩, .refl⟩
      intro b hb
      rw [hlist, mem_append, mem_cons] at hb
      rcases hb with hb | rfl | hb
      · exact hpre b hb
      · exact .inr hbehind
      · have := hafter b hb
        exact .inr (by omega)
    | true =>
      have hmeet : ¬ (sp.hi a ≤ askStart ∨ askEnd ≤ sp.lo a) := fun hno => by
        rw [(not_covered hane hask).2 hno] at hcov
        cases hcov
      rw [not_or, not_le, not_le] at hmeet
      -- the rest of the loop, after the limits of `a` were moved
      have hgo : ∀ area : Area, Cuts askStart askEnd sp (sp.put a area) → sp.lo a ≤ area.s → area.t ≤ sp.hi a →
          area.s < area.t → (area.t ≤ askStart ∨ askEnd ≤ area.s) → ¬ (askStart ≤ sp.lo a ∧ sp.hi a ≤ askEnd) →
          Ends askStart askEnd sp ((a :: rest).filter (sp.within askStart askEnd))
            (munmapLoop n askStart askEnd (k + 1) rest.head? (sp.put a area)) := by
        intro area hcuts hs ht hne hcut hpart
        have hother : ∀ b, b ≠ a → (sp.put a area).areas b = sp.areas b := fun b hba => put_of_ne sp area hba
        have hapart : Apart (sp.put a area).lo (sp.put a area).hi (pre ++ [a]) askStart askEnd := by
          intro b hb
          unfold Space.lo Space.hi
          rw [mem_append, mem_singleton] at hb
          rcases hb with hb | rfl
          · rw [hother b fun e => hnotpre (e ▸ hb)]
            exact hpre b hb
          · rw [put_self]
            exact hcut
        have hbehind : ∀ b ∈ rest, askStart < (sp.put a area).hi b := fun b hb => by
          rw [Space.hi, hother b fun e => hnotrest (e ▸ hb)]
          exact hrest b (mem_cons_of_mem _ hb)
        have hend := ih (h.put hs ht hne) (by rw [append_assoc]; exact hlist) hapart hbehind (k := k + 1) (by omega) hn
        rw [filter_within_put hnotrest] at hend
        rw [filter_within_cons hpart]
        rcases hend with hnull | ⟨hdel, sp', hok, hc, hsteps⟩
        · exact .inl hnull
        · exact .inr ⟨hdel, sp', hok, ⟨hc.wf, hc.apart, (inside_put hs ht).trans hc.inside, hc.length⟩,
            .head ⟨h, hcuts⟩ hsteps⟩
      by_cases hs : sp.lo a < askStart
      · by_cases ht : askEnd < sp.hi a
        · obtain ⟨sp', ptr, hr, hcuts, hc, hptr⟩ := munmapArea_split h hlist hask hs ht hn
          have hgone : (a :: rest).filter (sp.within askStart askEnd) = [] := by
            refine filter_within_nil fun b hb => ?_
            rcases mem_cons.1 hb with rfl | hb
            · exact ht
            · have := hafter b hb
              have := h.ordered.1 b (by simp [hlist, hb])
              omega
          rw [hgone]
          refine .inr ⟨trivial, sp', ?_, hc, .single ⟨h, hcuts⟩⟩
          rw [hr]
          exact munmapLoop_apart hc.wf hask hc.apart hptr
        have ht := not_lt.1 ht
        rw [munmapArea_right hs ht, hnext]
        exact hgo ((sp.areas a).endAt askStart) (.right hmem hs hmeet.1 ht) le_rfl hmeet.1.le hs (.inl le_rfl)
          (by omega)
      have hs := not_lt.1 hs
      by_cases ht : askEnd < sp.hi a
      · rw [munmapArea_left hs ht, hnext]
        exact hgo ((sp.areas a).startAt askEnd) (.left hmem hs hmeet.2 ht) hmeet.2.le le_rfl ht (.inr le_rfl)
          (by omega)
      have ht := not_lt.1 ht
      rw [munmapArea_remove hs ht, hnext]
      rw [filter_cons_of_pos (by simp [Space.within, hs, ht])]
      rcases vmmSpUnreg_spec h hmem with ⟨hnull, hno⟩ | ⟨tree, hdel, hyes, hok, hwf⟩
      · rw [hnull]
        exact .inl ⟨rfl, fun hall => hno hall.1⟩
      rw [hok]
      have herase : sp.list.erase a = pre ++ rest := by rw [hlist, erase_append_right _ hnotpre, erase_cons_head]
      have hlen : (sp.list.erase a).length ≤ sp.list.length := erase_sublist.length_le
      have hround : Turn askStart askEnd sp { sp with list := sp.list.erase a, tree } := ⟨h, .remove hmem hs ht⟩
      have hall : DeletesAll (a :: rest.filter (sp.within askStart askEnd)) sp.tree ↔
          DeletesAll (rest.filter (sp.within askStart askEnd)) tree := by simp [DeletesAll, hdel, hyes]
      rw [Ends, hall]
      rcases ih hwf herase hpre (fun b hb => hrest b (mem_cons_of_mem _ hb)) (k := k + 1) (by omega)
        (hlen.trans_lt hn) with hnull | ⟨hrem, sp', hsp', hc, hsteps⟩
      · exact .inl hnull
      · exact .inr ⟨hrem, sp', hsp', ⟨hc.wf, hc.apart, hround.inside.trans hc.inside,
          hc.length.trans (Nat.succ_le_succ hlen)⟩, .head hround hsteps⟩

/-! ## More rounds -/

theorem munmapArea_stable (a askStart askEnd : Nat) (sp : Space) :
    Stable fun n => munmapArea n a askStart askEnd sp :=
  .ite ((vmmSpRegst_stable _ _).map _)
    (.ite (stable_const _) (.ite (stable_const _) (.ite (stable_const _) (stable_const _))))

/-- More fuel changes nothing once the loop has returned. -/
theorem munmapLoop_mono {m j : Nat} {ptr : Option Nat} (hnm : n ≤ m) (hkj : k ≤ j)
    (h : munmapLoop n askStart askEnd k ptr sp = .ok sp') : munmapLoop m askStart askEnd j ptr sp = .ok sp' := by
  induction k generalizing j ptr sp with
  | zero =>
    cases ptr with
    | none =>
      cases j with
      | zero => exact h
      | succ j => exact h
    | some a => cases h
  | succ k ih =>
    obtain ⟨j, rfl⟩ : ∃ i, j = i + 1 := ⟨j - 1, by omega⟩
    cases ptr with
    | none => exact h
    | some a =>
      rw [munmapLoop] at h ⊢
      by_cases hcov : (!covered (sp.lo a) (sp.hi a) askStart askEnd) = true
      · rw [if_pos hcov] at h ⊢
        exact h
      rw [if_neg hcov] at h ⊢
      cases hr : munmapArea n a askStart askEnd sp with
      | error e =>
        rw [hr] at h
        cases h
      | ok r =>
        have hr' : munmapArea m a askStart askEnd sp = .ok r := munmapArea_stable a askStart askEnd sp n m r hnm hr
        rw [hr] at h
        rw [hr']
        exact ih (by omega) h

theorem munmap_stable (junk : Nat × Nat) (addr len : Nat) (sp : Space) :
    Stable fun n => munmap n junk addr len sp := by
  refine .ite (stable_const _) (.ite (stable_const _) (Stable.map ?_ _))
  exact fun n m sp' hnm h => munmapLoop_mono hnm hnm h

/-! ## The call -/

/-- The head of the list is not taken for an area in the range. -/
def JunkOk (junk : Nat × Nat) (askStart askEnd : Nat) (sp : Space) : Prop :=
  (∃ a ∈ sp.list, sp.lo a ≤ askStart) ∨ covered junk.1 junk.2 askStart askEnd = false
deriving Decidable

/-- `munmap` does not return `-EINVAL`. -/
def RangeOk (addr len : Nat) : Prop := addr % 4096 = 0 ∧ u64 (addr + len) % 4096 = 0 ∧ addr < u64 (addr + len)
deriving Decidable

/-- `rbtree_delete` returns for the areas that lie in the range. -/
def Removable (askStart askEnd : Nat) (sp : Space) : Prop :=
  DeletesAll (sp.list.filter (sp.within askStart askEnd)) sp.tree
deriving Decidable

/-- `munmap` does not read through `NULL`. -/
def Unmaps (junk : Nat × Nat) (addr len : Nat) (sp : Space) : Prop :=
  RangeOk addr len → JunkOk junk addr (u64 (addr + len)) sp → Removable addr (u64 (addr + len)) sp
deriving Decidable

/-- The list splits at an address. -/
theorem Wf.cut (h : Wf sp) (addr : Nat) :
    ∃ l l', sp.list = l ++ l' ∧ (∀ a ∈ l, sp.lo a ≤ addr) ∧ ∀ a ∈ l', addr < sp.lo a := by
  refine ⟨sp.list.takeWhile fun a => sp.lo a ≤ addr, sp.list.dropWhile fun a => sp.lo a ≤ addr,
    takeWhile_append_dropWhile.symm, fun a ha => by simpa using mem_takeWhile_imp ha, ?_⟩
  have hsorted := h.sorted.sublist (dropWhile_sublist fun a => sp.lo a ≤ addr)
  cases hd : sp.list.dropWhile fun a => sp.lo a ≤ addr with
  | nil => simp
  | cons b l =>
    have hb : addr < sp.lo b := by
      have := head_dropWhile_not (l := sp.list) (fun a => decide (sp.lo a ≤ addr)) (by rw [hd]; simp)
      simpa [hd] using this
    intro a ha
    rw [hd] at hsorted
    rcases mem_cons.1 ha with rfl | ha
    · exact hb
    · exact hb.trans ((pairwise_cons.1 hsorted).1 a ha)

/-- **Where the loop starts**: everything before is apart from the range, everything from there on ends behind its
start; or it does not start at all, with the head of the list taken for an area. -/
theorem munmapFirst_spec (h : Wf sp) (junk : Nat × Nat) (hask : askStart < askEnd) :
    (munmapFirst junk askStart askEnd sp = none ∧ ¬ JunkOk junk askStart askEnd sp) ∨
    ∃ pre rest, sp.list = pre ++ rest ∧ munmapFirst junk askStart askEnd sp = rest.head? ∧
      JunkOk junk askStart askEnd sp ∧ Apart sp.lo sp.hi pre askStart askEnd ∧ ∀ a ∈ rest, askStart < sp.hi a := by
  obtain ⟨l, l', hlist, hl, hl'⟩ := h.cut askStart
  have hnodup := h.nodup
  have hpair := h.ordered.2
  have hne := h.ordered.1
  rw [hlist] at hnodup hpair
  -- the area before the upper bound
  have hprev : (match vmmSpUpperbound sp askStart with
      | some a => listPrev a sp.list
      | none => sp.list.getLast?) = l.getLast? := by
    have hnone : (l.find? fun a => decide (askStart < sp.lo a)) = none := by
      rw [find?_eq_none]
      intro a ha
      have := hl a ha
      simp only [decide_eq_true_eq]
      omega
    rw [vmmSpUpperbound_eq h, hlist, find?_append, hnone, Option.none_or]
    cases hcase : l' with
    | nil => simp
    | cons b l'' =>
      rw [find?_cons, decide_eq_true (hl' b (by simp [hcase]))]
      rw [hcase] at hnodup
      obtain ⟨-, hb, hdis⟩ := nodup_append.1 hnodup
      exact listPrev_append (fun hb' => hdis b hb' b mem_cons_self rfl) (nodup_cons.1 hb).1
  have hbehind : ∀ a ∈ l', askStart < sp.hi a := fun a ha => (hl' a ha).trans (hne a (by simp [hlist, ha]))
  unfold munmapFirst
  rw [hprev]
  rcases eq_nil_or_concat' l with rfl | ⟨l0, p, rfl⟩
  · split
    · next hcov =>
      refine .inl ⟨rfl, ?_⟩
      rintro (⟨a, ha, hle⟩ | hno)
      · have := hl' a (by simpa [hlist] using ha)
        omega
      · rw [hcov] at hno
        cases hno
    next hcov =>
      exact .inr ⟨[], l', by simpa using hlist, by simp [hlist], .inr (by simpa using hcov), by simp [Apart], hbehind⟩
  · have hp := hl p (by simp)
    have hjunk : JunkOk junk askStart askEnd sp := .inl ⟨p, by simp [hlist], hp⟩
    have hpne := hne p (by simp [hlist])
    have hl0 := (pairwise_append.1 (pairwise_append.1 hpair).1).2.2
    have hbefore : ∀ a ∈ l0, sp.hi a ≤ askStart := fun a ha => (hl0 a ha p mem_cons_self).trans hp
    have hnext : listNext p sp.list = l'.head? := by
      rw [hlist, append_assoc]
      refine listNext_append fun hp' => ?_
      exact (nodup_append.1 (nodup_append.1 hnodup).1).2.2 p hp' p (by simp) rfl
    rw [getLast?_concat]
    dsimp only
    right
    split
    · next hcov =>
      refine ⟨l0, p :: l', by rw [hlist, append_assoc]; rfl, rfl, hjunk, fun a ha => .inl (hbefore a ha), ?_⟩
      intro a ha
      rcases mem_cons.1 ha with rfl | ha
      · by_contra hle
        rw [(not_covered hpne hask).2 (.inl (not_lt.1 hle))] at hcov
        cases hcov
      · exact hbehind a ha
    next hcov =>
    refine ⟨l0 ++ [p], l', hlist, hnext, hjunk, fun a ha => ?_, hbehind⟩
    rw [mem_append, mem_singleton] at ha
    rcases ha with ha | rfl
    · exact .inl (hbefore a ha)
    · exact (not_covered hpne hask).1 (by simpa using hcov)

theorem filter_within_apart (h : Wf sp) (hlist : sp.list = l ++ l') (hapart : Apart sp.lo sp.hi l askStart askEnd) :
    sp.list.filter (sp.within askStart askEnd) = l'.filter (sp.within askStart askEnd) := by
  rw [hlist, filter_append, filter_eq_nil_iff.2, nil_append]
  intro b hb
  have hne := h.ordered.1 b (by simp [hlist, hb])
  have := hapart b hb
  simp only [Space.within, Bool.and_eq_true, decide_eq_true_eq]
  omega

/-- **The call**: it changes nothing, since the range is not valid or the head of the list is taken for an area in it;
or the loop cuts the range out of the areas, if `rbtree_delete` does not read through `NULL`. -/
theorem munmap_cases (h : Wf sp) (junk : Nat × Nat) (addr len : Nat) (hn : sp.list.length < n) :
    (¬ RangeOk addr len ∧ munmap n junk addr len sp = .ok (einval, sp)) ∨
    (RangeOk addr len ∧ ¬ JunkOk junk addr (u64 (addr + len)) sp ∧ munmap n junk addr len sp = .ok (0, sp)) ∨
    (RangeOk addr len ∧ JunkOk junk addr (u64 (addr + len)) sp ∧
      ((¬ Removable addr (u64 (addr + len)) sp ∧ munmap n junk addr len sp = .error .null) ∨
      (Removable addr (u64 (addr + len)) sp ∧ ∃ sp', munmap n junk addr len sp = .ok (0, sp') ∧
        Cleared addr (u64 (addr + len)) sp sp' ∧ ReflTransGen (Turn addr (u64 (addr + len))) sp sp'))) := by
  rw [munmap]
  split
  next halign => exact .inl ⟨fun hr => by rcases halign with hno | hno; exacts [hno hr.1, hno hr.2.1], rfl⟩
  split
  next hask => exact .inl ⟨fun hr => absurd hr.2.2 (not_lt.2 hask), rfl⟩
  next halign hask =>
  rw [not_or, not_ne_iff, not_ne_iff] at halign
  have hrange : RangeOk addr len := ⟨halign.1, halign.2, not_le.1 hask⟩
  rcases munmapFirst_spec h junk hrange.2.2 with ⟨hnone, hjunk⟩ | ⟨pre, rest, hlist, hfirst, hjunk, hpre, hrest⟩
  · rw [hnone]
    obtain ⟨n, rfl⟩ : ∃ k, n = k + 1 := ⟨n - 1, by omega⟩
    exact .inr (.inl ⟨hrange, hjunk, rfl⟩)
  have hlen : rest.length < n := by
    rw [hlist, length_append] at hn
    omega
  refine .inr (.inr ⟨hrange, hjunk, ?_⟩)
  rw [hfirst, Removable, filter_within_apart h hlist hpre]
  rcases munmapLoop_spec h hlist hrange.2.2 hpre hrest hlen hn with ⟨hnull, hno⟩ | ⟨hall, sp', hok, hc, hsteps⟩
  · rw [hnull]
    exact .inl ⟨hno, rfl⟩
  · rw [hok]
    exact .inr ⟨hall, sp', rfl, hc, hsteps⟩

theorem rangeOk_of_lt (ha : addr % 4096 = 0) (hl : len % 4096 = 0) (h0 : 0 < len) (hlt : addr + len < 2 ^ 64) :
    RangeOk addr len := by
  rw [RangeOk, u64_of_lt hlt]
  omega

/-- **`munmap` keeps a space well formed**, and a valid range meets no area afterwards. -/
theorem munmap_spec (h : Wf sp) (junk : Nat × Nat) (addr len : Nat) (hn : sp.list.length < n)
    (hrem : Unmaps junk addr len sp) : ∃ r sp', munmap n junk addr len sp = .ok (r, sp') ∧ Wf sp' ∧
      Inside sp sp' ∧ sp'.list.length ≤ sp.list.length + 1 ∧
      (addr % 4096 = 0 → len % 4096 = 0 → 0 < len → addr + len < 2 ^ 64 → JunkOk junk addr (addr + len) sp →
        Apart sp'.lo sp'.hi sp'.list addr (addr + len)) := by
  rcases munmap_cases h junk addr len hn with ⟨hno, hok⟩ | ⟨-, hjunk, hok⟩ |
    ⟨hrange, hjunk, ⟨hno, -⟩ | ⟨-, sp', hok, hc, -⟩⟩
  · exact ⟨_, sp, hok, h, .refl sp, by omega, fun ha hl h0 hlt _ => absurd (rangeOk_of_lt ha hl h0 hlt) hno⟩
  · refine ⟨_, sp, hok, h, .refl sp, by omega, fun _ _ _ hlt hj => ?_⟩
    rw [u64_of_lt hlt] at hjunk
    exact absurd hj hjunk
  · exact absurd (hrem hrange hjunk) hno
  refine ⟨_, sp', hok, hc.wf, hc.inside, hc.length, fun _ _ _ hlt _ => ?_⟩
  rw [← u64_of_lt hlt]
  exact hc.apart

end TextOS.Mman
