import TextOS.Lib.Intervals
import TextOS.Pmm.Defs

/-!
# One call of the physical page allocator

`ZonesOk` is the well-formedness of the free list: non-empty zones, in address order, disjoint, inside the address
space. `freeSet` is the set of free addresses and `sumPages` the number of pages of the zones.
-/

namespace TextOS.Pmm

open Lib List Option Set

variable {num : Nat}

/-- Non-empty zones in address order, disjoint and inside the address space. -/
def ZonesOk (l : List Zone) : Prop := Ordered Zone.addr Zone.stop l ∧ ∀ z ∈ l, z.stop < 2 ^ 64

/-- The free addresses. -/
def freeSet (l : List Zone) : Set Nat := cover Zone.addr Zone.stop l

/-- The number of pages of the zones. -/
def sumPages (l : List Zone) : Nat := (l.map Zone.pages).sum

/-- The addresses of `num` pages from `page` on. -/
def pageRange (page num : Nat) : Set Nat := Set.Ico page (page + 4096 * num)

@[simp] theorem sumPages_nil : sumPages [] = 0 := rfl

@[simp] theorem sumPages_cons (z : Zone) (l : List Zone) : sumPages (z :: l) = z.pages + sumPages l := by
  simp [sumPages]

@[simp] theorem freeSet_cons (z : Zone) (l : List Zone) :
    freeSet (z :: l) = Set.Ico z.addr z.stop ∪ freeSet l := cover_cons z l

theorem zonesOk_nil : ZonesOk [] := ⟨ordered_nil, by simp⟩

theorem zonesOk_cons {z : Zone} {l : List Zone} :
    ZonesOk (z :: l) ↔ z.addr < z.stop ∧ z.stop < 2 ^ 64 ∧ (∀ a ∈ freeSet l, z.stop ≤ a) ∧ ZonesOk l := by
  simp only [ZonesOk, ordered_cons_iff, forall_mem_cons, freeSet]
  tauto

theorem ZonesOk.tail {z : Zone} {l : List Zone} (h : ZonesOk (z :: l)) : ZonesOk l := (zonesOk_cons.1 h).2.2.2

theorem page_mem_pageRange {page num : Nat} (hn : 1 ≤ num) : page ∈ pageRange page num := by
  simp only [pageRange, mem_Ico]
  omega

/-- The pages of the zones fit between the first zone and the end of the address space. -/
theorem sumPages_le {l : List Zone} (h : ZonesOk l) : ∀ a, (∀ b ∈ freeSet l, a ≤ b) → a ≤ 2 ^ 64 →
    a + 4096 * sumPages l ≤ 2 ^ 64 := by
  induction l with
  | nil => intro a _ ha; simpa using ha
  | cons z l ih =>
    intro a hb _
    obtain ⟨hlt, hstop, hle, hl⟩ := zonesOk_cons.1 h
    have hz : a ≤ z.addr := hb _ (by rw [freeSet_cons]; exact Or.inl ⟨le_rfl, hlt⟩)
    have := ih hl z.stop hle hstop.le
    rw [sumPages_cons]
    unfold Zone.stop at this
    omega

/-! ## Allocation -/

/-- The zone that is left when the first `num` pages are taken. -/
theorem stop_rest {n : Zone} (h : num ≤ n.pages) (hs : n.stop < 2 ^ 64) :
    Zone.stop ⟨n.pages - num, u64 (n.addr + 4096 * num)⟩ = n.stop := by
  unfold Zone.stop at hs ⊢
  rw [u64_of_lt (show n.addr + 4096 * num < 2 ^ 64 by omega)]
  dsimp only
  omega

/-- What an allocation that finds a zone does to the free list. -/
structure Takes (l : List Zone) (page num : Nat) (l' : List Zone) : Prop where
  ok : ZonesOk l'
  split : freeSet l = freeSet l' ∪ pageRange page num
  disj : Disjoint (freeSet l') (pageRange page num)
  lt : page + 4096 * num < 2 ^ 64
  sum : sumPages l = sumPages l' + num

theorem takes_exact {n : Zone} {rest : List Zone} (h : ZonesOk (n :: rest)) (hn : n.pages = num) :
    Takes (n :: rest) n.addr num rest := by
  obtain ⟨hlt, hstop, hle, hl⟩ := zonesOk_cons.1 h
  have hr : Set.Ico n.addr n.stop = pageRange n.addr num := by rw [pageRange, ← hn]; rfl
  refine ⟨hl, by rw [freeSet_cons, hr, union_comm], ?_, by rw [← hn]; exact hstop, ?_⟩
  · rw [← hr, Set.disjoint_left]
    intro a ha hra
    exact absurd (hle a ha) (not_le.2 hra.2)
  · rw [sumPages_cons, hn, Nat.add_comm]

/-- Pages from the front of a larger zone. -/
theorem takes_front {n : Zone} {rest : List Zone} (h : ZonesOk (n :: rest)) (h1 : 1 ≤ num) (hn : num < n.pages) :
    Takes (n :: rest) n.addr num (⟨n.pages - num, u64 (n.addr + 4096 * num)⟩ :: rest) := by
  obtain ⟨hlt, hstop, hle, hl⟩ := zonesOk_cons.1 h
  have hs := stop_rest hn.le hstop
  have hmid : n.addr + 4096 * num < n.stop := by unfold Zone.stop; omega
  have hu : u64 (n.addr + 4096 * num) = n.addr + 4096 * num := u64_of_lt (hmid.trans hstop)
  refine ⟨zonesOk_cons.2 ⟨?_, ?_, ?_, hl⟩, ?_, ?_, by omega, ?_⟩
  · rw [hs]; dsimp only; rw [hu]; exact hmid
  · rw [hs]; exact hstop
  · rw [hs]; exact hle
  · rw [freeSet_cons, freeSet_cons, hs]
    rw [hu, pageRange, union_right_comm, union_comm (Set.Ico (n.addr + 4096 * num) n.stop),
      Set.Ico_union_Ico_eq_Ico (by omega) hmid.le]
  · rw [freeSet_cons, hs, Set.disjoint_left]
    rw [hu]
    rintro a (ha | ha) hra
    · exact absurd ha.1 (not_le.2 hra.2)
    · exact absurd (hle a ha) (not_le.2 (hra.2.trans hmid))
  · simp only [sumPages_cons]
    omega

theorem Takes.cons {n : Zone} {rest rest' : List Zone} {page num : Nat} (h : ZonesOk (n :: rest))
    (ht : Takes rest page num rest') : Takes (n :: rest) page num (n :: rest') := by
  obtain ⟨hlt, hstop, hle, hl⟩ := zonesOk_cons.1 h
  refine ⟨zonesOk_cons.2 ⟨hlt, hstop, ?_, ht.ok⟩, ?_, ?_, ht.lt, ?_⟩
  · intro a ha
    exact hle a (by rw [ht.split]; exact Or.inl ha)
  · rw [freeSet_cons, freeSet_cons, ht.split, union_assoc]
  · rw [freeSet_cons, disjoint_union_left]
    refine ⟨?_, ht.disj⟩
    rw [Set.disjoint_left]
    intro a ha hra
    exact absurd (hle a (by rw [ht.split]; exact Or.inr hra)) (not_le.2 ha.2)
  · simp only [sumPages_cons, ht.sum, Nat.add_assoc]

/-- **Allocation**: nothing happens, or exactly the returned range leaves the free set. -/
theorem allocLoop_spec (h1 : 1 ≤ num) : ∀ {l l' : List Zone} {page : Nat}, ZonesOk l →
    allocLoop num l = some (page, l') → page = 0 ∧ l' = l ∨ Takes l page num l' := by
  intro l
  induction l with
  | nil => intro l' page _ h; simp [allocLoop] at h
  | cons n rest ih =>
    intro l' page hok h
    unfold allocLoop at h
    split at h
    · rename_i hfit
      right
      split at h
      · obtain ⟨rfl, rfl⟩ := h
        exact takes_exact hok (by omega)
      · obtain ⟨rfl, rfl⟩ := h
        exact takes_front hok h1 (by omega)
    cases rest with
    | nil =>
      simp only [some.injEq, Prod.mk.injEq] at h
      exact Or.inl ⟨h.1.symm, h.2.symm⟩
    | cons m rest =>
      simp only [map_eq_some_iff, Prod.mk.injEq] at h
      obtain ⟨⟨p, r⟩, hr, rfl, rfl⟩ := h
      rcases ih hok.tail hr with ⟨hp, hl⟩ | ht
      · exact Or.inl ⟨hp, congrArg _ hl⟩
      · exact Or.inr (ht.cons hok)

/-! ## Freeing -/

/-- What freeing a range should do to the free list. -/
structure Gives (l : List Zone) (page num : Nat) (l' : List Zone) : Prop where
  ok : ZonesOk l'
  set : freeSet l' = freeSet l ∪ pageRange page num
  sum : sumPages l' = sumPages l + num

/-- No zone meets the range. -/
abbrev ApartFrom (l : List Zone) (page num : Nat) : Prop := Apart Zone.addr Zone.stop l page (page + 4096 * num)

section Free

variable {page num : Nat} (h1 : 1 ≤ num) (hlt : page + 4096 * num < 2 ^ 64)
include h1 hlt

omit hlt in
/-- Pages given back right in front of a zone. -/
theorem gives_front {n : Zone} {rest : List Zone} (h : ZonesOk (n :: rest)) (hn : n.addr = page + 4096 * num) :
    Gives (n :: rest) page num (⟨u64 (n.pages + num), page⟩ :: rest) := by
  obtain ⟨hle, hstop, hb, hl⟩ := zonesOk_cons.1 h
  have hu : u64 (n.pages + num) = n.pages + num := u64_of_lt (by unfold Zone.stop at hstop; omega)
  have hs : Zone.stop ⟨u64 (n.pages + num), page⟩ = n.stop := by
    unfold Zone.stop
    dsimp only
    omega
  refine ⟨zonesOk_cons.2 ⟨?_, hs ▸ hstop, hs ▸ hb, hl⟩, ?_, ?_⟩
  · rw [hs]; dsimp only; omega
  · rw [freeSet_cons, freeSet_cons, hs, union_right_comm, union_comm (Set.Ico n.addr n.stop), hn, pageRange,
      Set.Ico_union_Ico_eq_Ico (by omega) (by omega)]
  · simp only [sumPages_cons, hu]
    omega

/-- Pages given back right behind a zone. -/
theorem gives_back {n : Zone} {rest : List Zone} (h : ZonesOk (n :: rest)) (ha : ApartFrom rest page num)
    (hn : n.stop = page) : Gives (n :: rest) page num (⟨u64 (n.pages + num), n.addr⟩ :: rest) := by
  obtain ⟨hle, hstop, hb, hl⟩ := zonesOk_cons.1 h
  have hu : u64 (n.pages + num) = n.pages + num := u64_of_lt (by unfold Zone.stop at hn; omega)
  have hs : Zone.stop ⟨u64 (n.pages + num), n.addr⟩ = page + 4096 * num := by
    unfold Zone.stop at hn ⊢
    dsimp only
    omega
  refine ⟨zonesOk_cons.2 ⟨?_, by rw [hs]; exact hlt, ?_, hl⟩, ?_, ?_⟩
  · rw [hs]; dsimp only; omega
  · rintro a ⟨z, hz, hza, haz⟩
    -- a zone of the rest starts behind `n`, so it cannot end before the range
    have hz' := hb z.addr (hl.1.lo_mem_cover hz)
    have := hl.1.1 z hz
    rcases ha z hz with h | h <;> omega
  · rw [freeSet_cons, freeSet_cons, hs, union_right_comm, hn, pageRange,
      Set.Ico_union_Ico_eq_Ico (by omega) (by omega)]
  · simp only [sumPages_cons, hu]
    omega

/-- The range lies strictly between the first zone and the rest: it becomes a zone of its own. -/
theorem gives_between {n : Zone} {rest : List Zone} (h : ZonesOk (n :: rest)) (hn : n.stop < page)
    (hr : ∀ m ∈ rest.head?, page + 4096 * num < m.addr) : Gives (n :: rest) page num (n :: ⟨num, page⟩ :: rest) := by
  obtain ⟨hle, hstop, hb, hl⟩ := zonesOk_cons.1 h
  have hs : Zone.stop ⟨num, page⟩ = page + 4096 * num := rfl
  have hrest : ∀ a ∈ freeSet rest, page + 4096 * num ≤ a := by
    cases rest with
    | nil => intro a ha; exact absurd ha (by simp [freeSet])
    | cons m rest =>
      have hm := hr m (by simp)
      obtain ⟨hmlt, -, hmb, -⟩ := zonesOk_cons.1 hl
      intro a ha
      rw [freeSet_cons] at ha
      rcases ha with ha | ha
      · exact hm.le.trans ha.1
      · exact hm.le.trans (hmlt.le.trans (hmb a ha))
  refine ⟨zonesOk_cons.2 ⟨hle, hstop, ?_, zonesOk_cons.2 ⟨?_, by rw [hs]; exact hlt, ?_, hl⟩⟩, ?_, ?_⟩
  · intro a ha
    rw [freeSet_cons, hs] at ha
    rcases ha with ha | ha
    · exact hn.le.trans ha.1
    · exact hb a ha
  · rw [hs]; dsimp only; omega
  · rw [hs]; exact hrest
  · rw [freeSet_cons, freeSet_cons, freeSet_cons, hs, pageRange]
    rw [union_comm (Set.Ico page _), union_assoc]
  · simp only [sumPages_cons]
    omega

omit h1 hlt in
theorem Gives.cons {n : Zone} {rest rest' : List Zone} (h : ZonesOk (n :: rest)) (hn : n.stop < page)
    (hg : Gives rest page num rest') : Gives (n :: rest) page num (n :: rest') := by
  obtain ⟨hle, hstop, hb, hl⟩ := zonesOk_cons.1 h
  refine ⟨zonesOk_cons.2 ⟨hle, hstop, ?_, hg.ok⟩, ?_, ?_⟩
  · intro a ha
    rw [hg.set] at ha
    rcases ha with ha | ha
    · exact hb a ha
    · exact hn.le.trans ha.1
  · rw [freeSet_cons, freeSet_cons, hg.set, union_assoc]
  · simp only [sumPages_cons, hg.sum]
    omega

/-- **Freeing a range that ends at or behind the start of the first zone adds it.** -/
theorem freeLoop_spec {n : Zone} {rest : List Zone} (hok : ZonesOk (n :: rest)) (ha : ApartFrom (n :: rest) page num)
    (hn : n.addr ≤ page + 4096 * num) :
    ∃ l', freeLoop page (page + 4096 * num) num (n :: rest) = some l' ∧ Gives (n :: rest) page num l' := by
  obtain ⟨hle, hstop, -, hl⟩ := zonesOk_cons.1 hok
  unfold freeLoop
  rw [u64_of_lt hstop]
  split
  · rename_i heq
    exact ⟨_, rfl, gives_front h1 hok heq⟩
  -- not behind the range, so before it
  have hbefore : n.stop ≤ page := (ha n mem_cons_self).resolve_right (by omega)
  split
  · rename_i heq
    exact ⟨_, rfl, gives_back h1 hlt hok ha.tail heq⟩
  split
  · rename_i h
    exact ⟨_, rfl, gives_between h1 hlt hok h.1 h.2⟩
  rename_i hne hnb
  cases rest with
  | nil => exact absurd ⟨by omega, by simp⟩ hnb
  | cons m rest =>
    -- the next zone starts at or before the end of the range: the loop goes on
    have hm : m.addr ≤ page + 4096 * num := by
      by_contra hm
      exact hnb ⟨by omega, by simp; omega⟩
    obtain ⟨l', hl', hg⟩ := freeLoop_spec hl ha.tail hm
    exact ⟨n :: l', by simp [hl'], hg.cons hok (by omega)⟩

omit hlt in
/-- **A range that ends below the first zone is dropped**: no branch of the loop is taken at any zone. -/
theorem freeLoop_below : ∀ {l : List Zone}, l ≠ [] → ZonesOk l → (∀ z ∈ l, page + 4096 * num < z.addr) →
    freeLoop page (page + 4096 * num) num l = some l := by
  intro l
  induction l with
  | nil => intro h; exact absurd rfl h
  | cons n rest ih =>
    intro _ hok hb
    obtain ⟨hle, hstop, -, hl⟩ := zonesOk_cons.1 hok
    have hn := hb n mem_cons_self
    unfold freeLoop
    rw [u64_of_lt hstop, if_neg (by omega), if_neg (by omega), if_neg (by omega)]
    cases rest with
    | nil => rfl
    | cons m rest => simp [ih (by simp) hl (fun z hz => hb z (mem_cons_of_mem _ hz))]

omit h1 hlt in
/-- `_pmm_isfree` answers no for a range that no zone meets. -/
theorem pmmIsfree_apart : ∀ {l : List Zone}, l ≠ [] → ZonesOk l → ApartFrom l page num →
    pmmIsfree page (page + 4096 * num) l = some false := by
  intro l
  induction l with
  | nil => intro h; exact absurd rfl h
  | cons n rest ih =>
    intro _ hok ha
    obtain ⟨hle, hstop, -, hl⟩ := zonesOk_cons.1 hok
    have hn := ha n mem_cons_self
    unfold pmmIsfree
    rw [u64_of_lt hstop, if_neg (by omega)]
    cases rest with
    | nil => rfl
    | cons m rest => exact ih (by simp) hl ha.tail

end Free

end TextOS.Pmm
