import TextOS.Lib.Run
import TextOS.Pmm.Zones

/-!
# Histories of allocations and frees

`Sys` adds to the allocator the ranges that are outstanding: returned by `pmm_allocpages` and not freed yet. `Inv` says
that the free list is well formed and that the outstanding ranges are disjoint from it and from each other; allocations
and frees of outstanding ranges keep it (`step_inv`).
-/

namespace TextOS.Pmm

open Lib List Option

variable {p' : State} {page num : Nat} {s : Sys}

/-- The allocator and the outstanding ranges. -/
structure Sys where
  pmm : State
  out : List (Nat × Nat)
deriving DecidableEq

inductive Op
  | alloc (num : Nat)
  | free (page num : Nat)

/-- One call; a range is outstanding when it was returned with a non-zero address. -/
def step (s : Sys) : Op → Option Sys
  | .alloc num => (pmmAllocpages s.pmm num).map fun r => ⟨r.2, if r.1 = 0 then s.out else (r.1, num) :: s.out⟩
  | .free page num => (pmmFreepages s.pmm page num).map fun p => ⟨p, s.out.erase (page, num)⟩

/-- At least one page is asked for, and only outstanding ranges are freed. -/
def Allowed (s : Sys) : Op → Prop
  | .alloc num => 1 ≤ num
  | .free page num => (page, num) ∈ s.out

instance (s : Sys) : DecidablePred (Allowed s)
  | .alloc num => inferInstanceAs (Decidable (1 ≤ num))
  | .free page num => decidable_of_iff (s.out.any (· == (page, num)) = true) (by simp [Allowed])

/-- The system at the start of a history. -/
def Sys.init (zs : List Zone) (pageFree : Nat) : Sys := ⟨⟨zs, pageFree⟩, []⟩

/-- The pages of an outstanding range. -/
abbrev rangeOf (r : Nat × Nat) : Set Nat := pageRange r.1 r.2

structure Inv (s : Sys) : Prop where
  ok : ZonesOk s.pmm.free
  pos : ∀ r ∈ s.out, 1 ≤ r.2
  lt : ∀ r ∈ s.out, r.1 + 4096 * r.2 < 2 ^ 64
  free : ∀ r ∈ s.out, Disjoint (freeSet s.pmm.free) (rangeOf r)
  out : s.out.Pairwise fun r r' => Disjoint (rangeOf r) (rangeOf r')

theorem init_inv {zs : List Zone} {pageFree : Nat} (h : ZonesOk zs) : Inv (Sys.init zs pageFree) :=
  ⟨h, by simp [Sys.init], by simp [Sys.init], by simp [Sys.init], by simp [Sys.init]⟩

/-! ## The two calls -/

theorem allocpages_cases {p p' : State} (h1 : 1 ≤ num) (hok : ZonesOk p.free)
    (h : pmmAllocpages p num = some (page, p')) : page = 0 ∧ p' = p ∨ Takes p.free page num p'.free ∧
      p'.pageFree = if page = 0 then p.pageFree else u64 (p.pageFree + 2 ^ 64 - num) := by
  simp only [pmmAllocpages, map_eq_some_iff, Prod.mk.injEq] at h
  obtain ⟨⟨q, l⟩, hl, rfl, rfl⟩ := h
  rcases allocLoop_spec h1 hok hl with ⟨rfl, rfl⟩ | ht
  · exact Or.inl ⟨rfl, by simp⟩
  · exact Or.inr ⟨ht, rfl⟩

section Free

variable {p : State} {page num : Nat} (hok : ZonesOk p.free) (h1 : 1 ≤ num) (hlt : page + 4096 * num < 2 ^ 64)
  (hd : Disjoint (freeSet p.free) (pageRange page num))
include hok h1 hlt hd

/-- Pages that do not end before the first zone are given back. -/
theorem freepages_gives (hal : page % 4096 = 0) {z : Zone} (hz : z ∈ p.free.head?)
    (hza : z.addr ≤ page + 4096 * num) :
    ∃ l', pmmFreepages p page num = some ⟨l', u64 (p.pageFree + num)⟩ ∧ Gives p.free page num l' := by
  have ha := apart_of_disjoint hok.1 (by omega) hd
  obtain ⟨l, pf⟩ := p
  cases l with
  | nil => simp at hz
  | cons n rest =>
    simp only [head?_cons, mem_some_iff] at hz
    subst hz
    obtain ⟨l', hl', hg⟩ := freeLoop_spec h1 hlt hok ha hza
    refine ⟨l', ?_, hg⟩
    simp only [pmmFreepages, u64_of_lt hlt, pmmIsfree_apart (by simp) hok ha, hl', hal, and_self, if_true,
      map_some]

/-- Every zone starts behind the end of the range: the zones stay as they are, or there is none and the kernel stops. -/
theorem freepages_below (hz : ∀ z ∈ p.free.head?, page + 4096 * num < z.addr)
    (h : pmmFreepages p page num = some p') : p'.free = p.free := by
  have ha := apart_of_disjoint hok.1 (by omega) hd
  obtain ⟨l, pf⟩ := p
  cases l with
  | nil => simp [pmmFreepages, pmmIsfree] at h
  | cons n rest =>
    have hb : ∀ z ∈ n :: rest, page + 4096 * num < z.addr := by
      intro z hz'
      have hn := hz n (by simp)
      rcases mem_cons.1 hz' with rfl | hz'
      · exact hn
      · exact hn.trans_le (hok.1.head_lt.le.trans (hok.1.head_le hz'))
    simp only [pmmFreepages, u64_of_lt hlt, freeLoop_below h1 (by simp) hok hb, map_some] at h
    split at h
    · simp only [some.injEq] at h
      rw [← h]
    · cases h

/-- Freed pages are given back, or nothing changes. -/
theorem freepages_cases (h : pmmFreepages p page num = some p') :
    p'.free = p.free ∨ Gives p.free page num p'.free := by
  by_cases hz : ∃ z ∈ p.free.head?, z.addr ≤ page + 4096 * num
  · obtain ⟨z, hz, hza⟩ := hz
    have hal : page % 4096 = 0 := by
      by_contra hal
      simp [pmmFreepages, hal] at h
    obtain ⟨l', hl', hg⟩ := freepages_gives hok h1 hlt hd hal hz hza
    rw [hl'] at h
    cases h
    exact Or.inr hg
  left
  refine freepages_below hok h1 hlt hd (fun z hz' => ?_) h
  by_contra hza
  exact hz ⟨z, hz', by omega⟩

end Free

/-! ## Histories -/

theorem Gives.disjoint {l l' : List Zone} {r : Nat × Nat} (hg : Gives l page num l')
    (hl : Disjoint (freeSet l) (rangeOf r)) (hr : Disjoint (pageRange page num) (rangeOf r)) :
    Disjoint (freeSet l') (rangeOf r) := by
  rw [hg.set, Set.disjoint_union_left]
  exact ⟨hl, hr⟩

/-- An allocation keeps the invariant. -/
theorem alloc_inv (hs : Inv s) (h1 : 1 ≤ num) (h : pmmAllocpages s.pmm num = some (page, p')) :
    Inv ⟨p', if page = 0 then s.out else (page, num) :: s.out⟩ := by
  rcases allocpages_cases h1 hs.ok h with ⟨rfl, rfl⟩ | ⟨ht, -⟩
  · simpa using hs
  have hfree : ∀ r ∈ s.out, Disjoint (freeSet p'.free) (rangeOf r) := by
    intro r hr
    refine (hs.free r hr).mono_left ?_
    rw [ht.split]
    exact Set.subset_union_left
  have hnew : ∀ r ∈ s.out, Disjoint (pageRange page num) (rangeOf r) := by
    intro r hr
    refine (hs.free r hr).mono_left ?_
    rw [ht.split]
    exact Set.subset_union_right
  split
  · exact ⟨ht.ok, hs.pos, hs.lt, hfree, hs.out⟩
  · exact ⟨ht.ok, forall_mem_cons.2 ⟨h1, hs.pos⟩, forall_mem_cons.2 ⟨ht.lt, hs.lt⟩,
      forall_mem_cons.2 ⟨ht.disj, hfree⟩, pairwise_cons.2 ⟨hnew, hs.out⟩⟩

/-- A release of pages that are out keeps the invariant. -/
theorem free_inv (hs : Inv s) (hmem : (page, num) ∈ s.out)
    (h : pmmFreepages s.pmm page num = some p') : Inv ⟨p', s.out.erase (page, num)⟩ := by
  have hsub : ∀ r ∈ s.out.erase (page, num), r ∈ s.out := fun r hr => mem_of_mem_erase hr
  have hdisj : ∀ r ∈ s.out.erase (page, num), Disjoint (pageRange page num) (rangeOf r) := by
    have hp := hs.out.perm (perm_cons_erase hmem) fun h => Disjoint.symm h
    exact (pairwise_cons.1 hp).1
  have hout := hs.out.sublist (erase_sublist (a := (page, num)))
  rcases freepages_cases hs.ok (hs.pos _ hmem) (hs.lt _ hmem) (hs.free _ hmem) h with he | hg
  · refine ⟨by rw [he]; exact hs.ok, fun r hr => hs.pos r (hsub r hr), fun r hr => hs.lt r (hsub r hr), ?_, hout⟩
    intro r hr
    rw [he]
    exact hs.free r (hsub r hr)
  · exact ⟨hg.ok, fun r hr => hs.pos r (hsub r hr), fun r hr => hs.lt r (hsub r hr),
      fun r hr => hg.disjoint (hs.free r (hsub r hr)) (hdisj r hr), hout⟩

theorem step_inv {s s' : Sys} {o : Op} (hs : Inv s) (ho : Allowed s o) (h : step s o = some s') : Inv s' := by
  cases o with
  | alloc num =>
    simp only [step, map_eq_some_iff] at h
    obtain ⟨⟨page, p'⟩, hp, rfl⟩ := h
    exact alloc_inv hs ho hp
  | free page num =>
    simp only [step, map_eq_some_iff] at h
    obtain ⟨p', hp, rfl⟩ := h
    exact free_inv hs ho hp

/-- **No page is handed out twice.** -/
theorem no_double_handout (zs : List Zone) (pageFree : Nat) (ops : List Op) (s : Sys) (hz : ZonesOk zs)
    (hm : Meets step Allowed (Sys.init zs pageFree) ops) (hr : run step (Sys.init zs pageFree) ops = some s) :
    ZonesOk s.pmm.free ∧ ∀ num page p', 1 ≤ num → pmmAllocpages s.pmm num = some (page, p') → page ≠ 0 →
      ∀ r ∈ s.out, Disjoint (pageRange page num) (pageRange r.1 r.2) := by
  have hs : Inv s := run_meets_inv (fun s o s' => step_inv) (init_inv hz) hm hr
  refine ⟨hs.ok, fun num page p' h1 h h0 r hr => ?_⟩
  have hi := alloc_inv hs h1 h
  rw [if_neg h0] at hi
  exact (pairwise_cons.1 hi.out).1 r hr

/-- A history of `no_double_handout`: two pages are taken and the second is given back. -/
theorem no_double_handout_three :
    ZonesOk [⟨2, 0x2000⟩] ∧ ∀ num page p', 1 ≤ num → pmmAllocpages ⟨[⟨2, 0x2000⟩], 2⟩ num = some (page, p') →
      page ≠ 0 → ∀ r ∈ [(0x1000, 1)], Disjoint (pageRange page num) (pageRange r.1 r.2) :=
  no_double_handout [⟨3, 0x1000⟩] 3 [.alloc 1, .alloc 1, .free 0x2000 1]
    ⟨⟨[⟨2, 0x2000⟩], 2⟩, [(0x1000, 1)]⟩ (by simp [zonesOk_cons, Zone.stop, freeSet, zonesOk_nil])
    (by decide) (by decide)

/-! ## The count of free pages -/

/-- A free reaches one of the branches of `pmm_freepages`: the first zone starts at or before the end of the range. -/
def Reaches (s : Sys) : Op → Prop
  | .alloc _ => True
  | .free page num => ∃ z ∈ s.pmm.free.head?, z.addr ≤ page + 4096 * num

instance (s : Sys) : DecidablePred (Reaches s) := fun o => by
  unfold Reaches
  cases o <;> infer_instance

/-- The counter is right, and no zone and no outstanding range starts at 0. -/
structure Counted (s : Sys) : Prop where
  inv : Inv s
  count : s.pmm.pageFree = sumPages s.pmm.free
  nonzero : 0 ∉ freeSet s.pmm.free
  out : ∀ r ∈ s.out, r.1 ≠ 0

/-- An allocation keeps the count. -/
theorem Counted.alloc (hs : Counted s) (h1 : 1 ≤ num) (h : pmmAllocpages s.pmm num = some (page, p')) :
    Counted ⟨p', if page = 0 then s.out else (page, num) :: s.out⟩ := by
  have hi := alloc_inv hs.inv h1 h
  rcases allocpages_cases h1 hs.inv.ok h with ⟨rfl, rfl⟩ | ⟨ht, hp⟩
  · simpa using hs
  have hpage : page ≠ 0 := by
    rintro rfl
    apply hs.nonzero
    rw [ht.split]
    exact Or.inr (page_mem_pageRange h1)
  have hsum := sumPages_le hs.inv.ok 0 (by simp) (by simp)
  simp only [if_neg hpage] at hi hp ⊢
  refine ⟨hi, ?_, fun h0 => hs.nonzero (by rw [ht.split]; exact Or.inl h0),
    forall_mem_cons.2 ⟨hpage, hs.out⟩⟩
  have := ht.sum
  rw [hp, hs.count, show sumPages s.pmm.free + 2 ^ 64 - num = sumPages p'.free + 2 ^ 64 by omega, u64,
    Nat.add_mod_right, Nat.mod_eq_of_lt (by omega)]

/-- A release keeps the count. -/
theorem Counted.free (hs : Counted s) (hmem : (page, num) ∈ s.out)
    (hz : ∃ z ∈ s.pmm.free.head?, z.addr ≤ page + 4096 * num) (h : pmmFreepages s.pmm page num = some p') :
    Counted ⟨p', s.out.erase (page, num)⟩ := by
  obtain ⟨z, hz, hza⟩ := hz
  have hi := free_inv hs.inv hmem h
  have hal : page % 4096 = 0 := by
    by_contra hal
    simp [pmmFreepages, hal] at h
  obtain ⟨l', hl', hg⟩ := freepages_gives hs.inv.ok (hs.inv.pos _ hmem) (hs.inv.lt _ hmem) (hs.inv.free _ hmem)
    hal hz hza
  rw [hl'] at h
  cases h
  have hsum := sumPages_le hi.ok 0 (by simp) (by simp)
  refine ⟨hi, ?_, ?_, fun r hr => hs.out r (mem_of_mem_erase hr)⟩
  · dsimp only at hsum ⊢
    rw [hs.count, ← hg.sum, u64_of_lt (show sumPages l' < 2 ^ 64 by omega)]
  rw [hg.set]
  rintro (h0 | h0)
  · exact hs.nonzero h0
  · exact hs.out _ hmem (Nat.le_zero.1 h0.1)

theorem step_counted {s s' : Sys} {o : Op} (hs : Counted s) (ho : Allowed s o ∧ Reaches s o)
    (h : step s o = some s') : Counted s' := by
  cases o with
  | alloc num =>
    simp only [step, map_eq_some_iff] at h
    obtain ⟨⟨page, p'⟩, hp, rfl⟩ := h
    exact hs.alloc ho.1 hp
  | free page num =>
    simp only [step, map_eq_some_iff] at h
    obtain ⟨p', hp, rfl⟩ := h
    exact hs.free ho.1 ho.2 hp

theorem freeSet_ne_union {l : List Zone} (h1 : 1 ≤ num)
    (hd : Disjoint (freeSet l) (pageRange page num)) : freeSet l ≠ freeSet l ∪ pageRange page num := by
  intro he
  have hp : page ∈ pageRange page num := page_mem_pageRange h1
  have : page ∈ freeSet l := by
    rw [he]
    exact Or.inr hp
  exact Set.disjoint_left.1 hd this hp

/-- **When freed pages become free again.** A page range that meets no zone is added to the free set iff the first
zone starts at or before the end of the range; and `page_free` is the number of free pages throughout every history
that starts with it, without a zone at address 0, and all of whose frees are of that kind. -/
theorem freepages_adds_iff (p : State) (page num : Nat) (hok : ZonesOk p.free) (h1 : 1 ≤ num)
    (hal : page % 4096 = 0) (hlt : page + 4096 * num < 2 ^ 64) (hd : Disjoint (freeSet p.free) (pageRange page num)) :
    ((∃ p', pmmFreepages p page num = some p' ∧ freeSet p'.free = freeSet p.free ∪ pageRange page num) ↔
      ∃ z ∈ p.free.head?, z.addr ≤ page + 4096 * num) ∧
    ∀ (zs : List Zone) (ops : List Op) (s : Sys), ZonesOk zs → (∀ z ∈ zs, z.addr ≠ 0) →
      Meets step (fun s o => Allowed s o ∧ Reaches s o) (Sys.init zs (sumPages zs)) ops →
      run step (Sys.init zs (sumPages zs)) ops = some s → s.pmm.pageFree = sumPages s.pmm.free := by
  refine ⟨⟨?_, ?_⟩, ?_⟩
  · rintro ⟨p', hp, hset⟩
    by_contra hz
    have := freepages_below hok h1 hlt hd (fun z hz' => by
      by_contra hza
      exact hz ⟨z, hz', by omega⟩) hp
    rw [this] at hset
    exact freeSet_ne_union h1 hd hset
  · rintro ⟨z, hz, hza⟩
    obtain ⟨l', hl', hg⟩ := freepages_gives hok h1 hlt hd hal hz hza
    exact ⟨_, hl', hg.set⟩
  intro zs ops s hzs h0 hm hr
  have hinit : Counted (Sys.init zs (sumPages zs)) := by
    refine ⟨init_inv hzs, rfl, ?_, by simp [Sys.init]⟩
    rintro ⟨z, hz, hz0, -⟩
    exact h0 z hz (Nat.le_zero.1 hz0)
  exact (run_meets_inv (fun s o s' => step_counted) hinit hm hr).count

/-- Both halves of `freepages_adds_iff` on three pages: the second page goes back in front of the third. -/
theorem freepages_adds_iff_three : (∃ p', pmmFreepages ⟨[⟨1, 0x3000⟩], 1⟩ 0x2000 1 = some p' ∧
      freeSet p'.free = freeSet [⟨1, 0x3000⟩] ∪ pageRange 0x2000 1) ∧
    (⟨[⟨2, 0x2000⟩], 2⟩ : State).pageFree = sumPages [⟨2, 0x2000⟩] := by
  have h := freepages_adds_iff ⟨[⟨1, 0x3000⟩], 1⟩ 0x2000 1
    (by simp [zonesOk_cons, Zone.stop, freeSet, zonesOk_nil]) (by decide) (by decide) (by decide)
    (by simp [freeSet, Zone.stop, pageRange])
  refine ⟨h.1.2 ⟨⟨1, 0x3000⟩, by simp, by decide⟩, ?_⟩
  exact h.2 [⟨3, 0x1000⟩] [.alloc 1, .alloc 1, .free 0x2000 1] ⟨⟨[⟨2, 0x2000⟩], 2⟩, [(0x1000, 1)]⟩
    (by simp [zonesOk_cons, Zone.stop, freeSet, zonesOk_nil]) (by simp) (by decide) (by decide)

/-- **Freed pages get lost.** Of three pages two are taken: giving back the first, below what is left, changes the
counter but no zone; of one page one is taken: giving it back to the empty list stops the kernel. -/
theorem freepages_drops : ¬ (∀ zs ops s page num, ZonesOk zs → Meets step Allowed (Sys.init zs (sumPages zs)) ops →
        run step (Sys.init zs (sumPages zs)) ops = some s → (page, num) ∈ s.out →
        ∃ p', pmmFreepages s.pmm page num = some p' ∧ freeSet p'.free = freeSet s.pmm.free ∪ pageRange page num) ∧
    ¬ (∀ zs ops s, ZonesOk zs → Meets step Allowed (Sys.init zs (sumPages zs)) ops →
        run step (Sys.init zs (sumPages zs)) ops = some s → s.pmm.pageFree = sumPages s.pmm.free) ∧
    ZonesOk [⟨1, 0x1000⟩] ∧ run step (Sys.init [⟨1, 0x1000⟩] 1) [.alloc 1] = some ⟨⟨[], 0⟩, [(0x1000, 1)]⟩ ∧
    pmmFreepages ⟨[], 0⟩ 0x1000 1 = none := by
  have hok : ZonesOk [⟨3, 0x1000⟩] := by simp [zonesOk_cons, Zone.stop, freeSet, zonesOk_nil]
  refine ⟨fun h => ?_, fun h => ?_, by simp [zonesOk_cons, Zone.stop, freeSet, zonesOk_nil], by decide, by decide⟩
  · obtain ⟨p', hp, hset⟩ := h [⟨3, 0x1000⟩] [.alloc 1, .alloc 1] ⟨⟨[⟨1, 0x3000⟩], 1⟩, [(0x2000, 1), (0x1000, 1)]⟩
      0x1000 1 hok (by decide) (by decide) (by simp)
    have hp' : pmmFreepages ⟨[⟨1, 0x3000⟩], 1⟩ 0x1000 1 = some ⟨[⟨1, 0x3000⟩], 2⟩ := by decide
    rw [hp', some.injEq] at hp
    subst hp
    exact freeSet_ne_union (by decide) (by simp [freeSet, Zone.stop, pageRange]) hset
  · have := h [⟨3, 0x1000⟩] [.alloc 1, .alloc 1, .free 0x1000 1] ⟨⟨[⟨1, 0x3000⟩], 2⟩, [(0x2000, 1)]⟩ hok
      (by decide) (by decide)
    simp at this

end TextOS.Pmm
