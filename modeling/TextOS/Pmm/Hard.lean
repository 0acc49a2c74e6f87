import TextOS.Lib.Path
import TextOS.Pmm.Zones

/-!
# Reserving a physical range: `pmm_allochard`

The loop works on the nodes of the list themselves, with `prev` trailing behind `n`: here the nodes are a table of
`free_t`, linked by addresses with 0 for `NULL`, and `_free` is the node at `head`. `alloc0` is a parameter: the kernel
calls `pmm_allochard` before `__pmm_tovmm`, where a new node lies in its zone (`allocEarly`), and `delete0` does nothing
to the links in either mode.

- **What the loop leaves of the zones** (`hardLoop_trailing`): after a zone was unlinked, `prev` is the node itself, so
  that no other zone is.
- **The range is reserved if and only if it covers at most one zone entirely** (`allochard_reserves`, with the case of a
  range that wraps around); of two covered zones the second stays free (`allochard_keeps_second`).
-/

namespace TextOS.Pmm

open Lib List Function Set

/-- `free_t` with its link. -/
structure Node where
  pages : Nat
  addr : Nat
  next : Nat
deriving DecidableEq

/-- The nodes by their addresses. -/
abbrev Nodes := Nat → Node

/-- `n->next = q`. -/
def Nodes.setNext (m : Nodes) (n q : Nat) : Nodes := update m n { m n with next := q }

/-- `n->pages = k`. -/
def Nodes.setPages (m : Nodes) (n k : Nat) : Nodes := update m n { m n with pages := k }

/-- `alloc_early`, which is also `alloc0` before `__pmm_tovmm`. -/
def allocEarly (prev num : Nat) : Nat := prev + 4096 * num

/-- The body of the `for` of `pmm_allochard`. -/
def hardBody (alloc0 : Nat → Nat → Nat) (start stop : Nat) (m : Nodes) (n prev : Nat) : Nodes :=
  let phyStart := (m n).addr
  let phyEnd := u64 ((m n).addr + 4096 * (m n).pages)
  if phyEnd ≤ start ∨ stop ≤ phyStart then m
  else if phyStart < start ∧ stop < phyEnd then
    let m₁ := m.setPages n ((start - phyStart) / 4096)
    let new := alloc0 n (m₁ n).pages
    let m₂ : Nodes := update m₁ new ⟨(phyEnd - stop) / 4096, stop, (m₁ n).next⟩
    m₂.setNext n new
  else if start ≤ phyStart ∧ phyEnd ≤ stop then m.setNext prev (m n).next
  else if phyStart < start ∧ start < phyEnd then m.setPages n ((start - phyStart) / 4096)
  else if phyStart < stop ∧ stop < phyEnd then update m n ⟨(phyEnd - stop) / 4096, stop, (m n).next⟩
  else m

/-- The `for` of `pmm_allochard`, given a number of rounds; `none` when they do not suffice. -/
def hardLoop (alloc0 : Nat → Nat → Nat) (start stop : Nat) : Nat → Nodes → Nat → Nat → Option Nodes
  | 0, _, _, _ => none
  | k + 1, m, n, prev =>
    if n = 0 then some m
    else
      let m' := hardBody alloc0 start stop m n prev
      hardLoop alloc0 start stop k m' (m' n).next (m' prev).next

def pmmAllochard (alloc0 : Nat → Nat → Nat) (k : Nat) (m : Nodes) (head page num : Nat) : Option Nodes :=
  if page % 4096 = 0 then
    if num = 0 then some m else hardLoop alloc0 page (u64 (page + 4096 * num)) k m (m head).next head
  else none

/-! ## The list of nodes and its zones -/

/-- From `head` the links lead through the nodes `ps` to `NULL`. -/
def IsFree (m : Nodes) (head : Nat) (ps : List Nat) : Prop := Path (fun p => (m p).next) 0 head (head :: ps)

/-- The zone a node describes. -/
def zoneAt (m : Nodes) (p : Nat) : Zone := ⟨(m p).pages, (m p).addr⟩

def zonesAt (m : Nodes) (ps : List Nat) : List Zone := ps.map (zoneAt m)

@[simp] theorem zonesAt_nil (m : Nodes) : zonesAt m [] = [] := rfl

@[simp] theorem zonesAt_cons (m : Nodes) (p : Nat) (ps : List Nat) :
    zonesAt m (p :: ps) = zoneAt m p :: zonesAt m ps := rfl

/-- The range covers the zone entirely. -/
def Covered (start stop : Nat) (z : Zone) : Prop := start ≤ z.addr ∧ z.stop ≤ stop
deriving Decidable

/-- What should be left of the zone outside of the range. -/
def cut (start stop : Nat) (z : Zone) : List Zone :=
  if z.stop ≤ start ∨ stop ≤ z.addr then [z]
  else
    (if z.addr < start then [⟨(start - z.addr) / 4096, z.addr⟩] else []) ++
      if stop < z.stop then [⟨(z.stop - stop) / 4096, stop⟩] else []

/-- What is left of the zone when `prev` is the node itself. -/
def keep (start stop : Nat) (z : Zone) : List Zone := if Covered start stop z then [z] else cut start stop z

/-- What is left of the zones: once a node was unlinked, `prev` and `n` are the same. -/
def leave (start stop : Nat) : List Zone → List Zone
  | [] => []
  | z :: zs => if Covered start stop z then zs.flatMap (keep start stop) else cut start stop z ++ leave start stop zs

/-- A zone of whole pages inside the address space. -/
structure Fits (z : Zone) : Prop where
  pos : z.addr < z.stop
  lt : z.stop < 2 ^ 64
  page : z.addr % 4096 = 0

theorem Fits.stop_mod {z : Zone} (h : Fits z) : z.stop % 4096 = 0 := by
  have := h.page
  unfold Zone.stop
  omega

variable {alloc0 : Nat → Nat → Nat} {start stop : Nat} {m m' : Nodes} {n prev p q : Nat} {ps : List Nat} {z : Zone}
  {zs : List Zone}

/-! ## Cutting zones, as sets -/

theorem freeSet_append (l l' : List Zone) : freeSet (l ++ l') = freeSet l ∪ freeSet l' := cover_append l l'

theorem stop_low (hz : Fits z) (hs : start % 4096 = 0) (h : z.addr < start) :
    Zone.stop ⟨(start - z.addr) / 4096, z.addr⟩ = start := by
  have := hz.page
  show z.addr + 4096 * ((start - z.addr) / 4096) = start
  omega

theorem stop_high (hz : Fits z) (ht : stop % 4096 = 0) (h : stop < z.stop) :
    Zone.stop ⟨(z.stop - stop) / 4096, stop⟩ = z.stop := by
  have := hz.stop_mod
  show stop + 4096 * ((z.stop - stop) / 4096) = z.stop
  omega

/-- What is left of a zone are its addresses outside the range. -/
theorem freeSet_cut (hz : Fits z) (hs : start % 4096 = 0) (ht : stop % 4096 = 0) :
    freeSet (cut start stop z) = Set.Ico z.addr z.stop \ Set.Ico start stop := by
  ext a
  simp only [mem_sdiff, mem_Ico]
  unfold cut
  split
  · simp only [freeSet, cover_cons, cover_nil, union_empty, mem_Ico]
    omega
  rw [freeSet_append, mem_union]
  have hlow : a ∈ freeSet (if z.addr < start then [⟨(start - z.addr) / 4096, z.addr⟩] else []) ↔
      z.addr ≤ a ∧ a < start := by
    split
    · next h => simp [freeSet, stop_low hz hs h]
    · simp only [freeSet, cover_nil, mem_empty_iff_false, false_iff]
      omega
  have hhigh : a ∈ freeSet (if stop < z.stop then [⟨(z.stop - stop) / 4096, stop⟩] else []) ↔
      stop ≤ a ∧ a < z.stop := by
    split
    · next h => simp [freeSet, stop_high hz ht h]
    · simp only [freeSet, cover_nil, mem_empty_iff_false, false_iff]
      omega
  rw [hlow, hhigh]
  omega

/-- What is left of a zone is in order. -/
theorem zonesOk_cut (hz : Fits z) (hs : start % 4096 = 0) (ht : stop % 4096 = 0) (hst : start < stop) :
    ZonesOk (cut start stop z) ∧ ∀ y ∈ cut start stop z, y.stop ≤ z.stop := by
  have hpos := hz.pos
  have hlt := hz.lt
  unfold cut
  split
  · exact ⟨zonesOk_cons.2 ⟨hpos, hlt, by simp [freeSet], zonesOk_nil⟩, by simp⟩
  split
  · next hl =>
    have hlow := stop_low hz hs hl
    split
    · next hh =>
      have hhigh := stop_high hz ht hh
      simp only [cons_append, nil_append, zonesOk_cons, zonesOk_nil, freeSet, cover_cons, cover_nil, hlow,
        hhigh, union_empty, mem_Ico, mem_empty_iff_false, false_imp_iff, implies_true, and_true,
        forall_mem_cons, not_mem_nil, le_refl]
      exact ⟨⟨hl, by omega, fun a ha => by omega, hh, hlt⟩, by omega⟩
    simp only [append_nil, zonesOk_cons, zonesOk_nil, freeSet, cover_nil, hlow, mem_empty_iff_false,
      false_imp_iff, implies_true, and_true, forall_mem_cons, not_mem_nil]
    omega
  · split
    · next hh =>
      have hhigh := stop_high hz ht hh
      simp only [nil_append, zonesOk_cons, zonesOk_nil, freeSet, cover_nil, hhigh, mem_empty_iff_false,
        false_imp_iff, implies_true, and_true, forall_mem_cons, not_mem_nil, le_refl]
      exact ⟨hh, hlt⟩
    · exact ⟨zonesOk_nil, by simp⟩

theorem zonesOk_append {l l' : List Zone} (h : ZonesOk l) (h' : ZonesOk l')
    (hb : ∀ y ∈ l, ∀ a ∈ freeSet l', y.stop ≤ a) : ZonesOk (l ++ l') := by
  induction l with
  | nil => exact h'
  | cons y l ih =>
    obtain ⟨hpos, hlt, hle, hl⟩ := zonesOk_cons.1 h
    refine zonesOk_cons.2 ⟨hpos, hlt, fun a ha => ?_, ih hl fun x hx => hb x (mem_cons_of_mem y hx)⟩
    change a ∈ freeSet (l ++ l') at ha
    rw [freeSet_append] at ha
    rcases ha with ha | ha
    · exact hle a ha
    · exact hb y mem_cons_self a ha

/-- **Cutting every zone takes exactly the range out of the free set.** -/
theorem freeSet_flatMap_cut (hok : ZonesOk zs) (hf : ∀ z ∈ zs, Fits z) (hs : start % 4096 = 0) (ht : stop % 4096 = 0)
    (hst : start < stop) : ZonesOk (zs.flatMap (cut start stop)) ∧
      freeSet (zs.flatMap (cut start stop)) = freeSet zs \ Set.Ico start stop := by
  induction zs with
  | nil => exact ⟨zonesOk_nil, by simp [freeSet]⟩
  | cons z zs ih =>
    obtain ⟨-, -, hle, hl⟩ := zonesOk_cons.1 hok
    obtain ⟨hok', hset⟩ := ih hl fun y hy => hf y (mem_cons_of_mem z hy)
    have hz := hf z mem_cons_self
    obtain ⟨hc, hcle⟩ := zonesOk_cut hz hs ht hst
    rw [flatMap_cons]
    constructor
    · refine zonesOk_append hc hok' fun y hy a ha => ?_
      rw [hset] at ha
      exact (hcle y hy).trans (hle a ha.1)
    · rw [freeSet_append, freeSet_cut hz hs ht, hset, freeSet_cons, union_sdiff_distrib]

/-! ## One round -/

section Round

variable (hz : Fits (zoneAt m n))
include hz

theorem phyEnd_eq : u64 ((m n).addr + 4096 * (m n).pages) = (zoneAt m n).stop := u64_of_lt hz.lt

theorem hardBody_skip (h : (zoneAt m n).stop ≤ start ∨ stop ≤ (zoneAt m n).addr) :
    hardBody alloc0 start stop m n prev = m := by
  unfold hardBody
  rw [phyEnd_eq hz]
  exact if_pos h

theorem hardBody_covered (h : Covered start stop (zoneAt m n)) :
    hardBody alloc0 start stop m n prev = m.setNext prev (m n).next := by
  obtain ⟨h1, h2⟩ := h
  have hpos := hz.pos
  have ha : (zoneAt m n).addr = (m n).addr := rfl
  unfold hardBody
  rw [phyEnd_eq hz]
  rw [if_neg (by omega), if_neg (by omega), if_pos (by omega)]

/-- A zone of which one part is left is changed in place. -/
theorem hardBody_trim {y : Zone} (h : cut start stop (zoneAt m n) = [y]) :
    hardBody alloc0 start stop m n prev = update m n ⟨y.pages, y.addr, (m n).next⟩ := by
  have ha : (zoneAt m n).addr = (m n).addr := rfl
  unfold cut at h
  split at h
  · next hskip =>
    obtain rfl : zoneAt m n = y := by simpa using h
    rw [hardBody_skip hz hskip]
    exact (update_eq_self n m).symm
  next hmeet =>
  unfold hardBody
  rw [phyEnd_eq hz]
  rw [if_neg (by rwa [ha] at hmeet)]
  split at h
  · next hlow =>
    have hhigh : ¬ stop < (zoneAt m n).stop := by
      intro hh
      simp [hh] at h
    obtain rfl : _ = y := by simpa [hhigh] using h
    rw [if_neg (by omega), if_neg (by omega), if_pos (by omega)]
    rfl
  next hlow =>
  split at h
  · obtain rfl : _ = y := by simpa using h
    rw [if_neg (by omega), if_neg (by omega), if_neg (by omega), if_pos (by omega)]
  · simp at h

/-- A range inside a zone splits it. -/
theorem hardBody_split (hmeet : ¬ ((zoneAt m n).stop ≤ start ∨ stop ≤ (zoneAt m n).addr))
    (h : (zoneAt m n).addr < start ∧ stop < (zoneAt m n).stop) (hq : alloc0 n ((start - (m n).addr) / 4096) = q)
    (hne : q ≠ n) : hardBody alloc0 start stop m n prev =
      update (update m q ⟨((zoneAt m n).stop - stop) / 4096, stop, (m n).next⟩) n
        ⟨(start - (m n).addr) / 4096, (m n).addr, q⟩ := by
  have ha : (zoneAt m n).addr = (m n).addr := rfl
  unfold hardBody
  rw [phyEnd_eq hz]
  dsimp only
  rw [if_neg (by omega), if_pos (by omega)]
  have hm : ((m.setPages n ((start - (m n).addr) / 4096)) n) = ⟨(start - (m n).addr) / 4096, (m n).addr,
    (m n).next⟩ := by
    simp [Nodes.setPages]
  rw [hm]
  rw [hq]
  funext r
  by_cases hr : r = n
  · subst hr
    simp [Nodes.setNext, Nodes.setPages, update_of_ne hne.symm]
  by_cases hrq : r = q
  · subst hrq
    simp [Nodes.setNext, update_of_ne hr]
  · simp [Nodes.setNext, Nodes.setPages, update_of_ne hr, update_of_ne hrq]

end Round

/-! ## The loop -/

theorem hardLoop_end (k : Nat) : hardLoop alloc0 start stop (k + 1) m 0 prev = some m := if_pos rfl

theorem hardLoop_step (k : Nat) (hn : n ≠ 0) : hardLoop alloc0 start stop (k + 1) m n prev =
    hardLoop alloc0 start stop k (hardBody alloc0 start stop m n prev) (hardBody alloc0 start stop m n prev n).next
      (hardBody alloc0 start stop m n prev prev).next := if_neg hn

/-- The links of the nodes. -/
abbrev links (m : Nodes) (p : Nat) : Nat := (m p).next

/-- Zones behind the range are left alone, whatever `prev` is. -/
theorem hardLoop_skip (hp : Path (links m) 0 n ps) (hz : ∀ p ∈ ps, Fits (zoneAt m p) ∧ stop ≤ (zoneAt m p).addr) :
    ∀ k, ps.length < k → hardLoop alloc0 start stop k m n prev = some m := by
  induction ps generalizing n prev with
  | nil =>
    intro k hk
    obtain ⟨k, rfl⟩ := Nat.exists_eq_succ_of_ne_zero (show k ≠ 0 by omega)
    obtain rfl : n = 0 := hp
    exact hardLoop_end k
  | cons q ps ih =>
    intro k hk
    obtain ⟨rfl, hn, hp⟩ := hp
    rw [length_cons] at hk
    obtain ⟨k, rfl⟩ := Nat.exists_eq_succ_of_ne_zero (show k ≠ 0 by omega)
    obtain ⟨hfit, hle⟩ := hz n mem_cons_self
    rw [hardLoop_step k hn, hardBody_skip hfit (Or.inr hle)]
    exact ih hp (fun p hp => hz p (mem_cons_of_mem n hp)) k (by omega)

/-- The nodes `ps` of the list still to come: whole zones in order, and `alloc0` gives a node that is not in `old`. -/
structure Ahead (alloc0 : Nat → Nat → Nat) (start stop : Nat) (old : List Nat) (m : Nodes) (ps : List Nat) : Prop where
  ok : ZonesOk (zonesAt m ps)
  fits : ∀ p ∈ ps, Fits (zoneAt m p)
  mem : ∀ p ∈ ps, p ∈ old
  fresh : ∀ p ∈ ps, (zoneAt m p).addr < start → start < (zoneAt m p).stop →
    alloc0 p ((start - (m p).addr) / 4096) ∉ old ∧ alloc0 p ((start - (m p).addr) / 4096) ≠ 0

variable {old : List Nat}

theorem Ahead.tail (h : Ahead alloc0 start stop old m (n :: ps)) : Ahead alloc0 start stop old m ps :=
  ⟨h.ok.tail, fun p hp => h.fits p (mem_cons_of_mem n hp), fun p hp => h.mem p (mem_cons_of_mem n hp),
    fun p hp => h.fresh p (mem_cons_of_mem n hp)⟩

theorem zonesAt_congr (h : ∀ p ∈ ps, m' p = m p) : zonesAt m' ps = zonesAt m ps :=
  map_congr_left fun p hp => by rw [zoneAt, zoneAt, h p hp]

theorem Ahead.congr (h : Ahead alloc0 start stop old m ps) (hm : ∀ p ∈ ps, m' p = m p) :
    Ahead alloc0 start stop old m' ps := by
  refine ⟨by rw [zonesAt_congr hm]; exact h.ok, fun p hp => ?_, h.mem, fun p hp => ?_⟩
  · rw [zoneAt, hm p hp]
    exact h.fits p hp
  · rw [zoneAt, hm p hp]
    exact h.fresh p hp

theorem Ahead.behind (h : Ahead alloc0 start stop old m (n :: ps)) (hn : stop < (zoneAt m n).stop) (hp : p ∈ ps) :
    stop ≤ (zoneAt m p).addr :=
  hn.le.trans (h.ok.1.head_le (mem_map_of_mem hp))

/-- A node that keeps its link and gets the zone `y`. -/
def Nodes.trim (m : Nodes) (n : Nat) (y : Zone) : Nodes := update m n ⟨y.pages, y.addr, (m n).next⟩

@[simp] theorem trim_of_ne (y : Zone) (h : p ≠ n) : m.trim n y p = m p := update_of_ne h _ _

@[simp] theorem zoneAt_trim (y : Zone) : zoneAt (m.trim n y) n = y := by simp [zoneAt, Nodes.trim]

@[simp] theorem next_trim (y : Zone) : (m.trim n y p).next = (m p).next := by
  by_cases h : p = n
  · subst h
    simp [Nodes.trim]
  · rw [trim_of_ne y h]

theorem cut_cases (hc : ¬ Covered start stop z) : (∃ y, cut start stop z = [y]) ∨
    (¬ (z.stop ≤ start ∨ stop ≤ z.addr) ∧ z.addr < start ∧ stop < z.stop) := by
  unfold Covered at hc
  unfold cut
  split
  · exact Or.inl ⟨_, rfl⟩
  next hmeet =>
  by_cases hl : z.addr < start
  · by_cases hh : stop < z.stop
    · exact Or.inr ⟨hmeet, hl, hh⟩
    · exact Or.inl ⟨_, by rw [if_pos hl, if_neg hh]; rfl⟩
  · exact Or.inl ⟨_, by rw [if_neg hl, if_pos (by omega)]; rfl⟩

theorem cut_covered (hz : Fits z) (hc : Covered start stop z) : cut start stop z = [] := by
  obtain ⟨h1, h2⟩ := hc
  have hpos := hz.pos
  unfold cut
  rw [if_neg (by omega), if_neg (by omega), if_neg (by omega)]
  rfl

/-- The zone around the range is split; the new node and everything behind it is skipped. -/
theorem hardLoop_split (ht : stop % 4096 = 0) (hn : n ≠ 0) (hp : Path (links m) 0 (m n).next ps)
    (hns : n ∉ ps) (ha : Ahead alloc0 start stop old m (n :: ps))
    (hmeet : ¬ ((zoneAt m n).stop ≤ start ∨ stop ≤ (zoneAt m n).addr)) (hl : (zoneAt m n).addr < start)
    (hh : stop < (zoneAt m n).stop) :
    ∃ m' ps', (∀ k, ps.length + 3 ≤ k → ∀ prev, hardLoop alloc0 start stop k m n prev = some m') ∧
      Path (links m') 0 n ps' ∧ zonesAt m' ps' = cut start stop (zoneAt m n) ++ zonesAt m ps ∧
      ∀ q ∈ old, q ∉ n :: ps → m' q = m q := by
  have hz := ha.fits n mem_cons_self
  obtain ⟨hqo, hq0⟩ := ha.fresh n mem_cons_self hl (by omega)
  obtain ⟨q, hq⟩ : ∃ q, alloc0 n ((start - (m n).addr) / 4096) = q := ⟨_, rfl⟩
  rw [hq] at hqo hq0
  have hqn : q ≠ n := fun h => hqo (h ▸ ha.mem n mem_cons_self)
  obtain ⟨m₁, hm1⟩ : ∃ m₁, m₁ = update
      (update m q ⟨((zoneAt m n).stop - stop) / 4096, stop, (m n).next⟩) n
      ⟨(start - (m n).addr) / 4096, (m n).addr, q⟩ := ⟨_, rfl⟩
  have hmn : m₁ n = ⟨(start - (m n).addr) / 4096, (m n).addr, q⟩ := by rw [hm1, update_self]
  have hmq : m₁ q = ⟨((zoneAt m n).stop - stop) / 4096, stop, (m n).next⟩ := by rw [hm1, update_of_ne hqn, update_self]
  have hold : ∀ p ∈ old, p ≠ n → m₁ p = m p := fun p hp hpn => by
    rw [hm1, update_of_ne hpn, update_of_ne (ne_of_mem_of_not_mem hp hqo)]
  have hps : ∀ p ∈ ps, m₁ p = m p := fun p hp => hold p (ha.tail.mem p hp) (ne_of_mem_of_not_mem hp hns)
  have hpath : Path (links m₁) 0 q (q :: ps) := by
    refine ⟨rfl, hq0, ?_⟩
    rw [links, hmq]
    exact hp.congr fun p hp => by rw [links, links, hps p hp]
  have hskip : ∀ p ∈ q :: ps, Fits (zoneAt m₁ p) ∧ stop ≤ (zoneAt m₁ p).addr := by
    intro p hp
    rcases mem_cons.1 hp with rfl | hp
    · rw [zoneAt, hmq]
      have hhigh := stop_high hz ht hh
      exact ⟨⟨by rw [hhigh]; exact hh, by rw [hhigh]; exact hz.lt, ht⟩, le_rfl⟩
    · rw [zoneAt, hps p hp]
      exact ⟨ha.tail.fits p hp, ha.behind hh hp⟩
  refine ⟨m₁, n :: q :: ps, fun k hk prev => ?_, ⟨rfl, hn, ?_⟩, ?_, fun p hp hpn => ?_⟩
  · obtain ⟨k, rfl⟩ := Nat.exists_eq_add_of_le' (show 1 ≤ k by omega)
    rw [hardLoop_step k hn, hardBody_split hz hmeet ⟨hl, hh⟩ hq hqn, ← hm1, hmn]
    exact hardLoop_skip hpath hskip k (by rw [length_cons]; omega)
  · rw [links, hmn]
    exact hpath
  · have hcut : cut start stop (zoneAt m n) =
        [⟨(start - (m n).addr) / 4096, (m n).addr⟩, ⟨((zoneAt m n).stop - stop) / 4096, stop⟩] := by
      unfold cut
      rw [if_neg hmeet, if_pos hl, if_pos hh]
      rfl
    rw [zonesAt_cons, zonesAt_cons, hcut, zonesAt_congr hps, zoneAt, zoneAt, hmn, hmq]
    rfl
  · exact hold p hp fun h => hpn (h ▸ mem_cons_self)

theorem keep_behind (hz : Fits z) (h : stop ≤ z.addr) : keep start stop z = [z] := by
  have := hz.pos
  rw [keep, if_neg (fun hc : Covered start stop z => by have := hc.2; omega), cut, if_pos (.inr h)]

theorem Ahead.keep_tail (h : Ahead alloc0 start stop old m (n :: ps)) (hn : stop < (zoneAt m n).stop) :
    (zonesAt m ps).flatMap (keep start stop) = zonesAt m ps := by
  refine (flatMap_congr fun z hz => ?_).trans (flatMap_singleton' _)
  obtain ⟨p, hp, rfl⟩ := mem_map.1 hz
  exact keep_behind (h.tail.fits p hp) (h.behind hn hp)

theorem leave_behind : ∀ {zs : List Zone}, (∀ z ∈ zs, Fits z ∧ stop ≤ z.addr) → leave start stop zs = zs
  | [], _ => rfl
  | z :: zs, h => by
    obtain ⟨⟨hz, hle⟩, htail⟩ := forall_mem_cons.1 h
    have := hz.pos
    rw [leave, if_neg (fun hc : Covered start stop z => by have := hc.2; omega), cut, if_pos (.inr hle),
      leave_behind htail]
    rfl

theorem Ahead.leave_tail (h : Ahead alloc0 start stop old m (n :: ps)) (hn : stop < (zoneAt m n).stop) :
    leave start stop (zonesAt m ps) = zonesAt m ps := by
  refine leave_behind fun z hz => ?_
  obtain ⟨p, hp, rfl⟩ := mem_map.1 hz
  exact ⟨h.tail.fits p hp, h.behind hn hp⟩

theorem setNext_self (m : Nodes) (n : Nat) : m.setNext n (m n).next = m := update_eq_self n m

/-- **When `prev` is the node itself no zone is unlinked**: a covered zone stays, the others are cut in their places. -/
theorem hardLoop_stuck (ht : stop % 4096 = 0) (hp : Path (links m) 0 n ps) (ha : Ahead alloc0 start stop old m ps) :
    ∃ r m' ps', (∀ k, r ≤ k → hardLoop alloc0 start stop k m n n = some m') ∧ Path (links m') 0 n ps' ∧
      zonesAt m' ps' = (zonesAt m ps).flatMap (keep start stop) ∧ ∀ q ∈ old, q ∉ ps → m' q = m q := by
  induction ps generalizing m n with
  | nil => exact ⟨1, m, [], fun k hk => hardLoop_skip hp (by simp) k hk, hp, rfl, fun _ _ _ => rfl⟩
  | cons a ps ih =>
    have hnd := hp.nodup
    obtain ⟨rfl, hn, hp⟩ := hp
    have hns : n ∉ ps := (nodup_cons.1 hnd).1
    have hz := ha.fits n mem_cons_self
    -- the node keeps its link and gets the zone `y`
    have hgo : ∀ y, keep start stop (zoneAt m n) = [y] → hardBody alloc0 start stop m n n = m.trim n y →
        ∃ r m' ps', (∀ k, r ≤ k → hardLoop alloc0 start stop k m n n = some m') ∧ Path (links m') 0 n ps' ∧
          zonesAt m' ps' = (zonesAt m (n :: ps)).flatMap (keep start stop) ∧ ∀ q ∈ old, q ∉ n :: ps → m' q = m q := by
      intro y hy hbody
      have hm : ∀ p ∈ ps, m.trim n y p = m p := fun p hp => trim_of_ne y (ne_of_mem_of_not_mem hp hns)
      obtain ⟨r, m', ps', hr, hp', hzs, hf⟩ := ih (m := m.trim n y) (n := (m n).next) (hp.congr fun p _ => next_trim y)
        (ha.tail.congr hm)
      have hn' : m' n = m.trim n y n := hf n (ha.mem n mem_cons_self) hns
      refine ⟨r + 1, m', n :: ps', fun k hk => ?_, ⟨rfl, hn, ?_⟩, ?_, fun q hq hqs => ?_⟩
      · obtain ⟨k, rfl⟩ := Nat.exists_eq_add_of_le' (show 1 ≤ k by omega)
        rw [hardLoop_step k hn, hbody, next_trim]
        exact hr k (by omega)
      · rw [links, hn', next_trim]
        exact hp'
      · rw [zonesAt_cons, zonesAt_cons, flatMap_cons, hy, hzs, zonesAt_congr hm, zoneAt, hn']
        exact congrArg (· :: _) (zoneAt_trim y)
      · obtain ⟨hqn, hqs⟩ := not_or.1 (mem_cons.not.1 hqs)
        rw [hf q hq hqs, trim_of_ne y hqn]
    by_cases hcov : Covered start stop (zoneAt m n)
    · refine hgo (zoneAt m n) (if_pos hcov) ?_
      rw [hardBody_covered hz hcov, setNext_self]
      exact (update_eq_self n m).symm
    have hkeep : keep start stop (zoneAt m n) = cut start stop (zoneAt m n) := if_neg hcov
    rcases cut_cases hcov with ⟨y, hy⟩ | ⟨hmeet, hl, hh⟩
    · exact hgo y (hkeep.trans hy) (hardBody_trim hz hy)
    · obtain ⟨m', ps', hr, hp', hzs, hf⟩ := hardLoop_split ht hn hp hns ha hmeet hl hh
      refine ⟨_, m', ps', fun k hk => hr k hk n, hp', ?_, hf⟩
      rw [hzs, zonesAt_cons, flatMap_cons, hkeep, ha.keep_tail hh]

/-- **What the loop leaves**: the first covered zone is unlinked, and from there on `prev` is the node itself. -/
theorem hardLoop_trailing (ht : stop % 4096 = 0) (hp : Path (links m) 0 n ps) (ha : Ahead alloc0 start stop old m ps)
    (hprev : (m prev).next = n) (hpo : prev ∈ old) (hps : prev ∉ ps) :
    ∃ r m' ps', (∀ k, r ≤ k → hardLoop alloc0 start stop k m n prev = some m') ∧
      Path (links m') 0 (m' prev).next ps' ∧ zonesAt m' ps' = leave start stop (zonesAt m ps) ∧
      zoneAt m' prev = zoneAt m prev ∧ ∀ q ∈ old, q ∉ prev :: ps → m' q = m q := by
  induction ps generalizing m n prev with
  | nil =>
    refine ⟨1, m, [], fun k hk => hardLoop_skip hp (by simp) k hk, ?_, rfl, rfl, fun _ _ _ => rfl⟩
    rw [hprev]
    exact hp
  | cons a ps ih =>
    have hns := (nodup_cons.1 hp.nodup).1
    obtain ⟨rfl, hn, hp⟩ := hp
    have hz := ha.fits n mem_cons_self
    have hne : prev ≠ n := fun h => hps (h ▸ mem_cons_self)
    have hps' : prev ∉ ps := fun h => hps (mem_cons_of_mem n h)
    by_cases hcov : Covered start stop (zoneAt m n)
    · -- `prev` is linked to the node behind `n`, and then moves there together with `n`
      have hm : ∀ p, p ≠ prev → m.setNext prev (m n).next p = m p := fun p hp => update_of_ne hp _ _
      have hnext : (m.setNext prev (m n).next prev).next = (m n).next := by simp [Nodes.setNext]
      have hmps : ∀ p ∈ ps, m.setNext prev (m n).next p = m p := fun p hp => hm p (ne_of_mem_of_not_mem hp hps')
      obtain ⟨r, m', ps', hr, hp', hzs, hf⟩ := hardLoop_stuck (m := m.setNext prev (m n).next) ht
        (hp.congr fun p hp => by rw [links, links, hmps p hp]) (ha.tail.congr hmps)
      have hprev' : m' prev = m.setNext prev (m n).next prev := hf prev hpo hps'
      refine ⟨r + 1, m', ps', fun k hk => ?_, ?_, ?_, ?_, fun q hq hqs => ?_⟩
      · obtain ⟨k, rfl⟩ := Nat.exists_eq_add_of_le' (show 1 ≤ k by omega)
        rw [hardLoop_step k hn, hardBody_covered hz hcov, hm n hne.symm, hnext]
        exact hr k (by omega)
      · rw [hprev', hnext]
        exact hp'
      · rw [hzs, zonesAt_congr hmps, zonesAt_cons, leave, if_pos hcov]
      · rw [zoneAt, hprev']
        simp [zoneAt, Nodes.setNext]
      · simp only [mem_cons, not_or] at hqs
        rw [hf q hq hqs.2.2, hm q hqs.1]
    · rcases cut_cases hcov with ⟨y, hy⟩ | ⟨hmeet, hl, hh⟩
      · -- trimmed in place, and `n` trails in the next round
        have hm : ∀ p ∈ ps, m.trim n y p = m p := fun p hp => trim_of_ne y (ne_of_mem_of_not_mem hp hns)
        obtain ⟨r, m', ps', hr, hp', hzs, hzn, hf⟩ := ih (m := m.trim n y) (n := (m n).next)
          (hp.congr fun p _ => next_trim y) (ha.tail.congr hm) (next_trim y : _ = (m n).next)
          (ha.mem n mem_cons_self) hns
        have hprev' : m' prev = m prev := by rw [hf prev hpo (by simp [hne, hps']), trim_of_ne y hne]
        refine ⟨r + 1, m', n :: ps', fun k hk => ?_, ?_, ?_, by rw [zoneAt, hprev', zoneAt], fun q hq hqs => ?_⟩
        · obtain ⟨k, rfl⟩ := Nat.exists_eq_add_of_le' (show 1 ≤ k by omega)
          rw [hardLoop_step k hn, hardBody_trim hz hy]
          show hardLoop _ _ _ k (m.trim n y) (m.trim n y n).next (m.trim n y prev).next = _
          rw [next_trim, next_trim, hprev]
          exact hr k (by omega)
        · rw [hprev', hprev]
          exact ⟨rfl, hn, hp'⟩
        · rw [zonesAt_cons, zonesAt_cons, leave, if_neg hcov, hy, hzs, zonesAt_congr hm, hzn, zoneAt_trim]
          rfl
        · simp only [mem_cons, not_or] at hqs
          rw [hf q hq (by simp [hqs.2.1, hqs.2.2]), trim_of_ne y hqs.2.1]
      · obtain ⟨m', ps', hr, hp', hzs, hf⟩ := hardLoop_split ht hn hp hns ha hmeet hl hh
        have hprev' : m' prev = m prev := hf prev hpo hps
        refine ⟨_, m', ps', fun k hk => hr k hk prev, ?_, ?_, by rw [zoneAt, hprev', zoneAt], fun q hq hqs => ?_⟩
        · rw [hprev', hprev]
          exact hp'
        · rw [hzs, zonesAt_cons, leave, if_neg hcov, ha.leave_tail hh]
        · exact hf q hq fun h => hqs (mem_cons_of_mem prev h)

/-! ## The whole call -/

/-- The number of zones that the range covers entirely. -/
def covers (start stop : Nat) (zs : List Zone) : Nat := zs.countP fun z => Covered start stop z

theorem covers_eq_zero (hf : ∀ z ∈ zs, Fits z) (hts : stop ≤ start) : covers start stop zs = 0 := by
  refine countP_eq_zero.2 fun z hz hc => ?_
  obtain ⟨h1, h2⟩ : Covered start stop z := by simpa using hc
  have := (hf z hz).pos
  omega

theorem leave_of_covers_le_one (hf : ∀ z ∈ zs, Fits z) (hone : covers start stop zs ≤ 1) :
    leave start stop zs = zs.flatMap (cut start stop) := by
  induction zs with
  | nil => rfl
  | cons z zs ih =>
    obtain ⟨hz, hzs⟩ := forall_mem_cons.1 hf
    rw [covers, countP_cons] at hone
    rw [leave, flatMap_cons]
    split
    next hcov =>
      have hnone : ∀ y ∈ zs, ¬ Covered start stop y := by
        simpa using countP_eq_zero.1 (show zs.countP (fun z => decide (Covered start stop z)) = 0 by simp_all)
      rw [cut_covered hz hcov, nil_append]
      exact flatMap_congr fun y hy => if_neg (hnone y hy)
    next hcov => rw [ih hzs ((Nat.le_add_right _ _).trans hone)]

/-- Of two covered zones the second one stays. -/
theorem exists_mem_leave (htwo : 1 < covers start stop zs) : ∃ z ∈ zs, Covered start stop z ∧
    z ∈ leave start stop zs := by
  induction zs with
  | nil => cases htwo
  | cons z zs ih =>
    rw [covers, countP_cons] at htwo
    rw [leave]
    split
    next hcov =>
      have hpos : 0 < zs.countP fun z => Covered start stop z := by simp_all
      obtain ⟨y, hy, hcy⟩ := countP_pos_iff.1 hpos
      have hcy : Covered start stop y := by simpa using hcy
      exact ⟨y, mem_cons_of_mem z hy, hcy, mem_flatMap.2 ⟨y, hy, by rw [keep, if_pos hcy]; exact mem_singleton_self y⟩⟩
    next hcov =>
      obtain ⟨y, hy, hcy, hmem⟩ := ih (by simpa [hcov, covers] using htwo)
      exact ⟨y, mem_cons_of_mem z hy, hcy, mem_append_right _ hmem⟩

/-- The range is left out, and nothing else, exactly if it covers at most one zone. -/
theorem freeSet_leave (hok : ZonesOk zs) (hf : ∀ z ∈ zs, Fits z) (hs : start % 4096 = 0) (ht : stop % 4096 = 0)
    (hst : start < stop) : ZonesOk (leave start stop zs) ∧ freeSet (leave start stop zs) =
    freeSet zs \ Set.Ico start stop ↔
      covers start stop zs ≤ 1 := by
  constructor
  · rintro ⟨-, hset⟩
    by_contra htwo
    obtain ⟨z, hz, hcov, hmem⟩ := exists_mem_leave (not_le.1 htwo)
    have hpos := (hf z hz).pos
    have hin : z.addr ∈ freeSet (leave start stop zs) := ⟨z, hmem, le_rfl, hpos⟩
    rw [hset] at hin
    exact hin.2 ⟨hcov.1, hpos.trans_le hcov.2⟩
  · intro hone
    rw [leave_of_covers_le_one hf hone]
    exact freeSet_flatMap_cut hok hf hs ht hst

/-- When the end of the range wraps around to a lower address, what is free behind its start stays free. -/
theorem freeSet_leave_wrap (hok : ZonesOk zs) (hf : ∀ z ∈ zs, Fits z) (ht : stop % 4096 = 0) (hts : stop ≤ start)
    {top : Nat} (htop : 2 ^ 64 ≤ top) :
    ZonesOk (leave start stop zs) ∧ freeSet (leave start stop zs) = freeSet zs \ Set.Ico start top ↔
      ∀ z ∈ zs, z.stop ≤ start := by
  rw [leave_of_covers_le_one hf (by rw [covers_eq_zero hf hts]; exact zero_le_one)]
  constructor
  · rintro ⟨-, hset⟩ z hz
    by_contra hlt
    have hfit := hf z hz
    have hpos := hfit.pos
    have hlt64 := hfit.lt
    have hin : z.stop - 1 ∈ freeSet (zs.flatMap (cut start stop)) := by
      obtain ⟨y, hy, hmem⟩ : ∃ y ∈ cut start stop z, z.stop - 1 ∈ Set.Ico y.addr y.stop := by
        unfold cut
        split
        · exact ⟨z, mem_singleton_self z, by omega, by omega⟩
        · rw [if_pos (show stop < z.stop by omega)]
          refine ⟨_, mem_append_right _ (mem_singleton_self _), ?_⟩
          rw [stop_high hfit ht (by omega)]
          exact ⟨by show stop ≤ _; omega, by omega⟩
      exact ⟨y, mem_flatMap.2 ⟨z, hz, hy⟩, hmem⟩
    rw [hset] at hin
    exact hin.2 ⟨by omega, by omega⟩
  · intro hall
    have hcut : zs.flatMap (cut start stop) = zs :=
      (flatMap_congr fun z hz => if_pos (.inl (hall z hz))).trans (flatMap_singleton' _)
    rw [hcut]
    refine ⟨hok, (sdiff_eq_left.2 ?_).symm⟩
    rw [Set.disjoint_left]
    rintro a ⟨z, hz, hin⟩ ha
    have := hall z hz
    have := hin.2
    have := ha.1
    omega

/-- **Reserving a range** takes exactly the range out of the free set if and only if at most one zone is covered
entirely, or, when the end of the range wraps around, no zone reaches behind its start. -/
theorem allochard_reserves (alloc0 : Nat → Nat → Nat) (m : Nodes) (head : Nat) (ps : List Nat) (hl : IsFree m head ps)
    (hok : ZonesOk (zonesAt m ps)) (hpages : ∀ z ∈ zonesAt m ps, z.addr % 4096 = 0) (page num : Nat)
    (hpage : page % 4096 = 0) (hp : page < 2 ^ 64) (hnum : num < 2 ^ 52)
    (hfresh : ∀ p ∈ ps, (zoneAt m p).addr < page → page < (zoneAt m p).stop →
      alloc0 p ((page - (m p).addr) / 4096) ∉ head :: ps ∧ alloc0 p ((page - (m p).addr) / 4096) ≠ 0) :
    ∃ r m' ps', (∀ k, r ≤ k → pmmAllochard alloc0 k m head page num = some m') ∧ IsFree m' head ps' ∧
      (ZonesOk (zonesAt m' ps') ∧ freeSet (zonesAt m' ps') = freeSet (zonesAt m ps) \ pageRange page num ↔
        if page + 4096 * num < 2 ^ 64 then covers page (page + 4096 * num) (zonesAt m ps) ≤ 1
        else ∀ z ∈ zonesAt m ps, z.stop ≤ page) := by
  have hfits : ∀ z ∈ zonesAt m ps, Fits z := fun z hz => ⟨hok.1.1 z hz, hok.2 z hz, hpages z hz⟩
  by_cases h0 : num = 0
  · subst h0
    refine ⟨0, m, ps, fun k _ => by simp [pmmAllochard, hpage], hl, iff_of_true ⟨hok, by simp [pageRange]⟩ ?_⟩
    rw [if_pos (by omega), covers_eq_zero hfits (by omega)]
    exact zero_le_one
  have ha : Ahead alloc0 page (u64 (page + 4096 * num)) (head :: ps) m ps :=
    ⟨hok, fun p hp => hfits _ (mem_map_of_mem hp), fun p hp => mem_cons_of_mem head hp, hfresh⟩
  have hhead : head ∉ ps := (nodup_cons.1 (Path.nodup hl)).1
  have ht : u64 (page + 4096 * num) % 4096 = 0 := by
    unfold u64
    omega
  obtain ⟨r, m', ps', hr, hp', hzs, -, -⟩ := hardLoop_trailing ht hl.2.2 ha rfl mem_cons_self hhead
  refine ⟨r, m', ps', fun k hk => ?_, ⟨rfl, hl.2.1, hp'⟩, ?_⟩
  · rw [pmmAllochard, if_pos hpage, if_neg h0]
    exact hr k hk
  rw [hzs]
  split
  next hlt =>
    rw [u64_of_lt hlt]
    exact freeSet_leave hok hfits hpage (by omega) (by omega)
  next hwrap =>
    refine freeSet_leave_wrap hok hfits ht ?_ (not_lt.1 hwrap)
    unfold u64
    omega

/-- Before `__pmm_tovmm` each node lies at the start of its zone, and the node `alloc0` gives lies in the range. -/
theorem allocEarly_fresh {head page : Nat} (hok : ZonesOk (zonesAt m ps))
    (hpages : ∀ z ∈ zonesAt m ps, z.addr % 4096 = 0) (hpage : page % 4096 = 0) (hself : ∀ p ∈ ps, (m p).addr = p)
    (hhead : head ∉ freeSet (zonesAt m ps)) (hp : p ∈ ps) (hlow : (zoneAt m p).addr < page)
    (hhigh : page < (zoneAt m p).stop) :
    allocEarly p ((page - (m p).addr) / 4096) ∉ head :: ps ∧ allocEarly p ((page - (m p).addr) / 4096) ≠ 0 := by
  have hmem : zoneAt m p ∈ zonesAt m ps := mem_map_of_mem hp
  have hmod : (m p).addr % 4096 = 0 := hpages _ hmem
  have hpa := hself p hp
  have hlow' : (m p).addr < page := hlow
  have hnew : allocEarly p ((page - (m p).addr) / 4096) = page := by
    unfold allocEarly
    omega
  rw [hnew]
  refine ⟨?_, by omega⟩
  intro h
  rcases mem_cons.1 h with rfl | h
  · exact hhead ⟨_, hmem, hlow.le, by omega⟩
  -- the node at `page` would have a zone that starts inside the one of `p`
  have hq : zoneAt m page ∈ zonesAt m ps := mem_map_of_mem h
  have hqa : (zoneAt m page).addr = page := hself page h
  have heq := hok.1.eq_of_mem (a := page) hmem hq ⟨hlow.le, by omega⟩ ⟨hqa.le, by have := hok.1.1 _ hq; omega⟩
  rw [heq, hqa] at hlow
  exact lt_irrefl _ hlow

/-- Three zones with their nodes in their first pages, behind the head at 8. -/
def threeZones : Nodes := fun p =>
  if p = 8 then ⟨0, 0, 0x1000⟩
  else if p = 0x1000 then ⟨4, 0x1000, 0x6000⟩
  else if p = 0x6000 then ⟨1, 0x6000, 0x8000⟩
  else ⟨2, 0x8000, 0⟩

theorem threeZones_ok : ZonesOk (zonesAt threeZones [0x1000, 0x6000, 0x8000]) := by
  simp [ZonesOk, Ordered, zoneAt, threeZones, Zone.stop]

/-- The range cuts off the end of the first zone, covers the second and cuts off the start of the third. -/
theorem allochard_reserves_three :
    ∃ r m' ps', (∀ k, r ≤ k → pmmAllochard allocEarly k threeZones 8 0x3000 6 = some m') ∧ IsFree m' 8 ps' ∧
      ZonesOk (zonesAt m' ps') ∧
      freeSet (zonesAt m' ps') = freeSet [⟨4, 0x1000⟩, ⟨1, 0x6000⟩, ⟨2, 0x8000⟩] \ pageRange 0x3000 6 := by
  obtain ⟨r, m', ps', hr, hfree, hiff⟩ := allochard_reserves allocEarly threeZones 8 [0x1000, 0x6000, 0x8000]
    (by simp [IsFree, threeZones]) threeZones_ok (by simp [zoneAt, threeZones]) 0x3000 6 (by decide)
    (by decide) (by decide) (fun p hp => allocEarly_fresh threeZones_ok (by simp [zoneAt, threeZones]) (by decide)
    (by simp [threeZones])
      (by simp [zoneAt, threeZones, freeSet, Zone.stop]) hp)
  exact ⟨r, m', ps', hr, hfree, hiff.2 (by decide)⟩

/-- **Of two covered zones the second stays free**: the range from 0x6000 to 0xa000 holds both. -/
theorem allochard_keeps_second :
    ∃ m', pmmAllochard allocEarly 4 threeZones 8 0x6000 4 = some m' ∧ IsFree threeZones 8 [0x1000, 0x6000, 0x8000] ∧
      ZonesOk (zonesAt threeZones [0x1000, 0x6000, 0x8000]) ∧ IsFree m' 8 [0x1000, 0x8000] ∧
      0x8000 ∈ freeSet (zonesAt m' [0x1000, 0x8000]) ∧ 0x8000 ∈ pageRange 0x6000 4 := by
  obtain ⟨m', hm'⟩ : ∃ m', pmmAllochard allocEarly 4 threeZones 8 0x6000 4 = some m' :=
    Option.isSome_iff_exists.1 (by decide)
  have hnodes : (pmmAllochard allocEarly 4 threeZones 8 0x6000 4).map (fun m => (m 8, m 0x1000, m 0x8000)) =
      some (⟨0, 0, 0x1000⟩, ⟨4, 0x1000, 0x8000⟩, ⟨2, 0x8000, 0⟩) := by
    decide
  rw [hm'] at hnodes
  simp only [Option.map_some, Option.some.injEq, Prod.mk.injEq] at hnodes
  obtain ⟨h₁, h₂, h₃⟩ := hnodes
  refine ⟨m', hm', by simp [IsFree, threeZones], threeZones_ok, ?_, ?_, by simp [pageRange]⟩
  · simp [IsFree, h₁, h₂, h₃]
  · simp [zoneAt, h₂, h₃, freeSet, Zone.stop]

end TextOS.Pmm
