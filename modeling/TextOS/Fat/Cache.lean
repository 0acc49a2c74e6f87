import TextOS.Fat.Table

/-!
# The cache of cluster numbers: `kernel/fs/phy/fat32.c`

A file remembers clusters at multiples of `unitclst` in a jump table, and those of places used before. When an index
goes beyond the jump table, every second entry is dropped and `unitclst` is doubled.

- **`cache_search` finds the cluster of an offset** (`cacheSearch_spec`), and remembers only what is right.
- **While the chain grows at its end, every search follows the table** (`search_follows`).
-/

namespace TextOS.Fat

open Lib List Function

variable {g : Geo} {disk : Disk} {c : Cache} {l : List Nat} {rela idx n clst : Nat}

/-- What the cache remembers are clusters of the chain `l`. -/
structure CacheOk (g : Geo) (c : Cache) (l : List Nat) : Prop where
  pos : 0 < c.unitclst
  le : c.unitclst ≤ 2 ^ 23
  first : l[0]? = some (c.jmp 0)
  jmp : ∀ i, c.jmp i ≠ 0 → l[i * c.unitclst]? = some (c.jmp i)
  lru : ∀ x ∈ c.lru, l[x.1 / g.clstSiz]? = some x.2

theorem CacheOk.append (h : CacheOk g c l) (new : List Nat) : CacheOk g c (l ++ new) := by
  have hmono : ∀ {i x : Nat}, l[i]? = some x → (l ++ new)[i]? = some x := fun hi => by
    rw [List.getElem?_append_left (List.getElem?_eq_some_iff.1 hi).1, hi]
  exact ⟨h.pos, h.le, hmono h.first, fun i hi => hmono (h.jmp i hi), fun x hx => hmono (h.lru x hx)⟩

theorem cacheInit_ok (h : l[0]? = some clst) : CacheOk g (cacheInit clst) l := by
  refine ⟨Nat.one_pos, Nat.one_le_two_pow, h, fun i hi => ?_, nofun⟩
  by_cases h0 : i = 0
  · subst h0
    exact h
  · exact absurd (if_neg h0) hi

/-! ## The jump table -/

theorem CacheOk.double (h : CacheOk g c l) (hle : c.unitclst * 2 ≤ 2 ^ 23) : CacheOk g
    { c with unitclst := c.unitclst * 2 % 2 ^ 32, jmp := fun i => if i < 16 then c.jmp (2 * i) else 0 } l := by
  have hpos := h.pos
  have hmod : c.unitclst * 2 % 2 ^ 32 = c.unitclst * 2 := Nat.mod_eq_of_lt (by omega)
  refine ⟨by dsimp only; omega, by dsimp only; omega, h.first, fun i hi => ?_, h.lru⟩
  dsimp only at hi ⊢
  by_cases h16 : i < 16
  · rw [if_pos h16] at hi ⊢
    rw [hmod, ← h.jmp (2 * i) hi]
    congr 1
    rw [Nat.mul_comm c.unitclst, ← Nat.mul_assoc, Nat.mul_comm i]
  · rw [if_neg h16] at hi
    exact absurd rfl hi

/-- Widening the unit brings the index into the table. -/
theorem jmpAdjust_spec (h : CacheOk g c l) (hidx : idx = rela / c.unitclst) (hrela : rela < 2 ^ 23) (hn : idx ≤ n) :
    CacheOk g (jmpAdjust n c idx).1 l ∧ (jmpAdjust n c idx).2 = rela / (jmpAdjust n c idx).1.unitclst ∧
      (jmpAdjust n c idx).2 < 32 ∧ (jmpAdjust n c idx).1.lru = c.lru := by
  induction n generalizing c idx with
  | zero => exact ⟨h, hidx, by show idx < 32; omega, rfl⟩
  | succ n ih =>
    rw [jmpAdjust]
    split
    next h32 =>
      have hpos := h.pos
      have hmul : 32 * c.unitclst ≤ rela := (Nat.le_div_iff_mul_le hpos).1 (hidx ▸ h32)
      have hmod : c.unitclst * 2 % 2 ^ 32 = c.unitclst * 2 := Nat.mod_eq_of_lt (by omega)
      refine ih (h.double (by omega)) ?_ (by omega)
      rw [hidx, Nat.div_div_eq_div_mul, hmod]
    next h32 => exact ⟨h, hidx, by dsimp only; omega, rfl⟩

theorem jmpFilled_spec (jmp : Nat → Nat) (idx : Nat) :
    jmpFilled jmp idx ≤ idx ∧ (jmpFilled jmp idx = 0 ∨ jmp (jmpFilled jmp idx) ≠ 0) := by
  induction idx with
  | zero => exact ⟨le_rfl, .inl rfl⟩
  | succ idx ih =>
    rw [jmpFilled]
    split
    next => exact ⟨ih.1.trans (Nat.le_succ idx), ih.2⟩
    next h => exact ⟨le_rfl, .inr h⟩

theorem CacheOk.record (h : CacheOk g c l) (hi : l[idx * c.unitclst]? = some clst) (h0 : idx ≠ 0) :
    CacheOk g { c with jmp := update c.jmp idx clst } l := by
  refine ⟨h.pos, h.le, ?_, fun i hne => ?_, h.lru⟩
  · dsimp only
    rw [update_of_ne h0.symm]
    exact h.first
  dsimp only at hne ⊢
  by_cases he : i = idx
  · subst he
    rw [update_self, hi]
  · rw [update_of_ne he] at hne ⊢
    exact h.jmp i hne

/-- The loop walks the chain and notes every place it passes. -/
theorem jmpLoop_spec (hl : Linked (getNext g disk) isEoc l) (h : CacheOk g c l) (hrela : rela < l.length)
    (h32 : rela / c.unitclst < 32) (hle : idx * c.unitclst ≤ rela) (hclst : l[idx * c.unitclst]? = some clst)
    (hn : rela ≤ idx * c.unitclst + n) :
    ∃ c' clst' cur, jmpLoop g disk rela n c idx clst (idx * c.unitclst) = (c', clst', cur) ∧ CacheOk g c' l ∧
      l[cur]? = some clst' ∧ cur ≤ rela ∧ c'.lru = c.lru := by
  induction n generalizing c idx clst with
  | zero => exact ⟨c, clst, _, rfl, h, hclst, hle, rfl⟩
  | succ n ih =>
    rw [jmpLoop]
    split
    next => exact ⟨c, clst, _, rfl, h, hclst, hle, rfl⟩
    next hlt =>
      have hpos := h.pos
      have hsucc : (idx + 1) * c.unitclst = idx * c.unitclst + c.unitclst := Nat.succ_mul idx c.unitclst
      have hidx : idx + 1 ≤ rela / c.unitclst := (Nat.le_div_iff_mul_le hpos).2 (by omega)
      -- the index stays inside the table, so nothing is adjusted here
      have hadj : jmpAdjust (idx + 1) c (idx + 1) = (c, idx + 1) := if_neg (by omega)
      have hnext : l[(idx + 1) * c.unitclst]? = some (getNextTil g disk clst c.unitclst) := by
        obtain ⟨d, hd⟩ : ∃ d, l[(idx + 1) * c.unitclst]? = some d := ⟨_, getElem?_eq_getElem (by omega)⟩
        rw [hd, getNextTil, hl.iterate hclst (hsucc ▸ hd)]
      simp only [hadj]
      rw [← hsucc]
      have hle' : (idx + 1) * c.unitclst ≤ rela := by omega
      have hn' : rela ≤ (idx + 1) * c.unitclst + n := by omega
      exact ih (h.record hnext (Nat.succ_ne_zero idx)) h32 hle' hnext hn'

/-- The jump table leads to a cluster at or before the wanted one. -/
theorem jmpSearch_spec (hl : Linked (getNext g disk) isEoc l) (h : CacheOk g c l) (hrela : rela < l.length)
    (hsmall : rela < 2 ^ 23) : ∃ c' clst' cur, jmpSearch g disk c rela = (c', clst', cur) ∧ CacheOk g c' l ∧
      l[cur]? = some clst' ∧ cur ≤ rela ∧ c'.lru = c.lru := by
  obtain ⟨hok, hidx, h32, hlru⟩ := jmpAdjust_spec (n := rela / c.unitclst) h rfl hsmall le_rfl
  rw [jmpSearch]
  generalize jmpAdjust (rela / c.unitclst) c (rela / c.unitclst) = a at hok hidx h32 hlru ⊢
  obtain ⟨hle, hfill⟩ := jmpFilled_spec a.1.jmp a.2
  generalize jmpFilled a.1.jmp a.2 = i at hle hfill ⊢
  have hi : l[i * a.1.unitclst]? = some (a.1.jmp i) := by
    rcases hfill with rfl | hne
    · rw [Nat.zero_mul]
      exact hok.first
    · exact hok.jmp i hne
  have hmul : i * a.1.unitclst ≤ rela := (Nat.le_div_iff_mul_le hok.pos).1 (hidx ▸ hle)
  obtain ⟨c', clst', cur, hloop, hok', hcur, hle', hlru'⟩ :=
    jmpLoop_spec (n := rela) hl hok hrela (hidx ▸ h32) hmul hi (by omega)
  exact ⟨c', clst', cur, hloop, hok', hcur, hle', hlru'.trans hlru⟩

/-! ## The places used before -/

/-- What is found is an entry at or before the wanted cluster, with its distance. -/
theorem lruSearch_spec (g : Geo) (rela : Nat) (lru : List (Nat × Nat)) {all : List (Nat × Nat)} (dist : Nat)
    (srch : Option (Nat × Nat)) (hsub : ∀ x ∈ lru, x ∈ all) (hs : ∀ x ∈ srch, x ∈ all ∧ x.1 / g.clstSiz + dist = rela) :
    ∀ x ∈ (lruSearch g rela lru dist srch).2,
      x ∈ all ∧ x.1 / g.clstSiz + (lruSearch g rela lru dist srch).1 = rela := by
  induction lru generalizing dist srch with
  | nil => exact hs
  | cons y lru ih =>
    have hrest : ∀ x ∈ lru, x ∈ all := fun x hx => hsub x (mem_cons_of_mem _ hx)
    rw [lruSearch]
    by_cases hle : y.1 / g.clstSiz ≤ rela
    · generalize hr : (if rela - y.1 / g.clstSiz < dist then (rela - y.1 / g.clstSiz, some y) else (dist, srch)) = r
      have hbest : ∀ x ∈ r.2, x ∈ all ∧ x.1 / g.clstSiz + r.1 = rela := by
        rw [← hr]
        split
        next =>
          intro x hx
          rw [Option.mem_some_iff] at hx
          subst hx
          exact ⟨hsub y mem_cons_self, by dsimp only; omega⟩
        next => exact hs
      rw [if_pos hle]
      by_cases h0 : r.1 = 0
      · rw [if_pos h0]
        exact hbest
      · rw [if_neg h0]
        exact ih _ _ hrest hbest
    · rw [if_neg hle]
      exact ih _ _ hrest hs

theorem CacheOk.lruRecord {pos : Nat} (h : CacheOk g c l) (hclst : l[pos / g.clstSiz]? = some clst) :
    CacheOk g (lruRecord c pos clst) l := by
  refine { h with lru := fun x hx => ?_ }
  rcases mem_cons.1 hx with rfl | hx
  · exact hclst
  refine h.lru x ?_
  split at hx
  next => exact mem_of_mem_dropLast hx
  next => exact hx

theorem CacheOk.lruRefresh {x : Nat × Nat} (h : CacheOk g c l) (hx : x ∈ c.lru) :
    CacheOk g { c with lru := x :: c.lru.erase x } l := by
  refine { h with lru := fun y hy => ?_ }
  rcases mem_cons.1 hy with rfl | hy
  · exact h.lru y hx
  · exact h.lru y (mem_of_mem_erase hy)

/-- **`cache_search` finds the cluster of an offset.** -/
theorem cacheSearch_spec {pos : Nat} (hl : Linked (getNext g disk) isEoc l) (h : CacheOk g c l) (hpos : pos < 2 ^ 32)
    (hclst : l[pos / g.clstSiz]? = some clst) : ∃ c', cacheSearch g disk c pos = (c', clst) ∧ CacheOk g c' l := by
  have hlt := (List.getElem?_eq_some_iff.1 hclst).1
  have hsmall : pos / g.clstSiz < 2 ^ 23 := by
    have hspc := g.perclstPos
    refine Nat.div_lt_of_lt_mul (hpos.trans_le ?_)
    rw [Geo.clstSiz]
    omega
  obtain ⟨c', clst', cur, hjmp, hok, hcur, hle, hlru⟩ := jmpSearch_spec hl h hlt hsmall
  have htil : getNextTil g disk clst' (pos / g.clstSiz - cur) = clst :=
    hl.iterate hcur (by rw [Nat.add_sub_cancel' hle, hclst])
  have hfound := lruSearch_spec g (pos / g.clstSiz) c.lru (2 ^ 32 - 1) none (fun _ hx => hx) nofun
  rw [cacheSearch]
  match hs : lruSearch g (pos / g.clstSiz) c.lru (2 ^ 32 - 1) none with
  | (dist, some x) =>
    rw [hs] at hfound
    obtain ⟨hx, hdist⟩ := hfound x rfl
    dsimp only at hdist ⊢
    split
    next => exact ⟨_, by rw [getNextTil, hl.iterate (h.lru x hx) (by rw [hdist, hclst])], h.lruRefresh hx⟩
    next => exact ⟨_, by rw [hjmp]; dsimp only; rw [htil], hok.lruRecord hclst⟩
  | (_, none) => exact ⟨_, by dsimp only; rw [hjmp]; dsimp only; rw [htil], hok.lruRecord hclst⟩

/-! ## Searches while the file grows -/

/-- A place is looked up, or the chain gets the clusters `new` and the sectors become `disk`. -/
inductive CacheOp
  | search (pos : Nat)
  | extend (disk : Disk) (new : List Nat)

/-- An open file; for each search, the cluster that was returned and the one that the table leads to. -/
structure Opened where
  disk : Disk
  chain : List Nat
  cache : Cache
  found : List (Nat × Nat)

def cacheStep (g : Geo) (first : Nat) (s : Opened) : CacheOp → Option Opened
  | .search pos =>
    let r := cacheSearch g s.disk s.cache pos
    some { s with cache := r.1, found := s.found ++ [(r.2, getNextTil g s.disk first (pos / g.clstSiz))] }
  | .extend disk new => some { s with disk := disk, chain := s.chain ++ new }

/-- The place is inside the chain, and an extension leaves the chain linked. -/
def CacheOp.Ok (g : Geo) (s : Opened) : CacheOp → Prop
  | .search pos => pos < 2 ^ 32 ∧ pos / g.clstSiz < s.chain.length
  | .extend disk new => Linked (getNext g disk) isEoc (s.chain ++ new)

/-- The cache is right, and so was every search. -/
structure Steady (g : Geo) (first : Nat) (s : Opened) : Prop where
  linked : Linked (getNext g s.disk) isEoc s.chain
  first : s.chain[0]? = some first
  cache : CacheOk g s.cache s.chain
  found : ∀ r ∈ s.found, r.1 = r.2

/-- One operation keeps an opened file's cache right. -/
theorem Steady.step {first : Nat} (s : Opened) (o : CacheOp) (h : Steady g first s) (hc : o.Ok g s) :
    ∃ s', cacheStep g first s o = some s' ∧ Steady g first s' := by
  cases o with
  | search pos =>
    obtain ⟨hpos, hlt⟩ := hc
    have hclst := getElem?_eq_getElem hlt
    obtain ⟨c', hs, hok⟩ := cacheSearch_spec h.linked h.cache hpos hclst
    refine ⟨_, rfl, h.linked, h.first, by rw [hs]; exact hok, fun r hr => ?_⟩
    rcases mem_append.1 hr with hr | hr
    · exact h.found r hr
    · rw [mem_singleton.1 hr, hs, getNextTil]
      exact (h.linked.iterate h.first (by rw [Nat.zero_add, hclst])).symm
  | extend disk new =>
    refine ⟨_, rfl, hc, ?_, h.cache.append new, h.found⟩
    rw [List.getElem?_append_left (List.getElem?_eq_some_iff.1 h.first).1, h.first]

/-- **While the chain of an open file grows at its end, every search returns the cluster that the table leads to** from
the first one in as many steps as there are clusters in front of the place. -/
theorem search_follows (g : Geo) (disk : Disk) (first : Nat) (rest : List Nat)
    (hl : Linked (getNext g disk) isEoc (first :: rest)) (os : List CacheOp)
    (hos : Meets (cacheStep g first) (CacheOp.Ok g) ⟨disk, first :: rest, cacheInit first, []⟩ os) :
    ∃ s, run (cacheStep g first) ⟨disk, first :: rest, cacheInit first, []⟩ os = some s ∧ ∀ r ∈ s.found, r.1 = r.2 := by
  have h₀ : Steady g first ⟨disk, first :: rest, cacheInit first, []⟩ := ⟨hl, rfl, cacheInit_ok rfl, nofun⟩
  obtain ⟨s, hr, h⟩ := run_meets_total Steady.step h₀ hos
  exact ⟨s, hr, h.found⟩

/-- The clusters 2 and 3. -/
def twoClsts : Disk := setNext tiny (setNext tiny (fun _ _ => 0) 2 3) 3 EOC

/-- Cluster 4 behind them. -/
def threeClsts : Disk := setNext tiny (setNext tiny twoClsts 4 EOC) 3 4

def lookups : List CacheOp := [.search 600, .extend threeClsts [4], .search 1100, .search 0]

theorem search_follows_lookups : (run (cacheStep tiny 2) ⟨twoClsts, [2, 3], cacheInit 2, []⟩ lookups).map Opened.found =
    some [(3, 3), (4, 4), (2, 2)] ∧
    ∃ s, run (cacheStep tiny 2) ⟨twoClsts, [2, 3], cacheInit 2, []⟩ lookups = some s ∧ ∀ r ∈ s.found, r.1 = r.2 := by
  refine ⟨by decide +kernel, search_follows tiny twoClsts 2 [3] ?_ lookups ⟨⟨by decide, by decide⟩, ?_⟩⟩
  · exact linked_cons_cons.2 ⟨by decide +kernel, linked_singleton (by decide +kernel)⟩
  rintro _ ⟨⟩
  refine ⟨linked_cons_cons.2 ⟨by decide +kernel, linked_cons_cons.2 ⟨by decide +kernel,
    linked_singleton (by decide +kernel)⟩⟩, ?_⟩
  rintro _ ⟨⟩
  refine ⟨⟨by decide, by decide⟩, ?_⟩
  rintro _ ⟨⟩
  exact ⟨⟨by decide, by decide⟩, fun _ _ => trivial⟩

end TextOS.Fat
