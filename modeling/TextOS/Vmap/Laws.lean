import TextOS.Vmap.Create

/-!
# The laws of mapping
-/

namespace TextOS.Vmap

open Lib Option

variable {m m' : Mem} {cr3 vrt va phy num flgs lv f i j e v new F : Nat} {s s' : State}

/-! ## Pages -/

/-- A canonical address below the recursive slot. -/
def Canon (va : Nat) : Prop := va < 2 ^ 47 ∨ 2 ^ 64 - 2 ^ 47 ≤ va ∧ va < 2 ^ 64 - 2 ^ 39

instance : DecidablePred Canon := fun va => inferInstanceAs (Decidable (va < 2 ^ 47 ∨ _))

/-- The addresses have the same last entry. -/
def SamePage (va vrt : Nat) : Prop := path va 0 = path vrt 0 ∧ idx va 0 = idx vrt 0
deriving Decidable

theorem Canon.below (h : Canon va) : idx va 3 ≠ 511 := by
  simp only [Canon, idx, Nat.reduceMul, Nat.reduceAdd, Nat.reducePow] at h ⊢
  omega

theorem samePage_iff (h : Canon va) (h' : Canon vrt) : SamePage va vrt ↔ va / 4096 = vrt / 4096 := by
  simp only [SamePage, path, List.cons.injEq, and_true, Canon, idx, Nat.reduceMul, Nat.reduceAdd, Nat.reducePow,
    Nat.zero_mul, Nat.zero_add] at h h' ⊢
  omega

/-! ## The last entry -/

section LastEntry

variable (hg : Good m cr3) (hvrt : idx vrt 3 ≠ 511) (hf : tableAt m cr3 vrt 0 = some f)
include hg hvrt hf

theorem follow_last {q : List Nat} (hq : Below q) (v : Nat) :
    follow child (setAt m f (idx vrt 0) v) cr3 q = follow child m cr3 q := by
  refine follow_setAt_of_not_prefix below_of_prefix hg.sep (below_path hvrt 0) hf hq fun h => ?_
  have hlen := h.length_le
  rw [List.length_append, length_path vrt (by omega), List.length_singleton] at hlen
  have := hq.1
  omega

/-- An entry of a last table is written and the tables stay good. -/
theorem good_last (v : Nat) : Good (setAt m f (idx vrt 0) v) cr3 := by
  refine ⟨?_, ?_, ?_⟩
  · rw [setAt_of_ne (self_ne hg hvrt (by omega) hf)]
    exact hg.self
  · intro p q g hp hq hgp hgq
    rw [follow_last hg hvrt hf hp] at hgp
    rw [follow_last hg hvrt hf hq] at hgq
    exact hg.sep p q g hp hq hgp hgq
  intro p g j hp hlen hgp hj hpres
  rw [follow_last hg hvrt hf hp] at hgp
  have hne : g ≠ f := by
    rintro rfl
    have heq := congrArg List.length (hg.sep p _ g hp (below_path hvrt 0) hgp hf)
    rw [length_path vrt (by omega)] at heq
    omega
  rw [setAt_of_ne fun h => hne h.1] at hpres ⊢
  exact hg.small p g j hp hlen hgp hj hpres

/-- A last entry changes the translation of its page alone. -/
theorem entryAt_last (v : Nat) (hva : idx va 3 ≠ 511) :
    entryAt (setAt m f (idx vrt 0) v) cr3 va = if SamePage va vrt then v else entryAt m cr3 va := by
  have hat : tableAt (setAt m f (idx vrt 0) v) cr3 va 0 = tableAt m cr3 va 0 :=
    follow_last hg hvrt hf (below_path hva 0) v
  have hsame : path va 0 = path vrt 0 → tableAt m cr3 va 0 = some f := fun h => by rw [← hf, tableAt, h]
  unfold entryAt
  rw [hat]
  cases hva' : tableAt m cr3 va 0 with
  | none =>
    have hne : ¬ SamePage va vrt := fun h => by
      rw [hsame h.1] at hva'
      cases hva'
    rw [if_neg hne]
  | some g =>
    dsimp only
    split
    · next h =>
      obtain rfl : g = f := some.inj (hva'.symm.trans (hsame h.1))
      rw [h.2, setAt_self]
    next h =>
    apply setAt_of_ne
    rintro ⟨rfl, hi⟩
    exact h ⟨hg.sep _ _ g (below_path hva 0) (below_path hvrt 0) hva' hf, hi⟩

end LastEntry

/-- **Writing the last entry of a page.** -/
theorem setEntry_spec (flgs v : Nat) (hs : Ready s cr3) (hvrt : idx vrt 3 ≠ 511)
    (hpool : absent s.mem cr3 vrt 3 ≤ s.pool.length) :
    ∃ s', setEntry cr3 vrt flgs v s = some s' ∧ Ready s' cr3 ∧
      s.pool.length = s'.pool.length + absent s.mem cr3 vrt 3 ∧
      (∀ va, idx va 3 ≠ 511 → entryAt s'.mem cr3 va = if SamePage va vrt then v else entryAt s.mem cr3 va) ∧
      ∀ q, Below q → (follow child s'.mem cr3 q = none ↔ follow child s.mem cr3 q = none ∧ ∀ l < 3,
      q ≠ path vrt l) := by
  obtain ⟨s1, f, hwalk, hs1, hf, hp1, hm1, hq1⟩ := walk_spec flgs hs hvrt le_rfl rfl hpool
  refine ⟨⟨setAt s1.mem f (idx vrt 0) v, s1.pool⟩, ?_, ⟨?_, ?_, hs1.range, hs1.nodup⟩, hp1, ?_, fun q hq => ?_⟩
  · rw [setEntry, hwalk, bind_some, bind_some, store_entry (hs1.good.clear hvrt 0) (by omega) hf,
      map_some]
  · exact good_last hs1.good hvrt hf v
  · intro g hg p hp
    rw [follow_last hs1.good hvrt hf hp]
    exact hs1.fresh g hg p hp
  · intro va hva
    rw [entryAt_last hs1.good hvrt hf v hva, hm1 va hva]
  · rw [follow_last hs1.good hvrt hf hq, hq1 q hq]

/-! ## The loops -/

/-- Write `w 0`, `w 1`, … to the last entries of the pages from `vrt` on. -/
def setEntries (cr3 flgs : Nat) : (w : Nat → Nat) → (vrt num : Nat) → State → Option State
  | _, _, 0, s => some s
  | w, vrt, num + 1, s =>
    (setEntry cr3 vrt flgs (w 0) s).bind (setEntries cr3 flgs (fun i => w (i + 1)) (u64 (vrt + 4096)) num)

/-- Mapping sets entries. -/
theorem vmapMap_eq (hphy : phy < 2 ^ 64) : vmapMap cr3 flgs phy vrt num s =
    setEntries cr3 flgs (fun i => addr (u64 (phy + 4096 * i)) + flag flgs) vrt num s := by
  induction num generalizing phy vrt s with
  | zero => rfl
  | succ num ih =>
    have h0 : u64 (phy + 4096 * 0) = phy := by
      unfold u64
      omega
    have hnext : ∀ i, u64 (u64 (phy + 4096) + 4096 * i) = u64 (phy + 4096 * (i + 1)) := fun i => by
      unfold u64
      omega
    rw [vmapMap, setEntries, h0]
    congr 1
    funext s'
    have hlt : u64 (phy + 4096) < 2 ^ 64 := Nat.mod_lt _ (by norm_num)
    rw [ih hlt]
    simp only [hnext]

theorem vmapUnmap_eq : vmapUnmap cr3 vrt num s = setEntries cr3 0 (fun _ => 0) vrt num s := by
  induction num generalizing vrt s with
  | zero => rfl
  | succ num ih =>
    rw [vmapUnmap, setEntries]
    congr 1
    funext s'
    exact ih

/-- The ways to the tables of the pages from `vrt` on. -/
def ways (vrt num : Nat) : Finset (List Nat) :=
  (Finset.range num).biUnion fun i => (Finset.range 3).image (path (vrt + 4096 * i))

/-- How many tables are missing for the pages from `vrt` on. -/
def missing (m : Mem) (cr3 vrt num : Nat) : Nat := ((ways vrt num).filter fun q => follow child m cr3 q = none).card

theorem missing_le (m : Mem) (cr3 vrt num : Nat) : missing m cr3 vrt num ≤ 3 * num := by
  refine (Finset.card_filter_le _ _).trans ?_
  have h := Finset.card_biUnion_le_card_mul (Finset.range num)
    (fun i => (Finset.range 3).image (path (vrt + 4096 * i))) 3
    fun i _ => Finset.card_image_le.trans_eq (Finset.card_range 3)
  rwa [Finset.card_range, Nat.mul_comm] at h

theorem ways_succ (vrt num : Nat) : ways vrt (num + 1) = (Finset.range 3).image (path vrt) ∪ ways (vrt + 4096) num := by
  ext q
  simp only [ways, Finset.mem_biUnion, Finset.mem_union, Finset.mem_range]
  constructor
  · rintro ⟨i, hi, hq⟩
    cases i with
    | zero => exact .inl hq
    | succ i => exact .inr ⟨i, by omega, by rwa [show vrt + 4096 + 4096 * i = vrt + 4096 * (i + 1) by ring]⟩
  · rintro (hq | ⟨i, hi, hq⟩)
    · exact ⟨0, by omega, hq⟩
    · exact ⟨i + 1, by omega, by rwa [show vrt + 4096 * (i + 1) = vrt + 4096 + 4096 * i by ring]⟩

theorem card_absent (m : Mem) (cr3 vrt : Nat) :
    (((Finset.range 3).image (path vrt)).filter fun q => follow child m cr3 q = none).card = absent m cr3 vrt 3 := by
  rw [Finset.filter_image, Finset.card_image_of_injOn]
  · rfl
  intro l hl l' hl' heq
  have hl := Finset.mem_range.1 (Finset.mem_filter.1 hl).1
  have hl' := Finset.mem_range.1 (Finset.mem_filter.1 hl').1
  exact path_inj (by omega) (by omega) heq

/-- The tables of the first page are made before the others are looked for. -/
theorem missing_succ (h : ∀ q ∈ ways (vrt + 4096) num,
      (follow child m' cr3 q = none ↔ follow child m cr3 q = none ∧ ∀ l < 3, q ≠ path vrt l)) :
    missing m cr3 vrt (num + 1) = absent m cr3 vrt 3 + missing m' cr3 (vrt + 4096) num := by
  rw [missing, missing, ways_succ, ← card_absent, ← Finset.card_union_of_disjoint]
  · congr 1
    ext q
    simp only [Finset.mem_filter, Finset.mem_union]
    constructor
    · rintro ⟨hq, hnone⟩
      by_cases himg : q ∈ (Finset.range 3).image (path vrt)
      · exact .inl ⟨himg, hnone⟩
      · have hq := hq.resolve_left himg
        refine .inr ⟨hq, (h q hq).2 ⟨hnone, fun l hl heq => himg ?_⟩⟩
        exact Finset.mem_image.2 ⟨l, Finset.mem_range.2 hl, heq.symm⟩
    · rintro (⟨hq, hnone⟩ | ⟨hq, hnone⟩)
      · exact ⟨.inl hq, hnone⟩
      · exact ⟨.inr hq, ((h q hq).1 hnone).1⟩
  · refine Finset.disjoint_left.2 fun q hq hq' => ?_
    obtain ⟨hway, hnone⟩ := Finset.mem_filter.1 hq'
    obtain ⟨l, hl, rfl⟩ := Finset.mem_image.1 (Finset.mem_filter.1 hq).1
    exact ((h _ hway).1 hnone).2 l (Finset.mem_range.1 hl) rfl

section Loop

variable (hcanon : ∀ i < num + 1, Canon (vrt + 4096 * i))
include hcanon

theorem canon_tail : ∀ i < num, Canon (vrt + 4096 + 4096 * i) := fun i hi => by
  have := hcanon (i + 1) (by omega)
  rwa [show vrt + 4096 * (i + 1) = vrt + 4096 + 4096 * i by ring] at this

theorem u64_next : u64 (vrt + 4096) = vrt + 4096 := by
  have hfirst : Canon vrt := hcanon 0 (by omega)
  unfold u64
  unfold Canon at hfirst
  omega

omit hcanon in
theorem absent_le_missing (m : Mem) (cr3 vrt num : Nat) : absent m cr3 vrt 3 ≤ missing m cr3 vrt (num + 1) := by
  rw [← card_absent, missing, ways_succ]
  exact Finset.card_le_card (Finset.filter_subset_filter _ Finset.subset_union_left)

theorem missing_next (h : ∀ q, Below q →
      (follow child m' cr3 q = none ↔ follow child m cr3 q = none ∧ ∀ l < 3, q ≠ path vrt l)) :
    missing m cr3 vrt (num + 1) = absent m cr3 vrt 3 + missing m' cr3 (vrt + 4096) num := by
  refine missing_succ fun q hq => h q ?_
  obtain ⟨i, hi, hq⟩ := Finset.mem_biUnion.1 hq
  obtain ⟨l, -, rfl⟩ := Finset.mem_image.1 hq
  exact below_path (canon_tail hcanon i (Finset.mem_range.1 hi)).below l

end Loop

/-- **The last entries after a loop**: those of the range are written, every other one is as before. -/
theorem setEntries_spec (flgs : Nat) {w : Nat → Nat} (hs : Ready s cr3) (hvrt : vrt % 4096 = 0)
    (hcanon : ∀ i < num, Canon (vrt + 4096 * i)) (hpool : missing s.mem cr3 vrt num ≤ s.pool.length) :
    ∃ s', setEntries cr3 flgs w vrt num s = some s' ∧ Ready s' cr3 ∧ ∀ va, Canon va → entryAt s'.mem cr3 va =
      if vrt ≤ va ∧ va < vrt + 4096 * num then w ((va - vrt) / 4096) else entryAt s.mem cr3 va := by
  induction num generalizing w vrt s with
  | zero =>
    refine ⟨s, rfl, hs, fun va _ => ?_⟩
    rw [if_neg (by omega)]
  | succ num ih =>
    have hfirst : Canon vrt := hcanon 0 (by omega)
    have habs : absent s.mem cr3 vrt 3 ≤ s.pool.length := (absent_le_missing _ _ _ _).trans hpool
    obtain ⟨s1, h1, hs1, hp1, hm1, hq1⟩ := setEntry_spec flgs (w 0) hs hfirst.below habs
    have hmiss := missing_next hcanon hq1
    have hnext := u64_next hcanon
    obtain ⟨s', h', hs', hm'⟩ := ih (w := fun i => w (i + 1)) hs1 (by omega) (canon_tail hcanon) (by omega)
    refine ⟨s', by rw [setEntries, h1, bind_some, hnext, h'], hs', fun va hva => ?_⟩
    rw [hm' va hva, hm1 va hva.below]
    simp only [samePage_iff hva hfirst]
    split
    · -- a later page
      rw [if_pos (by omega), show (va - vrt) / 4096 = (va - (vrt + 4096)) / 4096 + 1 by omega]
    split
    · rw [if_pos (by omega), show (va - vrt) / 4096 = 0 by omega]
    · rw [if_neg (by omega)]

/-- Without frames for the tables that are missing, the loop does not return. -/
theorem setEntries_none (flgs : Nat) {w : Nat → Nat} (hs : Ready s cr3) (hcanon : ∀ i < num, Canon (vrt + 4096 * i))
    (hpool : s.pool.length < missing s.mem cr3 vrt num) : setEntries cr3 flgs w vrt num s = none := by
  induction num generalizing w vrt s with
  | zero => exact absurd hpool (by simp [missing, ways])
  | succ num ih =>
    have hfirst : Canon vrt := hcanon 0 (by omega)
    rw [setEntries]
    by_cases habs : absent s.mem cr3 vrt 3 ≤ s.pool.length
    · obtain ⟨s1, h1, hs1, hp1, -, hq1⟩ := setEntry_spec flgs (w 0) hs hfirst.below habs
      have hmiss := missing_next hcanon hq1
      rw [h1, bind_some, u64_next hcanon]
      exact ih hs1 (canon_tail hcanon) (by omega)
    · rw [setEntry, walk_none flgs hs hfirst.below le_rfl rfl (not_le.1 habs)]
      rfl

/-! ## The laws -/

/-- The translation of an address is the same, for `vmap_query` and for the processor. -/
def SameAt (cr3 : Nat) (m m' : Mem) (va : Nat) : Prop :=
  vmapQuery m' cr3 va = vmapQuery m cr3 va ∧ mmu m' cr3 va = mmu m cr3 va

theorem sameAt_of_entryAt (hg : Good m cr3) (hg' : Good m' cr3) (hva : idx va 3 ≠ 511)
    (h : entryAt m' cr3 va = entryAt m cr3 va) : SameAt cr3 m m' va := by
  constructor
  · rw [vmapQuery_eq hg hva, vmapQuery_eq hg' hva, h]
  · rw [mmu_eq hg hva, mmu_eq hg' hva, h]

theorem vmapQuery_entry (hg : Good m cr3) (hva : idx va 3 ≠ 511) (hphy : phy % 4096 = 0) (hflgs : flgs % 2 = 1)
    (h : entryAt m cr3 va = addr phy + flag flgs) : vmapQuery m cr3 va = some (phy + va % 4096) := by
  have hpres : present (addr phy + flag flgs) = true := by
    simp only [present, addr, flag, beq_iff_eq]
    omega
  have haddr : addr (addr phy + flag flgs) = 2 ^ 12 * (phy / 4096) := by
    simp only [addr, flag]
    omega
  rw [vmapQuery_eq hg hva, h, if_pos hpres, haddr, ← Nat.two_pow_add_eq_or_of_lt (Nat.mod_lt _ (by norm_num))]
  congr 1
  omega

/-- **The laws of `vmap_map` and `vmap_unmap`**: the calls return, the range is mapped to the pages from `phy` on or not
mapped at all, and every other translation outside the recursive slot is as it was. -/
theorem map_laws (s : State) (cr3 flgs phy vrt num : Nat) (hs : Ready s cr3) (hpool : 3 * num ≤ s.pool.length)
    (hphy : phy % 4096 = 0) (hphy64 : phy < 2 ^ 64) (hvrt : vrt % 4096 = 0)
    (hcanon : ∀ i < num, Canon (vrt + 4096 * i)) (hflgs : flgs % 2 = 1) :
    (∃ s', vmapMap cr3 flgs phy vrt num s = some s' ∧
      (∀ i o, i < num → o < 4096 → vmapQuery s'.mem cr3 (vrt + 4096 * i + o) = some (u64 (phy + 4096 * i) + o)) ∧
      ∀ va, Canon va → ¬ (vrt ≤ va ∧ va < vrt + 4096 * num) → SameAt cr3 s.mem s'.mem va) ∧
    ∃ s', vmapUnmap cr3 vrt num s = some s' ∧
      (∀ i o, i < num → o < 4096 → vmapQuery s'.mem cr3 (vrt + 4096 * i + o) = some 0) ∧
      ∀ va, Canon va → ¬ (vrt ≤ va ∧ va < vrt + 4096 * num) → SameAt cr3 s.mem s'.mem va := by
  -- the addresses of the range and the index of their page
  have hin : ∀ i o, i < num → o < 4096 → Canon (vrt + 4096 * i + o) ∧
      (vrt ≤ vrt + 4096 * i + o ∧ vrt + 4096 * i + o < vrt + 4096 * num) ∧
      (vrt + 4096 * i + o - vrt) / 4096 = i ∧ (vrt + 4096 * i + o) % 4096 = o := by
    intro i o hi ho
    have := hcanon i hi
    unfold Canon at this ⊢
    omega
  have hpool : missing s.mem cr3 vrt num ≤ s.pool.length := (missing_le _ _ _ _).trans hpool
  constructor
  · obtain ⟨s', h', hs', hm⟩ := setEntries_spec flgs
      (w := fun i => addr (u64 (phy + 4096 * i)) + flag flgs) hs hvrt hcanon hpool
    refine ⟨s', (vmapMap_eq hphy64).trans h', fun i o hi ho => ?_, fun va hva hout => ?_⟩
    · obtain ⟨hva, hrange, hi', ho'⟩ := hin i o hi ho
      have hentry := hm _ hva
      rw [if_pos hrange, hi'] at hentry
      have haligned : u64 (phy + 4096 * i) % 4096 = 0 := by
        unfold u64
        omega
      rw [vmapQuery_entry hs'.good hva.below haligned hflgs hentry, ho']
    · exact sameAt_of_entryAt hs.good hs'.good hva.below ((hm va hva).trans (if_neg hout))
  · obtain ⟨s', h', hs', hm⟩ := setEntries_spec 0 (w := fun _ => 0) hs hvrt hcanon hpool
    refine ⟨s', vmapUnmap_eq.trans h', fun i o hi ho => ?_, fun va hva hout => ?_⟩
    · obtain ⟨hva, hrange, -, -⟩ := hin i o hi ho
      rw [vmapQuery_eq hs'.good hva.below, hm _ hva, if_pos hrange]
      rfl
    · exact sameAt_of_entryAt hs.good hs'.good hva.below ((hm va hva).trans (if_neg hout))

/-- A top table in frame 1 with nothing but the recursive slot. -/
def bareTable : State := ⟨fun f i => if f = 1 ∧ i = 511 then 4096 + 3 else 0, [2, 3, 4, 5, 6, 7, 8, 9, 10]⟩

theorem bareTable_follow {p : List Nat} (hp : Below p) (hf : follow child bareTable.mem 1 p = some f) :
    p = [] ∧ f = 1 := by
  cases p with
  | nil => exact ⟨rfl, (some.inj hf).symm⟩
  | cons i p =>
    have hi : i ≠ 511 := fun h => hp.2.2 (congrArg some h)
    simp [follow, bareTable, hi, child, present] at hf

theorem ready_bareTable : Ready bareTable 1 := by
  refine ⟨⟨by decide, ?_, ?_⟩, ?_, by decide, by decide⟩
  · intro p q f hp hq hfp hfq
    rw [(bareTable_follow hp hfp).1, (bareTable_follow hq hfq).1]
  · intro p f j _ _ _ _ _
    simp only [bareTable]
    split
    · rfl
    · rfl
  intro g hg p hp hf
  rw [(bareTable_follow hp hf).2] at hg
  revert hg
  decide

/-- A page is mapped; then the two pages behind it, on both sides of the end of a page table, are mapped or unmapped. -/
theorem map_laws_bareTable : ∃ s, vmapMap 1 7 0x9000 0x3fe000 1 bareTable = some s ∧
    (∃ s', vmapMap 1 7 0x5000 0x3ff000 2 s = some s' ∧ vmapQuery s'.mem 1 0x3ff123 = some 0x5123 ∧
      vmapQuery s'.mem 1 0x400000 = some 0x6000 ∧ vmapQuery s'.mem 1 0x3fe000 = some 0x9000) ∧
    ∃ s', vmapUnmap 1 0x3ff000 2 s = some s' ∧ vmapQuery s'.mem 1 0x400000 = some 0 ∧
      vmapQuery s'.mem 1 0x3fe000 = some 0x9000 := by
  obtain ⟨s, hset, hready, -⟩ := setEntries_spec 7 (w := fun i => addr (u64 (0x9000 + 4096 * i)) + flag 7)
    ready_bareTable (show 0x3fe000 % 4096 = 0 by decide) (show ∀ i < 1, Canon (0x3fe000 + 4096 * i) by decide)
    (by decide)
  have hs : vmapMap 1 7 0x9000 0x3fe000 1 bareTable = some s := (vmapMap_eq (by decide)).trans hset
  have hval : (vmapMap 1 7 0x9000 0x3fe000 1 bareTable).map
      (fun s => (s.pool.length, vmapQuery s.mem 1 0x3fe000)) = some (6, some 0x9000) := by decide
  rw [hs] at hval
  obtain ⟨hpool, hbefore⟩ := Prod.mk.inj (some.inj hval)
  obtain ⟨⟨s₁, h₁, hmap, hkept⟩, s₂, h₂, hunmap, hkept'⟩ := map_laws s 1 7 0x5000 0x3ff000 2 hready (by rw [hpool])
    (by decide) (by decide) (by decide) (by decide) (by decide)
  refine ⟨s, hs, ⟨s₁, h₁, hmap 0 0x123 (by decide) (by decide), hmap 1 0 (by decide) (by decide), ?_⟩,
    s₂, h₂, hunmap 1 0 (by decide) (by decide), ?_⟩
  · exact (hkept 0x3fe000 (by decide) (by decide)).1.trans hbefore
  · exact (hkept' 0x3fe000 (by decide) (by decide)).1.trans hbefore

/-- A top table in frame 1 whose entries 0 and 1 point to the same table in frame 2. -/
def sharedTable : State :=
  ⟨fun f i => if f = 1 ∧ i = 511 then 4096 + 3 else if f = 1 ∧ (i = 0 ∨ i = 1) then 8192 + 3 else 0, [3, 4]⟩

theorem sharedTable_follow {p : List Nat} (hp : Below p) (hf : follow child sharedTable.mem 1 p = some f) :
    f = 1 ∨ f = 2 := by
  have hdead : ∀ q, follow child sharedTable.mem 2 q = some f → f = 2 := by
    intro q hq
    cases q with
    | nil => exact (some.inj hq).symm
    | cons i q => simp [follow, sharedTable, child, present] at hq
  cases p with
  | nil => exact .inl (some.inj hf).symm
  | cons i p =>
    have hi : i ≠ 511 := fun h => hp.2.2 (congrArg some h)
    by_cases h01 : i = 0 ∨ i = 1
    · have hentry : child (sharedTable.mem 1 i) = some 2 := by simp [sharedTable, hi, h01, child, present, frame]
      rw [follow, hentry, bind_some] at hf
      exact .inr (hdead p hf)
    · simp [follow, sharedTable, hi, h01, child, present] at hf

/-- **Mapping a page can change another one**: the table has its recursive slot and no large page, the frames to come
are no tables of it, and yet mapping the page 0 maps the page at 2^39. -/
theorem map_shared : child (sharedTable.mem 1 511) = some 1 ∧ (∀ f j, large (sharedTable.mem f j) = false) ∧
    (∀ g ∈ sharedTable.pool, Fresh child sharedTable.mem 1 Below g) ∧ Canon 0 ∧ Canon (2 ^ 39) ∧
    vmapQuery sharedTable.mem 1 (2 ^ 39) = some 0 ∧
    (vmapMap 1 3 0x9000 0 1 sharedTable).map (fun s => vmapQuery s.mem 1 (2 ^ 39)) = some (some 0x9000) := by
  refine ⟨by decide, ?_, ?_, by decide, by decide, by decide, by decide⟩
  · intro f j
    simp only [sharedTable]
    split
    · rfl
    split
    · rfl
    · rfl
  · intro g hg p hp hf
    rcases sharedTable_follow hp hf with rfl | rfl
    · revert hg
      decide
    · revert hg
      decide

end TextOS.Vmap
