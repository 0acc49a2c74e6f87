import TextOS.Pmm.Coalesce
import TextOS.Vmap.Laws

/-!
# Pages for a range: `vmm_phyauto` of `kernel/mm/vmm.c`

`vmm_phyauto` asks `pmm_allocpages` for pages and maps them with `vmap_map`, which in turn asks for the frames of new
tables. The loop halves `unit` when an allocation fails, but asks for `num` pages again: **the range is mapped if and
only if one zone has all its pages, and pages are left for the tables that are missing** (`phyauto_maps`).
-/

namespace TextOS.Vmap

open Lib Pmm List Option

/-- The allocator and the memory of the tables. -/
structure Phys where
  pmm : Pmm.State
  mem : Mem

/-- The frames of the next `k` calls `pmm_allocpages(1)`, as far as they succeed. -/
def frames : Nat → Pmm.State → List Nat
  | 0, _ => []
  | k + 1, p => match pmmAllocpages p 1 with
    | some (page, p') => if page = 0 then [] else page / 4096 :: frames k p'
    | none => []

/-- The allocator after `k` calls `pmm_allocpages(1)`. -/
def takeFrames : Nat → Pmm.State → Pmm.State
  | 0, p => p
  | k + 1, p => match pmmAllocpages p 1 with
    | some (_, p') => takeFrames k p'
    | none => p

/-- `vmap_map` with `pmm_allocpages(1)` behind it. -/
def mapPages (cr3 flgs page vrt num : Nat) (s : Phys) : Option Phys :=
  let pool := frames (sumPages s.pmm.free) s.pmm
  (vmapMap cr3 flgs page vrt num ⟨s.mem, pool⟩).map fun r => ⟨takeFrames (pool.length - r.pool.length) s.pmm, r.mem⟩

/-- The address `vmm_canadjust` leaves. -/
def vmmCanadjust (vrt : Nat) : Nat :=
  if vrt / 2 ^ 47 % 2 = 1 then if vrt / 2 ^ 48 = 0xffff then vrt else vrt ||| 0xffff8 * 2 ^ 44 else vrt

/-- The loop of `vmm_phyauto`, for at most `k` rounds. -/
def phyLoop (cr3 flgs : Nat) : Nat → (unit num vrt : Nat) → Phys → Option (Nat × Phys)
  | 0, _, _, _, _ => none
  | k + 1, unit, num, vrt, s =>
    if num = 0 then some (vrt, s)
    else (pmmAllocpages s.pmm num).bind fun r =>
      if r.1 = 0 then
        if unit / 2 = 0 then none else phyLoop cr3 flgs k (unit / 2) num vrt ⟨r.2, s.mem⟩
      else (mapPages cr3 flgs r.1 vrt num ⟨r.2, s.mem⟩).bind fun s' =>
        phyLoop cr3 flgs k unit (u64 (num + 2 ^ 64 - unit)) (u64 (vrt + 4096 * unit)) s'

/-- `vmm_phyauto`: the address returned and the new state. -/
def vmmPhyauto (cr3 flgs k vrt num : Nat) (s : Phys) : Option (Nat × Phys) :=
  if vrt % 4096 = 0 ∧ vrt ≠ 0 then phyLoop cr3 flgs k num num (vmmCanadjust vrt) s else none

variable {cr3 flgs vrt num page k : Nat} {p p' : Pmm.State} {s : Phys}

/-! ## The allocator -/

/-- Where a zone is large enough, an allocation takes pages. -/
theorem allocpages_takes (hok : ZonesOk p.free) (hp : OnPages p.free) (h1 : 1 ≤ num)
    (hz : ∃ z ∈ p.free, num ≤ z.pages) : ∃ page p', pmmAllocpages p num = some (page, p') ∧ page % 4096 = 0 ∧ page ≠ 0 ∧
    Takes p.free page num p'.free ∧
      OnPages p'.free := by
  obtain ⟨z, hz, hfit⟩ := hz
  rcases allocLoop_split num (ne_nil_of_mem hz) with ⟨-, hall⟩ | ⟨pre, n, rest, hl, hn, hr⟩
  · exact absurd hfit (not_le.2 (hall z hz))
  obtain ⟨hal, h0⟩ := hp n (by simp [hl])
  refine ⟨n.addr, ⟨_, _⟩, by rw [pmmAllocpages, hr, map_some], hal, h0, ?_, ?_⟩
  · rcases allocLoop_spec h1 hok hr with ⟨hzero, -⟩ | ht
    · exact absurd hzero h0
    · exact ht
  · rw [hl] at hok hp
    exact hp.takeFront hok hn

theorem exists_zone (hok : ZonesOk p.free) (h : 1 ≤ sumPages p.free) : ∃ z ∈ p.free, 1 ≤ z.pages := by
  cases hf : p.free with
  | nil => simp [hf] at h
  | cons z l =>
    rw [hf] at hok
    have hlt := (zonesOk_cons.1 hok).1
    refine ⟨z, mem_cons_self, ?_⟩
    unfold Zone.stop at hlt
    omega

/-- A frame whose address is free. -/
def FreeFrame (p : Pmm.State) (g : Nat) : Prop := 0 < g ∧ 4096 * g ∈ freeSet p.free

/-- **The frames to come** are as many as the free pages, free, and different. -/
theorem frames_spec : ∀ {k : Nat} {p : Pmm.State}, ZonesOk p.free → OnPages p.free → k ≤ sumPages p.free →
    (frames k p).length = k ∧ (∀ g ∈ frames k p, FreeFrame p g) ∧ (frames k p).Nodup := by
  intro k
  induction k with
  | zero => intro p _ _ _; exact ⟨rfl, nofun, nodup_nil⟩
  | succ k ih =>
    intro p hok hp hk
    obtain ⟨page, p', hr, hal, h0, ht, hp'⟩ := allocpages_takes hok hp le_rfl (exists_zone hok (by omega))
    have hsum := ht.sum
    obtain ⟨hlen, hfree, hnd⟩ := ih ht.ok hp' (by omega)
    have hpage : 4096 * (page / 4096) = page := by omega
    have heq : frames (k + 1) p = page / 4096 :: frames k p' := by
      rw [frames, hr]
      exact if_neg h0
    have hmem : page ∈ pageRange page 1 := page_mem_pageRange le_rfl
    rw [heq, length_cons, hlen]
    refine ⟨rfl, fun g hg => ?_, nodup_cons.2 ⟨fun hg => ?_, hnd⟩⟩
    · rcases mem_cons.1 hg with rfl | hg
      · refine ⟨by omega, ?_⟩
        rw [hpage, ht.split]
        exact Or.inr hmem
      obtain ⟨hpos, hg⟩ := hfree g hg
      refine ⟨hpos, ?_⟩
      rw [ht.split]
      exact Or.inl hg
    -- the page taken is no longer free
    have h := (hfree _ hg).2
    rw [hpage] at h
    exact Set.disjoint_left.1 ht.disj h hmem

theorem freeSet_takeFrames : ∀ {k : Nat} {p : Pmm.State}, ZonesOk p.free →
    freeSet (takeFrames k p).free ⊆ freeSet p.free := by
  intro k
  induction k with
  | zero => intro p _; exact subset_rfl
  | succ k ih =>
    intro p hok
    rw [takeFrames]
    split
    · next page p' hr =>
      rcases allocpages_cases le_rfl hok hr with ⟨-, rfl⟩ | ⟨ht, -⟩
      · exact ih hok
      refine (ih ht.ok).trans ?_
      rw [ht.split]
      exact Set.subset_union_left
    · exact subset_rfl

/-! ## Mapping -/

/-- The tables are good, the zones are pages of the physical memory, and no free frame is a table. -/
structure Sound (s : Phys) (cr3 : Nat) : Prop where
  good : Good s.mem cr3
  zones : ZonesOk s.pmm.free
  pages : OnPages s.pmm.free
  phys : ∀ a ∈ freeSet s.pmm.free, a < 2 ^ 52
  fresh : ∀ g, FreeFrame s.pmm g → Fresh child s.mem cr3 Below g

theorem Sound.ready (h : Sound s cr3) : Ready ⟨s.mem, frames (sumPages s.pmm.free) s.pmm⟩ cr3 := by
  obtain ⟨-, hfree, hnd⟩ := frames_spec h.zones h.pages le_rfl
  refine ⟨h.good, fun g hg => h.fresh g (hfree g hg), fun g hg => ?_, hnd⟩
  obtain ⟨hpos, hg⟩ := hfree g hg
  have hlt := h.phys _ hg
  exact ⟨hpos, by omega⟩

theorem Sound.takes (h : Sound s cr3) (ht : Takes s.pmm.free page num p'.free) (hp : OnPages p'.free) :
    Sound ⟨p', s.mem⟩ cr3 := by
  have hsub : freeSet p'.free ⊆ freeSet s.pmm.free := by
    rw [ht.split]
    exact Set.subset_union_left
  exact ⟨h.good, ht.ok, hp, fun a ha => h.phys a (hsub ha), fun g hg => h.fresh g ⟨hg.1, hsub hg.2⟩⟩

theorem mmu_entry {m : Mem} {va phy : Nat} (hg : Good m cr3) (hva : idx va 3 ≠ 511) (hphy : phy % 4096 = 0)
    (hlt : phy < 2 ^ 52) (hflgs : flgs % 2 = 1) (h : entryAt m cr3 va = addr phy + flag flgs) :
    mmu m cr3 va = some (phy + va % 4096) := by
  have hpres : present (addr phy + flag flgs) = true := by
    simp only [present, addr, flag, beq_iff_eq]
    omega
  have hframe : 4096 * frame (addr phy + flag flgs) = phy := by
    simp only [frame, addr, flag]
    omega
  rw [mmu_eq hg hva, h, if_pos hpres, hframe]

/-- The pages are mapped, with tables taken from the free frames. -/
theorem mapPages_spec (hs : Sound s cr3) (hroom : missing s.mem cr3 vrt num ≤ sumPages s.pmm.free)
    (hphy : page % 4096 = 0) (hlt : ∀ i < num, page + 4096 * i < 2 ^ 52) (hpage : page < 2 ^ 64) (hvrt : vrt % 4096 = 0)
    (hcanon : ∀ i < num, Canon (vrt + 4096 * i)) (hflgs : flgs % 2 = 1) :
    ∃ s', mapPages cr3 flgs page vrt num s = some s' ∧ freeSet s'.pmm.free ⊆ freeSet s.pmm.free ∧
      (∀ i o, i < num → o < 4096 → mmu s'.mem cr3 (vrt + 4096 * i + o) = some (page + 4096 * i + o)) ∧
      ∀ va, Canon va → ¬ (vrt ≤ va ∧ va < vrt + 4096 * num) → SameAt cr3 s.mem s'.mem va := by
  have hlen := (frames_spec hs.zones hs.pages le_rfl).1
  obtain ⟨r, hr, hready, hm⟩ := setEntries_spec flgs (w := fun i => addr (u64 (page + 4096 * i)) +
    flag flgs) hs.ready hvrt hcanon (by rwa [hlen])
  refine ⟨⟨takeFrames ((frames (sumPages s.pmm.free) s.pmm).length - r.pool.length) s.pmm, r.mem⟩, ?_,
    freeSet_takeFrames hs.zones, fun i o hi ho => ?_, fun va hva hout => ?_⟩
  · rw [mapPages, vmapMap_eq hpage, hr, map_some]
  · have hi' := hcanon i hi
    have hva : Canon (vrt + 4096 * i + o) := by
      unfold Canon at hi' ⊢
      omega
    have hphys := hlt i hi
    have hentry := hm _ hva
    rw [if_pos (by omega), show (vrt + 4096 * i + o - vrt) / 4096 = i by omega, u64_of_lt (by omega)] at hentry
    rw [mmu_entry hready.good hva.below (by omega) hphys hflgs hentry, show (vrt + 4096 * i + o) % 4096 = o by omega]
  · exact sameAt_of_entryAt hs.good hready.good hva.below ((hm va hva).trans (if_neg hout))

/-- Without frames for the tables that are missing, nothing is mapped. -/
theorem mapPages_none (hs : Sound s cr3) (hroom : sumPages s.pmm.free < missing s.mem cr3 vrt num)
    (hpage : page < 2 ^ 64) (hcanon : ∀ i < num, Canon (vrt + 4096 * i)) : mapPages cr3 flgs page vrt num s = none := by
  have hlen := (frames_spec hs.zones hs.pages le_rfl).1
  rw [mapPages, vmapMap_eq hpage, setEntries_none flgs hs.ready hcanon (by rwa [hlen]), map_none]

/-- **Asking for the same pages again**: if no zone has them, the loop ends in the assertion. -/
theorem phyLoop_none (hpos : 0 < num) (hno : ∀ z ∈ s.pmm.free, z.pages < num) :
    ∀ k unit, phyLoop cr3 flgs k unit num vrt s = none := by
  intro k
  induction k with
  | zero => exact fun _ => rfl
  | succ k ih =>
    intro unit
    rw [phyLoop, if_neg hpos.ne']
    by_cases hnil : s.pmm.free = []
    · rw [pmmAllocpages, hnil]
      rfl
    have hfail : pmmAllocpages s.pmm num = some (0, s.pmm) := by
      rcases allocLoop_split num hnil with ⟨hloop, -⟩ | ⟨pre, n, rest, hl, hn, -⟩
      · rw [pmmAllocpages, hloop]
        rfl
      · exact absurd hn (not_le.2 (hno n (by simp [hl])))
    rw [hfail, bind_some, if_pos rfl, ih, ite_self]

theorem vmmCanadjust_of_canon (h : Canon vrt) : vmmCanadjust vrt = vrt := by
  unfold Canon at h
  unfold vmmCanadjust
  split
  · exact if_pos (by omega)
  · rfl

/-- What `vmm_phyauto` is for: the pages of the range are mapped to frames of their own, which were free and are not any
more, and nothing else is mapped. -/
structure Backed (s s' : Phys) (cr3 vrt num : Nat) (g : Nat → Nat) : Prop where
  aligned : ∀ i < num, g i % 4096 = 0
  distinct : ∀ i j, i < num → j < num → g i = g j → i = j
  free : ∀ i < num, pageRange (g i) 1 ⊆ freeSet s.pmm.free
  taken : ∀ i < num, Disjoint (pageRange (g i) 1) (freeSet s'.pmm.free)
  mapped : ∀ i o, i < num → o < 4096 → mmu s'.mem cr3 (vrt + 4096 * i + o) = some (g i + o)
  others : ∀ va, Canon va → ¬ (vrt ≤ va ∧ va < vrt + 4096 * num) → SameAt cr3 s.mem s'.mem va

/-- **`vmm_phyauto` maps the range** if and only if there is nothing to map, or one zone has all its pages and pages are
left for the tables that are missing. -/
theorem phyauto_maps (s : Phys) (cr3 flgs vrt num : Nat) (hs : Sound s cr3) (hvrt : vrt % 4096 = 0)
    (hcanon : ∀ i < num, Canon (vrt + 4096 * i)) (hflgs : flgs % 2 = 1) :
    (∃ v s' g fuel, (∀ k ≥ fuel, vmmPhyauto cr3 flgs k vrt num s = some (v, s')) ∧ Backed s s' cr3 vrt num g) ↔
      vrt ≠ 0 ∧ (num = 0 ∨ (∃ z ∈ s.pmm.free, num ≤ z.pages) ∧
      num + missing s.mem cr3 vrt num ≤ sumPages s.pmm.free) := by
  by_cases h0 : vrt = 0
  · refine iff_of_false (fun ⟨v, s', g, fuel, hrun, _⟩ => ?_) fun h => h.1 h0
    have hnone : vmmPhyauto cr3 flgs fuel vrt num s = none := if_neg fun h => h.2 h0
    rw [hrun fuel le_rfl] at hnone
    cases hnone
  have hstart : ∀ k, vmmPhyauto cr3 flgs k vrt num s = phyLoop cr3 flgs k num num (vmmCanadjust vrt) s := fun k =>
    if_pos ⟨hvrt, h0⟩
  rcases Nat.eq_zero_or_pos num with rfl | hpos
  · refine iff_of_true ⟨vmmCanadjust vrt, s, id, 1, fun k hk => ?_, nofun, nofun, nofun, nofun, nofun,
      fun va _ _ => ⟨rfl, rfl⟩⟩ ⟨h0, .inl rfl⟩
    obtain ⟨k, rfl⟩ := Nat.exists_eq_add_of_le' hk
    rw [hstart]
    rfl
  have hadj : vmmCanadjust vrt = vrt := vmmCanadjust_of_canon (hcanon 0 hpos)
  simp only [hstart, hadj, h0, hpos.ne', ne_eq, not_false_eq_true, true_and, false_or]
  by_cases hzone : ∃ z ∈ s.pmm.free, num ≤ z.pages
  swap
  · refine iff_of_false (fun ⟨v, s', g, fuel, hrun, _⟩ => ?_) fun h => hzone h.1
    have hnone := hrun fuel le_rfl
    rw [phyLoop_none hpos fun z hz => not_le.1 fun h => hzone ⟨z, hz, h⟩] at hnone
    cases hnone
  obtain ⟨page, p', hr, hal, hne, ht, hp'⟩ := allocpages_takes hs.zones hs.pages hpos hzone
  have hsum := ht.sum
  have hlt := ht.lt
  have hround : ∀ k, phyLoop cr3 flgs (k + 1) num num vrt s =
    (mapPages cr3 flgs page vrt num ⟨p', s.mem⟩).bind fun s' =>
      phyLoop cr3 flgs k num (u64 (num + 2 ^ 64 - num)) (u64 (vrt + 4096 * num)) s' := fun k => by
    rw [phyLoop, if_neg hpos.ne', hr, bind_some, if_neg hne]
  by_cases hroom : num + missing s.mem cr3 vrt num ≤ sumPages s.pmm.free
  swap
  · refine iff_of_false (fun ⟨v, s', g, fuel, hrun, _⟩ => ?_) fun h => hroom h.2
    have hnone := hrun (fuel + 1) (by omega)
    rw [hround, mapPages_none (hs.takes ht hp') (by dsimp only; omega) (by omega) hcanon] at hnone
    cases hnone
  refine iff_of_true ?_ ⟨hzone, hroom⟩
  have hin : ∀ i < num, pageRange (page + 4096 * i) 1 ⊆ pageRange page num := by
    intro i hi a ha
    simp only [pageRange, Set.mem_Ico] at ha ⊢
    omega
  have hfree : ∀ i < num, pageRange (page + 4096 * i) 1 ⊆ freeSet s.pmm.free := fun i hi => by
    rw [ht.split]
    exact (hin i hi).trans Set.subset_union_right
  obtain ⟨s', hmap, hsub, hmapped, hothers⟩ := mapPages_spec (hs.takes ht hp') (by dsimp only; omega) hal
    (fun i hi => hs.phys _ (hfree i hi (page_mem_pageRange le_rfl))) (by omega) hvrt hcanon hflgs
  refine ⟨u64 (vrt + 4096 * num), s', fun i => page + 4096 * i, 2, fun k hk => ?_, fun i hi => ?_,
    fun i j _ _ h => ?_, hfree, fun i hi => ?_, hmapped, hothers⟩
  · obtain ⟨k, rfl⟩ := Nat.exists_eq_add_of_le' hk
    have hend : u64 (num + 2 ^ 64 - num) = 0 := by
      rw [Nat.add_sub_cancel_left]
      rfl
    rw [hround, hmap, bind_some, hend]
    rfl
  · omega
  · omega
  · exact (ht.disj.mono_left hsub).symm.mono_left (hin i hi)

/-- One zone of eight pages. -/
def oneZone : Phys := ⟨⟨[⟨8, 0x10000⟩], 8⟩, bareTable.mem⟩

theorem sound_oneZone : Sound oneZone 1 := by
  have hset : freeSet oneZone.pmm.free = Set.Ico 0x10000 0x18000 := by
    simp [oneZone, freeSet, cover, Zone.stop, Set.Ico]
  refine ⟨ready_bareTable.good, ?_, by simp [OnPages, oneZone], fun a ha => ?_, fun g hg p hp hf => ?_⟩
  · rw [show oneZone.pmm.free = [⟨8, 0x10000⟩] from rfl, zonesOk_cons]
    exact ⟨by decide, by decide, by simp [freeSet, cover], zonesOk_nil⟩
  · rw [hset] at ha
    exact ha.2.trans (by norm_num)
  obtain ⟨-, hg⟩ := hg
  rw [(bareTable_follow hp hf).2, hset] at hg
  exact absurd hg.1 (by decide)

theorem phyauto_maps_oneZone : ∃ v s' g fuel, (∀ k ≥ fuel, vmmPhyauto 1 3 k 0x400000 2 oneZone = some (v, s')) ∧
    Backed oneZone s' 1 0x400000 2 g :=
  (phyauto_maps oneZone 1 3 0x400000 2 sound_oneZone (by decide) (by decide) (by decide)).2
    ⟨by decide, .inr ⟨⟨_, mem_cons_self, by decide⟩,
      (Nat.add_le_add_left (missing_le oneZone.mem 1 0x400000 2) 2).trans (by decide)⟩⟩

/-- Eight zones of one page. -/
def eightZones : Phys := ⟨⟨(List.range 8).map fun i => ⟨1, 0x2000 * (i + 1)⟩, 8⟩, bareTable.mem⟩

/-- **The smaller unit is never asked for**: with eight free pages, two pages at 4 MiB are not mapped, since no two of
the pages are neighbours. -/
theorem phyauto_fragmented : 4 * 2 ≤ sumPages eightZones.pmm.free ∧
    ∀ k, vmmPhyauto 1 3 k 0x400000 2 eightZones = none := by
  refine ⟨by decide, fun k => ?_⟩
  rcases k with _ | _ | k
  · rfl
  · rfl
  · rfl

end TextOS.Vmap
