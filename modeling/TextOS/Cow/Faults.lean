import TextOS.Cow.Records

/-!
# Page faults

`pagefault_handler` keeps the invariant, whatever the address (`access_inv`).

- a write to a page with the count 1 makes the entry writable, since nobody else maps the page;
- any other write gives up one of the counts and goes on like a first access.
-/

namespace TextOS.Cow

open Lib List Option

variable {st st' : State} {sp sp' sp₀ : Space} {s s' v pa pg p q n : Nat} {r r' : Rec} {a : Vma} {e : Entry}
  {fs fs' ls : List Nat}

/-! ## Tables -/

theorem setSpace_setSpace (st : State) (s : Nat) (sp sp' : Space) :
    (st.setSpace s sp).setSpace s sp' = st.setSpace s sp' := by
  simp [State.setSpace]

theorem space_setSpace_self (h : st.space s = some sp₀) (sp : Space) : (st.setSpace s sp).space s = some sp := by
  rw [space_setSpace h, if_pos rfl]

/-- An idle frame becomes a page table. -/
theorem Inv.addTable (h : Inv st) (hs : st.space s = some sp) {f : Nat} (hi : Idle st f) (k : Nat × Nat) :
    Inv (st.setSpace s { sp with tables := (k, f) :: sp.tables }) := by
  have hok := h.space s sp hs
  have hframes : ∀ g, g ∈ Space.frames { sp with tables := (k, f) :: sp.tables } → g = f ∨ g ∈ sp.frames := by
    intro g hg
    simp only [Space.frames, map_cons, mem_cons] at hg ⊢
    tauto
  refine h.setSpace hs ?_ ?_ (fun pa hin hin0 => absurd hin hin0) (h.sole s sp hs)
  · refine ⟨hok.ordered, hok.ppgs, hok.keys, hok.pages, ?_, hok.chain, ?_, ?_, ?_⟩
    · exact fun x hx l hl => mem_cons_of_mem _ (hok.tabled x hx l hl)
    · have hf := hi.frames s sp hs
      have hn := hok.frames
      simp only [Space.frames, map_cons, nodup_cons, mem_cons, not_or] at hf hn ⊢
      exact ⟨⟨Ne.symm hf.1, hn.1⟩, hf.2, hn.2⟩
    · intro g hg
      rcases hframes g hg with rfl | hg
      · exact hi.alloc
      · exact hok.alloc g hg
    intro p r hr hg
    rcases hframes r.pa hg with he | hg
    · exact hi.recs p r hr he
    · exact hok.recs p r hr hg
  · intro s' sp' hne hs' g hg hg'
    rcases hframes g hg with rfl | hg
    · exact hi.frames s' sp' hs' hg'
    · exact h.apart s s' sp sp' hs hs' hne.symm hg hg'

theorem Idle.addTable (hi : Idle st pg) (hs : st.space s = some sp) {f : Nat} (hne : pg ≠ f) (k : Nat × Nat) :
    Idle (st.setSpace s { sp with tables := (k, f) :: sp.tables }) pg := by
  refine ⟨hi.alloc, hi.recs, fun s' sp' hs' => ?_⟩
  rw [space_setSpace hs] at hs'
  split at hs'
  · obtain rfl := some.inj hs'
    have := hi.frames s sp hs
    simp only [Space.frames, map_cons, mem_cons, not_or] at this ⊢
    exact ⟨this.1, hne, this.2⟩
  · exact hi.frames s' sp' hs'

/-- The tables on the way to a page are there after the walk, and nothing but tables of the address space changes. -/
structure Walked (st st' : State) (s : Nat) (sp : Space) (v : Nat) (ls : List Nat)
    (tables : List ((Nat × Nat) × Nat)) : Prop where
  inv : Inv st'
  space : st'.space s = some { sp with tables }
  ppgs : st'.ppgs = st.ppgs
  next : st'.next = st.next
  idle : ∀ pg, Idle st pg → Idle st' pg
  kept : ∀ k ∈ sp.tables.map Prod.fst, k ∈ tables.map Prod.fst
  there : ∀ l ∈ ls, (l, v / 512 ^ l) ∈ tables.map Prod.fst

/-- A walk adds the tables that are missing, and nothing else. -/
theorem walkTables_spec (h : Inv st) (hs : st.space s = some sp) (hw : walkTables s v ls fs st = some (st', fs')) :
    ∃ tables, Walked st st' s sp v ls tables := by
  induction ls generalizing st sp fs with
  | nil =>
    obtain ⟨rfl, rfl⟩ := Prod.mk.inj (some.inj hw)
    exact ⟨sp.tables, h, hs, rfl, rfl, fun _ hi => hi, fun _ hk => hk, nofun⟩
  | cons l ls ih =>
    rw [walkTables, hs, bind_some] at hw
    split at hw
    · next hl =>
      obtain ⟨tables, hw⟩ := ih h hs hw
      refine ⟨tables, hw.inv, hw.space, hw.ppgs, hw.next, hw.idle, hw.kept, ?_⟩
      intro l' hl'
      rcases mem_cons.1 hl' with rfl | hl'
      · exact hw.kept _ hl
      · exact hw.there l' hl'
    cases fs with
    | nil => cases hw
    | cons f fs =>
      obtain ⟨st1, ht, hw⟩ := bind_eq_some_iff.1 hw
      obtain ⟨hf, rfl⟩ := take_eq_some.1 ht
      have hi := h.idle_take hf.2
      obtain ⟨tables, hw⟩ := ih ((h.take hf).addTable hs hi (l, v / 512 ^ l)) (space_setSpace_self hs _) hw
      refine ⟨tables, hw.inv, hw.space, hw.ppgs, hw.next, ?_, ?_, ?_⟩
      · intro pg hpg
        have hne : pg ≠ f := by
          rintro rfl
          exact hf.2 hpg.alloc
        exact hw.idle pg ((hpg.take f).addTable hs hne _)
      · exact fun k hk => hw.kept k (mem_cons_of_mem _ hk)
      intro l' hl'
      rcases mem_cons.1 hl' with rfl | hl'
      · exact hw.kept _ mem_cons_self
      · exact hw.there l' hl'

theorem walkTables_of_tabled (hs : st.space s = some sp) (ht : ∀ l ∈ ls, (l, v / 512 ^ l) ∈ sp.tables.map Prod.fst)
    (fs : List Nat) : walkTables s v ls fs st = some (st, fs) := by
  induction ls with
  | nil => rfl
  | cons l ls ih =>
    rw [walkTables, hs, bind_some, if_pos (ht l mem_cons_self)]
    exact ih fun l' hl' => ht l' (mem_cons_of_mem _ hl')

theorem vmapEdit_of_tabled (hs : st.space s = some sp)
    (ht : ∀ l ∈ [3, 2, 1], (l, v / 512 ^ l) ∈ sp.tables.map Prod.fst) (fs : List Nat) (edit : Space → Space) :
    vmapEdit st s v fs edit = some (st.setSpace s (edit sp), fs) := by
  rw [vmapEdit, walkTables_of_tabled hs ht, bind_some, hs]
  rfl

theorem vmapEdit_spec {edit : Space → Space} (h : Inv st) (hs : st.space s = some sp)
    (he : vmapEdit st s v fs edit = some (st', fs')) :
    ∃ st1 tables, Walked st st1 s sp v [3, 2, 1] tables ∧ st' = st1.setSpace s (edit { sp with tables }) := by
  obtain ⟨⟨st1, fs1⟩, hw, he⟩ := bind_eq_some_iff.1 he
  obtain ⟨tables, hw⟩ := walkTables_spec h hs hw
  rw [hw.space] at he
  obtain ⟨rfl, -⟩ := Prod.mk.inj (some.inj he)
  exact ⟨st1, tables, hw, rfl⟩

/-! ## Entries -/

theorem SpaceOk.unset (h : SpaceOk st sp) (v : Nat) : SpaceOk st (sp.unset v) where
  __ := h
  keys := h.keys.sublist (filter_sublist.map Prod.fst)
  pages := h.pages.sublist (filter_sublist.map _)
  tabled := fun x hx => h.tabled x (mem_unset.1 hx).1
  chain := fun x hx => h.chain x (mem_unset.1 hx).1

/-- An entry is set below existing tables, inside an area that owns the frame. -/
theorem SpaceOk.set (h : SpaceOk st sp) (ht : ∀ l ∈ [3, 2, 1], (l, v / 512 ^ l) ∈ sp.tables.map Prod.fst)
    (ha : a ∈ sp.areas) (hv : a.s ≤ v ∧ v < a.t) (hc : Chained st a.ppgs e.pa) (hpa : e.pa ∉ (sp.unset v).pages) :
    SpaceOk st (sp.set v e) where
  __ := h
  keys := by
    refine nodup_cons.2 ⟨?_, (h.unset v).keys⟩
    intro hmem
    obtain ⟨x, hx, hxv⟩ := mem_map.1 hmem
    exact (mem_unset.1 hx).2 hxv
  pages := nodup_cons.2 ⟨hpa, (h.unset v).pages⟩
  tabled := by
    intro x hx
    rcases mem_set.1 hx with rfl | ⟨hx, -⟩
    · exact ht
    · exact h.tabled x hx
  chain := by
    intro x hx
    rcases mem_set.1 hx with rfl | ⟨hx, -⟩
    · exact ⟨a, ha, hv, hc⟩
    · exact h.chain x hx

theorem SpaceOk.notMem_unset (h : SpaceOk st sp) (hx : (v, e) ∈ sp.ents) : e.pa ∉ (sp.unset v).pages := by
  intro hm
  obtain ⟨x, hx', hpa⟩ := mem_pages.1 hm
  obtain ⟨hx', hne⟩ := mem_unset.1 hx'
  exact hne (congrArg Prod.fst (inj_on_of_nodup_map h.pages hx' hx hpa))

theorem Inv.unset (h : Inv st) (hs : st.space s = some sp) (v : Nat) : Inv (st.setSpace s (sp.unset v)) := by
  refine h.setSpace hs ((h.space s sp hs).unset v) ?_ ?_ ?_
  · exact fun s' sp' hne hs' => h.apart s s' sp sp' hs hs' hne.symm
  · intro pa hin hin0
    obtain ⟨x, hx, hpa⟩ := mem_pages.1 hin
    exact absurd (mem_pages.2 ⟨x, (mem_unset.1 hx).1, hpa⟩) hin0
  · exact fun x hx => h.sole s sp hs x (mem_unset.1 hx).1

theorem mappers_unset (h : SpaceOk st sp) (hs : st.space s = some sp) (hx : (v, e) ∈ sp.ents) :
    mappers (st.setSpace s (sp.unset v)) e.pa + 1 = mappers st e.pa := by
  have hm := mappers_setSpace hs (sp.unset v) e.pa
  simp only [Space.maps, decide_eq_true_eq] at hm
  rwa [if_neg (h.notMem_unset hx), if_pos (mem_pages.2 ⟨_, hx, rfl⟩)] at hm

/-- **Recording and mapping an idle page.** -/
theorem Inv.mapNew (h : Inv st) (hs : st.space s = some sp) (hi : Idle st pg)
    (ht : ∀ l ∈ [3, 2, 1], (l, v / 512 ^ l) ∈ sp.tables.map Prod.fst) (ha : a ∈ sp.areas) (hv : a.s ≤ v ∧ v < a.t)
    (rw' : Bool) : Inv ((vmmPpgRegst st a.ppgs pg).setSpace s (sp.set v ⟨pg, rw'⟩)) := by
  have hr := h.regst hi ((h.space s sp hs).ppgs a ha)
  have hs1 : (vmmPpgRegst st a.ppgs pg).space s = some sp := hs
  have hm : mappers (vmmPpgRegst st a.ppgs pg) pg = 0 := h.mappers_idle hi
  have hnot : pg ∉ sp.pages := h.notMem_pages hi.recs hs
  refine hr.setSpace hs1 ?_ ?_ ?_ ?_
  · refine (hr.space s sp hs1).set ht ha hv (chained_regst st a.ppgs pg) ?_
    intro hmem
    obtain ⟨x, hx, hpa⟩ := mem_pages.1 hmem
    exact hnot (mem_pages.2 ⟨x, (mem_unset.1 hx).1, hpa⟩)
  · exact fun s' sp' hne hs' => h.apart s s' sp sp' hs hs' hne.symm
  · intro pa hin hin0
    obtain ⟨x, hx, hpa⟩ := mem_pages.1 hin
    rcases mem_set.1 hx with rfl | ⟨hx, -⟩
    · obtain rfl : pg = pa := hpa
      refine ⟨hm, fun p r hr' hpa' => ?_⟩
      rcases has_addRec.1 hr' with ⟨-, rfl⟩ | hr'
      · exact le_rfl
      · exact absurd hpa' (hi.recs p r hr')
    · exact absurd (mem_pages.2 ⟨x, hx, hpa⟩) hin0
  · intro x hx hrw
    rcases mem_set.1 hx with rfl | ⟨hx, -⟩
    · exact hm.le.trans zero_le_one
    · exact h.sole s sp hs x hx hrw

/-! ## The handler -/

theorem touch_inv {data : Option (Nat → Nat)} (h : Inv st) (hs : st.space s = some sp) (ha : sp.areaOf v = some a)
    (ht : touch st s v a pg data fs = some st') : Inv st' := by
  obtain ⟨st1, htake, ht⟩ := bind_eq_some_iff.1 ht
  obtain ⟨hpg, rfl⟩ := take_eq_some.1 htake
  obtain ⟨⟨st2, fs2⟩, hmap, rfl⟩ := map_eq_some_iff.1 ht
  have hmem := (h.take hpg).setMem (Function.update st.mem pg (data.getD (st.mem pg)))
  have hidle := h.idle_take hpg.2
  obtain ⟨st3, tables, hw, rfl⟩ := vmapEdit_spec hmem hs hmap
  obtain ⟨hin, hv⟩ := areaOf_eq_some ha
  exact hw.inv.mapNew hw.space (hw.idle pg ⟨hidle.alloc, hidle.recs, hidle.frames⟩) hw.there hin hv a.writable

/-- A page with the count 1 is mapped by its user only, so that the entry may become writable. -/
theorem own_inv (h : Inv st) (hs : st.space s = some sp) (hx : (v, e) ∈ sp.ents) (ha : a ∈ sp.areas)
    (hv : a.s ≤ v ∧ v < a.t) (hr : Has st q r) (hpa : r.pa = e.pa) (h1 : r.refcnt = 1) :
    Inv (vmmPpgReparent (st.setSpace s (sp.set v ⟨e.pa, true⟩)) q r a.ppgs) := by
  have hok := h.space s sp hs
  have hone : mappers st e.pa ≤ 1 := by
    rw [← hpa, ← h1]
    exact h.count q r hr
  have hpages : ∀ pa ∈ (sp.set v ⟨e.pa, true⟩).pages, pa ∈ sp.pages := by
    intro pa hin
    obtain ⟨x, hx', rfl⟩ := mem_pages.1 hin
    rcases mem_set.1 hx' with rfl | ⟨hx', -⟩
    · exact mem_pages.2 ⟨_, hx, rfl⟩
    · exact mem_pages.2 ⟨x, hx', rfl⟩
  obtain ⟨a', ha', hv', hc⟩ := hok.chain _ hx
  obtain rfl := hok.ordered.eq_of_mem ha' ha hv' hv
  have hnot : e.pa ∉ (sp.unset v).pages := hok.notMem_unset hx
  have hset : Inv (st.setSpace s (sp.set v ⟨e.pa, true⟩)) := by
    refine h.setSpace hs (hok.set (hok.tabled _ hx) ha hv hc hnot) ?_ ?_ ?_
    · exact fun s' sp' hne hs' => h.apart s s' sp sp' hs hs' hne.symm
    · exact fun pa hin hin0 => absurd (hpages pa hin) hin0
    intro x hx' hrw
    rcases mem_set.1 hx' with rfl | ⟨hx', -⟩
    · exact hone
    · exact h.sole s sp hs x hx' hrw
  refine hset.reparent hr (hok.ppgs a' ha) ?_
  intro s' sp' hs' x hx' hpa' b hb hbv
  rw [space_setSpace hs] at hs'
  split at hs'
  · obtain rfl := some.inj hs'
    rcases mem_set.1 hx' with rfl | ⟨hx', hne⟩
    · exact congrArg Vma.ppgs (hok.ordered.eq_of_mem hb ha hbv hv)
    · exact absurd (mem_pages.2 ⟨x, mem_unset.2 ⟨hx', hne⟩, hpa'.trans hpa⟩) hnot
  next hne =>
  have := two_le_mappers hs' hs hne (mem_pages.2 ⟨x, hx', hpa'.trans hpa⟩) (mem_pages.2 ⟨_, hx, rfl⟩)
  omega

/-- The writer's private copy takes the place of the shared frame. -/
theorem copy_inv {mem : Nat → Nat → Nat} (h : Inv st) (hs : st.space s = some sp) (hx : (v, e) ∈ sp.ents)
    (ha : a ∈ sp.areas) (hv : a.s ≤ v ∧ v < a.t) (hr : Has st q r) (hpa : r.pa = e.pa)
    (hpg : pg ≠ 0 ∧ pg ∉ st.alloc) :
    Inv ((vmmPpgRegst { setRec st q e.pa Rec.dec with alloc := pg :: st.alloc, mem } a.ppgs pg).setSpace s
      (sp.set v ⟨pg, true⟩)) := by
  have hok := h.space s sp hs
  -- the entry goes first, so that the count is above the number of mappers when it goes down
  have hunset := h.unset hs v
  have hs1 := space_setSpace_self hs (sp.unset v)
  have hc : mappers (st.setSpace s (sp.unset v)) r.pa + 1 ≤ r.refcnt := by
    rw [hpa, mappers_unset hok hs hx, ← hpa]
    exact h.count q r hr
  have hdec := hunset.decRec hr hc
  have hmem := (hdec.take hpg).setMem mem
  have hidle := hdec.idle_take hpg.2
  have hnew := hmem.mapNew hs1 ⟨hidle.alloc, hidle.recs, hidle.frames⟩ (hok.tabled _ hx) ha hv true
  rw [set_unset] at hnew
  have heq := setSpace_setSpace (vmmPpgRegst { setRec st q r.pa Rec.dec with alloc := pg :: st.alloc, mem } a.ppgs pg) s
    (sp.unset v) (sp.set v ⟨pg, true⟩)
  rw [hpa] at heq hnew
  rw [← heq]
  exact hnew

/-- A write to a shared page keeps the invariant. -/
theorem copyOnWrite_inv (h : Inv st) (hs : st.space s = some sp) (ha : sp.areaOf v = some a) (hq : sp.query v = some e)
    (hc : copyOnWrite st s v a e pg fs = some st') : Inv st' := by
  have hok := h.space s sp hs
  have hx := (query_eq_some hok.keys).1 hq
  obtain ⟨hin, hv⟩ := areaOf_eq_some ha
  unfold copyOnWrite at hc
  split at hc
  · cases hc
  next q r hquery =>
  obtain ⟨hr, hpa⟩ := has_of_query hquery
  split at hc
  · next h1 =>
    rw [vmapMap, vmapEdit_of_tabled hs (hok.tabled _ hx)] at hc
    obtain rfl := some.inj hc
    exact own_inv h hs hx hin hv hr hpa h1
  obtain ⟨st1, ht, hc⟩ := bind_eq_some_iff.1 hc
  obtain ⟨hpg, rfl⟩ := take_eq_some.1 ht
  have hs1 : State.space (vmmPpgRegst { setRec st q e.pa Rec.dec with
      alloc := pg :: st.alloc, mem := Function.update st.mem pg (st.mem e.pa) } a.ppgs pg) s = some sp := hs
  have hmap := vmapEdit_of_tabled hs1 (hok.tabled _ hx) fs fun sp => sp.set v ⟨pg, true⟩
  obtain ⟨y, hy, rfl⟩ := map_eq_some_iff.1 hc
  obtain rfl := some.inj (hmap.symm.trans hy)
  exact copy_inv h hs hx hin hv hr hpa hpg

/-- A page fault keeps the invariant. -/
theorem pagefaultHandler_inv {write : Bool} {data : Nat → Nat} (h : Inv st)
    (hf : pagefaultHandler st s v write pg data fs = some st') : Inv st' := by
  obtain ⟨sp, hs, hf⟩ := bind_eq_some_iff.1 hf
  split at hf
  · obtain rfl := some.inj hf
    exact h
  · next a ha hq =>
    split at hf
    · exact touch_inv h hs ha hf
    split at hf
    · exact touch_inv h hs ha hf
    split at hf
    · cases hf
    · obtain rfl := some.inj hf
      exact h
  · next a e ha hq =>
    split at hf
    · exact copyOnWrite_inv h hs ha hq hf
    · obtain rfl := some.inj hf
      exact h

/-- **Every access keeps the invariant.** -/
theorem access_inv {write : Bool} {data : Nat → Nat} (h : Inv st) (ha : access st s v write pg data fs = some st') :
    Inv st' := by
  obtain ⟨sp, -, ha⟩ := bind_eq_some_iff.1 ha
  split at ha
  · exact pagefaultHandler_inv h ha
  split at ha
  · exact pagefaultHandler_inv h ha
  · obtain rfl := some.inj ha
    exact h

end TextOS.Cow
