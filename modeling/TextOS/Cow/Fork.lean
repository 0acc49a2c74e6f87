import TextOS.Cow.Faults

/-!
# Address spaces come and go: `fork` and `execve`

A fork adds a mapper to every page of the parent, and counts the records of the first tables of the chains only. The
invariant is kept if these are the records of all pages of the parent (`recorded`, `fork_inv`).

The second half of `execve` frees every mapped page, and then gives up the records of the first tables once for every
table of the chain. It is harmless for an address space that is `bare`: nothing is mapped, and nothing is recorded in
its first tables (`leave_inv`).
-/

namespace TextOS.Cow

open Lib List

variable {st st' : State} {sp sp' : Space} {s s' v pa pg p q n root : Nat} {r r' : Rec} {a : Vma} {e : Entry}
  {fs fs' : List Nat}

/-- Every page of the address space has a record in the first table of an area. -/
def recorded (st : State) (s : Nat) : Bool :=
  (st.space s).all fun sp =>
    sp.pages.all fun pa => sp.areas.any fun a => (st.ppgs a.ppgs).ht.any fun r => r.pa == pa

/-- Nothing is mapped, and nothing is recorded in the first tables. -/
def bare (st : State) (s : Nat) : Bool :=
  (st.space s).all fun sp => sp.ents.isEmpty && sp.areas.all fun a => (st.ppgs a.ppgs).ht.isEmpty

theorem recorded_spec (h : recorded st s = true) (hs : st.space s = some sp) (hpa : pa ∈ sp.pages) :
    ∃ a ∈ sp.areas, ∃ r, Has st a.ppgs r ∧ r.pa = pa := by
  rw [recorded, hs, Option.all_some, all_eq_true] at h
  obtain ⟨a, ha, hr⟩ := any_eq_true.1 (h pa hpa)
  obtain ⟨r, hr, he⟩ := any_eq_true.1 hr
  exact ⟨a, ha, r, hr, by simpa using he⟩

theorem bare_spec (h : bare st s = true) (hs : st.space s = some sp) :
    sp.ents = [] ∧ ∀ a ∈ sp.areas, (st.ppgs a.ppgs).ht = [] := by
  rw [bare, hs, Option.all_some, Bool.and_eq_true, List.isEmpty_iff, List.all_eq_true] at h
  exact ⟨h.1, fun a ha => List.isEmpty_iff.1 (h.2 a ha)⟩

theorem Idle.ext (h : Idle st pg) (hx : Ext st st') : Idle st' pg where
  alloc := hx.alloc ▸ h.alloc
  recs := by
    intro p r' hr'
    obtain ⟨r, hr, hpa⟩ := hx.old p r' hr'
    rw [← hpa]
    exact h.recs p r hr
  frames := by
    intro s sp hs
    rw [space_congr hx.spaces] at hs
    exact h.frames s sp hs

theorem Chained.ext (hp : p < st.next) (h : Chained st p pa) (hx : Ext st st') : Chained st' p pa := by
  obtain ⟨q, r, hup, hr, hpa⟩ := h
  obtain ⟨r', hr', hpa', -⟩ := hx.has q r hr
  exact ⟨q, r', hx.up p q hp hup, hr', hpa'.trans hpa⟩

theorem Chained.trans (hup : Up st p q) (h : Chained st q pa) : Chained st p pa := by
  obtain ⟨q', r, hup', hr, hpa⟩ := h
  exact ⟨q', r, hup.trans hup', hr, hpa⟩

/-! ## A new program -/

theorem newAreas_spec (as : List Mman.Area) (h : Inv st) :
    Ext st (newAreas as st).2 ∧ (newAreas as st).1.map Vma.toArea = as ∧
      ∀ a ∈ (newAreas as st).1, a.ppgs < (newAreas as st).2.next := by
  induction as generalizing st with
  | nil => exact ⟨.refl h, rfl, nofun⟩
  | cons a as ih =>
    obtain ⟨hx, hlt, -⟩ := vmmPpgNew_spec h none nofun
    obtain ⟨hx', hmap, hlt'⟩ := ih hx.inv
    refine ⟨hx.trans hx', congrArg (a :: ·) hmap, ?_⟩
    intro b hb
    rcases mem_cons.1 hb with rfl | hb
    · exact hlt.trans_le hx'.next
    · exact hlt' b hb

/-- **A new program keeps the invariant.** -/
theorem enter_inv {image : Image} (h : Inv st) (he : enter st image root = some st') : Inv st' := by
  obtain ⟨st1, ht, rfl⟩ := Option.map_eq_some_iff.1 he
  obtain ⟨hroot, rfl⟩ := take_eq_some.1 ht
  obtain ⟨hx, hmap, hlt⟩ := newAreas_spec image.areas (h.take hroot)
  have hi := (h.idle_take hroot.2).ext hx
  refine hx.inv.addSpace ⟨?_, hlt, .nil, .nil, nofun, nofun, ?_, ?_, ?_⟩ ?_ nofun nofun ?_
  · have hord := image.ordered
    rw [← hmap, ordered_map] at hord
    exact hord
  · exact nodup_singleton _
  · intro f hf
    obtain rfl := mem_singleton.1 hf
    exact hi.alloc
  · exact fun p r hr hf => hi.recs p r hr (mem_singleton.1 hf)
  · intro s' sp' hs' f hf hf'
    obtain rfl := mem_singleton.1 hf
    exact hi.frames s' sp' hs' hf'
  · exact fun s' sp' hs' x hx' hrw => not_mem_nil

/-! ## A copy of an address space -/

/-- The child's tables are fresh frames at the parent's places. -/
theorem copyTables_spec {ts ts' : List ((Nat × Nat) × Nat)} (h : Inv st) (hc : copyTables ts fs st = some (ts', st')) :
    (∃ al, st' = { st with alloc := al }) ∧ Inv st' ∧ ts'.map Prod.fst = ts.map Prod.fst ∧ (ts'.map Prod.snd).Nodup ∧
      (∀ f ∈ ts'.map Prod.snd, Idle st' f) ∧ ∀ pg, Idle st pg → Idle st' pg ∧ pg ∉ ts'.map Prod.snd := by
  induction ts generalizing st fs ts' with
  | nil =>
    obtain ⟨rfl, rfl⟩ := Prod.mk.inj (Option.some.inj hc)
    exact ⟨⟨st.alloc, rfl⟩, h, rfl, .nil, nofun, fun pg hi => ⟨hi, not_mem_nil⟩⟩
  | cons t ts ih =>
    cases fs with
    | nil => cases hc
    | cons f fs =>
      obtain ⟨st1, ht, hc⟩ := Option.bind_eq_some_iff.1 hc
      obtain ⟨hf, rfl⟩ := take_eq_some.1 ht
      obtain ⟨⟨ts1, st2⟩, hrest, he⟩ := Option.map_eq_some_iff.1 hc
      obtain ⟨rfl, rfl⟩ := Prod.mk.inj he
      obtain ⟨⟨al, hal⟩, hinv, hkeys, hnodup, hidle, hkeep⟩ := ih (h.take hf) hrest
      obtain ⟨hi, hnot⟩ := hkeep f (h.idle_take hf.2)
      refine ⟨⟨al, hal⟩, hinv, congrArg (t.1 :: ·) hkeys, nodup_cons.2 ⟨hnot, hnodup⟩, ?_, ?_⟩
      · intro g hg
        rcases mem_cons.1 hg with rfl | hg
        · exact hi
        · exact hidle g hg
      intro pg hpg
      obtain ⟨hi', hnot'⟩ := hkeep pg (hpg.take f)
      refine ⟨hi', ?_⟩
      rw [map_cons, mem_cons, not_or]
      refine ⟨?_, hnot'⟩
      rintro rfl
      exact hf.2 hpg.alloc

/-- The areas of a copy: below each table of records there is a new one, and its records are counted once more. -/
theorem newVmas_spec {as : List Vma} (h : Inv st) (hlt : ∀ a ∈ as, a.ppgs < st.next) :
    Ext st (newVmas as st).2 ∧ (newVmas as st).1.map Vma.toArea = as.map Vma.toArea ∧
      (∀ a ∈ (newVmas as st).1, a.ppgs < (newVmas as st).2.next) ∧
      ∀ a ∈ as, (∃ a' ∈ (newVmas as st).1, a'.toArea = a.toArea ∧ Up (newVmas as st).2 a'.ppgs a.ppgs) ∧
        ∀ r, Has st a.ppgs r → ∃ r', Has (newVmas as st).2 a.ppgs r' ∧ r'.pa = r.pa ∧ r.refcnt + 1 ≤ r'.refcnt := by
  induction as generalizing st with
  | nil => exact ⟨.refl h, rfl, nofun, nofun⟩
  | cons a as ih =>
    have hnew := vmmPpgNew_spec h (some a.ppgs) (by rintro _ ⟨⟩; exact hlt a mem_cons_self)
    obtain ⟨hx, hfresh, hcount⟩ := hnew
    obtain ⟨hup, hinc⟩ := hcount a.ppgs rfl
    obtain ⟨hx', hmap, hlt', hall⟩ := ih hx.inv fun b hb => (hlt b (mem_cons_of_mem _ hb)).trans_le hx.next
    refine ⟨hx.trans hx', congrArg (a.toArea :: ·) hmap, ?_, ?_⟩
    · intro b hb
      rcases mem_cons.1 hb with rfl | hb
      · exact hfresh.trans_le hx'.next
      · exact hlt' b hb
    intro b hb
    rcases mem_cons.1 hb with rfl | hb
    · refine ⟨⟨_, mem_cons_self, rfl, hx'.up _ _ hfresh hup⟩, fun r hr => ?_⟩
      obtain ⟨r1, hr1, hpa1, hc1⟩ := hinc r hr
      obtain ⟨r2, hr2, hpa2, hc2⟩ := hx'.has _ r1 hr1
      exact ⟨r2, hr2, hpa2.trans hpa1, hc1.trans hc2⟩
    obtain ⟨⟨b', hb', harea, hup'⟩, hinc'⟩ := hall b hb
    refine ⟨⟨b', mem_cons_of_mem _ hb', harea, hup'⟩, fun r hr => ?_⟩
    obtain ⟨r1, hr1, hpa1, hc1⟩ := hx.has _ r hr
    obtain ⟨r2, hr2, hpa2, hc2⟩ := hinc' r1 hr1
    exact ⟨r2, hr2, hpa2.trans hpa1, (Nat.add_le_add_right hc1 1).trans hc2⟩

section ReadOnly

variable (sp)

theorem pages_readOnly : Space.pages { sp with ents := sp.ents.map readOnly } = sp.pages := by
  simp [Space.pages, readOnly]

theorem keys_readOnly : (sp.ents.map readOnly).map Prod.fst = sp.ents.map Prod.fst := by simp [readOnly]

variable {sp}

/-- The parent's entries are locked. -/
theorem Inv.readOnly (h : Inv st) (hs : st.space s = some sp) :
    Inv (st.setSpace s { sp with ents := sp.ents.map readOnly }) := by
  have hok := h.space s sp hs
  refine h.setSpace hs ⟨hok.ordered, hok.ppgs, ?_, ?_, ?_, ?_, hok.frames, hok.alloc, hok.recs⟩ ?_ ?_ ?_
  · rw [keys_readOnly]
    exact hok.keys
  · rw [pages_readOnly]
    exact hok.pages
  · exact forall_mem_map.2 hok.tabled
  · exact forall_mem_map.2 hok.chain
  · exact fun s' sp' hne hs' => h.apart s s' sp sp' hs hs' hne.symm
  · intro pa hin hin0
    rw [pages_readOnly] at hin
    exact absurd hin hin0
  · exact forall_mem_map.2 fun x hx hrw => nomatch hrw

theorem Idle.readOnly (hi : Idle st pg) (hs : st.space s = some sp) :
    Idle (st.setSpace s { sp with ents := sp.ents.map readOnly }) pg := by
  refine ⟨hi.alloc, hi.recs, fun s' sp' hs' => ?_⟩
  rw [space_setSpace hs] at hs'
  split at hs'
  · obtain rfl := Option.some.inj hs'
    exact hi.frames s sp hs
  · exact hi.frames s' sp' hs'

end ReadOnly

/-- **A fork keeps the invariant** if every page of the parent is recorded in the first table of an area. -/
theorem fork_inv (h : Inv st) (hrec : recorded st s = true) (hf : fork st s root fs = some st') : Inv st' := by
  obtain ⟨sp, hs, hf⟩ := Option.bind_eq_some_iff.1 hf
  obtain ⟨st1, ht, hf⟩ := Option.bind_eq_some_iff.1 hf
  obtain ⟨hroot, rfl⟩ := take_eq_some.1 ht
  obtain ⟨⟨tables, st2⟩, hc, rfl⟩ := Option.map_eq_some_iff.1 hf
  obtain ⟨⟨al, rfl⟩, hinv, hkeys, hnodup, hidle, hkeep⟩ := copyTables_spec (h.take hroot) hc
  obtain ⟨hri, hrnot⟩ := hkeep root (h.idle_take hroot.2)
  -- the parent loses its writable entries, then the tables of records grow
  have hro := hinv.readOnly hs
  have hs2 : State.space { st with alloc := al } s = some sp := hs
  have hs3 := space_setSpace_self hs2 { sp with ents := sp.ents.map Cow.readOnly }
  have hok := hro.space s _ hs3
  obtain ⟨hx, hmap, hlt, hall⟩ := newVmas_spec hro hok.ppgs
  dsimp only
  generalize hst4 : newVmas sp.areas (State.setSpace { st with alloc := al } s
    { sp with ents := sp.ents.map Cow.readOnly }) = r at hx hmap hlt hall
  obtain ⟨areas, st4⟩ := r
  have hs4 : st4.space s = some { sp with ents := sp.ents.map Cow.readOnly } := (space_congr hx.spaces s).trans hs3
  have hframes : ∀ f ∈ root :: tables.map Prod.snd, Idle st4 f := by
    intro f hmem
    rcases mem_cons.1 hmem with rfl | hmem
    · exact (hri.readOnly hs).ext hx
    · exact ((hidle f hmem).readOnly hs).ext hx
  refine hx.inv.addSpace ⟨?_, hlt, hok.keys, hok.pages, ?_, ?_, nodup_cons.2 ⟨hrnot, hnodup⟩, ?_, ?_⟩ ?_ ?_ ?_ ?_
  · have hord : Ordered Mman.Area.s Mman.Area.t (sp.areas.map Vma.toArea) := ordered_map.2 hok.ordered
    rw [← hmap] at hord
    exact ordered_map.1 hord
  · intro x hx' l hl
    rw [hkeys]
    exact hok.tabled x hx' l hl
  · intro x hx'
    obtain ⟨a, ha, hax, hch⟩ := hok.chain x hx'
    obtain ⟨⟨a', ha', harea, hup⟩, -⟩ := hall a ha
    refine ⟨a', ha', ?_, .trans hup (hch.ext (hok.ppgs a ha) hx)⟩
    rw [harea]
    exact hax
  · exact fun f hmem => (hframes f hmem).alloc
  · exact fun p r hr hmem => (hframes r.pa hmem).recs p r hr rfl
  · exact fun s' sp' hs' f hmem => (hframes f hmem).frames s' sp' hs'
  · -- the child maps what the parent maps, and each such page is counted once more
    intro p r hr hmem
    have hmem' : r.pa ∈ sp.pages := by rwa [← pages_readOnly sp]
    obtain ⟨a, ha, r0, hr0, hpa0⟩ := recorded_spec hrec hs hmem'
    obtain ⟨r1, hr1, hpa1, hc1⟩ := (hall a ha).2 r0 hr0
    obtain ⟨-, rfl⟩ := hx.inv.recs.eq_of_pa hr hr1 (hpa1.trans hpa0).symm
    have hm : mappers st4 r.pa = mappers st r.pa :=
      (mappers_congr hx.spaces r.pa).trans (mappers_setSpace_eq hs2 (pages_readOnly sp) r.pa)
    rw [hm]
    have := h.count a.ppgs r0 hr0
    rw [hpa0] at this
    omega
  · exact forall_mem_map.2 fun x _ => rfl
  intro s' sp' hs' x hx' hrw hmem
  have hle := hx.inv.sole s' sp' hs' x hx' hrw
  by_cases hne : s' = s
  · subst hne
    obtain rfl := Option.some.inj (hs'.symm.trans hs4)
    obtain ⟨y, -, rfl⟩ := mem_map.1 hx'
    cases hrw
  · have := two_le_mappers hs' hs4 hne (mem_pages.2 ⟨x, hx', rfl⟩) hmem
    omega

/-! ## The old program -/

theorem vmmPpgClear_of_nil (s : Nat) (h : (st.ppgs p).ht = []) : vmmPpgClear s p st = st := by
  have hht : clearHt s p st = st := by
    rw [clearHt]
    induction List.range 32 with
    | nil => rfl
    | cons i l ih =>
      rw [foldl_cons, h]
      exact ih
  exact Function.iterate_fixed hht _

theorem clearAreas_of_nil {as : List Vma} (st : State) (s : Nat) (h : ∀ a ∈ as, (st.ppgs a.ppgs).ht = []) :
    as.foldl (fun st a => vmmPpgClear s a.ppgs st) st = st := by
  induction as with
  | nil => rfl
  | cons a as ih =>
    rw [foldl_cons, vmmPpgClear_of_nil s (h a mem_cons_self)]
    exact ih fun b hb => h b (mem_cons_of_mem _ hb)

theorem space_dropSpace (hne : s' ≠ s) : State.space { st with spaces := st.spaces.set s none } s' = st.space s' := by
  rw [State.space, State.space, getElem?_set_ne (Ne.symm hne)]

/-- A space's idle frames are freed one after another. -/
theorem freeFrames_spec (h : Inv { st with spaces := st.spaces.set s none })
    (hi : ∀ f ∈ fs, Idle { st with spaces := st.spaces.set s none } f) (hn : fs.Nodup) :
    ∃ al log, fs.foldl (fun st pa => st.free pa (st.usedOutside s pa)) st = { st with alloc := al, log } ∧
      Inv { st with spaces := st.spaces.set s none, alloc := al, log } := by
  induction fs generalizing st with
  | nil => exact ⟨st.alloc, st.log, rfl, h⟩
  | cons f fs ih =>
    obtain ⟨hnot, hn⟩ := nodup_cons.1 hn
    have hf := hi f mem_cons_self
    have hused : st.usedOutside s f = false := by
      refine not_usedOutside fun s' sp' hne hs' => ?_
      rw [← space_dropSpace hne] at hs'
      exact ⟨hf.frames s' sp' hs', h.notMem_pages hf.recs hs'⟩
    rw [foldl_cons, hused]
    have hfree : Inv { st.free f false with spaces := st.spaces.set s none } := h.free hf
    refine ih hfree ?_ hn
    intro g hg
    have hg' := hi g (mem_cons_of_mem _ hg)
    have hgf : g ≠ f := by
      rintro rfl
      exact hnot hg
    exact ⟨(mem_erase_of_ne hgf).2 hg'.alloc, hg'.recs, hg'.frames⟩

/-- **The second half of `execve` keeps the invariant** if the address space is bare. -/
theorem leave_inv (h : Inv st) (hbare : bare st s = true) (hl : leave st s = some st') : Inv st' := by
  obtain ⟨sp, hs, rfl⟩ := Option.map_eq_some_iff.1 hl
  obtain ⟨hents, hht⟩ := bare_spec hbare hs
  have hok := h.space s sp hs
  have hperm : (sp.tables.map Prod.snd ++ [sp.root]).Perm sp.frames := perm_append_singleton _ _
  have hidle : ∀ f ∈ sp.tables.map Prod.snd ++ [sp.root], Idle { st with spaces := st.spaces.set s none } f := by
    intro f hf
    have hf := hperm.mem_iff.1 hf
    refine ⟨hok.alloc f hf, fun p r hr he => hok.recs p r hr (he ▸ hf), fun s' sp' hs' => ?_⟩
    by_cases hne : s' = s
    · subst hne
      have := getElem?_of_space hs'
      rw [List.getElem?_set_self (List.getElem?_eq_some_iff.1 (getElem?_of_space hs)).1] at this
      cases this
    · rw [space_dropSpace hne] at hs'
      exact fun hf' => h.apart s s' sp sp' hs hs' (Ne.symm hne) hf hf'
  obtain ⟨al, log, hfold, hinv⟩ := freeFrames_spec (h.dropSpace hs) hidle (hperm.nodup_iff.2 hok.frames)
  have hclear : clearPgt s sp st = { st with alloc := al, log } := by
    rw [clearPgt, Space.pages, hents]
    exact hfold
  rw [hclear, clearAreas_of_nil { st with alloc := al, log } s hht]
  exact hinv

end TextOS.Cow
