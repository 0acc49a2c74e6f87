import TextOS.Cow.Inv

/-!
# Pages and their records

What the primitives of `pmm.c` and `ppg.c` do to the invariant.

- a page that was just allocated is idle (`Inv.idle_take`); an idle page may be recorded (`Inv.regst`) or freed
  (`Inv.free`).
-/

namespace TextOS.Cow

open Lib List Function

variable {st st' : State} {sp sp' : Space} {s s' v pa pg p q n : Nat} {r r' : Rec} {a : Vma} {e : Entry} {l : List Rec}

/-! ## The pool -/

theorem mappers_eq_zero (h : ∀ s sp, st.space s = some sp → pa ∉ sp.pages) : mappers st pa = 0 := by
  rw [mappers, countP_eq_zero]
  intro o ho
  cases o with
  | none => simp
  | some sp =>
    obtain ⟨s, hs⟩ := mem_iff_getElem?.1 ho
    have := h s sp (by rw [State.space, hs]; rfl)
    simpa [Space.maps] using this

theorem Inv.exists_rec (h : Inv st) (hs : st.space s = some sp) (hm : pa ∈ sp.pages) : ∃ q r, Has st q r ∧
    r.pa = pa := by
  obtain ⟨x, hx, rfl⟩ := mem_pages.1 hm
  obtain ⟨a, -, -, q, r, -, hr, hpa⟩ := (h.space s sp hs).chain x hx
  exact ⟨q, r, hr, hpa⟩

theorem Inv.notMem_pages (h : Inv st) (hi : ∀ p r, Has st p r → r.pa ≠ pg) (hs : st.space s = some sp) :
    pg ∉ sp.pages := by
  intro hm
  obtain ⟨q, r, hr, hpa⟩ := h.exists_rec hs hm
  exact hi q r hr hpa

theorem Inv.mappers_idle (h : Inv st) (hi : Idle st pg) : mappers st pg = 0 :=
  mappers_eq_zero fun _ _ hs => h.notMem_pages hi.recs hs

theorem take_eq_some : st.take pg = some st' ↔
    (pg ≠ 0 ∧ pg ∉ st.alloc) ∧ st' = { st with alloc := pg :: st.alloc } := by
  unfold State.take
  split
  · next hpg => exact iff_of_false nofun fun h => hpg.elim h.1.1 h.1.2
  next hpg =>
  rw [not_or] at hpg
  rw [Option.some_inj]
  exact ⟨fun h => ⟨hpg, h.symm⟩, fun h => h.2.symm⟩

/-- **Allocating a page.** -/
theorem Inv.take (h : Inv st) (hpg : pg ≠ 0 ∧ pg ∉ st.alloc) : Inv { st with alloc := pg :: st.alloc } := by
  refine h.pool ?_ ?_ (nodup_cons.2 ⟨hpg.2, h.nodup⟩) ?_ h.log
  · exact fun s sp hs f hf => mem_cons_of_mem _ ((h.space s sp hs).alloc f hf)
  · exact fun p r hr => mem_cons_of_mem _ (h.recs.alloc p r hr)
  · rw [mem_cons, not_or]
    exact ⟨Ne.symm hpg.1, h.pos⟩

theorem Inv.idle_take (h : Inv st) (hpg : pg ∉ st.alloc) : Idle { st with alloc := pg :: st.alloc } pg where
  alloc := mem_cons_self
  recs := by
    rintro p r hr rfl
    exact hpg (h.recs.alloc p r hr)
  frames := fun s sp hs hf => hpg ((h.space s sp hs).alloc pg hf)

theorem Idle.take (hi : Idle st pg) (f : Nat) : Idle { st with alloc := f :: st.alloc } pg :=
  ⟨mem_cons_of_mem _ hi.alloc, hi.recs, hi.frames⟩

/-- **Freeing an idle page.** -/
theorem Inv.free (h : Inv st) (hi : Idle st pg) : Inv (st.free pg false) := by
  have hmem : ∀ f ∈ st.alloc, f ≠ pg → f ∈ st.alloc.erase pg := fun f hf hne => (mem_erase_of_ne hne).2 hf
  refine h.pool ?_ ?_ (h.nodup.erase pg) (fun h0 => h.pos (mem_of_mem_erase h0)) ?_
  · intro s sp hs f hf
    refine hmem f ((h.space s sp hs).alloc f hf) ?_
    rintro rfl
    exact hi.frames s sp hs hf
  · exact fun p r hr => hmem r.pa (h.recs.alloc p r hr) (hi.recs p r hr)
  intro f hf
  rcases mem_cons.1 hf with rfl | hf
  · exact ⟨decide_eq_true hi.alloc, rfl⟩
  · exact h.log f hf

/-! ## One table -/

theorem parent_setHt (st : State) (p : Nat) (l : List Rec) (q : Nat) :
    ((st.setPpg p { st.ppgs p with ht := l }).ppgs q).parent = (st.ppgs q).parent := by
  by_cases hq : q = p
  · subst hq
    simp [State.setPpg]
  · simp [State.setPpg, update_of_ne hq]

theorem has_setHt : Has (st.setPpg p { st.ppgs p with ht := l }) q r ↔ q = p ∧ r ∈ l ∨ q ≠ p ∧ Has st q r := by
  by_cases hq : q = p
  · subst hq
    simp [Has, State.setPpg]
  · simp [Has, State.setPpg, hq]

/-- A table's records are replaced. -/
theorem Recs.setHt (h : Recs st) (hl : (l.map Rec.pa).Nodup)
    (hin : ∀ r ∈ l, p < st.next ∧ r.fixed = false ∧ r.pa ∈ st.alloc)
    (huniq : ∀ q r r', q ≠ p → Has st q r → r' ∈ l → r.pa ≠ r'.pa) :
    Recs (st.setPpg p { st.ppgs p with ht := l }) where
  parents := by
    intro q q' hq
    rw [parent_setHt] at hq
    exact h.parents q q' hq
  nodup := by
    intro q
    by_cases hq : q = p
    · subst hq
      simpa [State.setPpg] using hl
    · simpa [State.setPpg, update_of_ne hq] using h.nodup q
  unique := by
    intro q q' r r' hr hr' hpa
    rcases has_setHt.1 hr with ⟨hq, hl⟩ | ⟨hq, hst⟩
    · rcases has_setHt.1 hr' with ⟨hq', -⟩ | ⟨hq', hst'⟩
      · exact hq.trans hq'.symm
      · exact absurd hpa.symm (huniq q' r' r hq' hst' hl)
    rcases has_setHt.1 hr' with ⟨-, hl'⟩ | ⟨-, hst'⟩
    · exact absurd hpa (huniq q r r' hq hst hl')
    · exact h.unique q q' r r' hst hst' hpa
  old := by
    intro q r hr
    rcases has_setHt.1 hr with ⟨rfl, hl⟩ | ⟨-, hst⟩
    · exact (hin r hl).1
    · exact h.old q r hst
  plain := by
    intro q r hr
    rcases has_setHt.1 hr with ⟨-, hl⟩ | ⟨-, hst⟩
    · exact (hin r hl).2.1
    · exact h.plain q r hst
  alloc := by
    intro q r hr
    rcases has_setHt.1 hr with ⟨-, hl⟩ | ⟨-, hst⟩
    · exact (hin r hl).2.2
    · exact h.alloc q r hst

theorem Recs.change (h : Recs st) (hl : (l.map Rec.pa).Nodup)
    (hin : ∀ r ∈ l, ∃ r0, Has st p r0 ∧ r0.pa = r.pa ∧ r0.fixed = r.fixed) :
    Recs (st.setPpg p { st.ppgs p with ht := l }) := by
  refine h.setHt hl ?_ ?_
  · intro r hr
    obtain ⟨r0, hr0, hpa, hfix⟩ := hin r hr
    exact ⟨h.old p r0 hr0, hfix ▸ h.plain p r0 hr0, hpa ▸ h.alloc p r0 hr0⟩
  intro q r r' hq hr hr' hpa
  obtain ⟨r0, hr0, hpa0, -⟩ := hin r' hr'
  exact hq (h.unique q p r r0 hr hr0 (hpa.trans hpa0.symm))

/-! ## Adding a record -/

theorem has_addRec : Has (addRec st p r) q r' ↔ q = p ∧ r' = r ∨ Has st q r' := by
  rw [addRec, has_setHt, mem_cons]
  by_cases hq : q = p
  · subst hq
    simp [Has]
  · simp [hq]

/-- A page without a record gets one. -/
theorem Recs.addRec (h : Recs st) (hp : p < st.next) (hfix : r.fixed = false) (hal : r.pa ∈ st.alloc)
    (hnew : ∀ q r', Has st q r' → r'.pa ≠ r.pa) : Recs (addRec st p r) := by
  refine h.setHt ?_ ?_ ?_
  · rw [map_cons, nodup_cons]
    refine ⟨fun hmem => ?_, h.nodup p⟩
    obtain ⟨r', hr', hpa⟩ := mem_map.1 hmem
    exact hnew p r' hr' hpa
  · intro r' hr'
    rcases mem_cons.1 hr' with rfl | hr'
    · exact ⟨hp, hfix, hal⟩
    · exact ⟨hp, h.plain p r' hr', h.alloc p r' hr'⟩
  intro q r1 r2 hq hr1 hr2 hpa
  rcases mem_cons.1 hr2 with rfl | hr2
  · exact hnew q r1 hr1 hpa
  · exact hq (h.unique q p r1 r2 hr1 hr2 hpa)

/-- **Recording an idle page.** -/
theorem Inv.regst (h : Inv st) (hi : Idle st pg) (hp : p < st.next) : Inv (vmmPpgRegst st p pg) := by
  refine h.records (h.recs.addRec hp rfl hi.alloc hi.recs) rfl rfl rfl le_rfl ?_ ?_ ?_
  · intro s sp hs x hx a ha hax hc
    exact hc.mono (parent_setHt st p _) fun q r hr hpa => ⟨r, has_addRec.2 (.inr hr), hpa⟩
  · intro q r hr
    rcases has_addRec.1 hr with ⟨rfl, rfl⟩ | hr
    · exact (h.mappers_idle hi).le.trans (Nat.zero_le _)
    · exact h.count q r hr
  intro q r hr s sp hs
  rcases has_addRec.1 hr with ⟨rfl, rfl⟩ | hr
  · exact hi.frames s sp hs
  · exact (h.space s sp hs).recs q r hr

theorem chained_regst (st : State) (p pg : Nat) : Chained (vmmPpgRegst st p pg) p pg :=
  ⟨p, ⟨pg, 1, false⟩, .refl, has_addRec.2 (.inl ⟨rfl, rfl⟩), rfl⟩

/-! ## Changing a record -/

/-- The records after one count has been lowered. -/
theorem has_decRec (h : Recs st) (hr : Has st q r) :
    Has (setRec st q r.pa Rec.dec) p r' ↔ p = q ∧ r' = r.dec ∨ Has st p r' ∧ r'.pa ≠ r.pa := by
  rw [setRec, has_setHt, mem_updFirst (h.nodup q)]
  constructor
  · rintro (⟨rfl, ⟨hr', hne⟩ | ⟨r0, hr0, hpa, rfl⟩⟩ | ⟨hpq, hr'⟩)
    · exact .inr ⟨hr', hne⟩
    · obtain ⟨-, rfl⟩ := h.eq_of_pa hr0 hr hpa
      exact .inl ⟨rfl, rfl⟩
    · exact .inr ⟨hr', fun hpa => hpq (h.unique p q r' r hr' hr hpa)⟩
  rintro (⟨rfl, rfl⟩ | ⟨hr', hne⟩)
  · exact .inl ⟨rfl, .inr ⟨r, hr, rfl, rfl⟩⟩
  by_cases hpq : p = q
  · subst hpq
    exact .inl ⟨rfl, .inl ⟨hr', hne⟩⟩
  · exact .inr ⟨hpq, hr'⟩

theorem Recs.decRec (h : Recs st) (q pa : Nat) : Recs (setRec st q pa Rec.dec) := by
  refine h.change ?_ ?_
  · rw [map_key_updFirst (f := Rec.dec) fun _ => rfl]
    exact h.nodup q
  intro r' hr'
  rcases (mem_updFirst (h.nodup q)).1 hr' with ⟨hr', -⟩ | ⟨r0, hr0, -, rfl⟩
  · exact ⟨r', hr', rfl, rfl⟩
  · exact ⟨r0, hr0, rfl, rfl⟩

/-- **A count that is above the number of mappers may go down.** -/
theorem Inv.decRec (h : Inv st) (hr : Has st q r) (hc : mappers st r.pa + 1 ≤ r.refcnt) :
    Inv (setRec st q r.pa Rec.dec) := by
  refine h.records (h.recs.decRec q r.pa) rfl rfl rfl le_rfl ?_ ?_ ?_
  · intro s sp hs x hx a ha hax hch
    refine hch.mono (parent_setHt st q _) fun p r' hr' hpa => ?_
    by_cases he : r'.pa = r.pa
    · obtain ⟨rfl, rfl⟩ := h.recs.eq_of_pa hr' hr he
      exact ⟨r'.dec, (has_decRec h.recs hr).2 (.inl ⟨rfl, rfl⟩), hpa⟩
    · exact ⟨r', (has_decRec h.recs hr).2 (.inr ⟨hr', he⟩), hpa⟩
  · intro p r' hr'
    rcases (has_decRec h.recs hr).1 hr' with ⟨rfl, rfl⟩ | ⟨hr', -⟩
    · have h0 : r.refcnt ≠ 0 := by omega
      simp only [Rec.dec, if_neg h0]
      omega
    · exact h.count p r' hr'
  intro p r' hr' s sp hs
  rcases (has_decRec h.recs hr).1 hr' with ⟨rfl, rfl⟩ | ⟨hr', -⟩
  · exact (h.space s sp hs).recs p r hr
  · exact (h.space s sp hs).recs p r' hr'

/-! ## Removing a record -/

theorem has_delRec (h : Recs st) (hr : Has st q r) : Has (delRec st q r.pa) p r' ↔ Has st p r' ∧ r'.pa ≠ r.pa := by
  rw [delRec, has_setHt, mem_eraseP_key (h.nodup q)]
  constructor
  · rintro (⟨rfl, hr'⟩ | ⟨hpq, hr'⟩)
    · exact hr'
    · exact ⟨hr', fun hpa => hpq (h.unique p q r' r hr' hr hpa)⟩
  rintro ⟨hr', hne⟩
  by_cases hpq : p = q
  · subst hpq
    exact .inl ⟨rfl, hr', hne⟩
  · exact .inr ⟨hpq, hr'⟩

theorem Recs.delRec (h : Recs st) (q pa : Nat) : Recs (delRec st q pa) := by
  refine h.change ?_ ?_
  · exact (h.nodup q).sublist (eraseP_sublist.map Rec.pa)
  · exact fun r' hr' => ⟨r', mem_of_mem_eraseP hr', rfl, rfl⟩

/-- **A record without a mapper may go**, and its page is idle then. -/
theorem Inv.delRec (h : Inv st) (hr : Has st q r) (h0 : mappers st r.pa = 0) :
    Inv (delRec st q r.pa) ∧ Idle (delRec st q r.pa) r.pa := by
  constructor
  · refine h.records (h.recs.delRec q r.pa) rfl rfl rfl le_rfl ?_ ?_ ?_
    · intro s sp hs x hx a ha hax hch
      refine hch.mono (parent_setHt st q _) fun p r' hr' hpa => ⟨r', (has_delRec h.recs hr).2 ⟨hr', ?_⟩, hpa⟩
      intro he
      have := one_le_mappers hs (mem_pages.2 ⟨x, hx, (hpa.symm.trans he)⟩)
      omega
    · exact fun p r' hr' => h.count p r' ((has_delRec h.recs hr).1 hr').1
    · exact fun p r' hr' s sp hs => (h.space s sp hs).recs p r' ((has_delRec h.recs hr).1 hr').1
  refine ⟨h.recs.alloc q r hr, ?_, ?_⟩
  · exact fun p r' hr' => ((has_delRec h.recs hr).1 hr').2
  · exact fun s sp hs => (h.space s sp hs).recs q r hr

theorem vmmPpgUnref_eq (h : Recs st) (hr : Has st q r) (used : Bool) :
    vmmPpgUnref st q r.pa used = if r.dec.refcnt = 0
      then (delRec ((setRec st q r.pa Rec.dec).free r.pa used) q r.pa, true)
      else (setRec st q r.pa Rec.dec, false) := by
  have hf : ((setRec st q r.pa Rec.dec).ppgs q).ht.find? (fun r' => r'.pa == r.pa) = some r.dec :=
    find?_key ((h.decRec q r.pa).nodup q) ((has_decRec h hr).2 (.inl ⟨rfl, rfl⟩)) rfl
  have hfix : r.dec.fixed = false := h.plain q r hr
  rw [vmmPpgUnref]
  simp only [hf, hfix, and_true]

/-- **`vmm_ppg_unref`** of a record whose count is above the number of mappers. -/
theorem Inv.unref (h : Inv st) (used : Bool) (hr : Has st q r) (hc : mappers st r.pa + 1 ≤ r.refcnt)
    (hused : r.refcnt = 1 → used = false) : Inv (vmmPpgUnref st q r.pa used).1 := by
  have hdec : r.dec.refcnt = r.refcnt - 1 := if_neg (by omega)
  have hinv := h.decRec hr hc
  rw [vmmPpgUnref_eq h.recs hr]
  split
  · next h0 =>
    have hr' : Has (setRec st q r.pa Rec.dec) q r.dec := (has_decRec h.recs hr).2 (.inl ⟨rfl, rfl⟩)
    have hm : mappers (setRec st q r.pa Rec.dec) r.pa = 0 := by
      have : mappers (setRec st q r.pa Rec.dec) r.pa = mappers st r.pa := mappers_congr rfl _
      omega
    obtain ⟨hdel, hidle⟩ := hinv.delRec hr' hm
    rw [hused (by omega)]
    exact hdel.free hidle
  · exact hinv

/-! ## Moving a record -/

/-- **A record may move to the table of the area of its only mapper.** -/
theorem Inv.reparent (h : Inv st) (hr : Has st q r) (hp : p < st.next)
    (honly : ∀ s sp, st.space s = some sp → ∀ x ∈ sp.ents, x.2.pa = r.pa → ∀ a ∈ sp.areas, a.s ≤ x.1 ∧ x.1 < a.t →
      a.ppgs = p) : Inv (vmmPpgReparent st q r p) := by
  have hhas : ∀ p' r', Has (vmmPpgReparent st q r p) p' r' ↔ p' = p ∧ r' = r ∨ Has st p' r' ∧ r'.pa ≠ r.pa := by
    intro p' r'
    rw [vmmPpgReparent, has_addRec, has_delRec h.recs hr]
  have hparent : ∀ p', ((vmmPpgReparent st q r p).ppgs p').parent = (st.ppgs p').parent := fun p' =>
    (parent_setHt (Cow.delRec st q r.pa) p _ p').trans (parent_setHt st q _ p')
  refine h.records ?_ rfl rfl rfl le_rfl ?_ ?_ ?_
  · refine (h.recs.delRec q r.pa).addRec hp (h.recs.plain q r hr) (h.recs.alloc q r hr) ?_
    exact fun p' r' hr' => ((has_delRec h.recs hr).1 hr').2
  · intro s sp hs x hx a ha hax hch
    by_cases he : x.2.pa = r.pa
    · obtain rfl := honly s sp hs x hx he a ha hax
      exact ⟨a.ppgs, r, .refl, (hhas _ _).2 (.inl ⟨rfl, rfl⟩), he.symm⟩
    · refine hch.mono hparent fun p' r' hr' hpa => ⟨r', (hhas _ _).2 (.inr ⟨hr', ?_⟩), hpa⟩
      exact fun he' => he (hpa.symm.trans he')
  · intro p' r' hr'
    rcases (hhas p' r').1 hr' with ⟨rfl, rfl⟩ | ⟨hr', -⟩
    · exact h.count q r' hr
    · exact h.count p' r' hr'
  intro p' r' hr' s sp hs
  rcases (hhas p' r').1 hr' with ⟨rfl, rfl⟩ | ⟨hr', -⟩
  · exact (h.space s sp hs).recs q r' hr
  · exact (h.space s sp hs).recs p' r' hr'

/-! ## A new table -/

/-- The address spaces, the pages and the log are the same, and there may be more tables and higher counts. -/
structure Ext (st st' : State) : Prop where
  inv : Inv st'
  spaces : st'.spaces = st.spaces
  alloc : st'.alloc = st.alloc
  next : st.next ≤ st'.next
  up : ∀ p q, p < st.next → Up st p q → Up st' p q
  has : ∀ p r, Has st p r → ∃ r', Has st' p r' ∧ r'.pa = r.pa ∧ r.refcnt ≤ r'.refcnt
  old : ∀ p r', Has st' p r' → ∃ r, Has st p r ∧ r.pa = r'.pa

theorem Ext.refl (h : Inv st) : Ext st st :=
  ⟨h, rfl, rfl, le_rfl, fun _ _ _ hup => hup, fun _ r hr => ⟨r, hr, rfl, le_rfl⟩, fun _ r hr => ⟨r, hr, rfl⟩⟩

theorem Ext.trans {st1 st2 st3 : State} (h : Ext st1 st2) (h' : Ext st2 st3) : Ext st1 st3 where
  inv := h'.inv
  spaces := h'.spaces.trans h.spaces
  alloc := h'.alloc.trans h.alloc
  next := h.next.trans h'.next
  up := fun p q hp hup => h'.up p q (hp.trans_le h.next) (h.up p q hp hup)
  has := by
    intro p r hr
    obtain ⟨r2, hr2, hpa2, hc2⟩ := h.has p r hr
    obtain ⟨r3, hr3, hpa3, hc3⟩ := h'.has p r2 hr2
    exact ⟨r3, hr3, hpa3.trans hpa2, hc2.trans hc3⟩
  old := by
    intro p r3 hr3
    obtain ⟨r2, hr2, hpa2⟩ := h'.old p r3 hr3
    obtain ⟨r, hr, hpa⟩ := h.old p r2 hr2
    exact ⟨r, hr, hpa.trans hpa2⟩

theorem has_incRecs : Has (st.setPpg p { st.ppgs p with ht := (st.ppgs p).ht.map Rec.inc }) q r' ↔
    ∃ r, Has st q r ∧ r' = if q = p then r.inc else r := by
  rw [has_setHt, mem_map]
  constructor
  · rintro (⟨rfl, r, hr, rfl⟩ | ⟨hq, hr⟩)
    · exact ⟨r, hr, (if_pos rfl).symm⟩
    · exact ⟨r', hr, (if_neg hq).symm⟩
  rintro ⟨r, hr, rfl⟩
  by_cases hq : q = p
  · subst hq
    exact .inl ⟨rfl, r, hr, (if_pos rfl).symm⟩
  · rw [if_neg hq]
    exact .inr ⟨hq, hr⟩

/-- Raising all counts of a table keeps the invariant. -/
theorem Inv.incRecs (h : Inv st) (p : Nat) :
    Ext st (st.setPpg p { st.ppgs p with ht := (st.ppgs p).ht.map Rec.inc }) := by
  have hinc : ∀ q r, Has st q r → ∃ r', Has (st.setPpg p { st.ppgs p with ht := (st.ppgs p).ht.map Rec.inc }) q r' ∧
      r'.pa = r.pa ∧ r.refcnt ≤ r'.refcnt := by
    intro q r hr
    refine ⟨_, has_incRecs.2 ⟨r, hr, rfl⟩, ?_, ?_⟩
    · split <;> rfl
    split
    · exact Nat.le_succ _
    · exact le_rfl
  have hold : ∀ q r', Has (st.setPpg p { st.ppgs p with ht := (st.ppgs p).ht.map Rec.inc }) q r' →
      ∃ r, Has st q r ∧ r.pa = r'.pa ∧ r.refcnt ≤ r'.refcnt := by
    intro q r' hr'
    obtain ⟨r, hr, rfl⟩ := has_incRecs.1 hr'
    refine ⟨r, hr, ?_, ?_⟩
    · split <;> rfl
    split
    · exact Nat.le_succ _
    · exact le_rfl
  refine ⟨h.records ?_ rfl rfl rfl le_rfl ?_ ?_ ?_, rfl, rfl, le_rfl, ?_, hinc, ?_⟩
  · refine h.recs.change ?_ ?_
    · rw [map_map]
      exact h.recs.nodup p
    intro r' hr'
    obtain ⟨r, hr, rfl⟩ := mem_map.1 hr'
    exact ⟨r, hr, rfl, rfl⟩
  · intro s sp hs x hx a ha hax hch
    refine hch.mono (parent_setHt st p _) fun q r hr hpa => ?_
    obtain ⟨r', hr', hpa', -⟩ := hinc q r hr
    exact ⟨r', hr', hpa'.trans hpa⟩
  · intro q r' hr'
    obtain ⟨r, hr, hpa, hc⟩ := hold q r' hr'
    rw [← hpa]
    exact (h.count q r hr).trans hc
  · intro q r' hr' s sp hs
    obtain ⟨r, hr, hpa, -⟩ := hold q r' hr'
    rw [← hpa]
    exact (h.space s sp hs).recs q r hr
  · exact fun p' q' _ hup => up_congr (parent_setHt st p _) hup
  intro q r' hr'
  obtain ⟨r, hr, hpa, -⟩ := hold q r' hr'
  exact ⟨r, hr, hpa⟩

/-- A new table with nothing in it keeps the invariant. -/
theorem Inv.newTable (h : Inv st) (old : Option Nat) (hlt : ∀ p, old = some p → p < st.next) :
    Ext st { st.setPpg st.next ⟨old, []⟩ with next := st.next + 1 } := by
  generalize hst' : ({ st.setPpg st.next ⟨old, []⟩ with next := st.next + 1 } : State) = st'
  have hself : st'.ppgs st.next = ⟨old, []⟩ := by subst hst'; exact update_self _ _ _
  have hother : ∀ p, p ≠ st.next → st'.ppgs p = st.ppgs p := by
    intro p hp
    subst hst'
    exact update_of_ne hp _ _
  have hhas : ∀ p r, Has st' p r ↔ Has st p r := by
    intro p r
    by_cases hp : p = st.next
    · subst hp
      rw [Has, hself]
      exact ⟨nofun, fun hr => absurd (h.recs.old _ r hr) (lt_irrefl _)⟩
    · rw [Has, hother p hp, Has]
  have hup : ∀ p q, p < st.next → Up st p q → Up st' p q := by
    intro p q hp hup
    induction hup using Relation.ReflTransGen.head_induction_on with
    | refl => exact .refl
    | head hpc _ ih =>
      refine .head ?_ (ih ((h.recs.parents _ _ hpc).trans hp))
      rwa [hother _ hp.ne]
  have hnext : st'.next = st.next + 1 := by subst hst'; rfl
  have hspaces : st'.spaces = st.spaces := by subst hst'; rfl
  have halloc : st'.alloc = st.alloc := by subst hst'; rfl
  refine ⟨h.records ⟨?_, ?_, ?_, ?_, ?_, ?_⟩ hspaces halloc (by subst hst'; rfl) (by omega) ?_ ?_ ?_, hspaces, halloc,
    by omega, hup, ?_, ?_⟩
  · intro p q hpq
    by_cases hp : p = st.next
    · subst hp
      rw [hself] at hpq
      exact hlt q hpq
    · rw [hother p hp] at hpq
      exact h.recs.parents p q hpq
  · intro p
    by_cases hp : p = st.next
    · rw [hp, hself]
      exact .nil
    · rw [hother p hp]
      exact h.recs.nodup p
  · exact fun p q r r' hr hr' => h.recs.unique p q r r' ((hhas p r).1 hr) ((hhas q r').1 hr')
  · intro p r hr
    have := h.recs.old p r ((hhas p r).1 hr)
    omega
  · exact fun p r hr => h.recs.plain p r ((hhas p r).1 hr)
  · intro p r hr
    rw [halloc]
    exact h.recs.alloc p r ((hhas p r).1 hr)
  · rintro s sp hs x hx a ha hax ⟨q, r, hq, hr, hpa⟩
    exact ⟨q, r, hup _ _ ((h.space s sp hs).ppgs a ha) hq, (hhas q r).2 hr, hpa⟩
  · exact fun p r hr => h.count p r ((hhas p r).1 hr)
  · exact fun p r hr s sp hs => (h.space s sp hs).recs p r ((hhas p r).1 hr)
  · exact fun p r hr => ⟨r, (hhas p r).2 hr, rfl, le_rfl⟩
  · exact fun p r hr => ⟨r, (hhas p r).1 hr, rfl⟩

/-- **`vmm_ppg_new`.** -/
theorem vmmPpgNew_spec (h : Inv st) (old : Option Nat) (hlt : ∀ p, old = some p → p < st.next) :
    Ext st (vmmPpgNew st old).2 ∧ (vmmPpgNew st old).1 < (vmmPpgNew st old).2.next ∧
      ∀ p, old = some p → Up (vmmPpgNew st old).2 (vmmPpgNew st old).1 p ∧
        ∀ r, Has st p r → ∃ r', Has (vmmPpgNew st old).2 p r' ∧ r'.pa = r.pa ∧ r.refcnt + 1 ≤ r'.refcnt := by
  cases old with
  | none => exact ⟨h.newTable none hlt, Nat.lt_succ_self _, nofun⟩
  | some p =>
    have hinc := h.incRecs p
    have hnew := hinc.inv.newTable (some p) hlt
    refine ⟨hinc.trans hnew, Nat.lt_succ_self _, ?_⟩
    rintro _ ⟨⟩
    constructor
    · refine .single ?_
      simp [vmmPpgNew, State.setPpg]
    intro r hr
    obtain ⟨r', hr', hpa, hc⟩ := hnew.has p r.inc (has_incRecs.2 ⟨r, hr, (if_pos rfl).symm⟩)
    exact ⟨r', hr', hpa, hc⟩

end TextOS.Cow
