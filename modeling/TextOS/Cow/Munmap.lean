import TextOS.Cow.Fork

/-!
# `munmap` of shared pages

`munmap` gives up the record of every page in the range before it removes the entry, and cuts the areas. The pages that
stay mapped have to stay in the chain of their area: an area that is split gets a new table below the old one.

- **`munmap` keeps the invariant** (`munmap_inv`).
-/

namespace TextOS.Cow

open Lib List Option

variable {st st' : State} {sp sp' : Space} {s s' v pa pg p q n askStart askEnd : Nat} {r r' : Rec} {a : Vma} {e : Entry}
  {fs fs' vs : List Nat} {as as' : List Vma}

/-- Some entries of the address space `s` are gone. -/
structure Cut (s : Nat) (st : State) (sp : Space) (st' : State) (sp' : Space) : Prop where
  inv : Inv st'
  space : st'.space s = some sp'
  areas : sp'.areas = sp.areas
  ents : ∀ x ∈ sp'.ents, x ∈ sp.ents
  next : st.next ≤ st'.next
  up : ∀ p q, p < st.next → Up st p q → Up st' p q

theorem Cut.refl (h : Inv st) (hs : st.space s = some sp) : Cut s st sp st sp :=
  ⟨h, hs, rfl, fun _ hx => hx, le_rfl, fun _ _ _ hup => hup⟩

theorem Cut.trans {st1 st2 st3 : State} {sp1 sp2 sp3 : Space} (h : Cut s st1 sp1 st2 sp2) (h' : Cut s st2 sp2 st3 sp3) :
    Cut s st1 sp1 st3 sp3 where
  __ := h'
  areas := h'.areas.trans h.areas
  ents := fun x hx => h.ents x (h'.ents x hx)
  next := h.next.trans h'.next
  up := fun p q hp hup => h'.up p q (hp.trans_le h.next) (h.up p q hp hup)

/-! ## One page -/

/-- No page is recorded under the address 0, which `vmap_query` returns for a page that is not mapped. -/
theorem vmmPpgQuery_zero (h : Inv st) (p : Nat) : vmmPpgQuery st p 0 = none := by
  cases hq : vmmPpgQuery st p 0 with
  | none => rfl
  | some x =>
    obtain ⟨hr, hpa⟩ := has_of_query hq
    exact absurd (hpa ▸ h.recs.alloc _ _ hr) h.pos

theorem vmmPpgUnref_spaces (h : Recs st) (hr : Has st q r) (used : Bool) :
    (vmmPpgUnref st q r.pa used).1.spaces = st.spaces := by
  rw [vmmPpgUnref_eq h hr]
  split <;> rfl

theorem vmmPpgUnref_next (h : Recs st) (hr : Has st q r) (used : Bool) :
    (vmmPpgUnref st q r.pa used).1.next = st.next := by
  rw [vmmPpgUnref_eq h hr]
  split <;> rfl

theorem vmmPpgUnref_parent (h : Recs st) (hr : Has st q r) (used : Bool) (p : Nat) :
    ((vmmPpgUnref st q r.pa used).1.ppgs p).parent = (st.ppgs p).parent := by
  rw [vmmPpgUnref_eq h hr]
  split
  · exact (parent_setHt (State.free (setRec st q r.pa Rec.dec) r.pa used) q _ p).trans (parent_setHt st q _ p)
  · exact parent_setHt st q _ p

theorem vmmPpgUnref_setSpace (h : Recs st) (hr : Has st q r) (used : Bool) (s : Nat) (sp : Space)
    (h' : Recs (st.setSpace s sp)) :
    (vmmPpgUnref (st.setSpace s sp) q r.pa used).1 = (vmmPpgUnref st q r.pa used).1.setSpace s sp := by
  rw [vmmPpgUnref_eq h hr, vmmPpgUnref_eq h' hr]
  split <;> rfl

theorem Inv.unrefUnset {used : Bool} (h : Inv st) (hs : st.space s = some sp) (hx : (v, e) ∈ sp.ents) (hr : Has st q r)
    (hpa : r.pa = e.pa) (hused : mappers st e.pa ≤ 1 → used = false) :
    Cut s st sp ((vmmPpgUnref st q r.pa used).1.setSpace s (sp.unset v)) (sp.unset v) := by
  have hunset := h.unset hs v
  have hc : mappers (st.setSpace s (sp.unset v)) r.pa + 1 ≤ r.refcnt := by
    rw [hpa, mappers_unset (h.space s sp hs) hs hx, ← hpa]
    exact h.count q r hr
  have hinv := hunset.unref used hr hc fun h1 => hused (by rw [← hpa, ← h1]; exact h.count q r hr)
  rw [vmmPpgUnref_setSpace h.recs hr used s _ hunset.recs] at hinv
  refine ⟨hinv, ?_, rfl, fun x hx' => (mem_unset.1 hx').1, ?_, ?_⟩
  · exact space_setSpace_self ((space_congr (vmmPpgUnref_spaces h.recs hr used) s).trans hs) _
  · exact (vmmPpgUnref_next h.recs hr used).ge
  · exact fun p q' _ hup => up_congr (vmmPpgUnref_parent h.recs hr used) hup

/-- **`unmap`** of a page of an area. -/
theorem unmap_spec (h : Inv st) (hs : st.space s = some sp) (ha : a ∈ sp.areas) (hv : a.s ≤ v ∧ v < a.t)
    (hu : unmap st s a.ppgs v fs = some (st', fs')) : ∃ sp', Cut s st sp st' sp' ∧ ∀ x ∈ sp'.ents, x.1 ≠ v := by
  have hok := h.space s sp hs
  rw [unmap, hs, bind_some] at hu
  cases hq : sp.query v with
  | none =>
    simp only [hq, map_none, getD_none, vmmPpgQuery_zero h] at hu
    obtain ⟨st1, tables, hw, rfl⟩ := vmapEdit_spec h hs hu
    refine ⟨_, ⟨hw.inv.unset hw.space v, space_setSpace_self hw.space _, rfl, ?_, hw.next.ge, ?_⟩, ?_⟩
    · exact fun x hx => (mem_unset.1 hx).1
    · refine fun p q _ hup => up_congr (fun p' => ?_) hup
      exact congrArg (fun f => (f p').parent) hw.ppgs
    · exact fun x hx => (mem_unset.1 hx).2
  | some e =>
    have hx := (query_eq_some hok.keys).1 hq
    obtain ⟨a', ha', hv', q, r, hup, hr, hpa⟩ := hok.chain _ hx
    obtain rfl := hok.ordered.eq_of_mem ha' ha hv' hv
    have hpa : r.pa = e.pa := hpa
    have hquery := vmmPpgQuery_eq h.recs (hok.ppgs a' ha) hup hr
    rw [hpa] at hquery
    simp only [hq, map_some, getD_some, hquery] at hu
    -- the page is used by no one else if its count is 1
    have hused : mappers st e.pa ≤ 1 →
        (st.usedOutside s e.pa || (sp.unset v).maps e.pa || decide (e.pa ∈ sp.frames)) = false := by
      intro h1
      have hout : st.usedOutside s e.pa = false := by
        refine not_usedOutside fun s' sp' hne hs' => ⟨?_, fun hm => ?_⟩
        · rw [← hpa]
          exact (h.space s' sp' hs').recs q r hr
        · have := two_le_mappers hs' hs hne hm (mem_pages.2 ⟨_, hx, rfl⟩)
          omega
      have hself : (sp.unset v).maps e.pa = false := decide_eq_false (hok.notMem_unset hx)
      have hframe : decide (e.pa ∈ sp.frames) = false := decide_eq_false (hpa ▸ hok.recs q r hr)
      rw [hout, hself, hframe]
      rfl
    have hcut := h.unrefUnset hs hx hr hpa hused
    rw [hpa] at hcut
    have hs1 := (space_congr (vmmPpgUnref_spaces h.recs hr
      (st.usedOutside s e.pa || (sp.unset v).maps e.pa || decide (e.pa ∈ sp.frames))) s).trans hs
    rw [hpa] at hs1
    rw [vmapUnmap, vmapEdit_of_tabled hs1 (hok.tabled _ hx)] at hu
    obtain ⟨rfl, -⟩ := Prod.mk.inj (some.inj hu)
    exact ⟨sp.unset v, hcut, fun x hx => (mem_unset.1 hx).2⟩

/-! ## One area -/

/-- The pages of an area are unmapped one by one. -/
theorem unmapPages_spec (h : Inv st) (hs : st.space s = some sp) (ha : a ∈ sp.areas) (hvs : ∀ v ∈ vs, a.s ≤ v ∧ v < a.t)
    (hu : unmapPages s a.ppgs vs fs st = some (st', fs')) :
    ∃ sp', Cut s st sp st' sp' ∧ ∀ x ∈ sp'.ents, x.1 ∉ vs := by
  induction vs generalizing st sp fs with
  | nil =>
    obtain ⟨rfl, rfl⟩ := Prod.mk.inj (some.inj hu)
    exact ⟨sp, .refl h hs, fun _ _ => not_mem_nil⟩
  | cons v vs ih =>
    obtain ⟨⟨st1, fs1⟩, hu1, hu⟩ := bind_eq_some_iff.1 hu
    obtain ⟨sp1, hcut, hne⟩ := unmap_spec h hs ha (hvs v mem_cons_self) hu1
    obtain ⟨sp2, hcut', hnot⟩ := ih hcut.inv hcut.space (hcut.areas ▸ ha)
      (fun w hw => hvs w (mem_cons_of_mem _ hw)) hu
    refine ⟨sp2, hcut.trans hcut', fun x hx => ?_⟩
    rw [mem_cons, not_or]
    exact ⟨hne x (hcut'.ents x hx), hnot x hx⟩

/-- The areas `as'` are what is left of the areas `as`. -/
structure Pieces (st : State) (sp : Space) (as as' : List Vma) : Prop where
  ordered : Ordered (fun a : Vma => a.s) (fun a => a.t) as'
  inside : ∀ a' ∈ as', ∃ a ∈ as, a.s ≤ a'.s ∧ a'.t ≤ a.t
  ppgs : ∀ a' ∈ as', a'.ppgs < st.next
  hold : ∀ x ∈ sp.ents, ∀ a ∈ as, a.s ≤ x.1 ∧ x.1 < a.t → ∃ a' ∈ as', (a'.s ≤ x.1 ∧ x.1 < a'.t) ∧ Up st a'.ppgs a.ppgs

theorem Pieces.mono (h : Pieces st sp as as') (hc : Cut s st sp st' sp') : Pieces st' sp' as as' where
  __ := h
  ppgs := fun a' ha' => (h.ppgs a' ha').trans_le hc.next
  hold := by
    intro x hx a ha hax
    obtain ⟨a', ha', hax', hup⟩ := h.hold x (hc.ents x hx) a ha hax
    exact ⟨a', ha', hax', hc.up _ _ (h.ppgs a' ha') hup⟩

/-- Pieces of one area in front of the pieces of the later ones. -/
theorem Pieces.cons {l l' : List Vma} (h : Pieces st sp [a] l) (h' : Pieces st sp as l')
    (hord : Ordered (fun a : Vma => a.s) (fun a => a.t) (a :: as)) : Pieces st sp (a :: as) (l ++ l') where
  ordered := by
    constructor
    · intro b hb
      rcases mem_append.1 hb with hb | hb
      · exact h.ordered.1 b hb
      · exact h'.ordered.1 b hb
    refine pairwise_append.2 ⟨h.ordered.2, h'.ordered.2, fun b hb c hc => ?_⟩
    obtain ⟨a1, ha1, -, hb2⟩ := h.inside b hb
    obtain rfl := mem_singleton.1 ha1
    obtain ⟨a2, ha2, hc1, -⟩ := h'.inside c hc
    exact hb2.trans ((hord.head_le ha2).trans hc1)
  inside := by
    intro b hb
    rcases mem_append.1 hb with hb | hb
    · obtain ⟨a1, ha1, hin⟩ := h.inside b hb
      obtain rfl := mem_singleton.1 ha1
      exact ⟨a1, mem_cons_self, hin⟩
    · obtain ⟨a2, ha2, hin⟩ := h'.inside b hb
      exact ⟨a2, mem_cons_of_mem _ ha2, hin⟩
  ppgs := fun b hb => (mem_append.1 hb).elim (h.ppgs b) (h'.ppgs b)
  hold := by
    intro x hx b hb hbx
    rcases mem_cons.1 hb with rfl | hb
    · obtain ⟨b', hb', hin⟩ := h.hold x hx b mem_cons_self hbx
      exact ⟨b', mem_append_left _ hb', hin⟩
    · obtain ⟨b', hb', hin⟩ := h'.hold x hx b hb hbx
      exact ⟨b', mem_append_right _ hb', hin⟩

/-- An area that keeps one piece. -/
theorem Pieces.single {a' : Vma} (hne : a'.s < a'.t) (hin : a.s ≤ a'.s ∧ a'.t ≤ a.t) (hp : a'.ppgs = a.ppgs)
    (hlt : a.ppgs < st.next)
    (hx : ∀ x ∈ sp.ents, a.s ≤ x.1 ∧ x.1 < a.t → a'.s ≤ x.1 ∧ x.1 < a'.t) : Pieces st sp [a] [a'] where
  ordered := ordered_cons_iff.2 ⟨hne, by simp, ordered_nil⟩
  inside := by
    intro b hb
    obtain rfl := mem_singleton.1 hb
    exact ⟨a, mem_cons_self, hin⟩
  ppgs := by
    intro b hb
    obtain rfl := mem_singleton.1 hb
    rw [hp]
    exact hlt
  hold := by
    intro x hx' b hb hbx
    obtain rfl := mem_singleton.1 hb
    refine ⟨a', mem_cons_self, hx x hx' hbx, ?_⟩
    rw [hp]
    exact .refl

/-- An area that is split: the second piece gets a new table below the one of the area. -/
theorem split_pieces (h : Inv st) (hlt : a.ppgs < st.next) (hs : a.s < askStart) (hask : askStart < askEnd)
    (ht : askEnd < a.t) (hx : ∀ x ∈ sp.ents, x.1 < askStart ∨ askEnd ≤ x.1) :
    Pieces (vmmPpgNew st (some a.ppgs)).2 sp [a]
      [⟨a.endAt askStart, a.ppgs⟩, ⟨a.startAt askEnd, (vmmPpgNew st (some a.ppgs)).1⟩] := by
  obtain ⟨hext, hfresh, hup⟩ := vmmPpgNew_spec h (some a.ppgs) (by rintro _ ⟨⟩; exact hlt)
  obtain ⟨hup, -⟩ := hup a.ppgs rfl
  constructor
  case ordered =>
    refine ordered_cons_iff.2 ⟨hs, ?_, ordered_cons_iff.2 ⟨ht, by simp, ordered_nil⟩⟩
    rintro w ⟨b, hb, hbw, -⟩
    obtain rfl := mem_singleton.1 hb
    exact hask.le.trans hbw
  case inside =>
    intro b hb
    refine ⟨a, mem_cons_self, ?_⟩
    rcases mem_cons.1 hb with rfl | hb
    · exact ⟨le_rfl, (hask.trans ht).le⟩
    · obtain rfl := mem_singleton.1 hb
      exact ⟨(hs.trans hask).le, le_rfl⟩
  case ppgs =>
    intro b hb
    rcases mem_cons.1 hb with rfl | hb
    · exact hlt.trans_le hext.next
    · obtain rfl := mem_singleton.1 hb
      exact hfresh
  case hold =>
    intro x hx' b hb hbx
    obtain rfl := mem_singleton.1 hb
    rcases hx x hx' with hlow | hhigh
    · exact ⟨_, mem_cons_self, ⟨hbx.1, hlow⟩, .refl⟩
    · exact ⟨_, mem_cons_of_mem _ mem_cons_self, ⟨hhigh, hbx.2⟩, hup⟩

/-- **The part of `munmap` for one area.** -/
theorem cutArea_spec (h : Inv st) (hs : st.space s = some sp) (ha : a ∈ sp.areas) (hask : askStart < askEnd)
    (hc : cutArea st s a askStart askEnd fs = some (as', st', fs')) :
    ∃ sp', Cut s st sp st' sp' ∧ Pieces st' sp' [a] as' := by
  have hok := h.space s sp hs
  have hlt := hok.ppgs a ha
  have hne : a.s < a.t := hok.ordered.1 a ha
  simp only [cutArea] at hc
  split at hc
  · next hcov =>
    obtain ⟨⟨st1, fs1⟩, hu, hres⟩ := map_eq_some_iff.1 hc
    obtain ⟨sp1, hcut, hnot⟩ := unmapPages_spec h hs ha (by
      intro v hv
      rw [mem_range'_1] at hv
      omega) hu
    have hlt1 := hlt.trans_le hcut.next
    have hout : ∀ x ∈ sp1.ents, a.s ≤ x.1 ∧ x.1 < a.t → x.1 < askStart ∨ askEnd ≤ x.1 := by
      intro x hx hax
      have := hnot x hx
      rw [mem_range'_1] at this
      omega
    split at hres
    · next hsplit =>
      obtain ⟨rfl, hst⟩ := Prod.mk.inj hres
      obtain ⟨rfl, -⟩ := Prod.mk.inj hst
      obtain ⟨hext, -, -⟩ := vmmPpgNew_spec hcut.inv (some a.ppgs) (by rintro _ ⟨⟩; exact hlt1)
      have hnew : Cut s st1 sp1 (vmmPpgNew st1 (some a.ppgs)).2 sp1 :=
        ⟨hext.inv, (space_congr hext.spaces s).trans hcut.space, rfl, fun _ hx => hx, hext.next, hext.up⟩
      refine ⟨sp1, hcut.trans hnew, split_pieces hcut.inv hlt1 hsplit.1 hask hsplit.2 ?_⟩
      intro x hx
      have := hnot x hx
      rw [mem_range'_1] at this
      omega
    · split at hres
      · next hall =>
        obtain ⟨rfl, hst⟩ := Prod.mk.inj hres
        obtain ⟨rfl, -⟩ := Prod.mk.inj hst
        refine ⟨sp1, hcut, ordered_nil, nofun, nofun, ?_⟩
        intro x hx b hb hbx
        obtain rfl := mem_singleton.1 hb
        have := hout x hx hbx
        omega
      split at hres
      · obtain ⟨rfl, hst⟩ := Prod.mk.inj hres
        obtain ⟨rfl, -⟩ := Prod.mk.inj hst
        refine ⟨sp1, hcut, .single ?_ ⟨?_, le_rfl⟩ rfl hlt1 ?_⟩
        · show min a.t askEnd < a.t
          omega
        · show a.s ≤ min a.t askEnd
          omega
        intro x hx hax
        have := hout x hx hax
        show min a.t askEnd ≤ x.1 ∧ x.1 < a.t
        omega
      · obtain ⟨rfl, hst⟩ := Prod.mk.inj hres
        obtain ⟨rfl, -⟩ := Prod.mk.inj hst
        refine ⟨sp1, hcut, .single ?_ ⟨le_rfl, ?_⟩ rfl hlt1 ?_⟩
        · show a.s < max a.s askStart
          omega
        · show max a.s askStart ≤ a.t
          omega
        intro x hx hax
        have := hout x hx hax
        show a.s ≤ x.1 ∧ x.1 < max a.s askStart
        omega
  · obtain ⟨rfl, hst⟩ := Prod.mk.inj (some.inj hc)
    obtain ⟨rfl, -⟩ := Prod.mk.inj hst
    exact ⟨sp, .refl h hs, .single hne ⟨le_rfl, le_rfl⟩ rfl hlt fun x _ hax => hax⟩

/-! ## All areas -/

/-- All areas are cut at the range. -/
theorem cutAreas_spec (h : Inv st) (hs : st.space s = some sp) (has : ∀ a ∈ as, a ∈ sp.areas)
    (hord : Ordered (fun a : Vma => a.s) (fun a => a.t) as) (hask : askStart < askEnd)
    (hc : cutAreas s askStart askEnd as fs st = some (as', st')) :
    ∃ sp', Cut s st sp st' sp' ∧ Pieces st' sp' as as' := by
  induction as generalizing st sp fs as' with
  | nil =>
    obtain ⟨rfl, rfl⟩ := Prod.mk.inj (some.inj hc)
    exact ⟨sp, .refl h hs, ordered_nil, nofun, nofun, nofun⟩
  | cons a as ih =>
    obtain ⟨⟨l, st1, fs1⟩, hc1, hc⟩ := bind_eq_some_iff.1 hc
    obtain ⟨⟨l', st2⟩, hc2, he⟩ := map_eq_some_iff.1 hc
    obtain ⟨rfl, rfl⟩ := Prod.mk.inj he
    obtain ⟨sp1, hcut, hpieces⟩ := cutArea_spec h hs (has a mem_cons_self) hask hc1
    obtain ⟨sp2, hcut', hpieces'⟩ := ih hcut.inv hcut.space
      (fun b hb => hcut.areas ▸ has b (mem_cons_of_mem _ hb)) hord.tail hc2
    exact ⟨sp2, hcut.trans hcut', (hpieces.mono hcut').cons hpieces' hord⟩

/-- **`munmap` keeps the invariant.** -/
theorem munmap_inv (h : Inv st) (hm : munmap st s askStart askEnd fs = some st') : Inv st' := by
  obtain ⟨sp, hs, hm⟩ := bind_eq_some_iff.1 hm
  split at hm
  · obtain rfl := some.inj hm
    exact h
  next hask =>
  obtain ⟨⟨as', st1⟩, hc, hm⟩ := bind_eq_some_iff.1 hm
  obtain ⟨sp1, hcut, hpieces⟩ := cutAreas_spec h hs (fun a ha => ha) (h.space s sp hs).ordered (not_le.1 hask) hc
  rw [hcut.space, map_some] at hm
  obtain rfl := some.inj hm
  have hok := hcut.inv.space s sp1 hcut.space
  refine hcut.inv.setSpace hcut.space { hok with ordered := hpieces.ordered, ppgs := hpieces.ppgs, chain := ?_ } ?_
    (fun pa hin hin0 => absurd hin hin0) (hcut.inv.sole s sp1 hcut.space)
  · intro x hx
    obtain ⟨a, ha, hax, hch⟩ := hok.chain x hx
    obtain ⟨a', ha', hax', hup⟩ := hpieces.hold x hx a (hcut.areas ▸ ha) hax
    exact ⟨a', ha', hax', .trans hup hch⟩
  · exact fun s' sp' hne hs' => hcut.inv.apart s s' sp1 sp' hcut.space hs' hne.symm

end TextOS.Cow
