import TextOS.Cow.Defs

/-!
# The invariant of shared pages

Reference counts are upper bounds: the record of a page counts at least the address spaces that map it (`Inv.count`),
and a page with a writable entry is mapped once (`Inv.sole`). For `vmm_ppg_query` to find the record, it must be in the
chain of the area (`SpaceOk.chain`); for the counts to mean something, a page has one record only (`Recs.unique`).

- the effect of each primitive on the records, the address spaces and the number of mappers of a page.
-/

namespace TextOS.Cow

open Lib List

variable {st st' : State} {sp sp' sp₀ : Space} {s s' v pa pg p q n : Nat} {r r' : Rec} {a : Vma} {e : Entry}

/-- The record is in the table `p`. -/
def Has (st : State) (p : Nat) (r : Rec) : Prop := r ∈ (st.ppgs p).ht

/-- The table `q` is in the chain of the table `p`. -/
def Up (st : State) : Nat → Nat → Prop := Relation.ReflTransGen fun p q => (st.ppgs p).parent = some q

/-- The page has a record in the chain of the table `p`. -/
def Chained (st : State) (p pa : Nat) : Prop := ∃ q r, Up st p q ∧ Has st q r ∧ r.pa = pa

/-- The number of address spaces that map a page. -/
def mappers (st : State) (pa : Nat) : Nat := st.spaces.countP fun o => o.any fun sp => sp.maps pa

/-- What holds of the page records. -/
structure Recs (st : State) : Prop where
  parents : ∀ p q, (st.ppgs p).parent = some q → q < p
  nodup : ∀ p, ((st.ppgs p).ht.map Rec.pa).Nodup
  unique : ∀ p q r r', Has st p r → Has st q r' → r.pa = r'.pa → p = q
  old : ∀ p r, Has st p r → p < st.next
  plain : ∀ p r, Has st p r → r.fixed = false
  alloc : ∀ p r, Has st p r → r.pa ∈ st.alloc

/-- What holds of an address space. -/
structure SpaceOk (st : State) (sp : Space) : Prop where
  ordered : Ordered (fun a : Vma => a.s) (fun a => a.t) sp.areas
  ppgs : ∀ a ∈ sp.areas, a.ppgs < st.next
  keys : (sp.ents.map Prod.fst).Nodup
  pages : sp.pages.Nodup
  tabled : ∀ x ∈ sp.ents, ∀ l ∈ [3, 2, 1], (l, x.1 / 512 ^ l) ∈ sp.tables.map Prod.fst
  chain : ∀ x ∈ sp.ents, ∃ a ∈ sp.areas, (a.s ≤ x.1 ∧ x.1 < a.t) ∧ Chained st a.ppgs x.2.pa
  frames : sp.frames.Nodup
  alloc : ∀ f ∈ sp.frames, f ∈ st.alloc
  recs : ∀ p r, Has st p r → r.pa ∉ sp.frames

/-- The page is allocated, and neither a table nor recorded. -/
structure Idle (st : State) (pg : Nat) : Prop where
  alloc : pg ∈ st.alloc
  recs : ∀ p r, Has st p r → r.pa ≠ pg
  frames : ∀ s sp, st.space s = some sp → pg ∉ sp.frames

/-- **The invariant.** -/
structure Inv (st : State) : Prop where
  recs : Recs st
  space : ∀ s sp, st.space s = some sp → SpaceOk st sp
  apart : ∀ s s' sp sp', st.space s = some sp → st.space s' = some sp' → s ≠ s' → sp.frames.Disjoint sp'.frames
  count : ∀ p r, Has st p r → mappers st r.pa ≤ r.refcnt
  sole : ∀ s sp, st.space s = some sp → ∀ x ∈ sp.ents, x.2.rw = true → mappers st x.2.pa ≤ 1
  nodup : st.alloc.Nodup
  pos : 0 ∉ st.alloc
  log : ∀ f ∈ st.log, f.allocated = true ∧ f.used = false

/-! ## Address spaces -/

theorem getElem?_of_space (h : st.space s = some sp) : st.spaces[s]? = some (some sp) := by
  unfold State.space at h
  cases hs : st.spaces[s]? with
  | none => simp [hs] at h
  | some o =>
    rw [hs, Option.join_some] at h
    rw [h]

theorem space_setSpace (h : st.space s = some sp₀) (sp : Space) (s' : Nat) :
    (st.setSpace s sp).space s' = if s' = s then some sp else st.space s' := by
  obtain ⟨hlt, -⟩ := List.getElem?_eq_some_iff.1 (getElem?_of_space h)
  rw [State.space, State.setSpace, getElem?_set]
  by_cases hs : s' = s
  · rw [if_pos hs.symm, if_pos hlt, if_pos hs]
    rfl
  · rw [if_neg fun e => hs e.symm, if_neg hs]
    rfl

theorem mappers_setSpace (h : st.space s = some sp₀) (sp : Space) (pa : Nat) :
    mappers (st.setSpace s sp) pa + (if sp₀.maps pa then 1 else 0) = mappers st pa + if sp.maps pa then 1 else 0 :=
  countP_set_add (getElem?_of_space h) (some sp)

theorem mappers_setSpace_eq (h : st.space s = some sp₀) (hp : sp.pages = sp₀.pages) (pa : Nat) :
    mappers (st.setSpace s sp) pa = mappers st pa := by
  have := mappers_setSpace h sp pa
  rw [Space.maps, Space.maps, hp] at this
  omega

theorem one_le_mappers (h : st.space s = some sp) (hm : pa ∈ sp.pages) : 1 ≤ mappers st pa :=
  one_le_countP (getElem?_of_space h) (by simpa [Space.maps] using hm)

theorem two_le_mappers (h : st.space s = some sp) (h' : st.space s' = some sp') (hne : s ≠ s') (hm : pa ∈ sp.pages)
    (hm' : pa ∈ sp'.pages) : 2 ≤ mappers st pa :=
  two_le_countP hne (getElem?_of_space h) (getElem?_of_space h') (by simpa [Space.maps] using hm)
    (by simpa [Space.maps] using hm')

theorem not_usedOutside (h : ∀ s' sp', s' ≠ s → st.space s' = some sp' → pa ∉ sp'.frames ∧ pa ∉ sp'.pages) :
    st.usedOutside s pa = false := by
  rw [State.usedOutside, any_eq_false]
  rintro ⟨o, i⟩ hmem
  rw [mem_zipIdx_iff_getElem?] at hmem
  by_cases hi : i = s
  · simp [hi]
  cases o with
  | none => simp
  | some sp' =>
    have hsp : st.space i = some sp' := by rw [State.space, hmem]; rfl
    obtain ⟨hf, hp⟩ := h i sp' hi hsp
    simp [hf, Space.maps, hp]

/-! ## Entries -/

theorem query_eq_some (h : (sp.ents.map Prod.fst).Nodup) : sp.query v = some e ↔ (v, e) ∈ sp.ents := by
  unfold Space.query
  constructor
  · intro hq
    obtain ⟨x, hx, rfl⟩ := Option.map_eq_some_iff.1 hq
    have hv : x.1 = v := by simpa using find?_some hx
    rw [← hv]
    exact mem_of_find?_eq_some hx
  · intro hm
    rw [find?_key h hm rfl, Option.map_some]

theorem mem_unset {x : Nat × Entry} : x ∈ (sp.unset v).ents ↔ x ∈ sp.ents ∧ x.1 ≠ v := by simp [Space.unset]

theorem mem_set {x : Nat × Entry} : x ∈ (sp.set v e).ents ↔ x = (v, e) ∨ x ∈ sp.ents ∧ x.1 ≠ v := by simp [Space.set]

theorem set_unset (sp : Space) (v : Nat) (e : Entry) : (sp.unset v).set v e = sp.set v e := by
  simp [Space.set, Space.unset, filter_filter]

theorem mem_pages : pa ∈ sp.pages ↔ ∃ x ∈ sp.ents, x.2.pa = pa := by simp [Space.pages]

theorem areaOf_eq_some (h : sp.areaOf v = some a) : a ∈ sp.areas ∧ a.s ≤ v ∧ v < a.t := by
  refine ⟨mem_of_find?_eq_some h, ?_⟩
  simpa using find?_some h

/-! ## Chains and queries -/

theorem up_congr (h : ∀ p, (st'.ppgs p).parent = (st.ppgs p).parent) (hup : Up st p q) : Up st' p q := by
  unfold Up
  simp only [h]
  exact hup

theorem Recs.eq_of_pa (h : Recs st) (hr : Has st p r) (hr' : Has st q r') (hpa : r.pa = r'.pa) : p = q ∧ r = r' := by
  obtain rfl := h.unique p q r r' hr hr' hpa
  exact ⟨rfl, inj_on_of_nodup_map (h.nodup p) hr hr' hpa⟩

/-- A search along the parents finds the one record of the page. -/
theorem queryFrom_eq (h : Recs st) (hp : p < n) (hup : Up st p q) (hr : Has st q r) :
    queryFrom st r.pa n (some p) = some (q, r) := by
  induction n generalizing p with
  | zero => omega
  | succ n ih =>
    rw [queryFrom]
    cases hf : (st.ppgs p).ht.find? fun r' => r'.pa == r.pa with
    | some r' =>
      have hpa : r'.pa = r.pa := by simpa using find?_some hf
      obtain ⟨rfl, rfl⟩ := h.eq_of_pa (mem_of_find?_eq_some hf) hr hpa
      rfl
    | none =>
      rcases Relation.ReflTransGen.cases_head hup with rfl | ⟨c, hc, hup'⟩
      · have := find?_eq_none.1 hf r hr
        simp at this
      · rw [hc]
        exact ih (by have := h.parents p c hc; omega) hup'

/-- **The query finds the record of a page in the chain.** -/
theorem vmmPpgQuery_eq (h : Recs st) (hp : p < st.next) (hup : Up st p q) (hr : Has st q r) :
    vmmPpgQuery st p r.pa = some (q, r) := queryFrom_eq h hp hup hr

/-- What a query finds is recorded. -/
theorem has_of_query (h : vmmPpgQuery st p pa = some (q, r)) : Has st q r ∧ r.pa = pa := by
  have hfrom : ∀ (n : Nat) (o : Option Nat), queryFrom st pa n o = some (q, r) → Has st q r ∧ r.pa = pa := by
    intro n
    induction n with
    | zero => intro o ho; cases ho
    | succ n ih =>
      intro o ho
      cases o with
      | none => cases ho
      | some p =>
        rw [queryFrom] at ho
        cases hf : (st.ppgs p).ht.find? fun r' => r'.pa == pa with
        | some r' =>
          rw [hf] at ho
          obtain ⟨rfl, rfl⟩ := Prod.mk.inj (Option.some.inj ho)
          exact ⟨mem_of_find?_eq_some hf, by simpa using find?_some hf⟩
        | none =>
          rw [hf] at ho
          exact ih _ ho
  exact hfrom _ _ h

theorem Chained.mono (hp : ∀ p, (st'.ppgs p).parent = (st.ppgs p).parent)
    (hr : ∀ q r, Has st q r → r.pa = pa → ∃ r', Has st' q r' ∧ r'.pa = pa) (h : Chained st p pa) :
    Chained st' p pa := by
  obtain ⟨q, r, hup, hq, hpa⟩ := h
  obtain ⟨r', hq', hpa'⟩ := hr q r hq hpa
  exact ⟨q, r', up_congr hp hup, hq', hpa'⟩

/-! ## Changing one part of the state -/

theorem SpaceOk.mono (h : SpaceOk st sp) (hnext : st.next ≤ st'.next)
    (hchain : ∀ x ∈ sp.ents, ∀ a ∈ sp.areas, a.s ≤ x.1 ∧ x.1 < a.t → Chained st a.ppgs x.2.pa →
      Chained st' a.ppgs x.2.pa)
    (halloc : ∀ f ∈ sp.frames, f ∈ st'.alloc) (hrecs : ∀ p r, Has st' p r → r.pa ∉ sp.frames) : SpaceOk st' sp where
  __ := h
  ppgs := fun a ha => (h.ppgs a ha).trans_le hnext
  chain := by
    intro x hx
    obtain ⟨a, ha, hax, hc⟩ := h.chain x hx
    exact ⟨a, ha, hax, hchain x hx a ha hax hc⟩
  alloc := halloc
  recs := hrecs

theorem mappers_congr (h : st'.spaces = st.spaces) (pa : Nat) : mappers st' pa = mappers st pa := by
  rw [mappers, mappers, h]

theorem space_congr (h : st'.spaces = st.spaces) (s : Nat) : st'.space s = st.space s := by
  rw [State.space, State.space, h]

/-- **A change of the page records.** -/
theorem Inv.records (h : Inv st) (hrecs : Recs st') (hsp : st'.spaces = st.spaces) (halloc : st'.alloc = st.alloc)
    (hlog : st'.log = st.log) (hnext : st.next ≤ st'.next)
    (hchain : ∀ s sp, st.space s = some sp → ∀ x ∈ sp.ents, ∀ a ∈ sp.areas, a.s ≤ x.1 ∧ x.1 < a.t →
      Chained st a.ppgs x.2.pa → Chained st' a.ppgs x.2.pa) (hcount : ∀ p r, Has st' p r → mappers st r.pa ≤ r.refcnt)
    (hframe : ∀ p r, Has st' p r → ∀ s sp, st.space s = some sp → r.pa ∉ sp.frames) : Inv st' where
  recs := hrecs
  space := by
    intro s sp hs
    rw [space_congr hsp] at hs
    refine (h.space s sp hs).mono hnext (hchain s sp hs) ?_ fun p r hr => hframe p r hr s sp hs
    rw [halloc]
    exact (h.space s sp hs).alloc
  apart := by
    intro s s' sp sp' hs hs'
    rw [space_congr hsp] at hs hs'
    exact h.apart s s' sp sp' hs hs'
  count := by
    intro p r hr
    rw [mappers_congr hsp]
    exact hcount p r hr
  sole := by
    intro s sp hs x hx hrw
    rw [space_congr hsp] at hs
    rw [mappers_congr hsp]
    exact h.sole s sp hs x hx hrw
  nodup := halloc ▸ h.nodup
  pos := halloc ▸ h.pos
  log := hlog ▸ h.log

/-- **A change of the allocated pages** that leaves those in use. -/
theorem Inv.pool {al : List Nat} {log : List Free} (h : Inv st)
    (hframe : ∀ s sp, st.space s = some sp → ∀ f ∈ sp.frames, f ∈ al) (hrec : ∀ p r, Has st p r → r.pa ∈ al)
    (hnodup : al.Nodup) (hpos : 0 ∉ al) (hlog : ∀ f ∈ log, f.allocated = true ∧ f.used = false) :
    Inv { st with alloc := al, log } where
  recs := { h.recs with alloc := hrec }
  space := fun s sp hs => (h.space s sp hs).mono le_rfl (fun _ _ _ _ _ hc => hc) (hframe s sp hs) (h.space s sp hs).recs
  __ := h
  nodup := hnodup
  pos := hpos
  log := hlog

theorem Inv.setMem (h : Inv st) (mem : Nat → Nat → Nat) : Inv { st with mem } where
  recs := { h.recs with }
  space := fun s sp hs => (h.space s sp hs).mono le_rfl (fun _ _ _ _ _ hc => hc) (h.space s sp hs).alloc
    (h.space s sp hs).recs
  __ := h

/-- The mappers of a page after an address space changed, if the pages it did not map before had no mapper. -/
theorem mappers_setSpace_or (hs : st.space s = some sp₀) (hnew : ∀ pa ∈ sp.pages, pa ∉ sp₀.pages → mappers st pa = 0)
    (pa : Nat) : mappers (st.setSpace s sp) pa ≤ mappers st pa ∨
      mappers st pa = 0 ∧ pa ∈ sp.pages ∧ pa ∉ sp₀.pages ∧ mappers (st.setSpace s sp) pa = 1 := by
  have hm := mappers_setSpace hs sp pa
  simp only [Space.maps, decide_eq_true_eq] at hm
  by_cases hin : pa ∈ sp.pages
  · by_cases hin0 : pa ∈ sp₀.pages
    · rw [if_pos hin, if_pos hin0] at hm
      exact .inl (by omega)
    · rw [if_pos hin, if_neg hin0, hnew pa hin hin0] at hm
      exact .inr ⟨hnew pa hin hin0, hin, hin0, by omega⟩
  · rw [if_neg hin] at hm
    exact .inl (by omega)

/-- A space is replaced, or removed, under frames of its own and counts that still suffice. -/
theorem Inv.slot {spaces : List (Option Space)} {o : Option Space} (h : Inv st)
    (hspace : ∀ s' sp', State.space { st with spaces } s' = some sp' →
      s' = s ∧ o = some sp' ∨ s' ≠ s ∧ st.space s' = some sp') (hok : ∀ sp, o = some sp → SpaceOk st sp)
    (hframes : ∀ sp, o = some sp → ∀ s' sp', s' ≠ s → st.space s' = some sp' → sp.frames.Disjoint sp'.frames)
    (hcount : ∀ p r, Has st p r → mappers { st with spaces } r.pa ≤ r.refcnt)
    (hsole : ∀ s' sp', s' = s ∧ o = some sp' ∨ s' ≠ s ∧ st.space s' = some sp' → ∀ x ∈ sp'.ents, x.2.rw = true →
      mappers { st with spaces } x.2.pa ≤ 1) : Inv { st with spaces } := by
  constructor
  case recs => exact { h.recs with }
  case space =>
    intro s' sp' hs'
    have hok' : SpaceOk st sp' := by
      rcases hspace s' sp' hs' with ⟨-, ho⟩ | ⟨-, hs'⟩
      · exact hok sp' ho
      · exact h.space s' sp' hs'
    exact hok'.mono le_rfl (fun _ _ _ _ _ hc => hc) hok'.alloc hok'.recs
  case apart =>
    intro s1 s2 sp1 sp2 hs1 hs2 hne
    rcases hspace s1 sp1 hs1 with ⟨he1, ho1⟩ | ⟨hne1, hs1⟩
    · rcases hspace s2 sp2 hs2 with ⟨he2, -⟩ | ⟨hne2, hs2⟩
      · exact absurd (he1.trans he2.symm) hne
      · exact hframes sp1 ho1 s2 sp2 hne2 hs2
    rcases hspace s2 sp2 hs2 with ⟨-, ho2⟩ | ⟨-, hs2⟩
    · exact (hframes sp2 ho2 s1 sp1 hne1 hs1).symm
    · exact h.apart s1 s2 sp1 sp2 hs1 hs2 hne
  case count => exact hcount
  case sole => exact fun s' sp' hs' => hsole s' sp' (hspace s' sp' hs')
  case nodup => exact h.nodup
  case pos => exact h.pos
  case log => exact h.log

/-- **A change of an address space.** -/
theorem Inv.setSpace (h : Inv st) (hs : st.space s = some sp₀) (hok : SpaceOk st sp)
    (hframes : ∀ s' sp', s' ≠ s → st.space s' = some sp' → sp.frames.Disjoint sp'.frames)
    (hnew : ∀ pa ∈ sp.pages, pa ∉ sp₀.pages → mappers st pa = 0 ∧ ∀ p r, Has st p r → r.pa = pa → 1 ≤ r.refcnt)
    (hsole : ∀ x ∈ sp.ents, x.2.rw = true → mappers st x.2.pa ≤ 1) : Inv (st.setSpace s sp) := by
  have hm := mappers_setSpace_or hs fun pa hin hin0 => (hnew pa hin hin0).1
  refine h.slot (s := s) (o := some sp) ?_ ?_ ?_ ?_ ?_
  · intro s' sp' hs'
    rw [← State.setSpace, space_setSpace hs] at hs'
    split at hs'
    · next he => exact .inl ⟨he, hs'⟩
    · next he => exact .inr ⟨he, hs'⟩
  · rintro _ ⟨⟩
    exact hok
  · rintro _ ⟨⟩
    exact hframes
  · intro p r hr
    rcases hm r.pa with hle | ⟨-, hin, hin0, h1⟩
    · exact hle.trans (h.count p r hr)
    · exact h1.le.trans ((hnew r.pa hin hin0).2 p r hr rfl)
  intro s' sp' hs' x hx hrw
  have hle : mappers st x.2.pa ≤ 1 := by
    rcases hs' with ⟨-, ⟨⟩⟩ | ⟨-, hs'⟩
    · exact hsole x hx hrw
    · exact h.sole s' sp' hs' x hx hrw
  rcases hm x.2.pa with hle' | ⟨-, -, -, h1⟩
  · exact hle'.trans hle
  · exact h1.le

/-- **A new address space.** -/
theorem Inv.addSpace (h : Inv st) (hok : SpaceOk st sp)
    (hframes : ∀ s' sp', st.space s' = some sp' → sp.frames.Disjoint sp'.frames)
    (hcount : ∀ p r, Has st p r → r.pa ∈ sp.pages → mappers st r.pa + 1 ≤ r.refcnt)
    (hro : ∀ x ∈ sp.ents, x.2.rw = false)
    (hsole : ∀ s' sp', st.space s' = some sp' → ∀ x ∈ sp'.ents, x.2.rw = true → x.2.pa ∉ sp.pages) :
    Inv { st with spaces := st.spaces ++ [some sp] } := by
  have hm : ∀ pa, mappers { st with spaces := st.spaces ++ [some sp] } pa =
      mappers st pa + if pa ∈ sp.pages then 1 else 0 := by
    intro pa
    simp [mappers, countP_append, countP_cons, Space.maps]
  refine h.slot (s := st.spaces.length) (o := some sp) ?_ ?_ ?_ ?_ ?_
  · intro s' sp' hs'
    have hs' := getElem?_of_space hs'
    rcases Nat.lt_trichotomy s' st.spaces.length with hlt | rfl | hgt
    · rw [getElem?_append_left hlt] at hs'
      refine .inr ⟨hlt.ne, ?_⟩
      rw [State.space, hs']
      rfl
    · rw [getElem?_concat_length] at hs'
      exact .inl ⟨rfl, Option.some.inj hs'⟩
    · rw [getElem?_eq_none (by simp; omega)] at hs'
      cases hs'
  · rintro _ ⟨⟩
    exact hok
  · rintro _ ⟨⟩ s' sp' -
    exact hframes s' sp'
  · intro p r hr
    rw [hm]
    split
    · next hin => exact hcount p r hr hin
    · exact h.count p r hr
  intro s' sp' hs' x hx hrw
  rcases hs' with ⟨-, ⟨⟩⟩ | ⟨-, hs'⟩
  · rw [hro x hx] at hrw
    cases hrw
  · rw [hm, if_neg (hsole s' sp' hs' x hx hrw)]
    exact h.sole s' sp' hs' x hx hrw

/-- **An address space less.** -/
theorem Inv.dropSpace (h : Inv st) (hs : st.space s = some sp) : Inv { st with spaces := st.spaces.set s none } := by
  have hm : ∀ pa, mappers { st with spaces := st.spaces.set s none } pa ≤ mappers st pa := by
    intro pa
    have := countP_set_add (p := fun o => o.any fun sp => sp.maps pa) (getElem?_of_space hs) none
    exact Nat.le_of_add_right_le this.le
  refine h.slot (s := s) (o := none) ?_ nofun nofun (fun p r hr => (hm _).trans (h.count p r hr)) ?_
  · intro s' sp' hs'
    have hs' := getElem?_of_space hs'
    rw [getElem?_set] at hs'
    split at hs'
    · split at hs' <;> cases hs'
    next hne =>
    refine .inr ⟨Ne.symm hne, ?_⟩
    rw [State.space, hs']
    rfl
  · rintro s' sp' (⟨-, ⟨⟩⟩ | ⟨-, hs'⟩) x hx hrw
    exact (hm _).trans (h.sole s' sp' hs' x hx hrw)

end TextOS.Cow
