import TextOS.Mman.Munmap

/-!
# What `munmap` leaves: `kernel/mm/mman/mman.c`, `kernel/mm/fault.c`

A round of the loop of `munmap` gives the parts of an area outside of the range to the same area or to a new one.

- **`munmap` removes its range and nothing else** (`munmap_exact`) exactly when there is nothing to remove, or the words
  before the head of the list do not look like an area in the range (`munmap_skipped`) and `rbtree_delete` does not read
  through `NULL`;
- **the pages of a file keep their offsets** exactly when nothing is changed or no file area goes on behind the range
  (`munmap_backing`); an area whose start moves keeps its `foff`, so that its pages get the wrong part of the file
  (`munmap_shifted`).
-/

namespace TextOS.Mman

open Lib BinTree List
open Relation (ReflTransGen)

/-- The attributes that do not depend on the limits. -/
def Area.attrs (area : Area) : Nat × Nat × Label := (area.prot, area.flgs, area.label)

/-- The file and the offset that `pagefault_handler` reads for an address of the area, if it is a file area. -/
def Area.backing (area : Area) (addr : Nat) : Option (Option Nat × Nat) :=
  let pgbase := addr / 4096 * 4096
  if area.label = .file then some (area.node, u64 (area.foff + pgbase + (2 ^ 64 - area.s))) else none

/-- What `pagefault_handler` reads for an address without a page. -/
def faultFile (sp : Space) (addr : Nat) : Option (Option Nat × Nat) :=
  (vmmSpContaining sp addr).bind fun a => (sp.areas a).backing addr

/-- The address is in an area for which `key` gives the value. -/
def Space.Has {κ : Type} (sp : Space) (key : Area → Nat → κ) (x : Nat) (v : κ) : Prop :=
  ∃ a ∈ sp.list, (sp.lo a ≤ x ∧ x < sp.hi a) ∧ key (sp.areas a) x = v

/-- `key` does not change for the area that goes on behind the range when its start moves there. -/
def Keeps {κ : Type} (key : Area → Nat → κ) (askEnd : Nat) (sp : Space) : Prop :=
  ∀ a ∈ sp.list, sp.lo a < askEnd → askEnd < sp.hi a → ∀ x, key ((sp.areas a).startAt askEnd) x = key (sp.areas a) x

section

variable {κ : Type} {key : Area → Nat → κ} {sp sp' : Space} {a askStart askEnd x : Nat} {area : Area} {v : κ}

/-! ## A round -/

theorem has_put (hkey : key area x = key (sp.areas a) x)
    (hin : area.s ≤ x ∧ x < area.t ↔ sp.lo a ≤ x ∧ x < sp.hi a) : (sp.put a area).Has key x v ↔ sp.Has key x v := by
  have hput : ∀ b, ((sp.put a area).lo b ≤ x ∧ x < (sp.put a area).hi b) ∧ key ((sp.put a area).areas b) x = v ↔
      (sp.lo b ≤ x ∧ x < sp.hi b) ∧ key (sp.areas b) x = v := by
    intro b
    by_cases hba : b = a
    · unfold Space.lo Space.hi at *
      rw [hba, put_self, hin, hkey]
    · unfold Space.lo Space.hi
      rw [put_of_ne sp area hba]
  simp only [Space.Has, hput]
  rfl

/-- **A round keeps every address outside of the range.** -/
theorem Turn.has (h : Turn askStart askEnd sp sp') (hend : ∀ area t x, key (Area.endAt area t) x = key area x)
    (hkeeps : Keeps key askEnd sp) (hx : ¬ (askStart ≤ x ∧ x < askEnd)) : sp'.Has key x v ↔ sp.Has key x v := by
  obtain ⟨h, hcut⟩ := h
  cases hcut with
  | @split a l l' tree ha hs hask ht hlist =>
    have hne : a ≠ sp.next := (h.old a ha).ne
    have hstart := hkeeps a ha (hs.trans hask) ht x
    have hmem : ∀ b, b ∈ l ++ sp.next :: l' ↔ b = sp.next ∨ b ∈ sp.list := by
      intro b
      rw [hlist]
      simp only [mem_append, mem_cons]
      tauto
    unfold Space.Has Space.lo Space.hi at *
    simp only [hmem]
    constructor
    · rintro ⟨b, rfl | hb, hin, hv⟩
      · rw [split_next hne] at hin hv
        exact ⟨a, ha, ⟨(hs.trans hask).le.trans hin.1, hin.2⟩, hstart ▸ hv⟩
      by_cases hba : b = a
      · subst hba
        rw [split_self] at hin hv
        exact ⟨b, hb, ⟨hin.1, hin.2.trans (hask.trans ht)⟩, hend _ _ _ ▸ hv⟩
      · rw [split_of_ne hba (h.old b hb).ne] at hin hv
        exact ⟨b, hb, hin, hv⟩
    · rintro ⟨b, hb, hin, hv⟩
      by_cases hba : b = a
      · subst hba
        by_cases hxs : x < askStart
        · refine ⟨b, .inr hb, ?_⟩
          rw [split_self, hend]
          exact ⟨⟨hin.1, hxs⟩, hv⟩
        refine ⟨sp.next, .inl rfl, ?_⟩
        rw [split_next hne, hstart]
        refine ⟨⟨?_, hin.2⟩, hv⟩
        show askEnd ≤ x
        omega
      · refine ⟨b, .inr hb, ?_⟩
        rw [split_of_ne hba (h.old b hb).ne]
        exact ⟨hin, hv⟩
  | @remove a tree ha hs ht =>
    have herase : ∀ b, b ∈ sp.list.erase a ↔ b ≠ a ∧ b ∈ sp.list := fun b => h.nodup.mem_erase_iff
    unfold Space.Has
    simp only [herase]
    constructor
    · rintro ⟨b, ⟨-, hb⟩, hin⟩
      exact ⟨b, hb, hin⟩
    rintro ⟨b, hb, hin, hv⟩
    refine ⟨b, ⟨?_, hb⟩, hin, hv⟩
    rintro rfl
    exact hx ⟨hs.trans hin.1, hin.2.trans_le ht⟩
  | left ha hs hmeet ht =>
    refine has_put (hkeeps _ ha hmeet ht x) ?_
    show askEnd ≤ x ∧ x < sp.hi _ ↔ _
    omega
  | right ha hs hmeet ht =>
    refine has_put (hend _ _ _) ?_
    show sp.lo _ ≤ x ∧ x < askStart ↔ _
    omega

theorem keeps_put (hkeeps : Keeps key askEnd sp) (hcut : area.t ≤ askEnd ∨ askEnd ≤ area.s) :
    Keeps key askEnd (sp.put a area) := by
  intro b hb hlo hhi
  unfold Space.lo Space.hi at *
  by_cases hba : b = a
  · rw [hba, put_self] at hlo hhi
    omega
  · rw [put_of_ne sp area hba] at hlo hhi ⊢
    exact hkeeps b hb hlo hhi

/-- A turn keeps what is known of the keys. -/
theorem Turn.keeps (h : Turn askStart askEnd sp sp') (hkeeps : Keeps key askEnd sp) : Keeps key askEnd sp' := by
  obtain ⟨h, hcut⟩ := h
  cases hcut with
  | @split a l l' tree ha hs hask ht hlist =>
    intro b hb hlo hhi
    have hb : b ∈ l ++ sp.next :: l' := hb
    unfold Space.lo Space.hi at *
    by_cases hbn : b = sp.next
    · rw [hbn, split_next (h.old a ha).ne] at hlo
      exact absurd hlo (lt_irrefl _)
    by_cases hba : b = a
    · rw [hba, split_self] at hhi
      exact absurd hhi (not_lt.2 hask.le)
    rw [split_of_ne hba hbn] at hlo hhi ⊢
    refine hkeeps b ?_ hlo hhi
    rw [hlist]
    simp only [mem_append, mem_cons] at hb ⊢
    tauto
  | remove ha hs ht => exact fun b hb => hkeeps b (mem_of_mem_erase hb)
  | left ha hs hmeet ht => exact keeps_put hkeeps (.inr le_rfl)
  | right ha hs hmeet ht => exact keeps_put hkeeps (.inl (hmeet.trans_le ht).le)

theorem turns_has (h : ReflTransGen (Turn askStart askEnd) sp sp')
    (hend : ∀ area t x, key (Area.endAt area t) x = key area x) (hkeeps : Keeps key askEnd sp)
    (hx : ¬ (askStart ≤ x ∧ x < askEnd)) : sp'.Has key x v ↔ sp.Has key x v := by
  induction h using ReflTransGen.head_induction_on with
  | refl => rfl
  | head hturn _ ih => exact (ih (hturn.keeps hkeeps)).trans (hturn.has hend hkeeps hx)

end

variable {sp sp' : Space} {n addr len : Nat} {junk : Nat × Nat} {r : Int}

/-! ## The range -/

/-- What `munmap` returns and leaves: no area meets the range, and outside of it the attributes of every address are the
same. -/
def Removes (sp : Space) (addr len : Nat) (res : Except Stop (Int × Space)) : Prop :=
  ∃ r sp', res = .ok (r, sp') ∧ (addr + len < 2 ^ 64 → r = 0) ∧
    (∀ x, addr ≤ x → x < addr + len → ∀ a ∈ sp'.list, ¬ (sp'.lo a ≤ x ∧ x < sp'.hi a)) ∧
    ∀ x, ¬ (addr ≤ x ∧ x < addr + len) → ∀ attrs,
      (sp'.Has (fun area _ => area.attrs) x attrs ↔ sp.Has (fun area _ => area.attrs) x attrs)

theorem apart_of_empty {s t : Nat} (h : Wf sp) (hst : s < t)
    (hno : ∀ x, s ≤ x → x < t → ∀ a ∈ sp.list, ¬ (sp.lo a ≤ x ∧ x < sp.hi a)) : Apart sp.lo sp.hi sp.list s t := by
  intro a ha
  have hne := h.ordered.1 a ha
  by_contra hmeet
  refine hno (max s (sp.lo a)) (le_max_left _ _) ?_ a ha ⟨le_max_right _ _, ?_⟩
  · omega
  · omega

theorem removes_self (r : Int) (hr : addr + len < 2 ^ 64 → r = 0)
    (hapart : Apart sp.lo sp.hi sp.list addr (addr + len)) : Removes sp addr len (.ok (r, sp)) := by
  refine ⟨r, sp, rfl, hr, fun x hx hx' a ha hin => ?_, fun x _ attrs => Iff.rfl⟩
  rcases hapart a ha with hle | hle
  · omega
  · omega

/-- **`munmap` removes exactly its range** if and only if no area meets it, or it does not wrap around, the head of the
list is not taken for an area in it, and `rbtree_delete` does not read through `NULL` for the areas that lie in it. -/
theorem munmap_exact (h : Wf sp) (ha : addr % 4096 = 0) (hl : len % 4096 = 0) (h0 : 0 < len) (hlen : len < 2 ^ 64)
    (hn : sp.list.length < n) : Removes sp addr len (munmap n junk addr len sp) ↔
      Apart sp.lo sp.hi sp.list addr (addr + len) ∨
      (addr + len < 2 ^ 64 ∧ JunkOk junk addr (addr + len) sp ∧ Removable addr (addr + len) sp) := by
  have hwrap : ¬ addr + len < 2 ^ 64 → ¬ RangeOk addr len := by
    intro hno hr
    have := hr.2.2
    unfold u64 at this
    omega
  -- a call that changes nothing
  have hsame (r : Int) (hr : addr + len < 2 ^ 64 → r = 0) : Removes sp addr len (.ok (r, sp)) ↔
      Apart sp.lo sp.hi sp.list addr (addr + len) := by
    refine ⟨?_, removes_self r hr⟩
    rintro ⟨r', sp', hok, -, hno, -⟩
    cases hok
    exact apart_of_empty h (by omega) hno
  rcases munmap_cases h junk addr len hn with ⟨hno, hok⟩ | ⟨hrange, hjunk, hok⟩ |
    ⟨hrange, hjunk, hend⟩
  · have hlt : ¬ addr + len < 2 ^ 64 := fun hlt => hno (rangeOk_of_lt ha hl h0 hlt)
    rw [hok, hsame _ fun h => absurd h hlt]
    exact (or_iff_left fun hall => hlt hall.1).symm
  · have hlt : addr + len < 2 ^ 64 := not_imp_not.1 hwrap hrange
    rw [u64_of_lt hlt] at hjunk
    rw [hok, hsame _ fun _ => rfl]
    exact (or_iff_left fun hall => hjunk hall.2.1).symm
  have hlt : addr + len < 2 ^ 64 := not_imp_not.1 hwrap hrange
  rw [u64_of_lt hlt] at hjunk hend
  rcases hend with ⟨hno, hnull⟩ | ⟨hrem, sp', hok, hc, hturns⟩
  · rw [hnull]
    refine iff_of_false (fun ⟨_, _, hok, _⟩ => by cases hok) ?_
    rintro (hapart | ⟨-, -, hrem⟩)
    · refine hno ?_
      rw [Removable, filter_within_apart h (append_nil sp.list).symm hapart]
      trivial
    · exact hno hrem
  · rw [hok]
    refine iff_of_true ⟨0, sp', rfl, fun _ => rfl, fun x hx hx' a ha hin => ?_, fun x hx attrs => ?_⟩
      (.inr ⟨hlt, hjunk, hrem⟩)
    · rcases hc.apart a ha with hle | hle
      · omega
      · omega
    · exact turns_has hturns (fun _ _ _ => rfl) (fun _ _ _ _ _ => rfl) hx

/-- A file area and an anonymous one, side by side. -/
def twoAreas : Space where
  areas := fun a => if a = 0 then ⟨8192, 20480, 2, 1, .file, 0, some 7⟩ else ⟨20480, 28672, 34, 3, .user, 0, none⟩
  next := 2
  list := [0, 1]
  tree := node .black nil 0 (node .red nil 1 nil)

theorem wf_twoAreas : Wf twoAreas := by refine ⟨⟨by decide, by decide⟩, rfl, rfl, by decide⟩

/-- The first area is removed and the second one loses a page. -/
theorem munmap_exact_twoAreas : Removes twoAreas 4096 20480 (munmap 3 (0, 0) 4096 20480 twoAreas) :=
  (munmap_exact wf_twoAreas (by decide) (by decide) (by decide) (by decide) (by decide)).2
    (.inr ⟨by decide, by decide, by decide, fun _ _ => trivial⟩)

/-- **When the words before the head of the list look like an area in the range, nothing is removed.** -/
theorem munmap_skipped : (munmap 3 (0, 65536) 4096 8192 twoAreas).map
    (fun r => (r.1, r.2.list.any (r.2.contains 8192))) = .ok (0, true) := by
  decide

/-! ## Files -/

theorem faultFile_eq_some_iff (h : Wf sp) {addr : Nat} {v : Option Nat × Nat} :
    faultFile sp addr = some v ↔ sp.Has Area.backing addr (some v) := by
  constructor
  · intro hv
    obtain ⟨a, ha, hv⟩ := Option.bind_eq_some_iff.1 hv
    obtain ⟨hmem, hin⟩ := (vmmSpContaining_eq_some_iff h).1 ha
    exact ⟨a, hmem, hin, hv⟩
  rintro ⟨a, hmem, hin, hv⟩
  rw [faultFile, (vmmSpContaining_eq_some_iff h).2 ⟨hmem, hin⟩]
  exact hv

/-- No file area that the range meets goes on behind the range. -/
def FilesEnd (askEnd : Nat) (sp : Space) : Prop :=
  ∀ a ∈ sp.list, (sp.areas a).label = .file → ¬ (sp.lo a < askEnd ∧ askEnd < sp.hi a)

theorem FilesEnd.keeps {askEnd : Nat} (h : FilesEnd askEnd sp) : Keeps Area.backing askEnd sp := by
  intro a ha hlo hhi x
  have hlabel : (sp.areas a).label ≠ .file := fun hf => h a ha hf ⟨hlo, hhi⟩
  rw [Area.backing, Area.backing, if_neg hlabel, if_neg]
  exact hlabel

/-- A file area that goes on behind the range starts there afterwards, with the same `foff`. -/
theorem faultFile_end {askStart askEnd a : Nat} (h : Wf sp) (hc : Cleared askStart askEnd sp sp')
    (hturns : ReflTransGen (Turn askStart askEnd) sp sp') (hask : askStart < askEnd) (ha : a ∈ sp.list)
    (hfile : (sp.areas a).label = .file) (hlo : sp.lo a < askEnd) (hhi : askEnd < sp.hi a) (hlt : askEnd < 2 ^ 64)
    (hpage : askEnd % 4096 = 0) : faultFile sp' askEnd ≠ faultFile sp askEnd := by
  have hbase : askEnd / 4096 * 4096 = askEnd := by omega
  have hbefore : faultFile sp askEnd = some ((sp.areas a).node,
    u64 ((sp.areas a).foff + askEnd + (2 ^ 64 - sp.lo a))) := by
    rw [faultFile_eq_some_iff h]
    exact ⟨a, ha, ⟨hlo.le, hhi⟩, by rw [Area.backing, if_pos hfile, hbase, Space.lo]⟩
  -- what does not depend on the start of the area
  obtain ⟨b, hb, hin, hkey⟩ : sp'.Has (fun area _ => (area.label, area.node, area.foff)) askEnd
      (.file, (sp.areas a).node, (sp.areas a).foff) :=
    (turns_has hturns (fun _ _ _ => rfl) (fun _ _ _ _ _ => rfl) (by omega)).2 ⟨a, ha, ⟨hlo.le, hhi⟩, by simp [hfile]⟩
  obtain ⟨hlabel, hkey⟩ := Prod.mk.inj hkey
  obtain ⟨hnode, hfoff⟩ := Prod.mk.inj hkey
  have hstart : sp'.lo b = askEnd := by
    rcases hc.apart b hb with hle | hle
    · omega
    · omega
  have hafter : faultFile sp' askEnd = some ((sp.areas a).node,
    u64 ((sp.areas a).foff + askEnd + (2 ^ 64 - askEnd))) := by
    rw [faultFile_eq_some_iff hc.wf]
    refine ⟨b, hb, hin, ?_⟩
    rw [Area.backing, if_pos hlabel, hbase, hnode, hfoff]
    show some (_, u64 (_ + (2 ^ 64 - sp'.lo b))) = _
    rw [hstart]
  rw [hbefore, hafter]
  simp only [ne_eq, Option.some.injEq, Prod.mk.injEq, true_and, u64]
  omega

/-- **`munmap` keeps the backing of every address that stays** if and only if it changes nothing, since the range is not
valid or the head of the list is taken for an area in it, or no file area goes on behind the range. -/
theorem munmap_backing (h : Wf sp) (hrun : munmap n junk addr len sp = .ok (r, sp')) :
    (∀ x, ¬ (addr ≤ x ∧ x < u64 (addr + len)) ∨ vmmSpContaining sp' x ≠ none → faultFile sp' x = faultFile sp x) ↔
      (RangeOk addr len → JunkOk junk addr (u64 (addr + len)) sp → FilesEnd (u64 (addr + len)) sp) := by
  -- with more rounds the call returns the same
  have hrun : munmap (n + (sp.list.length + 1)) junk addr len sp = .ok (r, sp') :=
    munmap_stable junk addr len sp n _ _ (Nat.le_add_right _ _) hrun
  rcases munmap_cases (n := n + (sp.list.length + 1)) h junk addr len (by omega) with
    ⟨hno, hok⟩ | ⟨-, hno, hok⟩ | ⟨hrange, hjunk, ⟨-, hnull⟩ | ⟨-, sp₁, hok, hc, hturns⟩⟩
  · rw [hok] at hrun
    cases hrun
    exact iff_of_true (fun _ _ => rfl) fun hr => absurd hr hno
  · rw [hok] at hrun
    cases hrun
    exact iff_of_true (fun _ _ => rfl) fun _ hj => absurd hj hno
  · rw [hnull] at hrun
    cases hrun
  rw [hok] at hrun
  cases hrun
  refine ⟨fun hall _ _ a ha hfile hmeet => ?_, fun hfiles x hx => ?_⟩
  · exact faultFile_end h hc hturns hrange.2.2 ha hfile hmeet.1 hmeet.2 (Nat.mod_lt _ (by decide)) hrange.2.1
      (hall _ (.inl (by omega)))
  have hx : ¬ (addr ≤ x ∧ x < u64 (addr + len)) := by
    rcases hx with hx | hx
    · exact hx
    obtain ⟨a, ha⟩ := Option.ne_none_iff_exists'.1 hx
    obtain ⟨hmem, hin⟩ := (vmmSpContaining_eq_some_iff hc.wf).1 ha
    rcases hc.apart a hmem with hle | hle
    · omega
    · omega
  apply Option.ext
  intro v
  rw [faultFile_eq_some_iff hc.wf, faultFile_eq_some_iff h]
  exact turns_has hturns (fun _ _ _ => rfl) (hfiles hrange hjunk).keeps hx

theorem munmap_backing_twoAreas : ∃ sp', munmap 3 (0, 0) 16384 4096 twoAreas = .ok (0, sp') ∧
    faultFile sp' 12288 = faultFile twoAreas 12288 := by
  have hfiles : FilesEnd (u64 (16384 + 4096)) twoAreas := by
    unfold FilesEnd
    decide
  obtain ⟨sp', hrun⟩ : ∃ sp', munmap 3 (0, 0) 16384 4096 twoAreas = .ok (0, sp') := ⟨_, rfl⟩
  exact ⟨sp', hrun, (munmap_backing wf_twoAreas hrun).2 (fun _ _ => hfiles) 12288 (.inl (by decide))⟩

/-- **After the start of a file area moved, or after it was split, a page is read from the wrong offset.** -/
theorem munmap_shifted : faultFile twoAreas 12288 = some (some 7, 4096) ∧
    (munmap 3 (0, 0) 8192 4096 twoAreas).map (fun r => faultFile r.2 12288) = .ok (some (some 7, 0)) ∧
    faultFile twoAreas 16384 = some (some 7, 8192) ∧
    (munmap 3 (0, 0) 12288 4096 twoAreas).map (fun r => faultFile r.2 16384) = .ok (some (some 7, 0)) := by
  decide +kernel

end TextOS.Mman
