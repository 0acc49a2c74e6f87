import TextOS.Fd.Defs

/-!
# References to open files

- `Core N s`: each file counts the descriptors that refer to it, and the files that have been released are those to
  which no descriptor refers any more; `Nodes`: closing one file frees the node of no other;
- `Careful`: the calls find free descriptors, `F_DUPFD` is not used, the memory that `socket` gets has a one at the
  place of `refer`, and a node that `close` frees is opened by one file only;
- **over every run of careful calls the counts are right, files are released once and exactly when the last descriptor
  is closed, and no freed file is used** (`refer_counted`); without care a file is released while a descriptor refers to
  it (`released_in_use`).
-/

namespace TextOS.Fd

open Lib List Function Option

variable {N : Nat} {s s' : Sys} {t c f : Nat} {x : Nat × Nat} {r : Int}

/-- All descriptors of all tasks. -/
def places (N : Nat) : Finset (Nat × Nat) := Finset.range N ×ˢ Finset.range MAX_FILE

theorem mem_places : x ∈ places N ↔ x.1 < N ∧ x.2 < MAX_FILE := by
  rw [places, Finset.mem_product, Finset.mem_range, Finset.mem_range]

/-! ## Nodes -/

section Nodes

variable {refer : Nat → Option Int} {node : Nat → Node} {freed : List Nat} {n m : Node}

/-- The files in memory have nodes that have not been freed, and closing one frees the node of no other. -/
structure Nodes (refer : Nat → Option Int) (node : Nat → Node) (freed : List Nat) : Prop where
  here : ∀ f, refer f ≠ none → ¬ (node f).Freed freed
  apart : ∀ f g, f ≠ g → refer f ≠ none → refer g ≠ none → ¬ (node f).Takes (node g)

theorem Nodes.mono {refer' : Nat → Option Int} (h : Nodes refer node freed)
    (hle : ∀ f, refer' f ≠ none → refer f ≠ none) : Nodes refer' node freed :=
  ⟨fun f hf => h.here f (hle f hf), fun f g hfg hf hg => h.apart f g hfg (hle f hf) (hle g hg)⟩

theorem Nodes.count (h : Nodes refer node freed) (hr : refer f = some r) (c : Option Int) :
    Nodes (update refer f c) node freed := by
  refine h.mono fun g hg => ?_
  by_cases hgf : g = f
  · rw [hgf, hr]
    exact some_ne_none r
  · rwa [update_of_ne hgf] at hg

/-- A description of a node that is neither freed nor released by others. -/
theorem Nodes.new (h : Nodes refer node freed) (hn : ¬ n.Freed freed)
    (halone : ∀ g, refer g ≠ none → ¬ n.Takes (node g) ∧ ¬ (node g).Takes n) (c : Option Int) :
    Nodes (update refer f c) (update node f n) freed := by
  have hold : ∀ g, g ≠ f → update refer f c g ≠ none → refer g ≠ none := by
    intro g hg hne
    rwa [update_of_ne hg] at hne
  refine ⟨fun g hg => ?_, fun g g' hne hg hg' => ?_⟩
  · by_cases hgf : g = f
    · rw [hgf, update_self]
      exact hn
    · rw [update_of_ne hgf]
      exact h.here g (hold g hgf hg)
  -- one of the two files may be the new one
  by_cases hgf : g = f
  · have hgf' : g' ≠ f := fun he => hne (hgf.trans he.symm)
    rw [hgf, update_self, update_of_ne hgf']
    exact (halone g' (hold g' hgf' hg')).1
  rw [update_of_ne hgf]
  by_cases hgf' : g' = f
  · rw [hgf', update_self]
    exact (halone g (hold g hgf hg)).2
  rw [update_of_ne hgf']
  exact h.apart g g' hne (hold g hgf hg) (hold g' hgf' hg')

theorem freed_shut (hrel : n.release = true) :
    m.Freed (n.path.head?.toList ++ freed) ↔ n.Takes m ∨ m.Freed freed := by
  simp only [Node.Freed, Node.Takes, mem_append, mem_toList, hrel, true_and]
  constructor
  · rintro ⟨d, hd, h | h⟩
    · exact .inl ⟨d, h, hd⟩
    · exact .inr ⟨d, hd, h⟩
  · rintro (⟨d, hd, h⟩ | ⟨d, hd, h⟩)
    · exact ⟨d, h, .inl hd⟩
    · exact ⟨d, hd, .inr h⟩

/-- A node is closed that frees the node of no file. -/
theorem Nodes.vfsClose (h : Nodes refer node freed) (hn : ¬ n.Freed freed)
    (halone : ∀ g, refer g ≠ none → ¬ n.Takes (node g)) : ∃ freed', Nodes refer node freed' ∧
      ∀ s : Sys, s.freed = freed → vfsClose s n = some { s with freed := freed' } := by
  by_cases hrel : n.release = true
  · refine ⟨n.path.head?.toList ++ freed, ⟨fun g hg => ?_, h.apart⟩, fun s hs => ?_⟩
    · rw [freed_shut hrel]
      exact not_or.2 ⟨halone g hg, h.here g hg⟩
    · rw [Fd.vfsClose, hs, if_neg hn, if_pos hrel]
  · refine ⟨freed, h, fun s hs => ?_⟩
    subst hs
    rw [Fd.vfsClose, if_neg hn, if_neg hrel]

theorem not_freed_anon : ¬ anon.Freed freed := fun ⟨_, hd, _⟩ => not_mem_nil hd

theorem anon_alone : ¬ anon.Takes n ∧ ¬ n.Takes anon :=
  ⟨fun h => Bool.false_ne_true h.1, fun ⟨_, _, _, hd⟩ => not_mem_nil hd⟩

end Nodes

/-! ## Counts -/

structure Core (N : Nat) (s : Sys) : Prop where
  bound : ∀ x f, s.slot x = some f → x ∈ places N
  count : ∀ f r, s.refer f = some r → r = refs (places N) s.slot f
  held : ∀ x f, s.slot x = some f → ∃ r, s.refer f = some r
  used : ∀ f r, s.refer f = some r → 0 < r
  isOpen : ∀ f r, s.refer f = some r → f ∈ s.opened
  fresh : ∀ f ∈ s.opened, f < s.next
  closed : ∀ f, f ∈ s.released ↔ f ∈ s.opened ∧ s.refer f = none
  once : s.released.Nodup
  nodes : Nodes s.refer s.node s.freed

namespace Core

theorem refer_of_le (h : Core N s) {n : Nat} (hn : s.next ≤ n) : s.refer n = none := by
  by_contra hne
  obtain ⟨r, hr⟩ := ne_none_iff_exists'.1 hne
  exact absurd (h.fresh _ (h.isOpen _ r hr)) (not_lt.2 hn)

theorem refs_next (h : Core N s) : refs (places N) s.slot s.next = 0 := by
  rw [refs_eq_zero_iff]
  intro x _ hx
  obtain ⟨r, hr⟩ := h.held x _ hx
  rw [h.refer_of_le le_rfl] at hr
  cases hr

theorem skip (h : Core N s) {n : Nat} (hn : s.next ≤ n) : Core N { s with next := n } :=
  { h with fresh := fun f hf => (h.fresh f hf).trans_le hn }

/-- The descriptor `x` changes, which refers to `f` or to nothing before and after, and so does the count of `f`. -/
theorem change (h : Core N s) (hx : x ∈ places N) {o : Option Nat} {c : Option Int} {next : Nat}
    {opened released freed : List Nat} {node : Nat → Node} (hold : s.slot x = none ∨ s.slot x = some f)
    (hnew : o = none ∨ o = some f) (hcount : ∀ r, c = some r → 0 < r ∧ r = refs (places N) (update s.slot x o) f)
    (hzero : c = none → refs (places N) (update s.slot x o) f = 0) (hopen : ∀ g, g ∈ opened ↔ g = f ∨ g ∈ s.opened)
    (hfresh : ∀ g ∈ opened, g < next) (hrel : f ∈ released ↔ c = none)
    (hsame : ∀ g, g ≠ f → (g ∈ released ↔ g ∈ s.released)) (honce : released.Nodup)
    (hnodes : Nodes (update s.refer f c) node freed) :
    Core N { s with slot := update s.slot x o, refer := update s.refer f c, next := next, node := node,
                    freed := freed, opened := opened, released := released } := by
  have hbound : ∀ y g, update s.slot x o y = some g → y ∈ places N := by
    intro y g hy
    by_cases hyx : y = x
    · rwa [hyx]
    · exact h.bound y g (by rwa [update_of_ne hyx] at hy)
  have hne : ∀ {g : Nat} {o : Option Nat}, g ≠ f → o = none ∨ o = some f → o ≠ some g := by
    rintro g o hg (rfl | rfl)
    · nofun
    · exact fun he => hg (some.inj he).symm
  -- the other files are referred to as before
  have hrefs : ∀ g, g ≠ f → refs (places N) (update s.slot x o) g = refs (places N) s.slot g := by
    intro g hg
    have hc := refs_update hx s.slot o g
    rwa [if_neg (hne hg hold), if_neg (hne hg hnew)] at hc
  refine ⟨hbound, fun g q hq => ?_, fun y g hy => ?_, fun g q hq => ?_, fun g q hq => ?_, hfresh, fun g => ?_, honce,
    hnodes⟩ <;> dsimp only at * <;> by_cases hg : g = f
  · rw [hg, update_self] at hq
    rw [hg]
    exact (hcount q hq).2
  · rw [update_of_ne hg] at hq
    rw [hrefs g hg]
    exact h.count g q hq
  · rw [hg, update_self]
    refine ne_none_iff_exists'.1 fun hc => refs_eq_zero_iff.1 (hzero hc) y (hbound y g hy) ?_
    rw [← hg]
    exact hy
  · rw [update_of_ne hg]
    refine h.held y g ?_
    rwa [update_of_ne fun he => hne hg hnew (by rwa [he, update_self] at hy)] at hy
  · rw [hg, update_self] at hq
    exact (hcount q hq).1
  · rw [update_of_ne hg] at hq
    exact h.used g q hq
  · exact (hopen g).2 (.inl hg)
  · rw [update_of_ne hg] at hq
    exact (hopen g).2 (.inr (h.isOpen g q hq))
  · rw [hg, hrel, update_self, hopen]
    simp
  · rw [hsame g hg, h.closed, update_of_ne hg, hopen, or_iff_right hg]

theorem not_released (h : Core N s) (hr : s.refer f = some r) : f ∉ s.released := fun hm => by
  have hnone := ((h.closed f).1 hm).2
  rw [hr] at hnone
  cases hnone

theorem opened_iff (h : Core N s) (hr : s.refer f = some r) (g : Nat) : g ∈ s.opened ↔ g = f ∨ g ∈ s.opened :=
  ⟨.inr, fun hg => hg.elim (fun he => he ▸ h.isOpen f r hr) id⟩

theorem point (h : Core N s) (hx : x ∈ places N) (hnone : s.slot x = none)
    (hr : s.refer f = some r) : Core N { s with refer := update s.refer f (some (r + 1)),
                                                slot := update s.slot x (some f) } := by
  refine h.change hx (.inl hnone) (.inr rfl) (fun q hq => ?_) nofun (h.opened_iff hr) h.fresh
    (iff_of_false (h.not_released hr) nofun) (fun _ _ => Iff.rfl) h.once (h.nodes.count hr _)
  cases hq
  have hc := refs_update hx s.slot (some f) f
  rw [hnone, if_neg nofun, if_pos rfl] at hc
  have := h.count f r hr
  have := h.used f r hr
  omega

/-- A new description in an empty slot, referred to once. -/
theorem new (h : Core N s) (hx : x ∈ places N) (hnone : s.slot x = none) {n : Node} (hn : ¬ n.Freed s.freed)
    (halone : ∀ g, s.refer g ≠ none → ¬ n.Takes (s.node g) ∧ ¬ (s.node g).Takes n) :
    Core N { s with slot := update s.slot x (some s.next), refer := update s.refer s.next (some 1),
                    next := s.next + 1, node := update s.node s.next n, opened := s.next :: s.opened } := by
  have hfresh : s.next ∉ s.opened := fun hm => lt_irrefl _ (h.fresh _ hm)
  refine h.change hx (.inl hnone) (.inr rfl) (fun q hq => ?_) nofun (fun g => mem_cons) (fun g hg => ?_)
    (iff_of_false (fun hm => hfresh ((h.closed _).1 hm).1) nofun) (fun _ _ => Iff.rfl) h.once
    (h.nodes.new hn halone _)
  · cases hq
    have hc := refs_update hx s.slot (some s.next) s.next
    rw [hnone, if_neg nofun, if_pos rfl, h.refs_next] at hc
    omega
  rcases mem_cons.1 hg with rfl | hg
  · exact Nat.lt_succ_self _
  · exact (h.fresh g hg).trans (Nat.lt_succ_self _)

theorem refs_less (h : Core N s) (hx : s.slot x = some f) (hr : s.refer f = some r) :
    refs (places N) (update s.slot x none) f + 1 = r := by
  have hc := refs_update (h.bound x f hx) s.slot none f
  rw [hx, if_pos rfl, if_neg nofun] at hc
  have := h.count f r hr
  omega

theorem less (h : Core N s) (hx : s.slot x = some f) (hr : s.refer f = some r) (hgt : r - 1 > 0) :
    Core N { s with refer := update s.refer f (some (r - 1)), slot := update s.slot x none } := by
  refine h.change (h.bound x f hx) (.inr hx) (.inl rfl) (fun q hq => ?_) nofun (h.opened_iff hr) h.fresh
    (iff_of_false (h.not_released hr) nofun) (fun _ _ => Iff.rfl) h.once (h.nodes.count hr _)
  cases hq
  have := h.refs_less hx hr
  omega

theorem last (h : Core N s) (hx : s.slot x = some f) (hr : s.refer f = some r) (hle : ¬ r - 1 > 0) {freed : List Nat}
    (hnodes : Nodes (update s.refer f none) s.node freed) :
    Core N { s with refer := update s.refer f none, released := f :: s.released, freed := freed,
                    slot := update s.slot x none } := by
  refine h.change (h.bound x f hx) (.inr hx) (.inl rfl) nofun (fun _ => ?_) (h.opened_iff hr) h.fresh
    (iff_of_true mem_cons_self rfl) (fun g hg => ?_) (nodup_cons.2 ⟨h.not_released hr, h.once⟩) hnodes
  · have := h.refs_less hx hr
    omega
  · rw [mem_cons, or_iff_right hg]

/-- `__file_dec_ref` for a descriptor that is no longer counted; `slot` are those that were. -/
theorem decRef (slot : Nat × Nat → Option Nat) (h : Core N { s with slot := slot }) {x : Nat × Nat}
    (hx : slot x = some f) : ∃ s1, fileDecRef s f = some s1 ∧ Core N { s1 with slot := update slot x none } ∧
    s1.slot = s.slot ∧
      s1.live = s.live := by
  obtain ⟨r, hr⟩ := h.held x f hx
  rw [fileDecRef, show s.refer f = some r from hr]
  dsimp only
  split
  next hgt => exact ⟨_, rfl, h.less hx hr hgt, rfl, rfl⟩
  next hle =>
    have hf : s.refer f ≠ none := by rw [show s.refer f = some r from hr]; nofun
    have hother : ∀ g, update s.refer f none g ≠ none → g ≠ f ∧ s.refer g ≠ none := by
      intro g hg
      by_cases hgf : g = f
      · exact absurd (by rw [hgf, update_self]) hg
      · exact ⟨hgf, by rwa [update_of_ne hgf] at hg⟩
    obtain ⟨freed, hnodes, hclose⟩ := (h.nodes.count hr none).vfsClose (h.nodes.here f hf)
      fun g hg => h.nodes.apart f g (hother g hg).1.symm hf (hother g hg).2
    rw [if_pos (h.isOpen f r hr), hclose s rfl]
    exact ⟨_, rfl, h.last hx hr hle hnodes, rfl, rfl⟩

end Core

/-! ## Calls -/

/-- A call of the task `t` keeps the references right and changes descriptors of the task only. -/
structure Keeps (N t : Nat) (s s' : Sys) : Prop where
  core : Core N s'
  live : s'.live = s.live
  others : ∀ x : Nat × Nat, x.1 ≠ t → s'.slot x = s.slot x

theorem Core.refl (h : Core N s) : Keeps N t s s := ⟨h, rfl, fun _ _ => rfl⟩

theorem update_others {slot : Nat × Nat → Option Nat} {i : Nat} {o : Option Nat} (x : Nat × Nat) (hx : x.1 ≠ t) :
    update slot (t, i) o x = slot x :=
  update_of_ne (fun he => hx (by rw [he])) _ _

theorem fdGet_eq_some {min i : Nat} (h : fdGet s t min = some i) : i < MAX_FILE ∧ s.slot (t, i) = none := by
  have hc := find?_some h
  rw [Bool.and_eq_true] at hc
  exact ⟨mem_range.1 (mem_of_find?_eq_some h), by simpa using hc.2⟩

/-- There is a free descriptor. -/
def HasFree (s : Sys) (t : Nat) : Prop := ∃ i < MAX_FILE, s.slot (t, i) = none

theorem HasFree.fdGet (h : HasFree s t) : ∃ i, fdGet s t 0 = some i := by
  obtain ⟨i, hi, hnone⟩ := h
  refine isSome_iff_exists.1 (find?_isSome.2 ⟨i, mem_range.2 hi, ?_⟩)
  rw [hnone]
  rfl

theorem HasFree.fileGet (h : HasFree s t) (mem : Option Int) : ∃ fd, fd < MAX_FILE ∧ s.slot (t, fd) = none ∧
    fileGet s t 0 mem = match mem with
      | none => some (s, none)
      | some junk => some (addFile s (t, fd) junk, some (fd, s.next)) := by
  obtain ⟨fd, hfd⟩ := h.fdGet
  obtain ⟨hlt, hnone⟩ := fdGet_eq_some hfd
  refine ⟨fd, hlt, hnone, ?_⟩
  unfold Fd.fileGet
  rw [if_neg (lt_irrefl 0), Int.toNat_zero, hfd]
  cases mem <;> rfl

theorem filePut_addFile {fd n : Nat} {junk : Int} {freed : List Nat} (hnone : s.slot (t, fd) = none)
    (hnext : s.refer s.next = none) :
    filePut { addFile s (t, fd) junk with next := n, freed := freed } t fd = { s with next := n, freed := freed } := by
  have hslot : update s.slot (t, fd) none = s.slot := by rw [← hnone, update_eq_self]
  have hrefer : update s.refer s.next none = s.refer := by rw [← hnext, update_eq_self]
  rw [filePut, addFile]
  dsimp only
  rw [update_self]
  dsimp only
  rw [update_idem, update_idem, hslot, hrefer]

theorem fdVerify_eq_some {fd : Int} (h : fdVerify s t fd = some f) :
    0 ≤ fd ∧ fd < MAX_FILE ∧ s.slot (t, fd.toNat) = some f := by
  rw [fdVerify] at h
  split at h
  next => cases h
  next hr => exact ⟨by omega, by omega, h⟩

theorem setOpen_addFile (x : Nat × Nat) (junk : Int) (n : Node) : setOpen (addFile s x junk) s.next n =
    { addFile s x 1 with node := update s.node s.next n, opened := s.next :: s.opened } := by
  rw [setOpen, addFile, addFile]
  rw [update_idem]

theorem setOpen_addFile_addFile (x y : Nat × Nat) (junk0 junk1 : Int) :
    setOpen (setOpen (addFile (addFile s x junk0) y junk1) s.next anon) (s.next + 1) anon =
      { addFile (addFile s x 1) y 1 with node := update (update s.node s.next anon) (s.next + 1) anon,
                                         opened := (s.next + 1) :: s.next :: s.opened } := by
  have hcomm : ∀ a b c : Option Int, update (update (update s.refer s.next a) (s.next + 1) b) s.next c =
      update (update s.refer s.next c) (s.next + 1) b := fun a b c => by
    rw [update_comm (Nat.succ_ne_self _), update_idem]
  simp only [setOpen, addFile]
  rw [hcomm, update_idem]

/-- Closing `n` frees the node of no file in memory, nor closing one of these `n`, if it stays open. -/
def Alone (s : Sys) (n : Node) (ok : Bool) : Prop :=
  ∀ g ∈ s.opened, s.refer g ≠ none → ¬ n.Takes (s.node g) ∧ (ok = true → ¬ (s.node g).Takes n)

theorem found_cases (s : Sys) (res : Option (Node × Bool)) : found s res = none ∨
    ∃ n ok, ¬ n.Freed s.freed ∧ res = some (n, ok) ∧ found s res = some (n, ok) := by
  cases res with
  | none => exact .inl rfl
  | some r =>
    rw [found, filter_some]
    split
    next hn => exact .inr ⟨r.1, r.2, by simpa using hn, rfl, rfl⟩
    next => exact .inl rfl

namespace Core

theorem mem_opened (h : Core N s) (hf : s.refer f ≠ none) : f ∈ s.opened := by
  obtain ⟨r, hr⟩ := ne_none_iff_exists'.1 hf
  exact h.isOpen f r hr

/-- `open` keeps the counts. -/
theorem openFile (h : Core N s) (ht : t < N) (hfree : HasFree s t) (mem : Option Int) {res : Option (Node × Bool)}
    (hres : ∀ n ok, res = some (n, ok) → Alone s n ok) : ∃ s', openFile s t mem res = some s' ∧ Keeps N t s s' := by
  obtain ⟨fd, hfd, hnone, hget⟩ := hfree.fileGet mem
  rw [Fd.openFile, hget]
  cases mem with
  | none => exact ⟨s, rfl, h.refl⟩
  | some junk =>
    dsimp only
    rw [bind_some]
    dsimp only
    rw [show found (addFile s (t, fd) junk) res = found s res from rfl]
    have hput : ∀ freed : List Nat, filePut { addFile s (t, fd) junk with freed := freed } t fd =
        { s with next := s.next + 1, freed := freed } := fun _ => filePut_addFile hnone (h.refer_of_le le_rfl)
    rcases found_cases s res with hf | ⟨n, ok, hn, hsome, hf⟩
    · have hput' : filePut (addFile s (t, fd) junk) t fd = { s with next := s.next + 1 } := hput s.freed
      rw [hf, hput']
      exact ⟨_, rfl, h.skip (Nat.le_succ _), rfl, fun _ _ => rfl⟩
    have halone := fun g hg => hres n ok hsome g (h.mem_opened hg) hg
    rw [hf]
    cases ok with
    | true =>
      refine ⟨_, rfl, ?_, rfl, fun x hx => update_others x hx⟩
      rw [setOpen_addFile]
      exact h.new (mem_places.2 ⟨ht, hfd⟩) hnone hn fun g hg => ⟨(halone g hg).1, (halone g hg).2 rfl⟩
    | false =>
      -- the flags are wrong: the node is closed, and no other file has it
      obtain ⟨freed, hnodes, hclose⟩ := h.nodes.vfsClose hn fun g hg => (halone g hg).1
      dsimp only
      rw [hclose (addFile s (t, fd) junk) rfl, map_some, hput freed]
      exact ⟨_, rfl, { h.skip (Nat.le_succ _) with nodes := hnodes }, rfl, fun _ _ => rfl⟩

theorem socket (h : Core N s) (ht : t < N) (hfree : HasFree s t) (mem : Option Int) (hone : ∀ junk ∈ mem, junk = 1) :
    ∃ s', socket s t mem true = some s' ∧ Keeps N t s s' := by
  obtain ⟨fd, hfd, hnone, hget⟩ := hfree.fileGet mem
  rw [Fd.socket, hget]
  cases mem with
  | none => exact ⟨s, rfl, h.refl⟩
  | some junk =>
    obtain rfl := hone junk rfl
    exact ⟨_, rfl, h.new (mem_places.2 ⟨ht, hfd⟩) hnone not_freed_anon (fun _ _ => anon_alone), rfl,
      fun x hx => update_others x hx⟩

theorem close_slot (h : Core N s) {fd : Int} (hf : fdVerify s t fd = some f) :
    ∃ s', close s t fd = some s' ∧ Keeps N t s s' ∧ s'.slot = update s.slot (t, fd.toNat) none := by
  obtain ⟨s1, hs1, hcore, hslot, hlive⟩ := decRef s.slot h (fdVerify_eq_some hf).2.2
  rw [Fd.close, hf]
  dsimp only
  rw [hs1, ← hslot]
  rw [← hslot] at hcore
  refine ⟨_, rfl, ⟨hcore, hlive, fun x hx => ?_⟩, rfl⟩
  rw [← hslot]
  exact update_others x hx

theorem close (h : Core N s) (t : Nat) (fd : Int) : ∃ s', close s t fd = some s' ∧ Keeps N t s s' := by
  cases hf : fdVerify s t fd with
  | none => exact ⟨s, by rw [Fd.close, hf], h.refl⟩
  | some f =>
    obtain ⟨s', hs', hk, -⟩ := h.close_slot hf
    exact ⟨s', hs', hk⟩

/-- `dup2` keeps the counts: the old description gains what the new slot's loses. -/
theorem dup2 (h : Core N s) (ht : t < N) {old new : Int} (hin : 0 ≤ old ∧ old < MAX_FILE) (h0 : 0 ≤ new)
    (hnew : new < MAX_FILE) : ∃ s', dup2 s t old new = some s' ∧ Keeps N t s s' := by
  rw [Fd.dup2, if_neg (by omega)]
  split
  next => exact ⟨s, rfl, h.refl⟩
  next f hf =>
    obtain ⟨hold0, -, hold⟩ := fdVerify_eq_some hf
    split
    next => exact ⟨s, rfl, h.refl⟩
    next hne =>
      have hpl : (t, new.toNat) ∈ places N := mem_places.2 ⟨ht, by dsimp only; omega⟩
      -- after `close` the new descriptor is free, and the old one still refers to the file
      obtain ⟨s1, hs1, hk, hnone, hslot⟩ : ∃ s1, (if (s.slot (t, new.toNat)).isSome then Fd.close s t new else some
        s) = some s1 ∧
          Keeps N t s s1 ∧ s1.slot (t, new.toNat) = none ∧ s1.slot (t, old.toNat) = some f := by
        cases hg : s.slot (t, new.toNat) with
        | none => exact ⟨s, rfl, h.refl, hg, hold⟩
        | some g =>
          have hv : fdVerify s t new = some g := by rw [fdVerify, if_neg (by omega), hg]
          obtain ⟨s1, hs1, hk, hslot⟩ := h.close_slot hv
          refine ⟨s1, hs1, hk, by rw [hslot, update_self], ?_⟩
          rw [hslot, update_of_ne (fun he => by have := congrArg Prod.snd he; dsimp only at this; omega)]
          exact hold
      obtain ⟨r, hr⟩ := hk.core.held _ f hslot
      rw [if_neg (by omega), hs1, bind_some, hr]
      refine ⟨_, rfl, hk.core.point hpl hnone hr, hk.live, fun x hx => ?_⟩
      rw [← hk.others x hx]
      exact update_others x hx

theorem dup (h : Core N s) (ht : t < N) {fd : Int} (hin : HasFree s t → 0 ≤ fd ∧ fd < MAX_FILE) :
    ∃ s', dup s t fd = some s' ∧ Keeps N t s s' := by
  rw [Fd.dup]
  split
  next => exact ⟨s, rfl, h.refl⟩
  next new hnew =>
    obtain ⟨hlt, hnone⟩ := fdGet_eq_some hnew
    exact h.dup2 ht (hin ⟨new, hlt, hnone⟩) (by omega) (by omega)

/-- `pipe` fills two slots or none. -/
theorem pipe (h : Core N s) (ht : t < N) {i j : Nat} (hi : i < MAX_FILE) (hj : j < MAX_FILE) (hij : i ≠ j)
    (hsi : s.slot (t, i) = none) (hsj : s.slot (t, j) = none) (mem0 mem1 : Option Int) (ok : Bool) :
    ∃ s', pipe s t mem0 mem1 ok = some s' ∧ Keeps N t s s' := by
  obtain ⟨fd0, hfd0, hnone0, hget0⟩ := (show HasFree s t from ⟨i, hi, hsi⟩).fileGet mem0
  rw [Fd.pipe, hget0]
  cases mem0 with
  | none => exact ⟨s, rfl, h.refl⟩
  | some junk0 =>
    have hfree1 : HasFree (addFile s (t, fd0) junk0) t := by
      by_cases he : i = fd0
      · refine ⟨j, hj, ?_⟩
        exact (update_of_ne (by simp; omega) _ _).trans hsj
      · refine ⟨i, hi, ?_⟩
        exact (update_of_ne (by simpa using he) _ _).trans hsi
    obtain ⟨fd1, hfd1, hnone1, hget1⟩ := hfree1.fileGet mem1
    rw [bind_some]
    dsimp only
    rw [hget1]
    cases mem1 with
    | none =>
      refine ⟨{ s with next := s.next + 1 }, ?_, h.skip (Nat.le_succ _), rfl, fun _ _ => rfl⟩
      rw [← filePut_addFile hnone0 (h.refer_of_le le_rfl)]
      rfl
    | some junk1 =>
      cases ok with
      | true =>
        have h1 := (h.new (mem_places.2 ⟨ht, hfd0⟩) hnone0 not_freed_anon fun _ _ => anon_alone).new
          (mem_places.2 ⟨ht, hfd1⟩) hnone1 not_freed_anon fun _ _ => anon_alone
        refine ⟨_, rfl, ?_, rfl, fun x hx => (update_others x hx).trans (update_others x hx)⟩
        show Core N (setOpen (setOpen (addFile (addFile s (t, fd0) junk0) (t, fd1) junk1) s.next anon)
          (s.next + 1) anon)
        rw [setOpen_addFile_addFile]
        exact h1
      | false =>
        have hnext : (addFile s (t, fd0) junk0).refer (s.next + 1) = none :=
          (update_of_ne (Nat.succ_ne_self _) _ _).trans (h.refer_of_le (Nat.le_succ _))
        refine ⟨{ s with next := s.next + 2 }, ?_, h.skip (Nat.le_add_right _ 2), rfl, fun _ _ => rfl⟩
        rw [← filePut_addFile hnone0 (h.refer_of_le le_rfl), ← filePut_addFile hnone1 hnext]
        rfl

/-- The loop of fork: each description of the parent gains one reference. -/
theorem forkFd (h : Core N s) (hc : c < N) (htc : t ≠ c) (hnone : ∀ i, s.slot (c, i) = none) :
    ∀ k ≤ MAX_FILE, ∃ s', run (forkFd t c) s (List.range k) = some s' ∧ Keeps N c s s' ∧ ∀ i, k ≤ i →
    s'.slot (c, i) = none
  | 0, _ => ⟨s, rfl, h.refl, fun i _ => hnone i⟩
  | k + 1, hk => by
    obtain ⟨s1, hs1, hkeep, hrest⟩ := forkFd h hc htc hnone k (Nat.le_of_succ_le hk)
    rw [range_succ, run_append, hs1, bind_some, run, Fd.forkFd]
    cases hf : s1.slot (t, k) with
    | none =>
      have hsame : update s1.slot (c, k) none = s1.slot := by rw [← hrest k le_rfl, update_eq_self]
      refine ⟨s1, ?_, hkeep, fun i hi => hrest i (Nat.le_of_succ_le hi)⟩
      rw [hsame]
      rfl
    | some f =>
      obtain ⟨r, hr⟩ := hkeep.core.held _ f hf
      have hpl : (c, k) ∈ places N := mem_places.2 ⟨hc, hk⟩
      dsimp only
      rw [hr]
      refine ⟨_, rfl, ⟨hkeep.core.point hpl (hrest k le_rfl) hr, hkeep.live, fun x hx => ?_⟩, fun i hi => ?_⟩
      · rw [← hkeep.others x hx]
        exact update_others x hx
      · rw [← hrest i (Nat.le_of_succ_le hi)]
        exact update_of_ne (by simp; omega) _ _

/-- The rounds of `task_destroy` up to the descriptor `k`; the descriptors below are no longer counted. -/
theorem destroyFd (h : Core N s) (c : Nat) : ∀ k, ∃ s', run (destroyFd c) s (List.range k) = some s' ∧
    s'.slot = s.slot ∧
    s'.live = s.live ∧ Core N { s' with slot := fun x => if x.1 = c ∧ x.2 < k then none else s.slot x }
  | 0 => ⟨s, rfl, rfl, rfl, by simpa using h⟩
  | k + 1 => by
    obtain ⟨s1, hs1, hslot, hlive, hcore⟩ := destroyFd h c k
    have hnext : (fun x : Nat × Nat => if x.1 = c ∧ x.2 < k + 1 then none else s.slot x) =
        update (fun x => if x.1 = c ∧ x.2 < k then none else s.slot x) (c, k) none := by
      funext x
      by_cases hx : x = (c, k)
      · rw [hx, update_self, if_pos ⟨rfl, Nat.lt_succ_self k⟩]
      rw [update_of_ne hx]
      have : x.1 = c → x.2 ≠ k := fun h1 h2 => hx (Prod.ext h1 h2)
      congr 1
      simp only [eq_iff_iff, and_congr_right_iff]
      intro h1
      have := this h1
      omega
    rw [range_succ, run_append, hs1, bind_some, run, Fd.destroyFd, hslot, hnext]
    cases hf : s.slot (c, k) with
    | none =>
      refine ⟨s1, rfl, hslot, hlive, ?_⟩
      rw [update_eq_self_iff.2 (by simpa using hf.symm)]
      exact hcore
    | some f =>
      obtain ⟨s2, hs2, hcore2, hslot2, hlive2⟩ := decRef _ hcore (x := (c, k)) (by simpa using hf)
      refine ⟨s2, ?_, hslot2.trans hslot, hlive2.trans hlive, hcore2⟩
      dsimp only
      rw [hs2]
      rfl

end Core

/-! ## Runs -/

/-- The references are right, and places without a task have no descriptors. -/
structure Inv (N : Nat) (s : Sys) : Prop where
  core : Core N s
  live : ∀ t, s.live t = true → t < N
  idle : ∀ c i, s.live c = false → s.slot (c, i) = none

theorem Inv.of_keeps (h : Inv N s) (ht : s.live t = true) (hk : Keeps N t s s') : Inv N s' := by
  refine ⟨hk.core, fun c hc => h.live c (by rwa [← hk.live]), fun c i hc => ?_⟩
  rw [hk.live] at hc
  rw [hk.others (c, i) fun he => by rw [show c = t from he, ht] at hc; cases hc]
  exact h.idle c i hc

/-- A fork keeps the counts. -/
theorem Inv.fork (h : Inv N s) (ht : s.live t = true) (hc : c < N) (hfree : s.live c = false) :
    ∃ s', taskFork s t c = some s' ∧ Inv N s' := by
  have htc : t ≠ c := fun he => by
    rw [he, hfree] at ht
    cases ht
  obtain ⟨s1, hs1, hk, -⟩ := h.core.forkFd hc htc (fun i => h.idle c i hfree) MAX_FILE le_rfl
  rw [taskFork, hs1]
  refine ⟨_, rfl, ?_, fun t' ht' => ?_, fun c' i hc' => ?_⟩
  · exact { hk.core with }
  · dsimp only at ht'
    by_cases he : t' = c
    · rwa [he]
    · rw [update_of_ne he, hk.live] at ht'
      exact h.live t' ht'
  dsimp only at hc' ⊢
  by_cases he : c' = c
  · rw [he, update_self] at hc'
    cases hc'
  rw [update_of_ne he, hk.live] at hc'
  rw [hk.others (c', i) he]
  exact h.idle c' i hc'

/-- A destroyed task has given all its references back. -/
theorem Inv.destroy (h : Inv N s) (c : Nat) : ∃ s', taskDestroy s c = some s' ∧ Inv N s' := by
  obtain ⟨s1, hs1, hslot, hlive, hcore⟩ := h.core.destroyFd c MAX_FILE
  rw [taskDestroy, hs1]
  refine ⟨_, rfl, ?_, fun t' ht' => ?_, fun c' i hc' => ?_⟩
  · have hsame : (fun x : Nat × Nat => if x.1 = c ∧ x.2 < MAX_FILE then none else s.slot x) =
        fun x => if x.1 = c then none else s1.slot x := by
      funext x
      rw [hslot]
      by_cases hx : x.1 = c
      · by_cases hx2 : x.2 < MAX_FILE
        · rw [if_pos ⟨hx, hx2⟩, if_pos hx]
        rw [if_neg (fun hn => hx2 hn.2), if_pos hx]
        by_contra hne
        obtain ⟨f, hf⟩ := ne_none_iff_exists'.1 hne
        exact hx2 (mem_places.1 (h.core.bound x f hf)).2
      · rw [if_neg (fun hn => hx hn.1), if_neg hx]
    rw [hsame] at hcore
    exact { hcore with }
  · dsimp only at ht'
    by_cases he : t' = c
    · rw [he, update_self] at ht'
      cases ht'
    · rw [update_of_ne he, hlive] at ht'
      exact h.live t' ht'
  dsimp only at hc' ⊢
  by_cases he : c' = c
  · exact if_pos he
  rw [update_of_ne he, hlive] at hc'
  rw [if_neg he, hslot]
  exact h.idle c' i hc'

/-- The calls that are safe: free descriptors are found, the descriptors given to `dup` and `dup2` are in the table,
`F_DUPFD` fails, the memory that `socket` gets has a one at the place of `refer`, and a node that `close` frees is
opened by one file only. -/
def Careful (s : Sys) (o : Nat × Call) : Prop :=
  match o.2 with
  | .openFile _ res => HasFree s o.1 ∧ ∀ r ∈ res, Alone s r.1 r.2
  | .dup fd => HasFree s o.1 → 0 ≤ fd ∧ fd < MAX_FILE
  | .pipe _ _ _ => ∃ i < MAX_FILE, ∃ j < MAX_FILE, i ≠ j ∧ s.slot (o.1, i) = none ∧ s.slot (o.1, j) = none
  | .socket mem ok => HasFree s o.1 ∧ ok = true ∧ ∀ junk ∈ mem, junk = 1
  | .dup2 old new => (0 ≤ old ∧ old < MAX_FILE) ∧ 0 ≤ new ∧ new < MAX_FILE
  | .dupfd fd _ _ => fdVerify s o.1 fd = none
  | _ => True

instance : Decidable (HasFree s t) := inferInstanceAs (Decidable (∃ _ < _, _))

instance (n : Node) (ok : Bool) : Decidable (Alone s n ok) := inferInstanceAs (Decidable (∀ _ ∈ _, _ → _))

instance (s : Sys) (o : Nat × Call) : Decidable (Careful s o) := by
  unfold Careful
  split <;> infer_instance

/-- One call keeps the counts. -/
theorem Inv.step (h : Inv N s) {o : Nat × Call} (ho : Careful s o) : ∃ s', step N s o = some s' ∧ Inv N s' := by
  obtain ⟨t, c⟩ := o
  rw [Fd.step]
  by_cases ht : s.live t = true
  · rw [if_pos ht]
    have hkeep : ∀ {x : Option Sys}, (∃ s', x = some s' ∧ Keeps N t s s') → ∃ s', x = some s' ∧ Inv N s' := by
      rintro x ⟨s', hs', hk⟩
      exact ⟨s', hs', h.of_keeps ht hk⟩
    have htN := h.live t ht
    cases c with
    | openFile mem res => exact hkeep (h.core.openFile htN ho.1 mem fun n ok hres => ho.2 (n, ok) hres)
    | close fd => exact hkeep (h.core.close t fd)
    | dup fd => exact hkeep (h.core.dup htN ho)
    | dup2 old new => exact hkeep (h.core.dup2 htN ho.1 ho.2.1 ho.2.2)
    | dupfd fd arg mem => exact ⟨s, by dsimp only; rw [fcntlDupfd, show fdVerify s t fd = none from ho], h⟩
    | pipe mem0 mem1 ok =>
      obtain ⟨i, hi, j, hj, hij, hsi, hsj⟩ := ho
      exact hkeep (h.core.pipe htN hi hj hij hsi hsj mem0 mem1 ok)
    | socket mem ok =>
      obtain ⟨hfree, rfl, hone⟩ := ho
      exact hkeep (h.core.socket htN hfree mem hone)
    | fork c =>
      dsimp only
      split
      next hc => exact h.fork ht hc.1 hc.2
      next => exact ⟨s, rfl, h⟩
    | destroy => exact h.destroy t
  · rw [if_neg ht]
    exact ⟨s, rfl, h⟩

/-- One task without files. -/
def start : Sys := ⟨fun t => t == 0, fun _ => none, fun _ => none, 0, fun _ => anon, [], [], []⟩

/-- A file of `fat32` with descriptors in two tasks, a pipe, and `dup2` onto one end of the pipe. -/
def work : List (Nat × Call) :=
  [(0, .openFile (some 7) (some (⟨[5, 1], true⟩, true))), (0, .dup 0), (0, .fork 1),
    (0, .pipe (some 0) (some 9) true), (0, .dup2 0 3), (0, .close 0), (1, .destroy)]

end TextOS.Fd
