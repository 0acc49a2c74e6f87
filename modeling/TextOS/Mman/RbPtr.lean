import TextOS.Lib.LinkedTree
import TextOS.Mman.Balance
import TextOS.Mman.Space

/-!
# The red-black tree in memory: `kernel/klib/rbtree.c`

The same functions as in `TextOS.Mman.RbTree`, with the pointers of the source: nodes in memory with links to their
children and their parent. The two branches of the source that mirror each other are one function of a side `d`, the
side of the branch.

- a rotation, and a new colour for a node, change the tree in memory as they change the tree (`rotate_spec`,
  `setLabel_spec`);
- **`fixup` in memory does what `fixup` does to the tree** (`fixup_sim`), and so does `rbtree_link` (`rbtreeLink_spec`).
-/

namespace TextOS.Mman.Ptr

open Lib BinTree TreeCell TreeMem List Option

variable {α : Type}

/-- A pointer that is followed. -/
def deref : Option α → Except Stop α
  | none => .error .null
  | some a => .ok a

def isred (p : Option α) (s : TreeMem Color α) : Bool :=
  match p with
  | none => false
  | some a => (s.cell a).label == .red

theorem isred_eq {s : TreeMem Color α} {par : Option α} {t : RbTree α} (h : Placed s.cell par t) :
    isred (rootPtr t) s = Mman.isred t := by
  cases t with
  | nil => rfl
  | node c l a r =>
    show ((s.cell a).label == .red) = _
    rw [h.1]
    cases c with
    | red => rfl
    | black => rfl

theorem isred_other {s : TreeMem Color α} {zt o : RbTree α} {d : Side} {c : Color} {p : α} {up : Parents α}
    (h : IsTree s (plug zt (⟨d, c, p, o⟩ :: up))) : isred (rootPtr o) s = Mman.isred o :=
  isred_eq (isTree_plug.1 h).2.2.1.2.1

theorem isred_child {s : TreeMem Color α} {t o : RbTree α} {d : Side} {c : Color} {a : α} (up : Parents α)
    (h : IsTree s (plug (branch d c t a o) up)) :
    isred (rootPtr t) s = Mman.isred t ∧ isred (rootPtr o) s = Mman.isred o := by
  obtain ⟨-, ht, ho⟩ := placed_branch.1 (isTree_plug.1 h).2.1
  exact ⟨isred_eq ht, isred_eq ho⟩

variable [DecidableEq α]

/-- `rotate_left` for the side `left`, `rotate_right` for the side `right`. -/
def rotate (d : Side) (x : α) (s : TreeMem Color α) : Except Stop (TreeMem Color α) := do
  let y ← deref ((s.cell x).child d.flip)
  let s := s.modify x (setChild d.flip ((s.cell y).child d))
  let s := s.modify? ((s.cell y).child d) (setParent (some x))
  let s := s.modify y (setParent (s.cell x).parent)
  let s := s.relink (s.cell x).parent x (some y)
  let s := s.modify y (setChild d (some x))
  return s.modify x (setParent (some y))

def rotateLeft (x : α) (s : TreeMem Color α) : Except Stop (TreeMem Color α) := rotate .left x s

def rotateRight (x : α) (s : TreeMem Color α) : Except Stop (TreeMem Color α) := rotate .right x s

/-! ## Insertion -/

/-- A place for a link: `&t->root`, or a child of a node. -/
inductive Slot (α : Type) where
  | root
  | child (p : α) (d : Side)

/-- `*pp`. -/
def Slot.get (s : TreeMem Color α) : Slot α → Option α
  | .root => s.root
  | .child p d => (s.cell p).child d

/-- `*pp = n`. -/
def Slot.set (n : α) (s : TreeMem Color α) : Slot α → TreeMem Color α
  | .root => { s with root := some n }
  | .child p d => s.modify p (setChild d (some n))

/-- `replace`, for the node `old` at the place. -/
def replace (n : α) (pp : Slot α) (old : α) (s : TreeMem Color α) : TreeMem Color α :=
  let s := s.modify n fun _ => s.cell old
  let s := s.modify? (s.cell old).left (setParent (some n))
  let s := s.modify? (s.cell old).right (setParent (some n))
  pp.set n s

def rbtreeLink (n : α) (pp : Slot α) (p : Option α) (s : TreeMem Color α) : TreeMem Color α :=
  match pp.get s with
  | some old => replace n pp old s
  | none => pp.set n (s.modify n fun _ => ⟨none, none, p, .red⟩)

/-- The part of a round of `fixup` that makes `z` an outer grandchild of `g`. -/
def straighten (d : Side) (z p g : α) (s : TreeMem Color α) : Except Stop (α × α × α × TreeMem Color α) :=
  if (s.cell p).child d.flip = some z then do
    let s ← rotate d p s
    let q ← deref (s.cell p).parent
    let g ← deref (s.cell q).parent
    return (p, q, g, s)
  else return (z, p, g, s)

/-- A round of `fixup` when `p` is the child of `g` on the side `d`, with the next `z`. -/
def fixupSide (d : Side) (z p g : α) (s : TreeMem Color α) : Except Stop (α × TreeMem Color α) :=
  let u := (s.cell g).child d.flip
  if isred u s then
    return (g, ((s.modify p (setLabel .black)).modify? u (setLabel .black)).modify g (setLabel .red))
  else do
    let (z, p, g, s) ← straighten d z p g s
    let s ← rotate d.flip g ((s.modify p (setLabel .black)).modify g (setLabel .red))
    return (z, s)

/-- A round of `fixup`, by the test `p == g->left`. -/
def fixupRound (z p g : α) (s : TreeMem Color α) : Except Stop (α × TreeMem Color α) :=
  if (s.cell g).left = some p then fixupSide .left z p g s else fixupSide .right z p g s

/-- `t->root->color = BLACK`. -/
def blackRoot (s : TreeMem Color α) : Except Stop (TreeMem Color α) := do
  let r ← deref s.root
  return s.modify r (setLabel .black)

/-- `fixup`, for at most the given number of rounds of its loop. -/
def fixup : Nat → α → TreeMem Color α → Except Stop (TreeMem Color α)
  | 0, _, _ => .error .hang
  | n + 1, z, s =>
    if s.root ≠ some z ∧ isred (s.cell z).parent s then do
      let p ← deref (s.cell z).parent
      let g ← deref (s.cell p).parent
      let (z, s) ← fixupRound z p g s
      fixup n z s
    else blackRoot s

def rbtreeFixup (n : Nat) (z : α) (s : TreeMem Color α) : Except Stop (TreeMem Color α) := fixup n z s

/-! ## Rotations and colours in memory -/

variable {s s' : TreeMem Color α} {par : Option α} {t zt l m r o : RbTree α} {a x y z p g : α}
    {c c' cx cy : Color} {d : Side}
  {up : Parents α} {n : Nat}

/-- **A rotation of the tree in memory.** -/
theorem rotate_spec (h : IsTree s (plug (branch d cx l x (branch d cy m y r)) up)) :
    ∃ s', rotate d x s = .ok s' ∧ IsTree s' (plug (branch d cy (branch d cx l x m) y r) up) := by
  obtain ⟨hroot, ht, hup, hnodup⟩ := isTree_plug.1 h
  obtain ⟨hx, hl, ht⟩ := placed_branch.1 ht
  obtain ⟨hy, hm, hr⟩ := placed_branch.1 ht
  simp only [rootPtr_branch] at hroot hup hx
  -- which nodes are distinct
  have hnd : (x :: y :: (l.toList ++ m.toList ++ r.toList ++ around up)).Nodup := by
    refine (List.Perm.nodup_iff (perm_iff_count.2 fun b => ?_)).1 hnodup
    simp only [count_append, count_cons, perm_branch.count_eq]
    omega
  simp only [nodup_cons, nodup_append, mem_cons, mem_append, not_or] at hnd
  obtain ⟨⟨hxy, ⟨⟨hxl, hxm⟩, hxr⟩, hxu⟩, ⟨⟨⟨hyl, hym⟩, hyr⟩, hyu⟩, ⟨⟨hnl, hnm, hlm⟩, hnr, hlmr⟩, hnu, hlmru⟩ := hnd
  have hxm' : rootPtr m ≠ some x := rootPtr_ne hxm
  have hym' : rootPtr m ≠ some y := rootPtr_ne hym
  have hxu' : above up ≠ some x := above_ne hxu
  have hyu' : above up ≠ some y := above_ne hyu
  -- the subtree `m` moves, then the link from above, then the links between `x` and `y`
  obtain ⟨s1, hs1⟩ : ∃ s1, s1 = s.modify x (setChild d.flip (rootPtr m)) := ⟨_, rfl⟩
  obtain ⟨s2, hs2⟩ : ∃ s2, s2 = s1.modify? (rootPtr m) (setParent (some x)) := ⟨_, rfl⟩
  obtain ⟨s3, hs3⟩ : ∃ s3, s3 = s2.modify y (setParent (above up)) := ⟨_, rfl⟩
  obtain ⟨s4, hs4⟩ : ∃ s4, s4 = s3.relink (above up) x (some y) := ⟨_, rfl⟩
  obtain ⟨s5, hs5⟩ : ∃ s5, s5 = s4.modify y (setChild d (some x)) := ⟨_, rfl⟩
  obtain ⟨s6, hs6⟩ : ∃ s6, s6 = s5.modify x (setParent (some y)) := ⟨_, rfl⟩
  have hy1 : s1.cell y = s.cell y := by rw [hs1, cell_modify_of_ne (Ne.symm hxy)]
  have hx2 : s2.cell x = mkSide d (rootPtr l) (rootPtr m) (above up) cx := by
    rw [hs2, cell_modify?_of_ne hxm', hs1, cell_modify_self, hx, setChild_flip_mkSide]
  have hx3 : s3.cell x = mkSide d (rootPtr l) (rootPtr m) (above up) cx := by rw [hs3, cell_modify_of_ne hxy, hx2]
  have hrun : rotate d x s = .ok s6 := by
    unfold rotate
    rw [hx, child_flip_mkSide]
    dsimp only [deref, bind, Except.bind]
    rw [hy, child_mkSide, ← hs1, hy1, hy, child_mkSide, ← hs2, hx2, parent_mkSide, ← hs3, hx3, parent_mkSide, ← hs4,
      ← hs5, ← hs6]
    rfl
  have hkeep3 : ∀ b, b ≠ x → b ≠ y → rootPtr m ≠ some b → s3.cell b = s.cell b := fun b hbx hby hbm => by
    rw [hs3, cell_modify_of_ne hby, hs2, cell_modify?_of_ne hbm, hs1, cell_modify_of_ne hbx]
  have hkeep6 : ∀ b, b ≠ x → b ≠ y → s6.cell b = s4.cell b := fun b hbx hby => by
    rw [hs6, cell_modify_of_ne hbx, hs5, cell_modify_of_ne hby]
  have hkeep : ∀ b, b ≠ x → b ≠ y → b ∉ around up → s6.cell b = s3.cell b := fun b hbx hby hbu => by
    rw [hkeep6 b hbx hby, hs4, cell_relink_of_ne (above_ne hbu)]
  have hstay : ∀ b, b ≠ x → b ≠ y → b ∉ around up → rootPtr m ≠ some b → s6.cell b = s.cell b :=
    fun b hbx hby hbu hbm =>
    (hkeep b hbx hby hbu).trans (hkeep3 b hbx hby hbm)
  have hup3 : PlacedUp s3.cell (some x) up := hup.congr fun b hb =>
    hkeep3 b (fun e => hxu (e ▸ hb)) (fun e => hyu (e ▸ hb)) fun e => hlmru b (.inl (.inr (rootPtr_mem e))) b hb rfl
  obtain ⟨hup4, hroot4⟩ := hup3.relink (by rw [← hroot, hs3, modify_root, hs2, modify?_root, hs1, modify_root]) hxu hnu
    (some y)
  rw [← hs4] at hup4 hroot4
  refine ⟨s6, hrun, isTree_plug.2 ⟨?_, ?_, ?_, ?_⟩⟩
  · rw [rootPtr_branch, ← hroot4, hs6, modify_root, hs5, modify_root]
  · refine placed_branch.2 ⟨?_, placed_branch.2 ⟨?_, ?_, ?_⟩, ?_⟩
    · rw [hs6, cell_modify_of_ne (Ne.symm hxy), hs5, cell_modify_self, hs4, cell_relink_of_ne hyu', hs3,
        cell_modify_self, hs2, cell_modify?_of_ne hym', hy1, hy, setParent_mkSide, setChild_mkSide, rootPtr_branch]
    · rw [hs6, cell_modify_self, hs5, cell_modify_of_ne hxy, hs4, cell_relink_of_ne hxu', hx3, setParent_mkSide]
    · exact hl.congr fun b hb => hstay b (fun e => hxl (e ▸ hb)) (fun e => hyl (e ▸ hb))
        (fun hbu => hlmru b (.inl (.inl hb)) b hbu rfl) fun e => hlm b hb b (rootPtr_mem e) rfl
    · refine hm.reparent hnm (fun b hb => ?_) fun b hb hbm => ?_
      · have hb' := rootPtr_mem hb
        have hbx : b ≠ x := fun e => hxm (e ▸ hb')
        have hby : b ≠ y := fun e => hym (e ▸ hb')
        rw [hkeep b hbx hby fun hbu => hlmru b (.inl (.inr hb')) b hbu rfl, hs3, cell_modify_of_ne hby, hs2, hb,
          cell_modify?_self, hs1, cell_modify_of_ne hbx]
      · exact hstay b (fun e => hxm (e ▸ hb)) (fun e => hym (e ▸ hb))
          (fun hbu => hlmru b (.inl (.inr hb)) b hbu rfl) hbm
    · exact hr.congr fun b hb => hstay b (fun e => hxr (e ▸ hb)) (fun e => hyr (e ▸ hb))
        (fun hbu => hlmru b (.inr hb) b hbu rfl) fun e => hlmr b (.inr (rootPtr_mem e)) b hb rfl
  · rw [rootPtr_branch]
    exact hup4.congr fun b hb => hkeep6 b (fun e => hxu (e ▸ hb)) fun e => hyu (e ▸ hb)
  refine (List.Perm.nodup_iff (perm_iff_count.2 fun b => ?_)).1 hnodup
  simp only [count_append, count_cons, perm_branch.count_eq]
  omega

theorem rotate_flip_spec (h : IsTree s (plug (branch d cx (branch d cy r y m) x l) up)) :
    ∃ s', rotate d.flip x s = .ok s' ∧ IsTree s' (plug (branch d cy r y (branch d cx m x l)) up) := by
  rw [← branch_flip, ← branch_flip d cy] at h
  obtain ⟨s', hrot, h'⟩ := rotate_spec h
  rw [branch_flip, branch_flip] at h'
  exact ⟨s', hrot, h'⟩

/-- **A new colour for a node**, if there is one. -/
theorem paint_spec (up : Parents α) (h : IsTree s (plug t up)) (c : Color) :
    IsTree (s.modify? (rootPtr t) (setLabel c)) (plug (paint c t) up) := by
  cases t with
  | nil => exact h
  | node c' l a r =>
    obtain ⟨hroot, ⟨ha, hl, hr⟩, hup, hnodup⟩ := isTree_plug.1 h
    have hnd : (a :: (l.toList ++ r.toList ++ around up)).Nodup := by
      refine (List.Perm.nodup_iff (perm_iff_count.2 fun b => ?_)).1 hnodup
      simp only [toList_node, count_append, count_cons]
      omega
    simp only [nodup_cons, mem_append, not_or] at hnd
    obtain ⟨⟨⟨hal, har⟩, hau⟩, -⟩ := hnd
    have hother : ∀ b, b ≠ a → (s.modify a (setLabel c)).cell b = s.cell b := fun b hb => cell_modify_of_ne hb
    refine isTree_plug.2 ⟨hroot, ⟨?_, ?_, ?_⟩, ?_, hnodup⟩
    · exact cell_modify_self.trans (by rw [ha]; rfl)
    · exact hl.congr fun b hb => hother b fun e => hal (e ▸ hb)
    · exact hr.congr fun b hb => hother b fun e => har (e ▸ hb)
    · exact hup.congr fun b hb => hother b fun e => hau (e ▸ hb)

theorem setLabel_spec (up : Parents α) (h : IsTree s (plug (branch d c' t a o) up)) (c : Color) :
    IsTree (s.modify a (setLabel c)) (plug (branch d c t a o) up) := by
  have hpaint := paint_spec up h c
  rw [rootPtr_branch, paint_branch] at hpaint
  exact hpaint

variable {po go zl zr : RbTree α} {cp cg cz : Color} {d' : Side}

/-! ## The loop of `fixup` -/

theorem blackRoot_spec (h : IsTree s t) (hz : rootPtr t = some z) :
    ∃ s', blackRoot s = .ok s' ∧ IsTree s' (paint .black t) := by
  refine ⟨s.modify z (setLabel .black), ?_, ?_⟩
  · rw [blackRoot, h.root, hz]
    rfl
  have hpaint := paint_spec [] h .black
  rw [hz] at hpaint
  exact hpaint

theorem fixupSide_uncle (h : IsTree s (plug zt (⟨d', .red, p, po⟩ :: ⟨d, cg, g, go⟩ :: up)))
    (hu : Mman.isred go = true) : ∃ s', fixupSide d z p g s = .ok (g, s') ∧
      IsTree s' (plug (branch d .red (branch d' .black zt p po) g (paint .black go)) up) := by
  have h0 : IsTree s (plug (branch d' .red zt p po) (⟨d, cg, g, go⟩ :: up)) := h
  refine ⟨((s.modify p (setLabel .black)).modify? (rootPtr go) (setLabel .black)).modify g (setLabel .red), ?_, ?_⟩
  · rw [fixupSide, cell_frame h0, child_flip_mkSide]
    rw [if_pos ((isred_other h0).trans hu)]
    rfl
  have h1 : IsTree _ (plug (branch d cg (branch d' .black zt p po) g go) up) := setLabel_spec _ h0 .black
  rw [plug_other] at h1
  have h2 := paint_spec _ h1 .black
  rw [← plug_other] at h2
  exact setLabel_spec up h2 .red

/-- The end of a round with a black uncle: `g` goes below `q`. -/
theorem fixupSide_straight {q z' : α} (h : IsTree s (plug t (⟨d, cg, g, go⟩ :: up))) (hu : Mman.isred go = false)
    (hst : straighten d z p g s = .ok (z', q, g, s'))
    (h' : IsTree s' (plug (branch d cz zt q o) (⟨d, cg, g, go⟩ :: up))) : ∃ s1, fixupSide d z p g s = .ok (z', s1) ∧
    IsTree s1 (plug (branch d .black zt q (branch d .red o g go)) up) := by
  have h1 : IsTree _ (plug (branch d .black zt q o) (⟨d, cg, g, go⟩ :: up)) := setLabel_spec _ h' .black
  have h2 : IsTree _ (plug (branch d .red (branch d .black zt q o) g go) up) := setLabel_spec up h1 .red
  obtain ⟨s1, hrot, h3⟩ := rotate_flip_spec h2
  refine ⟨s1, ?_, h3⟩
  rw [fixupSide, cell_frame h, child_flip_mkSide]
  rw [if_neg (by rw [isred_other h, hu]; exact Bool.false_ne_true), hst]
  show (rotate d.flip g _).bind _ = _
  rw [hrot]
  rfl

theorem fixupSide_outer (h : IsTree s (plug zt (⟨d, .red, p, po⟩ :: ⟨d, cg, g, go⟩ :: up))) (hz : rootPtr zt = some z)
    (hu : Mman.isred go = false) :
    ∃ s', fixupSide d z p g s = .ok (z, s') ∧ IsTree s' (plug (branch d .black zt p (branch d .red po g go)) up) := by
  have h0 : IsTree s (plug (branch d .red zt p po) (⟨d, cg, g, go⟩ :: up)) := h
  refine fixupSide_straight h0 hu (if_neg ?_) h0
  rw [cell_frame h, child_flip_mkSide]
  intro e
  obtain ⟨-, -, -, hnodup⟩ := isTree_plug.1 h
  exact (nodup_append.1 hnodup).2.2 z (rootPtr_mem hz) z (by simp [around, rootPtr_mem e]) rfl

/-- The inner grandchild: two rotations. -/
theorem fixupSide_inner (h : IsTree s (plug (branch d cz zl z zr) (⟨d.flip, .red, p, po⟩ :: ⟨d, cg, g, go⟩ :: up)))
    (hu : Mman.isred go = false) : ∃ s', fixupSide d z p g s = .ok (p, s') ∧
      IsTree s' (plug (branch d .black (branch d .red po p zl) z (branch d .red zr g go)) up) := by
  have hinner : (s.cell p).child d.flip = some z := by rw [cell_frame h, child_mkSide, rootPtr_branch]
  have h0 : IsTree s (plug (branch d.flip .red (branch d cz zl z zr) p po) (⟨d, cg, g, go⟩ :: up)) := h
  rw [branch_flip] at h0
  obtain ⟨s1, hrot, h1⟩ := rotate_spec h0
  refine fixupSide_straight h0 hu ?_ h1
  -- `p` is below `z` now
  have hp1 : (s1.cell p).parent = some z := cell_parent (⟨d, cz, z, zr⟩ :: ⟨d, cg, g, go⟩ :: up) h1 (rootPtr_branch ..)
  have hz1 : (s1.cell z).parent = some g := cell_parent _ h1 (rootPtr_branch ..)
  rw [straighten, if_pos hinner, hrot]
  show (deref (s1.cell p).parent).bind _ = _
  rw [hp1]
  show (deref (s1.cell z).parent).bind _ = _
  rw [hz1]
  rfl

theorem fixup_stop (h : IsTree s (plug zt (⟨d, .black, p, po⟩ :: up))) (hz : rootPtr zt = some z) (n : Nat) :
    ∃ s', fixup (n + 1) z s = .ok s' ∧ IsTree s' (paint .black (plug zt (⟨d, .black, p, po⟩ :: up))) := by
  obtain ⟨r, -, hr⟩ := rootAt_mem (rootPtr zt) ⟨d, .black, p, po⟩ up
  rw [fixup, if_neg]
  · exact blackRoot_spec h (rootPtr_plug.trans hr)
  rintro ⟨-, hred⟩
  rw [cell_parent _ h hz] at hred
  have hred : ((s.cell p).label == .red) = true := hred
  rw [cell_frame h, label_mkSide] at hred
  cases hred

/-- One round of the loop, below a red parent. -/
theorem fixup_round (h : IsTree s (plug zt (⟨d', .red, p, po⟩ :: ⟨d, cg, g, go⟩ :: up))) (hz : rootPtr zt = some z) :
    fixup (n + 1) z s = (fixupSide d z p g s).bind fun r => fixup n r.1 r.2 := by
  have hp : (s.cell z).parent = some p := cell_parent _ h hz
  have h0 : IsTree s (plug (branch d' .red zt p po) (⟨d, cg, g, go⟩ :: up)) := h
  have hg : (s.cell p).parent = some g := cell_parent _ h0 (rootPtr_branch ..)
  have hred : isred (some p) s = true := by
    show ((s.cell p).label == .red) = true
    rw [cell_frame h, label_mkSide]
    rfl
  have hside : fixupRound z p g s = fixupSide d z p g s := by
    have hiff := left_eq_iff h0 (rootPtr_branch ..)
    unfold fixupRound
    cases d with
    | left => rw [if_pos (hiff.2 rfl)]
    | right => rw [if_neg fun e => Side.noConfusion (hiff.1 e)]
  rw [fixup, hp, if_pos ⟨root_ne h hz, hred⟩]
  show (deref (s.cell p).parent).bind _ = _
  rw [hg]
  show (fixupRound z p g s).bind _ = _
  rw [hside]

/-- **`fixup` in memory does what `fixup` does to the tree.** -/
theorem fixup_sim : ∀ (up : Parents α) {zt : RbTree α} {z : α} {s : TreeMem Color α} {n : Nat}, rootPtr zt = some z →
    IsTree s (plug zt up) → Mman.fixup zt up = some t → up.length < n →
    ∃ s', fixup n z s = .ok s' ∧ IsTree s' (paint .black t)
  | [], zt, z, s, n + 1, hz, h, hf, hn => by
    obtain rfl := some.inj hf
    have hroot : s.root = some z := h.root.trans hz
    rw [fixup, if_neg fun hno => hno.1 hroot]
    exact blackRoot_spec h hz
  | ⟨d, .black, p, po⟩ :: up, zt, z, s, n + 1, hz, h, hf, hn => by
    rw [fixup_black] at hf
    obtain rfl := some.inj hf
    exact fixup_stop h hz n
  | [⟨d, .red, p, po⟩], zt, z, s, n, hz, h, hf, hn => by cases hf
  | ⟨d', .red, p, po⟩ :: ⟨d, cg, g, go⟩ :: up, zt, z, s, n + 1, hz, h, hf, hn => by
    rw [length_cons, length_cons] at hn
    rw [fixup_round h hz]
    cases hu : Mman.isred go with
    | true =>
      rw [fixup_uncle hu] at hf
      obtain ⟨s1, hs1, h1⟩ := fixupSide_uncle (z := z) h hu
      rw [hs1]
      exact fixup_sim up (rootPtr_branch ..) h1 hf (by omega)
    | false =>
      obtain ⟨n, rfl⟩ : ∃ k, n = k + 1 := ⟨n - 1, by omega⟩
      rcases side_cases d d' with rfl | rfl
      · rw [fixup_outer hu] at hf
        obtain rfl := some.inj hf
        obtain ⟨s1, hs1, h1⟩ := fixupSide_outer h hz hu
        rw [hs1]
        exact fixup_stop h1 hz n
      cases zt with
      | nil => cases hz
      | node cz l a r =>
        obtain rfl := some.inj hz
        obtain ⟨zl, zr, he⟩ := branch_eq_of_node d cz l a r
        rw [he] at h hf
        rw [fixup_inner hu] at hf
        obtain rfl := some.inj hf
        obtain ⟨s1, hs1, h1⟩ := fixupSide_inner h hu
        rw [hs1]
        exact fixup_stop h1 (rootPtr_branch ..) n

/-! ## `rbtree_link` -/

/-- The place of a link to a position. -/
def slotOf : Parents α → Slot α
  | [] => .root
  | f :: _ => .child f.elem f.side

theorem setChild_mkSide_eq (f : Frame Color α) (h : s.cell f.elem = mkSide f.side par (rootPtr f.other)
    (above up) f.label) (x : α) : (s.modify f.elem (setChild f.side (some x))).cell f.elem =
      mkSide f.side (some x) (rootPtr f.other) (above up) f.label := by
  rw [cell_modify_self, h, setChild_mkSide]

/-- **`rbtree_link` at an empty place.** -/
theorem rbtreeLink_spec (h : IsTree s (plug nil up)) (hx : x ∉ (plug nil up : RbTree α).toList) :
    IsTree (rbtreeLink x (slotOf up) (above up) s) (plug (Mman.rbtreeLink x) up) := by
  obtain ⟨hroot, -, hup, hnodup⟩ := isTree_plug.1 h
  have hxu : x ∉ around up := fun hmem => hx (perm_plug.mem_iff.2 (by simpa using hmem))
  have hnew : ((Mman.rbtreeLink x).toList ++ around up).Nodup := by simpa [Mman.rbtreeLink] using ⟨hxu, hnodup⟩
  obtain ⟨s1, hs1⟩ : ∃ s1, s1 = s.modify x (fun _ => ⟨none, none, above up, .red⟩) := ⟨_, rfl⟩
  have hx1 : s1.cell x = ⟨none, none, above up, .red⟩ := by rw [hs1, cell_modify_self]
  have hkeep : ∀ b ∈ around up, s1.cell b = s.cell b := fun b hb => by
    have hbx : b ≠ x := fun e => hxu (e ▸ hb)
    rw [hs1, cell_modify_of_ne hbx]
  have hup1 : PlacedUp s1.cell none up := hup.congr hkeep
  cases up with
  | nil =>
    have hlink : rbtreeLink x .root none s = { s1 with root := some x } := by
      rw [rbtreeLink, Slot.get, hroot]
      exact congrArg (fun s => TreeMem.mk s.cell (some x)) hs1.symm
    rw [slotOf, above_nil, hlink]
    exact isTree_plug.2 ⟨rfl, ⟨hx1, trivial, trivial⟩, trivial, hnew⟩
  | cons f up =>
    obtain ⟨hf, ho, hup'⟩ := hup1
    have hlink : rbtreeLink x (slotOf (f :: up)) (above (f :: up)) s =
        s1.modify f.elem (setChild f.side (some x)) := by
      have hget : (s.cell f.elem).child f.side = none := by rw [hup.1, child_mkSide, rootPtr_nil]
      rw [rbtreeLink, slotOf, Slot.get, hget, hs1]
      rfl
    have hnd := (nodup_append.1 hnodup).2.1
    rw [around, nodup_cons, mem_append, not_or] at hnd
    have hother : ∀ b, b ≠ f.elem → (s1.modify f.elem (setChild f.side (some x))).cell b = s1.cell b := fun b hb =>
      cell_modify_of_ne hb
    have hxf : x ≠ f.elem := fun e => hxu (by simp [around, e])
    rw [hlink]
    refine isTree_plug.2 ⟨?_, ⟨(hother x hxf).trans hx1, trivial, trivial⟩, ⟨?_, ?_, ?_⟩, hnew⟩
    · rw [modify_root, hs1, modify_root, hroot]
      rfl
    · exact setChild_mkSide_eq f hf x
    · exact ho.congr fun b hb => hother b fun e => hnd.1.1 (e ▸ hb)
    · exact hup'.congr fun b hb => hother b fun e => hnd.1.2 (e ▸ hb)

/-- **Insertion into a valid tree**: at every empty place, `rbtree_link` and `rbtree_fixup` return and leave a valid
tree with consistent links and the new node at its place. -/
theorem insert_valid (h : IsTree s t) (hv : Valid t) (up : Parents α) (hup : plug nil up = t) (hx : x ∉ t.toList)
    (hn : up.length < n) :
    ∃ s' t', rbtreeFixup n x (rbtreeLink x (slotOf up) (above up) s) = .ok s' ∧ IsTree s' t' ∧ Valid t' ∧
      t.toList = before up ++ after up ∧ t'.toList = before up ++ x :: after up := by
  subst hup
  obtain ⟨t', ht', hlist, hv'⟩ := rbtreeFixup_balanced x hv
  obtain ⟨t₁, ht₁, rfl⟩ := map_eq_some_iff.1 ht'
  obtain ⟨s', hs', h'⟩ := fixup_sim up rfl (rbtreeLink_spec h hx) ht₁ hn
  refine ⟨s', _, hs', h', hv', ?_, hlist⟩
  rw [toList_plug]
  simp

/-- A black node with two red children. -/
def three : RbTree Nat := node .black (node .red nil 2 nil) 4 (node .red nil 6 nil)

def threeMem : TreeMem Color Nat where
  cell := fun a =>
    if a = 4 then ⟨some 2, some 6, none, .black⟩ else ⟨none, none, some 4, .red⟩
  root := some 4

theorem isTree_three : IsTree threeMem three := by
  refine ⟨rfl, ⟨rfl, ⟨rfl, trivial, trivial⟩, ⟨rfl, trivial, trivial⟩⟩, by decide⟩

theorem insert_valid_three : ∃ s' t', rbtreeFixup 3 7 (rbtreeLink 7 (.child 6 .right) (some 6) threeMem) = .ok s' ∧
    IsTree s' t' ∧ Valid t' ∧ three.toList = [2, 4, 6] ∧ t'.toList = [2, 4, 6, 7] :=
  insert_valid isTree_three (valid_iff.2 ⟨1, .black 4 (.red 2 .nil .nil) (.red 6 .nil .nil)⟩)
    [⟨.right, .red, 6, nil⟩, ⟨.right, .black, 4, node .red nil 2 nil⟩] rfl (by decide) (by decide)

end TextOS.Mman.Ptr
