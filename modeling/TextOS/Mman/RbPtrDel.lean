import TextOS.Lib.Rounds
import TextOS.Mman.RbPtr

/-!
# Deletion from the red-black tree in memory: `kernel/klib/rbtree.c`

- **`rbtree_delete` in memory does what `rbtree_delete` does to the tree** (`rbtreeDelete_sim`);
- **a deletion leaves a valid tree if and only if no path loses a black node** (`delete_valid`): `fixup_del` is not
  called when a black node without a child is taken out (`delete_unbalanced`).
-/

namespace TextOS.Mman.Ptr

open Lib BinTree TreeCell TreeMem Option

variable {α : Type} [DecidableEq α]

/-! ## `fixup_del` -/

/-- The sibling on the other side of `p`, after a red one was rotated above `p`. -/
def sibling (d : Side) (p : α) (s : TreeMem Color α) : Except Stop (Option α × TreeMem Color α) :=
  let w := (s.cell p).child d.flip
  if isred w s then do
    let s ← rotate d p ((s.modify? w (setLabel .black)).modify p (setLabel .red))
    return ((s.cell p).child d.flip, s)
  else return (w, s)

/-- The part of a round that makes the child of the sibling on the far side red. -/
def redFar (d : Side) (p w : α) (s : TreeMem Color α) : Except Stop (α × TreeMem Color α) :=
  if !isred ((s.cell w).child d.flip) s then do
    let s ← rotate d.flip w ((s.modify? ((s.cell w).child d) (setLabel .black)).modify w (setLabel .red))
    let w ← deref ((s.cell p).child d.flip)
    return (w, s)
  else return (w, s)

/-- The end of a round that ends the loop. -/
def delTail (d : Side) (p w : α) (s : TreeMem Color α) : Except Stop (Option α × TreeMem Color α) := do
  let s := (s.modify w (setLabel (s.cell p).label)).modify p (setLabel .black)
  let s ← rotate d p (s.modify? ((s.cell w).child d.flip) (setLabel .black))
  return (s.root, s)

/-- A round of `fixup_del` from the test of the children of the sibling on, with the next `x`. -/
def delBlack (d : Side) (p w : α) (s : TreeMem Color α) : Except Stop (Option α × TreeMem Color α) :=
  if !isred ((s.cell w).child d) s && !isred ((s.cell w).child d.flip) s then
    return (some p, s.modify w (setLabel .red))
  else do
    let (w, s) ← redFar d p w s
    delTail d p w s

/-- A round of `fixup_del` for the child of `p` on the side `d`. -/
def delSide (d : Side) (p : α) (s : TreeMem Color α) : Except Stop (Option α × TreeMem Color α) := do
  let (w, s) ← sibling d p s
  let w ← deref w
  delBlack d p w s

/-- A round of `fixup_del`, by the test `x == p->left`. -/
def delRound (x : Option α) (p : α) (s : TreeMem Color α) : Except Stop (Option α × TreeMem Color α) :=
  if (s.cell p).left = x then delSide .left p s else delSide .right p s

/-- `fixup_del`, for at most the given number of rounds of its loop. -/
def fixupDel : Nat → Option α → TreeMem Color α → Except Stop (TreeMem Color α)
  | 0, _, _ => .error .hang
  | n + 1, x, s =>
    if x ≠ s.root ∧ !isred x s then do
      let p ← deref (x.bind fun a => (s.cell a).parent)
      let (x, s) ← delRound x p s
      fixupDel n x s
    else return s.modify? x (setLabel .black)

/-! ## `rbtree_delete` -/

/-- `minimum`, for at most the given number of rounds of its loop. -/
def minimum : Nat → α → TreeMem Color α → Except Stop α
  | 0, _, _ => .error .hang
  | n + 1, x, s =>
    match (s.cell x).left with
    | some l => minimum n l s
    | none => .ok x

/-- The child `x` takes the place of `z`. -/
def unlink (z : α) (x : Option α) (s : TreeMem Color α) : TreeMem Color α :=
  let s := s.modify? x (setParent (s.cell z).parent)
  s.relink (s.cell z).parent z x

/-- The successor `y` of `z` leaves its place to its child, unless it is a child of `z`. -/
def lowerMin (z y : α) (s : TreeMem Color α) : Except Stop (TreeMem Color α) :=
  let x := (s.cell y).right
  if (s.cell y).parent = some z then return s.modify? x (setParent (some y))
  else do
    let s := s.modify? x (setParent (s.cell y).parent)
    let q ← deref (s.cell y).parent
    let s := s.modify q (setChild .left x)
    let s := s.modify y (setChild .right (s.cell z).right)
    let r ← deref (s.cell y).right
    return s.modify r (setParent (some y))

/-- The node `y` takes the place, the left child and the colour of `z`. -/
def takePlace (z y : α) (s : TreeMem Color α) : Except Stop (TreeMem Color α) := do
  let s := s.relink (s.cell z).parent z (some y)
  let s := s.modify y (setParent (s.cell z).parent)
  let s := s.modify y (setChild .left (s.cell z).left)
  let l ← deref (s.cell y).left
  let s := s.modify l (setParent (some y))
  return s.modify y (setLabel (s.cell z).label)

/-- The end of `rbtree_delete`. -/
def finish (n : Nat) (color : Color) (x : Option α) (s : TreeMem Color α) : Except Stop (TreeMem Color α) :=
  if color = .black ∧ x ≠ none then fixupDel n x s else return s

def rbtreeDelete (n : Nat) (z : α) (s : TreeMem Color α) : Except Stop (TreeMem Color α) :=
  match (s.cell z).left, (s.cell z).right with
  | none, x => finish n (s.cell z).label x (unlink z x s)
  | some l, none => finish n (s.cell z).label (some l) (unlink z (some l) s)
  | some _, some r => do
    let y ← minimum n r s
    let s' ← lowerMin z y s
    let s' ← takePlace z y s'
    finish n (s.cell y).label (s.cell y).right s'

variable {s s' : TreeMem Color α} {par : Option α} {t xt near far nl nr l r o : RbTree α} {a b x y z p w : α}
  {c c' cw cz : Color} {d : Side} {up fs : Parents α} {n : Nat}

/-! ## A round of `fixup_del` -/

/-- What `x` is after a round. -/
def next (p : α) (s : TreeMem Color α) : Round α → Option α
  | .up _ => some p
  | .done _ => s.root

/-- The last rotation, with the far nephew painted black. -/
theorem delTail_spec (h : IsTree s (plug (branch d c xt p (branch d cw near w far)) up)) :
    ∃ s', delTail d p w s = .ok (s'.root, s') ∧
      IsTree s' (plug (branch d c (branch d .black xt p near) w (paint .black far)) up) := by
  have hlabel : (s.cell p).label = c := by rw [cell_branch up h, label_mkSide]
  rw [plug_other] at h
  have h1 := setLabel_spec _ h c
  rw [← plug_other] at h1
  have h2 := setLabel_spec up h1 .black
  rw [plug_other] at h2
  have hchild := cell_branch _ h2
  rw [plug_other] at h2
  have h3 := paint_spec _ h2 .black
  rw [← plug_other, ← plug_other] at h3
  obtain ⟨s', hrot, h'⟩ := rotate_spec h3
  refine ⟨s', ?_, h'⟩
  unfold delTail
  rw [hlabel]
  dsimp only
  rw [hchild, child_flip_mkSide, hrot]
  rfl

/-- **A round with a sibling that is not red.** -/
theorem delBlack_spec (h : IsTree s (plug (branch d c xt p o) up)) :
    (Mman.delSide d xt ⟨d, c, p, o⟩ = none ∧ ((deref (rootPtr o)).bind fun w => delBlack d p w s) = .error .null) ∨
    ∃ out s', Mman.delSide d xt ⟨d, c, p, o⟩ = some out ∧
      ((deref (rootPtr o)).bind fun w => delBlack d p w s) = .ok (next p s' out, s') ∧
      IsTree s' (plug out.tree up) ∧ ∀ y, out = .up y → ∃ y', y = branch d c xt p y' := by
  rcases o with _ | ⟨cw, l, w, r⟩
  · exact .inl ⟨delSide_nil d xt c p, rfl⟩
  obtain ⟨near, far, he⟩ := branch_eq_of_node d cw l w r
  rw [he] at h ⊢
  rw [rootPtr_branch]
  refine .inr ?_
  show ∃ out s', _ ∧ delBlack d p w s = _ ∧ _
  have hsib := h
  rw [plug_other] at hsib
  have hw := cell_branch _ hsib
  obtain ⟨hnear, hfar⟩ := isred_child _ hsib
  unfold delBlack
  rw [hw, child_mkSide, child_flip_mkSide, hnear, hfar]
  cases hf : Mman.isred far with
  | true =>
    obtain ⟨s', htail, h'⟩ := delTail_spec h
    refine ⟨_, s', delSide_far hf, ?_, h', nofun⟩
    rw [Bool.not_true, Bool.and_false, if_neg Bool.false_ne_true]
    have hkeep : redFar d p w s = .ok (w, s) := by
      unfold redFar
      rw [hw, child_flip_mkSide, hfar, hf, Bool.not_true, if_neg Bool.false_ne_true]
      rfl
    rw [hkeep]
    exact htail
  | false =>
    cases hn : Mman.isred near with
    | false =>
      have h' := setLabel_spec _ hsib .red
      rw [← plug_other] at h'
      exact ⟨_, _, delSide_up hn hf, rfl, h', fun y hy => ⟨_, (Round.up.inj hy).symm⟩⟩
    | true =>
      obtain ⟨nl, b, nr, rfl⟩ := exists_of_isred d hn
      -- the red child of the sibling is rotated above it
      have h1 := paint_spec (⟨d, cw, w, far⟩ :: ⟨d.flip, c, p, xt⟩ :: up) hsib .black
      rw [rootPtr_branch, paint_branch] at h1
      have h2 : IsTree _ (plug (branch d .red (branch d .black nl b nr) w far) (⟨d.flip, c, p, xt⟩ :: up)) :=
        setLabel_spec (a := w) _ h1 .red
      obtain ⟨s₁, hrot, h1⟩ := rotate_flip_spec h2
      rw [← plug_other] at h1
      obtain ⟨s', htail, h'⟩ := delTail_spec h1
      rw [paint_branch] at h'
      refine ⟨_, s', delSide_near hf, ?_, h', nofun⟩
      have hred : redFar d p w s = .ok (b, s₁) := by
        unfold redFar
        rw [hw, child_flip_mkSide, hfar, hf, Bool.not_false, if_pos rfl, child_mkSide, rootPtr_branch]
        rw [show rotate d.flip w ((s.modify? (some b) (setLabel .black)).modify w (setLabel .red)) = .ok s₁ from hrot]
        show (deref ((s₁.cell p).child d.flip)).bind _ = _
        rw [cell_branch up h1, child_flip_mkSide, rootPtr_branch]
        rfl
      rw [hred]
      exact htail

/-! ## The loop of `fixup_del` -/

/-- The result in memory is the one of the tree: a tree in memory, or a read through `NULL`. -/
def Sim (r : Except Stop (TreeMem Color α)) : Option (RbTree α) → Prop
  | some t => ∃ s, r = .ok s ∧ IsTree s t
  | none => r = .error .null

theorem fixupDel_stop (h : IsTree s (plug xt up)) (hx : rootPtr xt = some x)
    (hstop : up = [] ∨ Mman.isred xt = true) :
    ∃ s', fixupDel (n + 1) (some x) s = .ok s' ∧ IsTree s' (plug (paint .black xt) up) := by
  have hpaint := paint_spec up h .black
  rw [hx] at hpaint
  refine ⟨_, ?_, hpaint⟩
  rw [fixupDel, if_neg]
  · rfl
  rintro ⟨hroot, hred⟩
  rcases hstop with rfl | hstop
  · exact hroot (h.root.trans hx).symm
  · rw [← hx, isred_eq (isTree_plug.1 h).2.1, hstop] at hred
    cases hred

theorem fixupDel_root (h : IsTree s t) : ∃ s', fixupDel (n + 1) s.root s = .ok s' ∧ IsTree s' (paint .black t) := by
  have hpaint := paint_spec [] h .black
  rw [← h.root] at hpaint
  refine ⟨_, ?_, hpaint⟩
  rw [fixupDel, if_neg fun hno => hno.1 rfl]
  rfl

/-- One round of the loop, at a black node with a parent. -/
theorem fixupDel_round (h : IsTree s (plug xt (⟨d, c, p, o⟩ :: up))) (hx : rootPtr xt = some x)
    (hred : Mman.isred xt = false) :
    fixupDel (n + 1) (some x) s = (delSide d p s).bind fun r => fixupDel n r.1 r.2 := by
  have hside : delRound (some x) p s = delSide d p s := by
    have hiff := left_eq_iff h hx
    unfold delRound
    cases d with
    | left => rw [if_pos (hiff.2 rfl)]
    | right => rw [if_neg fun e => Side.noConfusion (hiff.1 e)]
  have hcond : some x ≠ s.root ∧ (!isred (some x) s) = true := by
    refine ⟨(root_ne h hx).symm, ?_⟩
    rw [← hx, isred_eq (isTree_plug.1 h).2.1, hred]
    rfl
  rw [fixupDel, if_pos hcond]
  show (deref (s.cell x).parent).bind _ = _
  rw [cell_parent _ h hx]
  show (delRound (some x) p s).bind _ = _
  rw [hside]

theorem delSide_notRed (h : IsTree s (plug xt (⟨d, c, p, o⟩ :: up))) (ho : Mman.isred o = false) :
    delSide d p s = (deref (rootPtr o)).bind fun w => delBlack d p w s := by
  have hsib : sibling d p s = .ok (rootPtr o, s) := by
    unfold sibling
    rw [cell_frame h, child_flip_mkSide]
    dsimp only
    rw [isred_other h, ho]
    rfl
  unfold delSide
  rw [hsib]
  rfl

/-- A red sibling is rotated up. -/
theorem delSide_red (h : IsTree s (plug xt (⟨d, c, p, branch d .red near w far⟩ :: up))) :
    ∃ s', delSide d p s = (deref (rootPtr near)).bind (fun w => delBlack d p w s') ∧
      IsTree s' (plug (branch d .red xt p near) (⟨d, .black, w, far⟩ :: up)) := by
  have h0 : IsTree s (plug (branch d c xt p (branch d .red near w far)) up) := h
  have h1 := h0
  rw [plug_other] at h1
  have h1 := setLabel_spec _ h1 .black
  rw [← plug_other] at h1
  obtain ⟨s', hrot, h'⟩ := rotate_spec (setLabel_spec up h1 .red)
  have h' : IsTree s' (plug (branch d .red xt p near) (⟨d, .black, w, far⟩ :: up)) := h'
  refine ⟨s', ?_, h'⟩
  have hsib : sibling d p s = .ok (rootPtr near, s') := by
    unfold sibling
    rw [cell_frame h, child_flip_mkSide]
    dsimp only
    rw [isred_other h, isred_branch, if_pos (beq_self_eq_true _), rootPtr_branch]
    rw [show rotate d p ((s.modify? (some w) (setLabel .black)).modify p (setLabel .red)) = .ok s' from hrot]
    show Except.ok ((s'.cell p).child d.flip, s') = _
    rw [cell_branch _ h', child_flip_mkSide]
  unfold delSide
  rw [hsib]
  rfl

/-- **`fixup_del` in memory does what `fixup_del` does to the tree.** -/
theorem fixupDel_sim : ∀ (up : Parents α) {xt : RbTree α} {x : α} {s : TreeMem Color α} {n : Nat}, rootPtr xt = some x →
    IsTree s (plug xt up) → up.length < n → Sim (fixupDel n (some x) s) (Mman.fixupDel xt up)
  | [], xt, x, s, n + 1, hx, h, hn => fixupDel_stop h hx (.inl rfl)
  | ⟨d, c, p, o⟩ :: up, xt, x, s, n + 1, hx, h, hn => by
    rw [List.length_cons] at hn
    obtain ⟨n, rfl⟩ : ∃ k, n = k + 1 := ⟨n - 1, by omega⟩
    cases hred : Mman.isred xt with
    | true =>
      rw [Mman.fixupDel, if_pos hred]
      exact fixupDel_stop h hx (.inr hred)
    | false =>
    rw [fixupDel_round h hx hred]
    cases ho : Mman.isred o with
    | false =>
      rw [delSide_notRed h ho, fixupDel_blackSibling hred ho]
      rcases delBlack_spec (show IsTree s (plug (branch d c xt p o) up) from h) with ⟨hout, hr⟩ | ⟨out, s₁,
        hout, hr, h1, hy⟩
      · rw [hout, hr]
        rfl
      rw [hout, hr]
      cases out with
      | up y =>
        obtain ⟨y', rfl⟩ := hy y rfl
        exact fixupDel_sim up (rootPtr_branch ..) h1 (by omega)
      | done t => exact fixupDel_root h1
    | true =>
      obtain ⟨near, w, far, rfl⟩ := exists_of_isred d ho
      obtain ⟨s₁, hdel, h1⟩ := delSide_red h
      rw [hdel, fixupDel_redSibling hred]
      rcases delBlack_spec h1 with ⟨hout, hr⟩ | ⟨out, s2, hout, hr, h2, hy⟩
      · rw [hout, hr]
        rfl
      rw [hout, hr]
      cases out with
      | up y =>
        obtain ⟨y', rfl⟩ := hy y rfl
        exact fixupDel_stop h2 (rootPtr_branch ..) (.inr (isred_branch ..))
      | done t => exact fixupDel_root h2

/-! ## Taking a node out of its place -/

theorem unlink_of_not_mem (up : Parents α) (hz : s.cell z = mkSide d none (rootPtr xt) (above up) cz)
    (hzx : z ∉ xt.toList)
    (hbx : b ∉ xt.toList) (hbu : b ∉ around up) : (unlink z (rootPtr xt) s).cell b = s.cell b := by
  unfold unlink
  dsimp only
  rw [cell_modify?_of_ne (rootPtr_ne hzx), hz, parent_mkSide, cell_relink_of_ne (above_ne hbu),
    cell_modify?_of_ne (rootPtr_ne hbx)]

/-- **The child of a node takes its place.** -/
theorem unlink_spec (h : IsTree s (plug (branch d cz nil z xt) up)) :
    IsTree (unlink z (rootPtr xt) s) (plug xt up) := by
  obtain ⟨hroot, ht, hup, hnodup⟩ := isTree_plug.1 h
  obtain ⟨hz, -, hxt⟩ := placed_branch.1 ht
  rw [rootPtr_branch] at hroot hup
  have hnd : (z :: (xt.toList ++ around up)).Nodup := by
    refine (List.Perm.nodup_iff (List.perm_iff_count.2 fun b => ?_)).1 hnodup
    simp only [List.count_append, List.count_cons, perm_branch.count_eq, toList_nil, List.count_nil]
    omega
  obtain ⟨hzxu, hnd⟩ := List.nodup_cons.1 hnd
  obtain ⟨hzx, hzu⟩ := not_or.1 (List.mem_append.not.1 hzxu)
  obtain ⟨hndx, hndu, hxu⟩ := List.nodup_append.1 hnd
  obtain ⟨s₁, hs₁⟩ : ∃ s₁, s₁ = s.modify? (rootPtr xt) (setParent (above up)) := ⟨_, rfl⟩
  have hkeep : ∀ b, b ∉ xt.toList → s₁.cell b = s.cell b := fun b hb => by rw [hs₁, cell_modify?_of_ne (rootPtr_ne hb)]
  have hup1 : PlacedUp s₁.cell (some z) up := hup.congr fun b hb => hkeep b fun hbx => hxu b hbx b hb rfl
  obtain ⟨hup2, hroot2⟩ := hup1.relink (by rw [hs₁, modify?_root, hroot]) hzu hndu (rootPtr xt)
  have hunlink : unlink z (rootPtr xt) s = s₁.relink (above up) z (rootPtr xt) := by
    unfold unlink
    dsimp only
    rw [hz, parent_mkSide, ← hs₁, hkeep z hzx, hz, parent_mkSide]
  have hxt2 : ∀ b ∈ xt.toList, (s₁.relink (above up) z (rootPtr xt)).cell b = s₁.cell b := fun b hb =>
    cell_relink_of_ne (above_ne fun hbu => hxu b hb b hbu rfl)
  rw [hunlink]
  refine isTree_plug.2 ⟨hroot2, hxt.reparent hndx (fun b hb => ?_) fun b hb hbx => ?_, hup2, hnd⟩
  · rw [hxt2 b (rootPtr_mem hb), hs₁, hb, cell_modify?_self]
  · rw [hxt2 b hb, hs₁, cell_modify?_of_ne hbx]

/-- **A node takes the place of another one**, with its left child and its colour. -/
theorem takePlace_spec {q : Option α} (hroot : s.root = rootAt (some z) up) (hup : PlacedUp s.cell (some z) up)
    (hz : s.cell z = ⟨rootPtr l, q, above up, cz⟩) (hl : Placed s.cell (some z) l) (hl0 : l ≠ nil)
    (hy : (s.cell y).right = rootPtr r) (hr : Placed s.cell (some y) r)
    (hnodup : (z :: y :: (l.toList ++ r.toList ++ around up)).Nodup) :
    ∃ s', takePlace z y s = .ok s' ∧ IsTree s' (plug (node cz l y r) up) := by
  simp only [List.nodup_cons, List.nodup_append, List.mem_cons, List.mem_append, not_or] at hnodup
  obtain ⟨⟨hzy, ⟨hzl, hzr⟩, hzu⟩, ⟨⟨hyl, hyr⟩, hyu⟩, ⟨hndl, hndr, hlr⟩, hndu, hlru⟩ := hnodup
  obtain ⟨l0, hl₀⟩ : ∃ l0, rootPtr l = some l0 := by
    cases l with
    | nil => exact absurd rfl hl0
    | node c l' a r' => exact ⟨a, rfl⟩
  have hl0mem := rootPtr_mem hl₀
  have hl0y : l0 ≠ y := fun e => hyl (e ▸ hl0mem)
  have hl0z : l0 ≠ z := fun e => hzl (e ▸ hl0mem)
  obtain ⟨s₁, hs₁⟩ : ∃ s₁, s₁ = s.relink (above up) z (some y) := ⟨_, rfl⟩
  obtain ⟨s2, hs2⟩ : ∃ s2, s2 = s₁.modify y (setParent (above up)) := ⟨_, rfl⟩
  obtain ⟨s3, hs3⟩ : ∃ s3, s3 = s2.modify y (setChild .left (rootPtr l)) := ⟨_, rfl⟩
  obtain ⟨s4, hs4⟩ : ∃ s4, s4 = s3.modify l0 (setParent (some y)) := ⟨_, rfl⟩
  obtain ⟨s5, hs5⟩ : ∃ s5, s5 = s4.modify y (setLabel cz) := ⟨_, rfl⟩
  obtain ⟨hup1, hroot1⟩ := hup.relink hroot hzu hndu (some y)
  rw [← hs₁] at hup1 hroot1
  have hkeep1 : ∀ b, b ∉ around up → s₁.cell b = s.cell b := fun b hb => by rw [hs₁, cell_relink_of_ne (above_ne hb)]
  have hkeep5 : ∀ b, b ≠ y → b ≠ l0 → s5.cell b = s₁.cell b := fun b hby hbl => by
    rw [hs5, cell_modify_of_ne hby, hs4, cell_modify_of_ne hbl, hs3, cell_modify_of_ne hby, hs2, cell_modify_of_ne hby]
  have hz1 : s₁.cell z = ⟨rootPtr l, q, above up, cz⟩ := (hkeep1 z hzu).trans hz
  have hz2 : s2.cell z = ⟨rootPtr l, q, above up, cz⟩ := by rw [hs2, cell_modify_of_ne hzy, hz1]
  have hz4 : s4.cell z = ⟨rootPtr l, q, above up, cz⟩ := by
    rw [hs4, cell_modify_of_ne hl0z.symm, hs3, cell_modify_of_ne hzy, hz2]
  have hy3 : s3.cell y = ⟨rootPtr l, rootPtr r, above up, (s.cell y).label⟩ := by
    rw [hs3, cell_modify_self, hs2, cell_modify_self, hkeep1 y hyu, ← hy]
    rfl
  have hrun : takePlace z y s = .ok s5 := by
    unfold takePlace
    dsimp only
    rw [hz]
    rw [← hs₁, hz1]
    rw [← hs2, hz2]
    rw [← hs3, hy3, hl₀]
    show Except.ok _ = _
    rw [← hs4, hz4, ← hs5]
  refine ⟨s5, hrun, isTree_plug.2 ⟨?_, ⟨?_, ?_, ?_⟩, ?_, ?_⟩⟩
  · rw [hs5, modify_root, hs4, modify_root, hs3, modify_root, hs2, modify_root, hroot1]
    rfl
  · rw [hs5, cell_modify_self, hs4, cell_modify_of_ne hl0y.symm, hy3]
    rfl
  · have hlu : ∀ b ∈ l.toList, b ∉ around up := fun b hb hbu => hlru b (.inl hb) b hbu rfl
    refine hl.reparent hndl (fun b hb => ?_) fun b hb hbl => ?_
    · obtain rfl := some.inj (hl₀.symm.trans hb)
      rw [hs5, cell_modify_of_ne hl0y, hs4, cell_modify_self, hs3, cell_modify_of_ne hl0y, hs2, cell_modify_of_ne hl0y,
        hkeep1 l0 (hlu l0 hl0mem)]
    · rw [hkeep5 b (fun e => hyl (e ▸ hb)) fun e => hbl (e ▸ hl₀), hkeep1 b (hlu b hb)]
  · refine hr.congr fun b hb => ?_
    rw [hkeep5 b (fun e => hyr (e ▸ hb)) fun e => hlr l0 hl0mem b hb e.symm,
      hkeep1 b fun hbu => hlru b (.inr hb) b hbu rfl]
  · exact hup1.congr fun b hb => hkeep5 b (fun e => hyu (e ▸ hb)) fun e => hlru l0 (.inl hl0mem) b hb e.symm
  have hnd : (y :: (l.toList ++ r.toList ++ around up)).Nodup := by
    simp only [List.nodup_cons, List.nodup_append, List.mem_append, not_or]
    exact ⟨⟨⟨hyl, hyr⟩, hyu⟩, ⟨hndl, hndr, hlr⟩, hndu, hlru⟩
  refine (List.Perm.nodup_iff (List.perm_iff_count.2 fun b => ?_)).1 hnd
  simp only [toList_node, List.count_append, List.count_cons]
  omega

/-! ## The successor -/

omit [DecidableEq α] in
/-- The walk to the left ends where the tree's does. -/
theorem minimum_sim {gs : Parents α} (hr : Placed s.cell par r) (ha : rootPtr r = some a)
    (hm : Mman.minimum r fs = some (c, y, xt, gs)) (hn : r.toList.length ≤ n) : minimum n a s = .ok y := by
  induction r, fs using Mman.minimum.induct generalizing par a n with
  | case1 fs => cases hm
  | case2 c' b r fs =>
    obtain rfl := some.inj ha
    obtain ⟨n, rfl⟩ : ∃ k, n = k + 1 := ⟨n - 1, by simp at hn; omega⟩
    simp only [Mman.minimum, some.injEq, Prod.mk.injEq] at hm
    rw [minimum, hr.1]
    exact congrArg Except.ok hm.2.1
  | case3 c' l' a' r' cl b r fs ih =>
    obtain rfl := some.inj ha
    simp only [toList_node, List.length_append, List.length_cons] at hn ih
    obtain ⟨n, rfl⟩ : ∃ k, n = k + 1 := ⟨n - 1, by omega⟩
    rw [minimum, hr.1]
    exact ih hr.2.1 rfl hm (by omega)

/-- The successor is the right child. -/
theorem lowerMin_child {cy : Color} (h : IsTree s (plug (node cz l z (node cy nil y xt)) up)) (hl0 : l ≠ nil) :
    ∃ s', (lowerMin z y s).bind (takePlace z y) = .ok s' ∧ IsTree s' (plug (node cz l y xt) up) := by
  obtain ⟨hroot, ⟨hz, hl, hy, -, hxt⟩, hup, hnodup⟩ := isTree_plug.1 h
  have hlower : lowerMin z y s = .ok s := by
    unfold lowerMin
    rw [hy, if_pos rfl]
    refine congrArg Except.ok (modify?_eq_self fun a ha => ?_)
    cases xt with
    | nil => cases ha
    | node c' l' a' r' =>
      obtain rfl := some.inj ha
      rw [hxt.1]
      rfl
  rw [hlower]
  refine takePlace_spec hroot hup hz hl hl0 (by rw [hy]) hxt ?_
  refine (List.Perm.nodup_iff (List.perm_iff_count.2 fun b => ?_)).1 hnodup
  simp only [toList_node, toList_nil, List.nil_append, List.count_append, List.count_cons]
  omega

/-- A successor that is not a child of `z` leaves its place to its child. -/
theorem lowerMin_eq {cy : Color} {q : α} {x : Option α} (hy : s.cell y = mkSide .left none x (some q) cy)
    (hq : (s.cell q).left = some y) (hqz : q ≠ z) (hxy : x ≠ some y) (hxq : x ≠ some q) :
    lowerMin z y s = (deref ((unlink y x s).cell z).right).map fun r =>
      ((unlink y x s).modify y (setChild .right (some r))).modify r (setParent (some y)) := by
  obtain ⟨s0, hs0⟩ : ∃ s0, s0 = s.modify? x (setParent (some q)) := ⟨_, rfl⟩
  obtain ⟨s₁, hs₁⟩ : ∃ s₁, s₁ = s0.modify q (setChild .left x) := ⟨_, rfl⟩
  have hy0 : s0.cell y = mkSide .left none x (some q) cy := by rw [hs0, cell_modify?_of_ne hxy, hy]
  have hunlink : unlink y x s = s₁ := by
    unfold unlink
    dsimp only
    rw [hy, parent_mkSide, ← hs0, hy0, parent_mkSide]
    unfold relink
    dsimp only
    rw [if_pos (by rw [hs0, cell_modify?_of_ne hxq, hq]), ← hs₁]
  unfold lowerMin
  dsimp only
  rw [hy, parent_mkSide, if_neg fun e => hqz (some.inj e), show (mkSide .left none x (some q) cy).right = x from rfl,
    ← hs0, hy0, parent_mkSide, hunlink]
  show (deref (((s0.modify q (setChild .left x)).modify y
    (setChild .right ((s0.modify q (setChild .left x)).cell z).right)).cell y).right).bind _ = _
  rw [cell_modify_self, ← hs₁]
  cases (s₁.cell z).right with
  | none => rfl
  | some r => rfl

/-- The successor lies deeper, and is unlinked first. -/
theorem lowerMin_below {cy cq : Color} {q : α} {qo : RbTree α}
    (h : IsTree s (plug (node cy nil y xt) (⟨.left, cq, q, qo⟩ :: (fs ++ ⟨.right, cz, z, l⟩ :: up)))) (hl0 : l ≠ nil) :
    ∃ s', (lowerMin z y s).bind (takePlace z y) = .ok s' ∧
      IsTree s' (plug (node cz l y (plug xt (⟨.left, cq, q, qo⟩ :: fs))) up) := by
  obtain ⟨gs, hgs⟩ : ∃ gs : Parents α, gs = ⟨.left, cq, q, qo⟩ :: fs := ⟨_, rfl⟩
  have hall : (⟨.left, cq, q, qo⟩ :: (fs ++ ⟨.right, cz, z, l⟩ :: up) : Parents α) = gs ++
    ⟨.right, cz, z, l⟩ :: up := by
    rw [hgs]
    rfl
  have hplug : ∀ t : RbTree α, plug t (gs ++ ⟨.right, cz, z, l⟩ :: up) = plug (node cz l z (plug t gs))
    up := fun t => by
    rw [plug_append]
    rfl
  have hy : s.cell y = mkSide .left none (rootPtr xt) (some q) cy :=
    cell_branch (d := .left) (⟨.left, cq, q, qo⟩ :: (fs ++ ⟨.right, cz, z, l⟩ :: up)) h
  have hq : (s.cell q).left = some y := (left_eq_iff h rfl).2 rfl
  -- `y` is outside of the tree after its child took its place
  obtain ⟨s₁, hs₁⟩ : ∃ s₁, s₁ = unlink y (rootPtr xt) s := ⟨_, rfl⟩
  have h1 : IsTree s₁ (plug xt (gs ++ ⟨.right, cz, z, l⟩ :: up)) := by
    rw [hs₁, ← hall]
    exact unlink_spec (d := .left) h
  obtain ⟨hyx, hyu, hxq⟩ : y ∉ xt.toList ∧ y ∉ around (gs ++ ⟨.right, cz, z, l⟩ :: up) ∧ q ∉ xt.toList := by
    have hnd := (isTree_plug.1 h).2.2.2
    rw [hall] at hnd
    simp only [toList_node, toList_nil, List.nil_append, List.cons_append, List.nodup_cons, List.mem_append,
      not_or] at hnd
    refine ⟨hnd.1.1, hnd.1.2, fun hqx => (List.nodup_append.1 hnd.2).2.2 q hqx q ?_ rfl⟩
    rw [hgs]
    simp [around]
  have hy1 : s₁.cell y = s.cell y := by
    rw [hs₁, unlink_of_not_mem (gs ++ ⟨.right, cz, z, l⟩ :: up) (by rw [hy, ← hall]; rfl) hyx hyx hyu]
  have hyall : y ∉ (plug (node cz l z (plug xt gs)) up).toList := by
    rw [← hplug, perm_plug.mem_iff, List.mem_append, not_or]
    exact ⟨hyx, hyu⟩
  rw [hplug] at h1
  obtain ⟨hroot1, ⟨hz1, hl1, hr1⟩, hup1, hnd1⟩ := isTree_plug.1 h1
  have hnodup : (z :: y :: (l.toList ++ (plug xt gs).toList ++ around up)).Nodup := by
    have hnd : (y :: ((node cz l z (plug xt gs)).toList ++ around up)).Nodup :=
      List.nodup_cons.2 ⟨fun hmem => hyall (perm_plug.mem_iff.2 hmem), hnd1⟩
    refine (List.Perm.nodup_iff (List.perm_iff_count.2 fun b => ?_)).1 hnd
    simp only [toList_node, List.count_append, List.count_cons]
    omega
  have hnd := hnodup
  simp only [List.nodup_cons, List.nodup_append, List.mem_cons, List.mem_append, not_or] at hnd
  obtain ⟨⟨hzy, ⟨hzl, hzr⟩, hzu⟩, ⟨⟨hyl, hyr⟩, hyu'⟩, ⟨hndl, hndr, hlr⟩, hndu, hlru⟩ := hnd
  have hqz : q ≠ z := by
    rintro rfl
    refine hzr (perm_plug.mem_iff.2 ?_)
    rw [hgs]
    simp [around]
  obtain ⟨r0, hr0⟩ : ∃ r0, rootPtr (plug xt gs) = some r0 := by
    obtain ⟨r0, -, hr0⟩ := rootAt_mem (rootPtr xt) ⟨.left, cq, q, qo⟩ fs
    exact ⟨r0, by rw [rootPtr_plug, hgs, hr0]⟩
  have hr0mem := rootPtr_mem hr0
  have hr0y : r0 ≠ y := fun e => hyr (e ▸ hr0mem)
  obtain ⟨s2, hs2⟩ : ∃ s2, s2 = s₁.modify y (setChild .right (rootPtr (plug xt gs))) := ⟨_, rfl⟩
  obtain ⟨s3, hs3⟩ : ∃ s3, s3 = s2.modify r0 (setParent (some y)) := ⟨_, rfl⟩
  have hlower : lowerMin z y s = .ok s3 := by
    rw [lowerMin_eq hy hq hqz (rootPtr_ne hyx) (rootPtr_ne hxq), ← hs₁, hz1]
    rw [hr0]
    show Except.ok _ = _
    rw [hs3, hs2, hr0]
  have hkeep : ∀ b, b ≠ y → b ≠ r0 → s3.cell b = s₁.cell b := fun b hby hbr => by
    rw [hs3, cell_modify_of_ne hbr, hs2, cell_modify_of_ne hby]
  rw [hlower, ← hgs]
  refine takePlace_spec (q := rootPtr (plug xt gs)) ?_ ?_ ?_ ?_ hl0 ?_ ?_ hnodup
  · rw [hs3, modify_root, hs2, modify_root, hroot1]
    rfl
  · exact hup1.congr fun b hb => hkeep b (fun e => hyu' (e ▸ hb)) fun e => hlru b (.inr (e ▸ hr0mem)) b hb rfl
  · rw [hkeep z hzy fun e => hzr (e ▸ hr0mem), hz1]
  · exact hl1.congr fun b hb => hkeep b (fun e => hyl (e ▸ hb)) fun e => hlr b hb r0 hr0mem e
  · rw [hs3, cell_modify_of_ne hr0y.symm, hs2, cell_modify_self]
    rfl
  refine hr1.reparent hndr (fun b hb => ?_) fun b hb hbr => ?_
  · obtain rfl := some.inj (hr0.symm.trans hb)
    rw [hs3, cell_modify_self, hs2, cell_modify_of_ne hr0y]
  · exact hkeep b (fun e => hyr (e ▸ hb)) fun e => hbr (e ▸ hr0)

/-! ## The deletion -/

theorem finish_sim (up : Parents α) (h : IsTree s (plug xt up)) (hn : up.length < n) :
    Sim (finish n c (rootPtr xt) s) (settle c xt up) := by
  cases xt with
  | nil =>
    cases c with
    | red => exact ⟨s, rfl, h⟩
    | black => exact ⟨s, rfl, h⟩
  | node cx l x r =>
    cases c with
    | red => exact ⟨s, rfl, h⟩
    | black => exact fixupDel_sim up rfl h hn

/-- **`rbtree_delete` in memory does what `rbtree_delete` does to the tree.** -/
theorem rbtreeDelete_sim (h : IsTree s t) (hz : z ∈ t.toList) (hn : t.toList.length < n) :
    Sim (rbtreeDelete n z s) (Mman.rbtreeDelete z t) := by
  obtain ⟨cz, l, r, up, hloc, rfl⟩ := locate_spec hz
  obtain ⟨-, ⟨hcell, hl, hr⟩, -, -⟩ := isTree_plug.1 h
  have hlen : l.toList.length + r.toList.length + 1 + (around up).length < n := by
    rw [perm_plug.length_eq] at hn
    simp only [toList_node, List.length_append, List.length_cons] at hn
    omega
  have hup := length_le_around up
  unfold rbtreeDelete Mman.rbtreeDelete
  rw [hloc, hcell]
  cases l with
  | nil => exact finish_sim up (unlink_spec (d := .left) h) (by omega)
  | node cl ll la lr =>
    cases r with
    | nil => exact finish_sim up (unlink_spec (d := .right) h) (by omega)
    | node cr rl ra rr =>
      obtain ⟨cy, y, xt, fs, hmin, hplug, hleft⟩ := minimum_spec (node cr rl ra rr) [] (by simp) (by simp)
      rw [plug_nil] at hplug
      have hminimum : minimum n ra s = .ok y := minimum_sim hr rfl hmin (by omega)
      dsimp only [rootPtr_node]
      rw [hmin, hminimum]
      -- the successor in memory
      rw [← hplug] at h hlen
      have hy : IsTree s (plug (node cy nil y xt) (fs ++ ⟨.right, cz, z, node cl ll la lr⟩ :: up)) := by
        rw [plug_append]
        exact h
      have hcelly := cell_branch (d := .left) _ hy
      obtain ⟨s', hrun, h'⟩ : ∃ s', (lowerMin z y s).bind (takePlace z y) = .ok s' ∧
          IsTree s' (plug (node cz (node cl ll la lr) y (plug xt fs)) up) := by
        rcases fs with _ | ⟨⟨d, cq, q, qo⟩, fs⟩
        · exact lowerMin_child h (by simp)
        · obtain rfl : d = .left := hleft _ List.mem_cons_self
          exact lowerMin_below hy (by simp)
      have hbind : (lowerMin z y s >>= fun s' => takePlace z y s' >>= fun s' =>
          finish n (s.cell y).label (s.cell y).right s') = finish n (s.cell y).label (s.cell y).right s' := by
        rw [← LawfulMonad.bind_assoc, show lowerMin z y s >>= takePlace z y = .ok s' from hrun]
        rfl
      refine (congrArg (Sim · _) hbind).mpr ?_
      rw [hcelly, label_mkSide]
      refine finish_sim (fs ++ ⟨.right, cz, y, node cl ll la lr⟩ :: up) ?_ ?_
      · rw [plug_append]
        exact h'
      have hfs := length_le_around fs
      rw [perm_plug.length_eq] at hlen
      simp only [toList_node, List.length_append, List.length_cons] at hlen ⊢
      omega

/-! ## More rounds -/

omit [DecidableEq α] in
theorem minimum_stable (x : α) (s : TreeMem Color α) : Stable fun n => minimum n x s := by
  intro n
  induction n generalizing x with
  | zero => exact nofun
  | succ n ih =>
    intro m y hnm hrun
    obtain ⟨m, rfl⟩ : ∃ k, m = k + 1 := ⟨m - 1, by omega⟩
    dsimp only at hrun ⊢
    rw [minimum] at hrun ⊢
    cases hl : (s.cell x).left with
    | none =>
      rw [hl] at hrun
      exact hrun
    | some l =>
      rw [hl] at hrun
      exact ih l m y (by omega) hrun

theorem fixupDel_stable (x : Option α) (s : TreeMem Color α) : Stable fun n => fixupDel n x s := by
  intro n
  induction n generalizing x s with
  | zero => exact nofun
  | succ n ih =>
    intro m s' hnm hrun
    obtain ⟨m, rfl⟩ : ∃ k, m = k + 1 := ⟨m - 1, by omega⟩
    dsimp only at hrun ⊢
    rw [fixupDel] at hrun ⊢
    by_cases hcond : x ≠ s.root ∧ (!isred x s) = true
    · rw [if_pos hcond] at hrun ⊢
      obtain ⟨p, hp, hrun⟩ := bind_ok.1 hrun
      obtain ⟨r, hr, hrun⟩ := bind_ok.1 hrun
      exact bind_ok.2 ⟨p, hp, bind_ok.2 ⟨r, hr, ih r.1 r.2 m s' (by omega) hrun⟩⟩
    · rw [if_neg hcond] at hrun ⊢
      exact hrun

theorem finish_stable (c : Color) (x : Option α) (s : TreeMem Color α) : Stable fun n => finish n c x s :=
  .ite (fixupDel_stable x s) (stable_const _)

theorem rbtreeDelete_stable (z : α) (s : TreeMem Color α) : Stable fun n => rbtreeDelete n z s := by
  unfold rbtreeDelete
  cases (s.cell z).left with
  | none => exact finish_stable _ _ _
  | some l =>
    cases (s.cell z).right with
    | none => exact finish_stable _ _ _
    | some r =>
      refine (minimum_stable r s).bind fun y => ?_
      exact (stable_const (lowerMin z y s)).bind fun s₁ =>
        (stable_const (takePlace z y s₁)).bind fun s2 => finish_stable _ _ s2

/-! ## What a deletion does -/

/-- **The content after a deletion**: whatever the colours are, when `rbtree_delete` returns, exactly the node is gone
from the sequence, all links are consistent and none leads to the node. -/
theorem delete_content (h : IsTree s t) (hz : z ∈ t.toList) (hrun : rbtreeDelete n z s = .ok s') :
    ∃ t', IsTree s' t' ∧ t'.toList = t.toList.erase z ∧ s'.root ≠ some z ∧
      ∀ a ∈ t'.toList, (s'.cell a).left ≠ some z ∧ (s'.cell a).right ≠ some z ∧ (s'.cell a).parent ≠ some z := by
  have hrun : rbtreeDelete (n + (t.toList.length + 1)) z s = .ok s' :=
    rbtreeDelete_stable z s n _ s' (Nat.le_add_right _ _) hrun
  have hsim := rbtreeDelete_sim (n := n + (t.toList.length + 1)) h hz (by omega)
  rw [hrun] at hsim
  cases hdel : Mman.rbtreeDelete z t with
  | none =>
    rw [hdel] at hsim
    cases hsim
  | some t' =>
    rw [hdel] at hsim
    obtain ⟨s₁, hs₁, h'⟩ := hsim
    cases hs₁
    have hlist := (rbtreeDelete_spec hz h.nodup hdel).1
    have hgone : z ∉ t'.toList := by
      rw [hlist]
      exact h.nodup.not_mem_erase
    refine ⟨t', h', hlist, fun hroot => hgone (rootPtr_mem (h'.root.symm.trans hroot)), fun a ha => ?_⟩
    obtain ⟨hleft, hright, hparent⟩ := h'.placed.link_mem ha
    refine ⟨fun e => hgone (hleft z e), fun e => hgone (hright z e), fun e => ?_⟩
    rcases hparent z e with hmem | hno
    · exact hgone hmem
    · cases hno

theorem delete_content_three : ∃ s', rbtreeDelete 4 4 threeMem = .ok s' ∧ ∃ t', IsTree s' t' ∧ t'.toList = [2, 6] ∧
    s'.root ≠ some 4 ∧
      ∀ a ∈ t'.toList, (s'.cell a).left ≠ some 4 ∧ (s'.cell a).right ≠ some 4 ∧ (s'.cell a).parent ≠ some 4 := by
  obtain ⟨s', hrun⟩ : ∃ s', rbtreeDelete 4 4 threeMem = .ok s' := ⟨_, rfl⟩
  exact ⟨s', hrun, delete_content isTree_three (by decide) hrun⟩

/-- **A deletion from a valid tree** returns and leaves a valid tree if and only if no path loses a black node. -/
theorem delete_valid (h : IsTree s t) (hv : Valid t) (hz : z ∈ t.toList) (hn : t.toList.length < n) :
    (∃ s' t', rbtreeDelete n z s = .ok s' ∧ IsTree s' t' ∧ Valid t') ↔ NoLoss z t := by
  have hsim := rbtreeDelete_sim h hz hn
  rw [← rbtreeDelete_balanced hv hz h.nodup]
  constructor
  · rintro ⟨s', t', hrun, h', hv'⟩
    rw [hrun] at hsim
    cases hdel : Mman.rbtreeDelete z t with
    | none =>
      rw [hdel] at hsim
      cases hsim
    | some t₁ =>
      rw [hdel] at hsim
      obtain ⟨s₁, hs₁, h₁⟩ := hsim
      cases hs₁
      exact ⟨t₁, rfl, h₁.unique h' ▸ hv'⟩
  · rintro ⟨t', ht', hv'⟩
    rw [ht'] at hsim
    obtain ⟨s', hrun, h'⟩ := hsim
    exact ⟨s', t', hrun, h', hv'⟩

theorem delete_valid_three : ∃ s' t', rbtreeDelete 4 2 threeMem = .ok s' ∧ IsTree s' t' ∧ Valid t' := by
  refine (delete_valid isTree_three (valid_iff.2 ⟨1, .black 4 (.red 2 .nil .nil) (.red 6 .nil .nil)⟩) (by decide)
    (by decide)).2 ?_
  intro y hy
  obtain rfl := some.inj (show some (Color.red, nil, _) = some y from hy)
  exact .inl rfl

/-- Three black nodes. -/
def blacks : RbTree Nat := node .black (node .black nil 2 nil) 4 (node .black nil 6 nil)

def blacksMem : TreeMem Color Nat where
  cell := fun a =>
    if a = 4 then ⟨some 2, some 6, none, .black⟩ else ⟨none, none, some 4, .black⟩
  root := some 4

/-- **When a black node without a child is deleted, a path has a black node less than the others.** -/
theorem delete_unbalanced : IsTree blacksMem blacks ∧ Valid blacks ∧ ∃ s', rbtreeDelete 4 2 blacksMem = .ok s' ∧
    IsTree s' (node .black nil 4 (node .black nil 6 nil)) ∧
      ¬ Valid (node .black nil 4 (node .black nil 6 nil) : RbTree Nat) := by
  have h : IsTree blacksMem blacks := ⟨rfl, ⟨rfl, ⟨rfl, trivial, trivial⟩, ⟨rfl, trivial, trivial⟩⟩, by decide⟩
  obtain ⟨s', hrun, h'⟩ : Sim (rbtreeDelete 4 2 blacksMem) (Mman.rbtreeDelete 2 blacks) :=
    rbtreeDelete_sim h (by decide) (by decide)
  refine ⟨h, valid_iff.2 ⟨2, .black 4 (.black 2 .nil .nil) (.black 6 .nil .nil)⟩, s', hrun, h', fun hv => ?_⟩
  have := hv.heights 1 (by decide) 2 (by decide)
  omega

end TextOS.Mman.Ptr
