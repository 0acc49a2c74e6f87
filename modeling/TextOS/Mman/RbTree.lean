import TextOS.Lib.BinTree

/-!
# The red-black tree: `kernel/klib/rbtree.c`

A node pointer of the source is a position in the tree: the subtree of the node and its parents. A function is `none`
when the source reads through `NULL`.
-/

namespace TextOS.Mman

open Lib BinTree Option

inductive Color where
  | red
  | black
deriving DecidableEq

abbrev RbTree (α : Type) := BinTree Color α

abbrev Parents (α : Type) := List (Frame Color α)

variable {α : Type} {t t' l l' r r' x z : RbTree α} {a p g : α} {c c' : Color} {d d' : Side} {up : Parents α}

def isred : RbTree α → Bool
  | node .red _ _ _ => true
  | _ => false

/-- Set the colour of a node, if there is one. -/
def paint (c : Color) : RbTree α → RbTree α
  | nil => nil
  | node _ l a r => node c l a r

def rotateLeft : RbTree α → Option (RbTree α)
  | node cx l x (node cy m y r) => some (node cy (node cx l x m) y r)
  | _ => none

def rotateRight : RbTree α → Option (RbTree α)
  | node cy (node cx l x m) y r => some (node cx l x (node cy m y r))
  | _ => none

/-! ## Insertion -/

/-- `g->color = RED`. -/
def redden (g : Frame Color α) : Frame Color α := { g with label := .red }

/-- `u->color = BLACK` for the other child `u` of `g`, and `g->color = RED`. -/
def recolour (g : Frame Color α) : Frame Color α := { g with label := .red, other := paint .black g.other }

/-- The loop of `fixup` from `z` on; the tree before its root is painted. -/
def fixup : RbTree α → Parents α → Option (RbTree α)
  | z, [] => some z
  | z, [p] => if p.label = .red then none else some (p.plug z)
  | z, p :: g :: up =>
    if p.label = .red then
      match g.side with
      | .left =>
        if isred g.other then
          fixup ((recolour g).plug (paint .black (p.plug z))) up
        else
          -- afterwards the parent of `z` is black and the loop ends
          ((if p.side = .right then rotateLeft (p.plug z) else some (p.plug z)).bind fun p' =>
            rotateRight ((redden g).plug (paint .black p'))).map fun g' => plug g' up
      | .right =>
        if isred g.other then
          fixup ((recolour g).plug (paint .black (p.plug z))) up
        else
          ((if p.side = .left then rotateRight (p.plug z) else some (p.plug z)).bind fun p' =>
            rotateLeft ((redden g).plug (paint .black p'))).map fun g' => plug g' up
    else some (plug z (p :: g :: up))

def rbtreeFixup (z : RbTree α) (up : Parents α) : Option (RbTree α) := (fixup z up).map (paint .black)

/-- `rbtree_link` at an empty place. -/
def rbtreeLink (n : α) : RbTree α := node .red nil n nil

/-! ## Deletion -/

/-- How a round of `fixup_del` ends: with `x = p` or with `x = t->root`. -/
inductive Round (α : Type) where
  | up (x : RbTree α)
  | done (t : RbTree α)

/-- The round for a left child `x` of `p`, once the sibling is not red. -/
def delLeft (x : RbTree α) (p : Frame Color α) : Option (Round α) :=
  match p.other with
  | nil => none
  | node cw wl w wr =>
    if !isred wl && !isred wr then some (.up (node p.label x p.elem (node .red wl w wr)))
    else
      (if !isred wr then rotateRight (node .red (paint .black wl) w wr) else some (node cw wl w wr)).bind fun
        | nil => none
        | node _ l a r => (rotateLeft (node .black x p.elem (node p.label l a (paint .black r)))).map .done

/-- The round for a right child `x` of `p`, once the sibling is not red. -/
def delRight (x : RbTree α) (p : Frame Color α) : Option (Round α) :=
  match p.other with
  | nil => none
  | node cw wl w wr =>
    if !isred wr && !isred wl then some (.up (node p.label (node .red wl w wr) p.elem x))
    else
      (if !isred wl then rotateLeft (node .red wl w (paint .black wr)) else some (node cw wl w wr)).bind fun
        | nil => none
        | node _ l a r => (rotateRight (node .black (node p.label (paint .black l) a r) p.elem x)).map .done

/-- The end of a round when the red sibling came above `p`: now `p` is red, so that going up to it ends the loop. -/
def lower (w : Frame Color α) (up : Parents α) : Round α → RbTree α
  | .up x => plug (paint .black x) (w :: up)
  | .done t => paint .black (plug t (w :: up))

def fixupDel : RbTree α → Parents α → Option (RbTree α)
  | x, [] => some (paint .black x)
  | x, p :: up =>
    if isred x then some (plug (paint .black x) (p :: up))
    else match p.side, p.other with
      | .left, node .red wl w wr =>
        (delLeft x { p with label := .red, other := wl }).map (lower ⟨.left, .black, w, wr⟩ up)
      | .left, _ => (delLeft x p).bind fun
          | .up y => fixupDel y up
          | .done t => some (paint .black (plug t up))
      | .right, node .red wl w wr =>
        (delRight x { p with label := .red, other := wr }).map (lower ⟨.right, .black, w, wl⟩ up)
      | .right, _ => (delRight x p).bind fun
          | .up y => fixupDel y up
          | .done t => some (paint .black (plug t up))

/-- `minimum`, with its colour, its right child and its parents inside the tree. -/
def minimum : RbTree α → Parents α → Option (Color × α × RbTree α × Parents α)
  | nil, _ => none
  | node c nil a r, fs => some (c, a, r, fs)
  | node c (node c' l' a' r') a r, fs => minimum (node c' l' a' r') (⟨.left, c, a, r⟩ :: fs)

/-- The end of `rbtree_delete`: `x` stands where a node of the given colour was. -/
def settle (color : Color) (x : RbTree α) (up : Parents α) : Option (RbTree α) :=
  match color, x with
  | .black, node c l a r => fixupDel (node c l a r) up
  | _, x => some (plug x up)

def rbtreeDelete [DecidableEq α] (z : α) (t : RbTree α) : Option (RbTree α) :=
  match locate z t [] with
  | some (node cz nil _ r, up) => settle cz r up
  | some (node cz l _ nil, up) => settle cz l up
  | some (node cz l _ r, up) =>
    -- the successor takes the place and the colour of `z`, its right child takes its place
    (minimum r []).bind fun (cy, y, x, fs) => settle cy x (fs ++ ⟨.right, cz, y, l⟩ :: up)
  | _ => none

/-! ## Colours and rotations -/

@[simp] theorem toList_paint (c : Color) (t : RbTree α) : (paint c t).toList = t.toList := by
  cases t with
  | nil => rfl
  | node c' l a r => rfl

@[simp] theorem isred_paint_black (t : RbTree α) : isred (paint .black t) = false := by
  cases t with
  | nil => rfl
  | node c l a r => rfl

theorem isred_eq (t : RbTree α) : isred t = (t.label? == some .red) := by
  rcases t with _ | ⟨_ | _, l, a, r⟩
  · rfl
  · rfl
  · rfl

theorem isred_plug (h : up ≠ []) (t t' : RbTree α) : isred (plug t up) = isred (plug t' up) := by
  rw [isred_eq, isred_eq, label_plug h t t']

/-! ## Both sides at once -/

@[simp] theorem paint_branch (c c' : Color) (l r : RbTree α) (a : α) :
    paint c (branch d c' l a r) = branch d c l a r := by
  cases d with
  | left => rfl
  | right => rfl

theorem branch_eq_of_node (d : Side) (c : Color) (l : RbTree α) (a : α) (r : RbTree α) :
    ∃ l' r', node c l a r = branch d c l' a r' := by
  cases d with
  | left => exact ⟨l, r, rfl⟩
  | right => exact ⟨r, l, rfl⟩

variable {po go zl zr : RbTree α} {cg : Color}

theorem fixup_uncle (hu : isred go = true) : fixup z (⟨d', .red, p, po⟩ :: ⟨d, cg, g, go⟩ :: up) =
    fixup (branch d .red (branch d' .black z p po) g (paint .black go)) up := by
  cases d with
  | left =>
    cases d' with
    | left => simp [fixup, hu, recolour, Frame.plug, paint, branch]
    | right => simp [fixup, hu, recolour, Frame.plug, paint, branch]
  | right =>
    cases d' with
    | left => simp [fixup, hu, recolour, Frame.plug, paint, branch]
    | right => simp [fixup, hu, recolour, Frame.plug, paint, branch]

theorem fixup_outer (hu : isred go = false) : fixup z (⟨d, .red, p, po⟩ :: ⟨d, cg, g, go⟩ :: up) =
    some (plug (branch d .black z p (branch d .red po g go)) up) := by
  cases d with
  | left => simp [fixup, hu, redden, Frame.plug, paint, branch, rotateRight]
  | right => simp [fixup, hu, redden, Frame.plug, paint, branch, rotateLeft]

theorem fixup_inner {zc : Color} {za : α} (hu : isred go = false) :
    fixup (branch d zc zl za zr) (⟨d.flip, .red, p, po⟩ :: ⟨d, cg, g, go⟩ :: up) =
      some (plug (branch d .black (branch d .red po p zl) za (branch d .red zr g go)) up) := by
  cases d with
  | left => simp [fixup, hu, redden, Frame.plug, paint, branch, rotateLeft, rotateRight, Side.flip]
  | right => simp [fixup, hu, redden, Frame.plug, paint, branch, rotateLeft, rotateRight, Side.flip]

theorem fixup_black (d : Side) (p : α) (po : RbTree α) (up : Parents α) :
    fixup z (⟨d, .black, p, po⟩ :: up) = some (plug z (⟨d, .black, p, po⟩ :: up)) := by
  cases up with
  | nil => simp [fixup]
  | cons g up => simp [fixup]

theorem side_cases (d d' : Side) : d' = d ∨ d' = d.flip := by
  cases d with
  | left =>
    cases d' with
    | left => exact .inl rfl
    | right => exact .inr rfl
  | right =>
    cases d' with
    | left => exact .inr rfl
    | right => exact .inl rfl

@[simp] theorem isred_branch (d : Side) (c : Color) (l : RbTree α) (a : α) (r : RbTree α) :
    isred (branch d c l a r) = (c == .red) := by
  rw [isred_eq]
  exact congrArg (· == some Color.red) (Frame.label_plug ⟨d, c, a, r⟩ l)

theorem exists_of_isred (d : Side) (h : isred t = true) : ∃ l a r, t = branch d .red l a r := by
  rcases t with _ | ⟨_ | _, l, a, r⟩
  · cases h
  · obtain ⟨l', r', ht⟩ := branch_eq_of_node d .red l a r
    exact ⟨l', a, r', ht⟩
  · cases h

theorem toList_branch_congr (d : Side) (hl : l.toList = l'.toList) (hr : r.toList = r'.toList) :
    (branch d c l a r).toList = (branch d c' l' a r').toList := by
  cases d with
  | left => simp [branch, Frame.plug, hl, hr]
  | right => simp [branch, Frame.plug, hl, hr]

/-- A rotation keeps the sequence. -/
theorem toList_rotate (d : Side) (c1 c2 c1' c2' : Color) (l : RbTree α) (a : α) (m : RbTree α) (b : α) (r : RbTree α) :
    (branch d c1 (branch d c2 l a m) b r).toList = (branch d c1' l a (branch d c2' m b r)).toList := by
  cases d with
  | left => simp [branch, Frame.plug]
  | right => simp [branch, Frame.plug]

/-! ## What the insertion does -/

theorem branch_ne_nil : branch d c l a r ≠ nil := by
  cases d with
  | left => exact nofun
  | right => exact nofun

/-- **The loop of `fixup` returns when the root is black, and keeps the sequence.** -/
theorem fixup_spec : ∀ (up : Parents α) (z : RbTree α), z ≠ nil → (up ≠ [] → isred (plug z up) = false) →
    ∃ t, fixup z up = some t ∧ t.toList = (plug z up).toList
  | [], z, _, _ => ⟨z, rfl, rfl⟩
  | ⟨d, .black, p, po⟩ :: up, z, _, _ => ⟨_, fixup_black d p po up, rfl⟩
  | [⟨d', .red, p, po⟩], z, _, hroot => by
    have hred := hroot (by simp)
    rw [isred_eq, plug_cons, plug_nil, Frame.label_plug] at hred
    cases hred
  | ⟨d', .red, p, po⟩ :: ⟨d, cg, g, go⟩ :: up, z, hz, hroot => by
    cases hu : isred go with
    | true =>
      obtain ⟨t, ht, htl⟩ := fixup_spec up (branch d .red (branch d' .black z p po) g (paint .black go)) branch_ne_nil
        fun hup => (isred_plug hup _ _).trans (hroot (by simp))
      refine ⟨t, (fixup_uncle hu).trans ht, htl.trans (toList_plug_congr up ?_)⟩
      exact toList_branch_congr d (toList_branch_congr d' rfl rfl) (toList_paint _ _)
    | false =>
      rcases side_cases d d' with rfl | rfl
      · exact ⟨_, fixup_outer hu, toList_plug_congr up (toList_rotate d' _ _ _ _ z p po g go).symm⟩
      cases z with
      | nil => exact absurd rfl hz
      | node zc l za r =>
        obtain ⟨zl, zr, hzb⟩ := branch_eq_of_node d zc l za r
        rw [hzb]
        refine ⟨_, fixup_inner hu, toList_plug_congr up ?_⟩
        -- the parent goes below `z`, and then `z` above the grandparent
        refine (toList_rotate d cg .red _ _ (branch d .red po p zl) za zr g go).symm.trans ?_
        refine toList_branch_congr d ((toList_rotate d _ _ .red zc po p zl za zr).trans ?_) rfl
        exact congrArg BinTree.toList (branch_flip d .red _ p po).symm

/-- **`rbtree_fixup` after `rbtree_link`**: it returns, the sequence has the new element at its place and the root is
black. -/
theorem rbtreeFixup_spec (n : α) (up : Parents α) (hroot : isred (plug nil up) = false) :
    ∃ t, rbtreeFixup (rbtreeLink n) up = some t ∧ t.toList = before up ++ n :: after up ∧ isred t = false := by
  obtain ⟨t, ht, htl⟩ := fixup_spec up (rbtreeLink n) (by simp [rbtreeLink]) fun hup => (isred_plug hup _ _).trans hroot
  refine ⟨paint .black t, by rw [rbtreeFixup, ht, map_some], ?_, isred_paint_black t⟩
  rw [toList_paint, htl, toList_plug]
  simp [rbtreeLink]

/-! ## What the deletion does -/

/-- The tree of a round. -/
def Round.tree : Round α → RbTree α
  | .up x => x
  | .done t => t

/-- A round of `fixup_del` for a child `x` of `p` on the side `d`, once the sibling is not red. -/
def delSide (d : Side) (x : RbTree α) (p : Frame Color α) : Option (Round α) :=
  match d with
  | .left => delLeft x p
  | .right => delRight x p

variable {near far nl nr : RbTree α} {w b : α} {cw : Color} {o : RbTree α}

theorem delSide_nil (d : Side) (x : RbTree α) (c : Color) (p : α) : delSide d x ⟨d, c, p, nil⟩ = none := by
  cases d with
  | left => rfl
  | right => rfl

theorem delSide_up (hn : isred near = false) (hf : isred far = false) :
    delSide d x ⟨d, c, p, branch d cw near w far⟩ = some (.up (branch d c x p (branch d .red near w far))) := by
  cases d with
  | left => simp [delSide, delLeft, branch, Frame.plug, hn, hf]
  | right => simp [delSide, delRight, branch, Frame.plug, hn, hf]

theorem delSide_far (hf : isred far = true) : delSide d x ⟨d, c, p, branch d cw near w far⟩ =
    some (.done (branch d c (branch d .black x p near) w (paint .black far))) := by
  cases d with
  | left => simp [delSide, delLeft, branch, Frame.plug, hf, rotateLeft]
  | right => simp [delSide, delRight, branch, Frame.plug, hf, rotateRight]

theorem delSide_near (hf : isred far = false) : delSide d x ⟨d, c, p, branch d cw (branch d .red nl b nr) w far⟩ =
      some (.done (branch d c (branch d .black x p nl) b (branch d .black nr w far))) := by
  have hred : ∀ l r : RbTree α, isred (node .red l b r) = true := fun _ _ => rfl
  cases d with
  | left => simp [delSide, delLeft, branch, Frame.plug, hf, hred, rotateLeft, rotateRight, paint]
  | right => simp [delSide, delRight, branch, Frame.plug, hf, hred, rotateLeft, rotateRight, paint]

theorem fixupDel_redSibling (hx : isred x = false) : fixupDel x (⟨d, c, p, branch d .red near w far⟩ :: up) =
    (delSide d x ⟨d, .red, p, near⟩).map (lower ⟨d, .black, w, far⟩ up) := by
  cases d with
  | left => simp [fixupDel, hx, branch, Frame.plug, delSide]
  | right => simp [fixupDel, hx, branch, Frame.plug, delSide]

theorem fixupDel_blackSibling (hx : isred x = false) (ho : isred o = false) : fixupDel x (⟨d, c, p, o⟩ :: up) =
    (delSide d x ⟨d, c, p, o⟩).bind fun
      | .up y => fixupDel y up
      | .done t => some (paint .black (plug t up)) := by
  rw [fixupDel, if_neg (by rw [hx]; exact Bool.false_ne_true)]
  rcases o with _ | ⟨_ | _, l, a, r⟩
  · cases d with
    | left => rfl
    | right => rfl
  · cases ho
  cases d with
  | left => rfl
  | right => rfl

/-- A round of the fix-up keeps the order of the nodes. -/
theorem delSide_toList {out : Round α} (h : delSide d x ⟨d, c, p, o⟩ = some out) :
    out.tree.toList = (branch d c x p o).toList := by
  cases o with
  | nil =>
    rw [delSide_nil] at h
    cases h
  | node cw wl w wr =>
  obtain ⟨near, far, ho⟩ := branch_eq_of_node d cw wl w wr
  rw [ho] at h ⊢
  cases hf : isred far with
  | true =>
    rw [delSide_far hf] at h
    obtain rfl := some.inj h
    exact (toList_branch_congr d rfl (toList_paint _ _)).trans (toList_rotate d c _ _ _ x p near w far)
  | false =>
  cases hn : isred near with
  | true =>
    obtain ⟨nl, b, nr, rfl⟩ := exists_of_isred d hn
    rw [delSide_near hf] at h
    obtain rfl := some.inj h
    refine (toList_rotate d c _ c .red x p nl b _).trans (toList_branch_congr d rfl ?_)
    exact (toList_rotate d _ _ _ _ nl b nr w far).symm
  | false =>
    rw [delSide_up hn hf] at h
    obtain rfl := some.inj h
    exact toList_branch_congr d rfl (toList_branch_congr d rfl rfl)

theorem toList_lower (w : Frame Color α) (up : Parents α) (o : Round α) :
    (lower w up o).toList = (plug (w.plug o.tree) up).toList := by
  cases o with
  | up x => exact toList_plug_congr (w :: up) (toList_paint _ _)
  | done t => exact toList_paint _ _

theorem isred_lower {w p : Frame Color α} (hw : w.label = .black) (hroot : isred (plug x (p :: up)) = false)
    (o : Round α) : isred (lower w up o) = false := by
  cases o with
  | up y =>
    rw [lower, plug_cons]
    by_cases hup : up = []
    · rw [hup, plug_nil, isred_eq, Frame.label_plug, hw]
      rfl
    · exact (isred_plug hup _ _).trans hroot
  | done t => exact isred_paint_black _

/-- **`fixup_del` keeps the sequence**, and a black root stays black. -/
theorem fixupDel_spec (h : fixupDel x up = some t) :
    t.toList = (plug x up).toList ∧ ((up ≠ [] → isred (plug x up) = false) → isred t = false) := by
  induction up generalizing x with
  | nil =>
    obtain rfl := some.inj h
    exact ⟨toList_paint _ _, fun _ => isred_paint_black x⟩
  | cons f up ih =>
  obtain ⟨d, c, p, o⟩ := f
  cases hx : isred x with
  | true =>
    rw [fixupDel, if_pos hx] at h
    obtain rfl := some.inj h
    refine ⟨toList_plug_congr _ (toList_paint _ _), fun hroot => ?_⟩
    exact (isred_plug (by simp) _ _).trans (hroot (by simp))
  | false =>
  cases ho : isred o with
  | true =>
    obtain ⟨near, w, far, rfl⟩ := exists_of_isred d ho
    rw [fixupDel_redSibling hx] at h
    obtain ⟨out, hout, rfl⟩ := map_eq_some_iff.1 h
    refine ⟨(toList_lower _ _ _).trans (toList_plug_congr up ?_), fun hroot => isred_lower rfl (hroot (by simp)) out⟩
    exact (toList_branch_congr d (delSide_toList hout) rfl).trans (toList_rotate d .black _ c _ x p near w far)
  | false =>
    rw [fixupDel_blackSibling hx ho] at h
    obtain ⟨out, hout, h⟩ := bind_eq_some_iff.1 h
    have hl := toList_plug_congr up (delSide_toList hout)
    cases out with
    | up y =>
      obtain ⟨h1, h2⟩ := ih h
      exact ⟨h1.trans hl, fun hroot => h2 fun hne => (isred_plug hne _ _).trans (hroot (by simp))⟩
    | done t' =>
      obtain rfl := some.inj h
      exact ⟨(toList_paint _ _).trans hl, fun _ => isred_paint_black _⟩

theorem minimum_toList {r : RbTree α} {fs gs : Parents α} {c : Color} {n : α} (hfs : before fs = [])
    (h : minimum r fs = some (c, n, x, gs)) : (plug r fs).toList = n :: (plug x gs).toList := by
  induction r, fs using minimum.induct with
  | case1 fs => cases h
  | case2 c' a r fs =>
    obtain ⟨-, rfl, rfl, rfl⟩ := h
    rw [toList_plug, toList_plug, hfs]
    simp
  | case3 c' l' a' r' cl a r fs ih => exact ih hfs h

/-- Settling keeps the order, and the root stays black. -/
theorem settle_spec {c : Color} (h : settle c x up = some t) : t.toList = (plug x up).toList ∧
    ((up ≠ [] → isred (plug x up) = false) → (up = [] → c = .black) → isred t = false) := by
  unfold settle at h
  split at h
  · obtain ⟨h1, h2⟩ := fixupDel_spec h
    exact ⟨h1, fun hroot _ => h2 hroot⟩
  next hno =>
  obtain rfl := some.inj h
  refine ⟨rfl, fun hroot hc => ?_⟩
  by_cases hup : up = []
  · cases x with
    | nil =>
      rw [hup]
      rfl
    | node cx l a r => exact absurd rfl (hno cx l a r (hc hup))
  · exact hroot hup

/-- **`rbtree_delete` removes the node from the sequence** and keeps a black root black. -/
theorem rbtreeDelete_spec [DecidableEq α] {n : α} (hn : n ∈ t.toList) (hnodup : t.toList.Nodup)
    (h : rbtreeDelete n t = some t') : t'.toList = t.toList.erase n ∧ (isred t = false → isred t' = false) := by
  obtain ⟨c, l, r, up, hloc, rfl⟩ := locate_spec hn
  have hlist : (plug (node c l n r) up).toList = (before up ++ l.toList) ++ n :: (r.toList ++ after up) := by
    rw [toList_plug]
    simp
  have herase : (plug (node c l n r) up).toList.erase n = before up ++ l.toList ++ (r.toList ++ after up) := by
    rw [hlist] at hnodup ⊢
    have hnot : n ∉ before up ++ l.toList := fun hmem => (List.nodup_append.1 hnodup).2.2 n hmem n
      List.mem_cons_self rfl
    rw [List.erase_append_right _ hnot, List.erase_cons_head]
  -- a root that is deleted is black
  have hc : isred (plug (node c l n r) up) = false → up = [] → c = .black := by
    rintro hroot rfl
    cases c with
    | red => cases hroot
    | black => rfl
  have hroot' : ∀ x, isred (plug (node c l n r) up) = false → up ≠ [] → isred (plug x up) = false := fun x hroot hup =>
    (isred_plug hup _ _).trans hroot
  rw [herase]
  unfold rbtreeDelete at h
  rw [hloc] at h
  cases l with
  | nil =>
    obtain ⟨h1, h2⟩ := settle_spec h
    refine ⟨h1.trans ?_, fun hroot => h2 (hroot' r hroot) (hc hroot)⟩
    rw [toList_plug]
    simp
  | node cl ll la lr =>
    cases r with
    | nil =>
      obtain ⟨h1, h2⟩ := settle_spec h
      refine ⟨h1.trans ?_, fun hroot => h2 (hroot' _ hroot) (hc hroot)⟩
      rw [toList_plug]
      simp
    | node cr rl ra rr =>
      obtain ⟨⟨cy, y, x, fs⟩, hmin, h⟩ := bind_eq_some_iff.1 h
      have hr := minimum_toList rfl hmin
      rw [plug_nil] at hr
      have hbelow : ∀ x', plug x' (fs ++ ⟨.right, c, y, node cl ll la lr⟩ :: up) =
          plug (node c (node cl ll la lr) y (plug x' fs)) up := fun x' => by
        rw [plug_append]
        rfl
      obtain ⟨h1, h2⟩ := settle_spec h
      refine ⟨h1.trans ?_, fun hroot => h2 (fun _ => ?_) fun hno => by simp at hno⟩
      · rw [hbelow, toList_plug, toList_node, hr]
        simp
      rw [hbelow]
      by_cases hup : up = []
      · rw [hup, plug_nil, hc hroot hup]
        rfl
      · exact hroot' _ hroot hup

end TextOS.Mman
