import TextOS.Lib.BinTree

/-!
# Binary trees in memory, with parent links

A node of the tree is an address `a : α` with a cell: the links to its two children and to its parent, and a label.

- at a position of the tree this is a statement about the subtree and one about its parents (`isTree_plug`), and each
  depends on its own nodes only (`Placed.congr`, `PlacedUp.congr`).
-/

namespace TextOS.Lib

open BinTree Option Function

variable {κ α : Type}

/-- A node in memory. -/
structure TreeCell (κ α : Type) where
  left : Option α
  right : Option α
  parent : Option α
  label : κ

namespace TreeCell

def child (x : TreeCell κ α) : Side → Option α
  | .left => x.left
  | .right => x.right

def setChild (d : Side) (p : Option α) (x : TreeCell κ α) : TreeCell κ α :=
  match d with
  | .left => { x with left := p }
  | .right => { x with right := p }

def setParent (p : Option α) (x : TreeCell κ α) : TreeCell κ α := { x with parent := p }

def setLabel (c : κ) (x : TreeCell κ α) : TreeCell κ α := { x with label := c }

/-- The cell with a child on the given side and another one on the other side. -/
def mkSide (d : Side) (p q par : Option α) (c : κ) : TreeCell κ α :=
  match d with
  | .left => ⟨p, q, par, c⟩
  | .right => ⟨q, p, par, c⟩

variable (d : Side) (p q r par par' : Option α) (c c' : κ)

@[simp] theorem child_mkSide : (mkSide d p q par c).child d = p := by
  cases d with
  | left => rfl
  | right => rfl

@[simp] theorem child_flip_mkSide : (mkSide d p q par c).child d.flip = q := by
  cases d with
  | left => rfl
  | right => rfl

@[simp] theorem parent_mkSide : (mkSide d p q par c).parent = par := by
  cases d with
  | left => rfl
  | right => rfl

@[simp] theorem label_mkSide : (mkSide d p q par c).label = c := by
  cases d with
  | left => rfl
  | right => rfl

@[simp] theorem setChild_mkSide : (mkSide d p q par c).setChild d r = mkSide d r q par c := by
  cases d with
  | left => rfl
  | right => rfl

@[simp] theorem setChild_flip_mkSide : (mkSide d p q par c).setChild d.flip r = mkSide d p r par c := by
  cases d with
  | left => rfl
  | right => rfl

@[simp] theorem setParent_mkSide : (mkSide d p q par c).setParent par' = mkSide d p q par' c := by
  cases d with
  | left => rfl
  | right => rfl

end TreeCell

open TreeCell (mkSide)

/-- Nodes in memory and the root of a tree. -/
structure TreeMem (κ α : Type) where
  cell : α → TreeCell κ α
  root : Option α

namespace TreeMem

variable [DecidableEq α] {s : TreeMem κ α} {a b x : α} {f : TreeCell κ α → TreeCell κ α} {p par new : Option α}

/-- Change the cell of a node. -/
def modify (a : α) (f : TreeCell κ α → TreeCell κ α) (s : TreeMem κ α) : TreeMem κ α :=
  { s with cell := update s.cell a (f (s.cell a)) }

/-- Change the cell of a node, if there is one. -/
def modify? (p : Option α) (f : TreeCell κ α → TreeCell κ α) (s : TreeMem κ α) : TreeMem κ α :=
  match p with
  | none => s
  | some a => s.modify a f

/-- Make the parent of `x`, or the root, point to another node. -/
def relink (par : Option α) (x : α) (new : Option α) (s : TreeMem κ α) : TreeMem κ α :=
  match par with
  | none => { s with root := new }
  | some p =>
    if (s.cell p).left = some x then s.modify p (TreeCell.setChild .left new)
    else s.modify p (TreeCell.setChild .right new)

@[simp] theorem modify_root : (s.modify a f).root = s.root := rfl

@[simp] theorem modify?_root : (s.modify? p f).root = s.root := by
  cases p with
  | none => rfl
  | some a => rfl

@[simp] theorem cell_modify_self : (s.modify a f).cell a = f (s.cell a) := Function.update_self _ _ _

theorem cell_modify_of_ne (h : b ≠ a) : (s.modify a f).cell b = s.cell b := Function.update_of_ne h _ _

@[simp] theorem cell_modify?_self : (s.modify? (some a) f).cell a = f (s.cell a) := Function.update_self _ _ _

theorem cell_modify?_of_ne (h : p ≠ some b) : (s.modify? p f).cell b = s.cell b := by
  cases p with
  | none => rfl
  | some a => exact cell_modify_of_ne fun e => h (e ▸ rfl)

theorem modify?_eq_self (h : ∀ a, p = some a → f (s.cell a) = s.cell a) : s.modify? p f = s := by
  cases p with
  | none => rfl
  | some a =>
    have heq : update s.cell a (f (s.cell a)) = s.cell := by rw [h a rfl, update_eq_self]
    exact congrArg (TreeMem.mk · s.root) heq

/-- Relinking writes at most the node above. -/
theorem cell_relink_of_ne (h : par ≠ some b) : (s.relink par x new).cell b = s.cell b := by
  cases par with
  | none => rfl
  | some p =>
    have hbp : b ≠ p := fun e => h (e ▸ rfl)
    unfold relink
    dsimp only
    split
    · exact cell_modify_of_ne hbp
    · exact cell_modify_of_ne hbp

end TreeMem

/-! ## Trees in memory -/

/-- The root of a tree. -/
def rootPtr : BinTree κ α → Option α
  | nil => none
  | node _ _ a _ => some a

@[simp] theorem rootPtr_nil : rootPtr (nil : BinTree κ α) = none := rfl

@[simp] theorem rootPtr_node (c : κ) (l : BinTree κ α) (a : α) (r : BinTree κ α) :
    rootPtr (node c l a r) = some a := rfl

@[simp] theorem rootPtr_branch (d : Side) (c : κ) (t : BinTree κ α) (a : α) (o : BinTree κ α) :
    rootPtr (branch d c t a o) = some a := by
  cases d with
  | left => rfl
  | right => rfl

theorem rootPtr_mem {t : BinTree κ α} {a : α} (h : rootPtr t = some a) : a ∈ t.toList := by
  cases t with
  | nil => cases h
  | node c l b r =>
    obtain rfl := some.inj h
    simp

/-- The tree is in memory, below the given parent. -/
def Placed (m : α → TreeCell κ α) (par : Option α) : BinTree κ α → Prop
  | nil => True
  | node c l a r => m a = ⟨rootPtr l, rootPtr r, par, c⟩ ∧ Placed m (some a) l ∧ Placed m (some a) r

/-- The nearest parent. -/
def above : List (Frame κ α) → Option α
  | [] => none
  | f :: _ => some f.elem

@[simp] theorem above_nil : above ([] : List (Frame κ α)) = none := rfl

@[simp] theorem above_cons (f : Frame κ α) (up : List (Frame κ α)) : above (f :: up) = some f.elem := rfl

/-- The parents are in memory, above a position that holds the given link. -/
def PlacedUp (m : α → TreeCell κ α) (p : Option α) : List (Frame κ α) → Prop
  | [] => True
  | f :: up => m f.elem = mkSide f.side p (rootPtr f.other) (above up) f.label ∧ Placed m (some f.elem) f.other ∧
      PlacedUp m (some f.elem) up

theorem rootPtr_ne {t : BinTree κ α} {b : α} (h : b ∉ t.toList) : rootPtr t ≠ some b := fun e => h (rootPtr_mem e)

/-- The root above a position that holds the given link. -/
def rootAt (p : Option α) : List (Frame κ α) → Option α
  | [] => p
  | f :: up => rootAt (some f.elem) up

/-- The elements of the parents and of their other children. -/
def around : List (Frame κ α) → List α
  | [] => []
  | f :: up => f.elem :: (f.other.toList ++ around up)

theorem above_ne {up : List (Frame κ α)} {b : α} (h : b ∉ around up) : above up ≠ some b := by
  cases up with
  | nil => simp
  | cons f up =>
    intro e
    exact h (by simp [around, ← some.inj e])

/-- **The links from the root form the tree, with links back to the parents.** -/
structure IsTree (s : TreeMem κ α) (t : BinTree κ α) : Prop where
  root : s.root = rootPtr t
  placed : Placed s.cell none t
  nodup : t.toList.Nodup

section

variable {m m' : α → TreeCell κ α} {s : TreeMem κ α} {par par' p : Option α} {t l r o : BinTree κ α} {c : κ} {a b : α}
  {d : Side} {up : List (Frame κ α)}

theorem placed_branch : Placed m par (branch d c t a o) ↔
    m a = mkSide d (rootPtr t) (rootPtr o) par c ∧ Placed m (some a) t ∧ Placed m (some a) o := by
  cases d with
  | left => rfl
  | right => exact and_congr_right fun _ => and_comm

/-- Two trees with the same root and the same links are the same. -/
theorem Placed.unique {t' : BinTree κ α} (h : Placed m par t) (h' : Placed m par' t')
    (hroot : rootPtr t = rootPtr t') : t = t' := by
  induction t generalizing par par' t' with
  | nil =>
    cases t' with
    | nil => rfl
    | node => cases hroot
  | node c l a r ihl ihr =>
    cases t' with
    | nil => cases hroot
    | node c' l' a' r' =>
      obtain rfl := Option.some.inj hroot
      obtain ⟨ha, hl, hr⟩ := h
      obtain ⟨ha', hl', hr'⟩ := h'
      obtain ⟨hleft, hright, -, rfl⟩ := TreeCell.mk.inj (ha.symm.trans ha')
      rw [ihl hl hl' hleft, ihr hr hr' hright]

theorem IsTree.unique {t' : BinTree κ α} (h : IsTree s t) (h' : IsTree s t') : t = t' :=
  h.placed.unique h'.placed (h.root.symm.trans h'.root)

/-- Only the cells of the subtree's own nodes matter. -/
theorem Placed.congr (h : Placed m par t) (hm : ∀ b ∈ t.toList, m' b = m b) : Placed m' par t := by
  induction t generalizing par with
  | nil => trivial
  | node c l a r ihl ihr =>
    obtain ⟨ha, hl, hr⟩ := h
    refine ⟨(hm a (by simp)).trans ha, ihl hl fun b hb => hm b (by simp [hb]), ihr hr fun b hb => hm b (by simp [hb])⟩

/-- A subtree is moved below another node by its root's parent link alone. -/
theorem Placed.reparent (h : Placed m par t) (hnodup : t.toList.Nodup)
    (hroot : ∀ a, rootPtr t = some a → m' a = (m a).setParent par')
    (hm : ∀ b ∈ t.toList, rootPtr t ≠ some b → m' b = m b) : Placed m' par' t := by
  cases t with
  | nil => trivial
  | node c l a r =>
    obtain ⟨ha, hl, hr⟩ := h
    rw [toList_node, List.nodup_append, List.nodup_cons] at hnodup
    obtain ⟨-, ⟨har, -⟩, hdis⟩ := hnodup
    refine ⟨by rw [hroot a rfl, ha]; rfl, ?_, ?_⟩
    · refine hl.congr fun b hb => hm b (by simp [hb]) fun e => ?_
      exact hdis b hb b (by simp [some.inj e]) rfl
    · refine hr.congr fun b hb => hm b (by simp [hb]) fun e => ?_
      exact har (some.inj e ▸ hb)

theorem PlacedUp.congr (h : PlacedUp m p up) (hm : ∀ b ∈ around up, m' b = m b) : PlacedUp m' p up := by
  induction up generalizing p with
  | nil => trivial
  | cons f up ih =>
    obtain ⟨ha, ho, hup⟩ := h
    refine ⟨(hm _ (by simp [around])).trans ha, ho.congr fun b hb => hm b (by simp [around, hb]), ?_⟩
    exact ih hup fun b hb => hm b (by simp [around, hb])

/-- A whole tree is linked right exactly if the subtree and its surroundings are. -/
theorem placed_plug : Placed m none (plug t up) ↔ Placed m (above up) t ∧ PlacedUp m (rootPtr t) up := by
  induction up generalizing t with
  | nil => simp [PlacedUp]
  | cons f up ih =>
    have hroot : rootPtr (f.plug t) = some f.elem := rootPtr_branch f.side f.label t f.elem f.other
    have hplaced : Placed m (above up) (f.plug t) ↔ m f.elem = mkSide f.side (rootPtr t) (rootPtr f.other)
      (above up) f.label ∧
        Placed m (some f.elem) t ∧ Placed m (some f.elem) f.other := placed_branch
    rw [plug_cons, ih, hroot, PlacedUp, above_cons, hplaced]
    tauto

theorem rootPtr_plug : rootPtr (plug t up) = rootAt (rootPtr t) up := by
  induction up generalizing t with
  | nil => rfl
  | cons f up ih =>
    have hroot : rootPtr (f.plug t) = some f.elem := rootPtr_branch f.side f.label t f.elem f.other
    rw [plug_cons, ih, hroot, rootAt]

theorem perm_branch : (branch d c t a o).toList.Perm (a :: (t.toList ++ o.toList)) := by
  cases d with
  | left => exact List.perm_middle
  | right => exact List.perm_middle.trans (.cons a List.perm_append_comm)

/-- The nodes of a plugged tree: the subtree's and the surroundings'. -/
theorem perm_plug : (plug t up).toList.Perm (t.toList ++ around up) := by
  induction up generalizing t with
  | nil => simp [around]
  | cons f up ih =>
    have hperm : (f.plug t).toList.Perm (f.elem :: (t.toList ++ f.other.toList)) := perm_branch
    refine ih.trans ((hperm.append_right _).trans ?_)
    rw [around, List.cons_append, List.append_assoc]
    exact List.perm_middle.symm

theorem length_le_around (up : List (Frame κ α)) : up.length ≤ (around up).length := by
  induction up with
  | nil => exact le_rfl
  | cons f up ih =>
    simp only [around, List.length_cons, List.length_append]
    omega

/-- **A tree in memory, at a position.** -/
theorem isTree_plug : IsTree s (plug t up) ↔ s.root = rootAt (rootPtr t) up ∧ Placed s.cell (above up) t ∧
    PlacedUp s.cell (rootPtr t) up ∧ (t.toList ++ around up).Nodup := by
  constructor
  · rintro ⟨hroot, hplaced, hnodup⟩
    obtain ⟨ht, hup⟩ := placed_plug.1 hplaced
    exact ⟨hroot.trans rootPtr_plug, ht, hup, perm_plug.nodup_iff.1 hnodup⟩
  · rintro ⟨hroot, ht, hup, hnodup⟩
    exact ⟨hroot.trans rootPtr_plug.symm, placed_plug.2 ⟨ht, hup⟩, perm_plug.nodup_iff.2 hnodup⟩

/-! ## Reading at a position -/

/-- The parent link of a subtree's root leads to the frame above it. -/
theorem cell_parent (up : List (Frame κ α)) (h : IsTree s (plug t up)) (hz : rootPtr t = some a) :
    (s.cell a).parent = above up := by
  obtain ⟨-, ht, -, -⟩ := isTree_plug.1 h
  cases t with
  | nil => cases hz
  | node c l b r =>
    obtain rfl := some.inj hz
    rw [ht.1]

theorem cell_frame (h : IsTree s (plug t (⟨d, c, a, o⟩ :: up))) :
    s.cell a = mkSide d (rootPtr t) (rootPtr o) (above up) c := (isTree_plug.1 h).2.2.1.1

theorem cell_branch (up : List (Frame κ α)) (h : IsTree s (plug (branch d c t a o) up)) :
    s.cell a = mkSide d (rootPtr t) (rootPtr o) (above up) c := (placed_branch.1 (isTree_plug.1 h).2.1).1

theorem rootAt_mem (p : Option α) (f : Frame κ α) (up : List (Frame κ α)) :
    ∃ r ∈ around (f :: up), rootAt p (f :: up) = some r := by
  induction up generalizing p f with
  | nil => exact ⟨f.elem, by simp [around], rfl⟩
  | cons f' up ih =>
    obtain ⟨r, hr, he⟩ := ih (some f.elem) f'
    refine ⟨r, ?_, he⟩
    rw [around, List.mem_cons, List.mem_append]
    exact .inr (.inr hr)

theorem root_ne {f : Frame κ α} (h : IsTree s (plug t (f :: up))) (ha : rootPtr t = some a) : s.root ≠ some a := by
  obtain ⟨hroot, -, -, hnodup⟩ := isTree_plug.1 h
  obtain ⟨r, hr, he⟩ := rootAt_mem (rootPtr t) f up
  rw [hroot, he]
  intro e
  exact (List.nodup_append.1 hnodup).2.2 a (rootPtr_mem ha) r hr (some.inj e).symm

/-- The left link of the node above tells on which side the subtree hangs. -/
theorem left_eq_iff (h : IsTree s (plug t (⟨d, c, b, o⟩ :: up))) (ha : rootPtr t = some a) :
    (s.cell b).left = some a ↔ d = .left := by
  rw [cell_frame h, ha]
  cases d with
  | left => exact ⟨fun _ => rfl, fun _ => rfl⟩
  | right =>
    refine ⟨fun e => ?_, nofun⟩
    have e : rootPtr o = some a := e
    obtain ⟨-, -, -, hnodup⟩ := isTree_plug.1 h
    exact absurd rfl ((List.nodup_append.1 hnodup).2.2 a (rootPtr_mem ha) a (by simp [around, rootPtr_mem e]))

/-- **The parent of a node, or the root, points to another one.** -/
theorem PlacedUp.relink [DecidableEq α] {x : α} (h : PlacedUp s.cell (some x) up) (hroot : s.root = rootAt (some x) up)
    (hx : x ∉ around up) (hnodup : (around up).Nodup) (new : Option α) :
    PlacedUp (s.relink (above up) x new).cell new up ∧ (s.relink (above up) x new).root = rootAt new up := by
  cases up with
  | nil => exact ⟨trivial, rfl⟩
  | cons f up =>
    obtain ⟨ha, ho, hup⟩ := h
    rw [around, List.nodup_cons, List.mem_append, not_or] at hnodup
    obtain ⟨⟨hfo, hfu⟩, -⟩ := hnodup
    -- the test `x == p->left` finds the side of the position
    have hself : (s.relink (some f.elem) x new).cell f.elem = (s.cell f.elem).setChild f.side new ∧
        (s.relink (some f.elem) x new).root = s.root := by
      unfold TreeMem.relink
      dsimp only
      cases hside : f.side with
      | left =>
        rw [if_pos (by rw [ha, hside]; rfl)]
        exact ⟨TreeMem.cell_modify_self, rfl⟩
      | right =>
        rw [if_neg]
        · exact ⟨TreeMem.cell_modify_self, rfl⟩
        rw [ha, hside]
        intro e
        exact hx (by simp [around, rootPtr_mem e])
    have hother : ∀ b, b ≠ f.elem → (s.relink (some f.elem) x new).cell b = s.cell b := fun b hb =>
      TreeMem.cell_relink_of_ne fun e => hb (some.inj e).symm
    rw [above_cons]
    refine ⟨⟨?_, ho.congr fun b hb => hother b fun e => hfo (e ▸ hb),
      hup.congr fun b hb => hother b fun e => hfu (e ▸ hb)⟩, hself.2.trans hroot⟩
    rw [hself.1, ha, TreeCell.setChild_mkSide]

/-- Links of a subtree's nodes stay inside it, but for its root's parent link. -/
theorem Placed.link_mem (h : Placed m par t) (ha : a ∈ t.toList) :
    (∀ b, (m a).left = some b → b ∈ t.toList) ∧ (∀ b, (m a).right = some b → b ∈ t.toList) ∧
      ∀ b, (m a).parent = some b → b ∈ t.toList ∨ par = some b := by
  induction t generalizing par with
  | nil => cases ha
  | node c l x r ihl ihr =>
    obtain ⟨hx, hl, hr⟩ := h
    rw [toList_node, List.mem_append, List.mem_cons] at ha
    rcases ha with ha | rfl | ha
    · obtain ⟨h1, h2, h3⟩ := ihl hl ha
      refine ⟨fun b hb => by simp [h1 b hb], fun b hb => by simp [h2 b hb], fun b hb => ?_⟩
      rcases h3 b hb with hb | hb
      · simp [hb]
      · simp [some.inj hb]
    · rw [hx]
      refine ⟨fun b hb => by simp [rootPtr_mem hb], fun b hb => by simp [rootPtr_mem hb], fun b hb => .inr hb⟩
    obtain ⟨h1, h2, h3⟩ := ihr hr ha
    refine ⟨fun b hb => by simp [h1 b hb], fun b hb => by simp [h2 b hb], fun b hb => ?_⟩
    rcases h3 b hb with hb | hb
    · simp [hb]
    · simp [some.inj hb]

end

end TextOS.Lib
