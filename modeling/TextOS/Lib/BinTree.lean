import Mathlib

/-!
# Binary trees with labelled nodes, and positions in them

A position in a tree is a subtree and the list of its parents, the nearest first; `plug` gives the whole tree back. This
is how a program that follows parent pointers sees the tree.

- the root of the whole tree does not depend on a proper subtree (`label_plug`).
-/

namespace TextOS.Lib

/-- A binary tree whose nodes have a label and an element. -/
inductive BinTree (κ α : Type) where
  | nil
  | node (label : κ) (left : BinTree κ α) (elem : α) (right : BinTree κ α)
deriving DecidableEq

inductive Side where
  | left
  | right
deriving DecidableEq

/-- The other side. -/
def Side.flip : Side → Side
  | .left => .right
  | .right => .left

/-- A parent: the side its child is on, its label, its element and its other child. -/
structure Frame (κ α : Type) where
  side : Side
  label : κ
  elem : α
  other : BinTree κ α

variable {κ α : Type}

namespace BinTree

/-- The in-order sequence. -/
def toList : BinTree κ α → List α
  | nil => []
  | node _ l a r => l.toList ++ a :: r.toList

@[simp] theorem toList_nil : (nil : BinTree κ α).toList = [] := rfl

@[simp] theorem toList_node (c : κ) (l : BinTree κ α) (a : α) (r : BinTree κ α) :
    (node c l a r).toList = l.toList ++ a :: r.toList := rfl

/-- The label of the root. -/
def label? : BinTree κ α → Option κ
  | nil => none
  | node c _ _ _ => some c

end BinTree

open BinTree

/-- The parent with its child. -/
def Frame.plug (f : Frame κ α) (t : BinTree κ α) : BinTree κ α :=
  match f.side with
  | .left => node f.label t f.elem f.other
  | .right => node f.label f.other f.elem t

/-- The node with a child on the given side and the other child. -/
def branch (d : Side) (c : κ) (t : BinTree κ α) (a : α) (o : BinTree κ α) : BinTree κ α := (Frame.mk d c a o).plug t

@[simp] theorem branch_flip (d : Side) (c : κ) (t : BinTree κ α) (a : α) (o : BinTree κ α) :
    branch d.flip c t a o = branch d c o a t := by
  cases d with
  | left => rfl
  | right => rfl

/-- The whole tree. -/
def plug : BinTree κ α → List (Frame κ α) → BinTree κ α
  | t, [] => t
  | t, f :: fs => plug (f.plug t) fs

/-- What comes before a position. -/
def before : List (Frame κ α) → List α
  | [] => []
  | f :: fs =>
    match f.side with
    | .left => before fs
    | .right => before fs ++ (f.other.toList ++ [f.elem])

/-- What comes after a position. -/
def after : List (Frame κ α) → List α
  | [] => []
  | f :: fs =>
    match f.side with
    | .left => f.elem :: (f.other.toList ++ after fs)
    | .right => after fs

@[simp] theorem plug_nil (t : BinTree κ α) : plug t [] = t := rfl

@[simp] theorem plug_cons (t : BinTree κ α) (f : Frame κ α) (fs : List (Frame κ α)) :
    plug t (f :: fs) = plug (f.plug t) fs := rfl

theorem plug_other (d : Side) (c : κ) (t : BinTree κ α) (a : α) (o : BinTree κ α) (fs : List (Frame κ α)) :
    plug (branch d c t a o) fs = plug o (⟨d.flip, c, a, t⟩ :: fs) :=
  congrArg (plug · fs) (branch_flip d c o a t).symm

/-- **The in-order sequence at a position.** -/
theorem toList_plug (t : BinTree κ α) (fs : List (Frame κ α)) :
    (plug t fs).toList = before fs ++ t.toList ++ after fs := by
  induction fs generalizing t with
  | nil => simp [before, after]
  | cons f fs ih =>
    rw [plug_cons, ih, Frame.plug, before, after]
    cases f.side with
    | left => simp
    | right => simp

theorem toList_plug_congr {t t' : BinTree κ α} (fs : List (Frame κ α)) (h : t.toList = t'.toList) :
    (plug t fs).toList = (plug t' fs).toList := by
  rw [toList_plug, toList_plug, h]

theorem plug_append (t : BinTree κ α) (fs gs : List (Frame κ α)) : plug t (fs ++ gs) = plug (plug t fs) gs := by
  induction fs generalizing t with
  | nil => rfl
  | cons f fs ih => exact ih _

theorem Frame.label_plug (f : Frame κ α) (t : BinTree κ α) : (f.plug t).label? = some f.label := by
  unfold Frame.plug
  cases f.side with
  | left => rfl
  | right => rfl

theorem label_plug_congr {t t' : BinTree κ α} (h : t.label? = t'.label?) (fs : List (Frame κ α)) :
    (plug t fs).label? = (plug t' fs).label? := by
  induction fs generalizing t t' with
  | nil => exact h
  | cons f fs ih => exact ih ((f.label_plug t).trans (f.label_plug t').symm)

theorem label_plug {fs : List (Frame κ α)} (h : fs ≠ []) (t t' : BinTree κ α) :
    (plug t fs).label? = (plug t' fs).label? := by
  cases fs with
  | nil => exact absurd rfl h
  | cons f fs => exact label_plug_congr ((f.label_plug t).trans (f.label_plug t').symm) fs

/-- The position of an element, in a subtree with the given parents. -/
def locate [DecidableEq α] (z : α) : BinTree κ α → List (Frame κ α) → Option (BinTree κ α × List (Frame κ α))
  | nil, _ => none
  | node c l a r, fs =>
    if a = z then some (node c l a r, fs)
    else match locate z l (⟨.left, c, a, r⟩ :: fs) with
      | some p => some p
      | none => locate z r (⟨.right, c, a, l⟩ :: fs)

/-- What is located is the node, at its place. -/
theorem locate_eq_some [DecidableEq α] {z : α} {t u : BinTree κ α} {fs gs : List (Frame κ α)}
    (h : locate z t fs = some (u, gs)) : (∃ c l r, u = node c l z r) ∧ plug u gs = plug t fs := by
  induction t generalizing fs with
  | nil => cases h
  | node c l a r ihl ihr =>
    rw [locate] at h
    split at h
    · next ha =>
      obtain ⟨rfl, rfl⟩ := Prod.mk.inj (Option.some.inj h)
      exact ⟨⟨c, l, r, by rw [ha]⟩, rfl⟩
    split at h
    · next hl =>
      obtain rfl := Option.some.inj h
      exact ihl hl
    · exact ihr h

/-- A member is located. -/
theorem locate_ne_none [DecidableEq α] {z : α} {t : BinTree κ α} (hz : z ∈ t.toList) (fs : List (Frame κ α)) :
    locate z t fs ≠ none := by
  induction t generalizing fs with
  | nil => cases hz
  | node c l a r ihl ihr =>
    rw [locate]
    split
    · simp
    next ha =>
    split
    · simp
    next hl =>
    have hzr : z ∈ r.toList := by
      rw [toList_node, List.mem_append, List.mem_cons] at hz
      rcases hz with hz | hz | hz
      · exact absurd hl (ihl hz _)
      · exact absurd hz.symm ha
      · exact hz
    exact ihr hzr _

/-- **Every element has a position.** -/
theorem locate_spec [DecidableEq α] {z : α} {t : BinTree κ α} (hz : z ∈ t.toList) :
    ∃ c l r fs, locate z t [] = some (node c l z r, fs) ∧ plug (node c l z r) fs = t := by
  obtain ⟨⟨u, fs⟩, h⟩ := Option.ne_none_iff_exists'.1 (locate_ne_none hz [])
  obtain ⟨⟨c, l, r, rfl⟩, hp⟩ := locate_eq_some h
  exact ⟨c, l, r, fs, h, hp⟩

end TextOS.Lib
