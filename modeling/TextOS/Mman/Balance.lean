import TextOS.Mman.RbTree

/-!
# Balance of the red-black tree: `kernel/klib/rbtree.c`

- **`rbtree_fixup` makes the tree valid again after an insertion** (`rbtreeFixup_balanced`);
- **`rbtree_delete` leaves a valid tree if and only if no path loses a black node** (`rbtreeDelete_balanced`).
-/

namespace TextOS.Mman

open Lib BinTree Option

variable {α : Type} {t t' l r z x : RbTree α} {a : α} {c c' : Color} {d : Side} {up : Parents α} {n m : Nat}

/-! ## Valid trees -/

/-- No red node has a red child. -/
def NoRedRed : RbTree α → Prop
  | nil => True
  | node c l _ r => (c = .red → isred l = false ∧ isred r = false) ∧ NoRedRed l ∧ NoRedRed r

/-- The number of black nodes on each path from the root to an empty place. -/
def blackHeights : RbTree α → List Nat
  | nil => [0]
  | node c l _ r => (blackHeights l ++ blackHeights r).map (· + if c = .black then 1 else 0)

/-- A valid red-black tree. -/
structure Valid (t : RbTree α) : Prop where
  root : isred t = false
  reds : NoRedRed t
  heights : ∀ n ∈ blackHeights t, ∀ m ∈ blackHeights t, n = m

/-- A tree with a root of the given colour, where every path has the given number of black nodes. -/
inductive Balanced : RbTree α → Color → Nat → Prop
  | nil : Balanced nil .black 0
  | red {l r : RbTree α} {n : Nat} (a : α) (hl : Balanced l .black n) (hr : Balanced r .black n) :
      Balanced (node .red l a r) .red n
  | black {l r : RbTree α} {c c' : Color} {n : Nat} (a : α) (hl : Balanced l c n) (hr : Balanced r c' n) :
      Balanced (node .black l a r) .black (n + 1)

theorem Balanced.isred (h : Balanced t c n) : isred t = (c == .red) := by
  cases h with
  | nil => rfl
  | red a hl hr => rfl
  | black a hl hr => rfl

theorem Balanced.noRedRed (h : Balanced t c n) : NoRedRed t := by
  induction h with
  | nil => trivial
  | red a hl hr ihl ihr => exact ⟨fun _ => ⟨hl.isred, hr.isred⟩, ihl, ihr⟩
  | black a hl hr ihl ihr => exact ⟨nofun, ihl, ihr⟩

/-- In a balanced tree all paths have the same number of black nodes. -/
theorem Balanced.heights (h : Balanced t c n) : ∀ k ∈ blackHeights t, k = n := by
  induction h with
  | nil => simp [blackHeights]
  | red a hl hr ihl ihr =>
    intro k hk
    simp only [blackHeights, List.mem_map, List.mem_append] at hk
    obtain ⟨j, hj | hj, rfl⟩ := hk
    · simp [ihl j hj]
    · simp [ihr j hj]
  | black a hl hr ihl ihr =>
    intro k hk
    simp only [blackHeights, List.mem_map, List.mem_append] at hk
    obtain ⟨j, hj | hj, rfl⟩ := hk
    · simp [ihl j hj]
    · simp [ihr j hj]

theorem blackHeights_ne_nil (t : RbTree α) : blackHeights t ≠ [] := by
  induction t with
  | nil => simp [blackHeights]
  | node c l a r ihl ihr => simp [blackHeights, ihl]

/-- Equal black heights and no red child of a red node: the tree is balanced. -/
theorem balanced_of_heights (hred : NoRedRed t) (h : ∀ k ∈ blackHeights t, k = n) :
    Balanced t (if Mman.isred t then .red else .black) n := by
  induction t generalizing n with
  | nil =>
    obtain rfl := h 0 (by simp [blackHeights])
    exact .nil
  | node c l a r ihl ihr =>
    obtain ⟨hc, hl, hr⟩ := hred
    have hlr : ∀ k, k ∈ blackHeights l ∨ k ∈ blackHeights r → (k + if c = .black then 1 else 0) = n := by
      intro k hk
      refine h _ ?_
      simp only [blackHeights, List.mem_map, List.mem_append]
      exact ⟨k, hk, rfl⟩
    cases c with
    | red =>
      obtain ⟨hcl, hcr⟩ := hc rfl
      have hbl := ihl hl fun k hk => hlr k (.inl hk)
      have hbr := ihr hr fun k hk => hlr k (.inr hk)
      rw [hcl] at hbl
      rw [hcr] at hbr
      exact .red a hbl hbr
    | black =>
      obtain ⟨k, hk⟩ := List.exists_mem_of_ne_nil _ (blackHeights_ne_nil l)
      obtain ⟨n, rfl⟩ : ∃ j, n = j + 1 := ⟨k, (hlr k (.inl hk)).symm⟩
      exact .black a (ihl hl fun k hk => Nat.succ.inj (hlr k (.inl hk)))
        (ihr hr fun k hk => Nat.succ.inj (hlr k (.inr hk)))

/-- **A valid tree is one with a black root that is balanced.** -/
theorem valid_iff : Valid t ↔ ∃ n, Balanced t .black n := by
  constructor
  · rintro ⟨hroot, hred, heq⟩
    obtain ⟨k, hk⟩ := List.exists_mem_of_ne_nil _ (blackHeights_ne_nil t)
    have h := balanced_of_heights hred fun j hj => heq j hj k hk
    rw [hroot] at h
    exact ⟨k, h⟩
  rintro ⟨n, h⟩
  refine ⟨h.isred, h.noRedRed, fun j hj k hk => ?_⟩
  rw [h.heights j hj, h.heights k hk]

/-! ## Room for a tree -/

/-- The parents leave room for a balanced tree. -/
inductive Hole : Parents α → Color → Nat → Prop
  | root (c : Color) (n : Nat) : Hole [] c n
  | red {o : RbTree α} {n : Nat} {up : Parents α} (d : Side) (a : α) (ho : Balanced o .black n) (hup : Hole up .red n) :
      Hole (⟨d, .red, a, o⟩ :: up) .black n
  | black {o : RbTree α} {c' : Color} {n : Nat} {up : Parents α} (d : Side) (c : Color) (a : α) (ho : Balanced o c' n)
      (hup : Hole up .black (n + 1)) : Hole (⟨d, .black, a, o⟩ :: up) c n

theorem Balanced.branch_red (d : Side) (a : α) (hl : Balanced l .black n) (hr : Balanced r .black n) :
    Balanced (branch d .red l a r) .red n := by
  cases d with
  | left => exact .red a hl hr
  | right => exact .red a hr hl

theorem Balanced.branch_black (d : Side) (a : α) (hl : Balanced l c n) (hr : Balanced r c' n) :
    Balanced (branch d .black l a r) .black (n + 1) := by
  cases d with
  | left => exact .black a hl hr
  | right => exact .black a hr hl

/-- **Filling the room gives a balanced tree.** -/
theorem Hole.fill (h : Hole up c n) (ht : Balanced t c n) : ∃ c n, Balanced (plug t up) c n := by
  induction h generalizing t with
  | root c n => exact ⟨c, n, ht⟩
  | red d a ho hup ih => exact ih (ht.branch_red d a ho)
  | black d c a ho hup ih => exact ih (ht.branch_black d a ho)

/-- A subtree of a balanced tree, and the hole it leaves. -/
theorem hole_of_balanced (h : Balanced (plug t up) c' m) : ∃ c n, Balanced t c n ∧ Hole up c n := by
  induction up generalizing t with
  | nil => exact ⟨c', m, h, .root c' m⟩
  | cons f up ih =>
    obtain ⟨d, cf, a, o⟩ := f
    obtain ⟨c, n, hb, hup⟩ := ih h
    have hb : Balanced (branch d cf t a o) c n := hb
    cases d with
    | left =>
      cases hb with
      | red a ht ho => exact ⟨.black, n, ht, .red .left a ho hup⟩
      | @black _ _ c1 c2 k a ht ho => exact ⟨c1, k, ht, .black .left c1 a ho hup⟩
    | right =>
      cases hb with
      | red a ho ht => exact ⟨.black, n, ht, .red .right a ho hup⟩
      | @black _ _ c1 c2 k a ho ht => exact ⟨c2, k, ht, .black .right c2 a ho hup⟩

theorem Balanced.paint_red (h : Balanced t .red n) : Balanced (paint .black t) .black (n + 1) := by
  cases h with
  | red a hl hr => exact .black a hl hr

theorem Balanced.valid_paint (h : Balanced t c n) : Valid (paint .black t) := by
  cases h with
  | nil => exact valid_iff.2 ⟨0, .nil⟩
  | red a hl hr => exact valid_iff.2 ⟨_, .black a hl hr⟩
  | black a hl hr => exact valid_iff.2 ⟨_, .black a hl hr⟩

/-! ## Insertion -/

theorem Balanced.of_red (d : Side) (h : Balanced t .red n) :
    ∃ l a r, t = branch d .red l a r ∧ Balanced l .black n ∧ Balanced r .black n := by
  cases h with
  | @red l r _ a hl hr =>
    cases d with
    | left => exact ⟨l, a, r, rfl, hl, hr⟩
    | right => exact ⟨r, a, l, rfl, hr, hl⟩

/-- **The loop of `fixup` ends with a balanced tree**: the only defect it starts with is a red node that may have a red
parent. -/
theorem fixup_balanced : ∀ (up : Parents α) {z : RbTree α} {n : Nat}, Balanced z .red n → Hole up .black n →
    fixup z up = some t → ∃ c m, Balanced t c m
  | [], z, n, hz, _, h => by
    obtain rfl := some.inj h
    exact ⟨_, _, hz⟩
  | ⟨d, .black, p, po⟩ :: up, z, n, hz, hup, h => by
    rw [fixup_black] at h
    obtain rfl := some.inj h
    cases hup with
    | black d c a ho hup => exact (Hole.black d .red p ho hup).fill hz
  | [⟨d', .red, p, po⟩], z, n, hz, hup, h => by cases h
  | ⟨d', .red, p, po⟩ :: ⟨d, cg, g, go⟩ :: up, z, n, hz, hup, h => by
    cases hup with
    | red _ _ hpo hup =>
    cases hup with
    | @black _ c' _ _ _ _ _ hgo hup =>
    cases c' with
    | red =>
      -- the uncle is red: the defect moves up to `g`
      rw [fixup_uncle hgo.isred] at h
      exact fixup_balanced up ((hz.branch_black d' p hpo).branch_red d g hgo.paint_red) hup h
    | black =>
      rcases side_cases d d' with rfl | rfl
      · rw [fixup_outer hgo.isred] at h
        obtain rfl := some.inj h
        exact hup.fill (hz.branch_black d' p (hpo.branch_red d' g hgo))
      obtain ⟨zl, za, zr, rfl, hzl, hzr⟩ := hz.of_red d
      rw [fixup_inner hgo.isred] at h
      obtain rfl := some.inj h
      exact hup.fill ((hpo.branch_red d p hzl).branch_black d za (hzr.branch_red d g hgo))

/-- **After an insertion into a valid tree `rbtree_fixup` makes it valid again.** -/
theorem rbtreeFixup_balanced (a : α) (h : Valid (plug nil up)) :
    ∃ t, rbtreeFixup (rbtreeLink a) up = some t ∧ t.toList = before up ++ a :: after up ∧ Valid t := by
  obtain ⟨k, hb⟩ := valid_iff.1 h
  obtain ⟨c, n, hnil, hup⟩ := hole_of_balanced hb
  cases hnil with
  | nil =>
    obtain ⟨t, ht, hlist, -⟩ := rbtreeFixup_spec a up h.root
    obtain ⟨t', ht', rfl⟩ := map_eq_some_iff.1 ht
    obtain ⟨c', m, hbal⟩ := fixup_balanced up (.red a .nil .nil) hup ht'
    exact ⟨_, ht, hlist, hbal.valid_paint⟩

/-! ## The node that is taken out -/

/-- What `rbtree_delete` takes out of its place: the colour of the node, its child and the parents, with `z` already
replaced. -/
def takenOut [DecidableEq α] (z : α) (t : RbTree α) : Option (Color × RbTree α × Parents α) :=
  match locate z t [] with
  | some (node cz nil _ r, up) => some (cz, r, up)
  | some (node cz l _ nil, up) => some (cz, l, up)
  | some (node cz l _ r, up) => (minimum r []).map fun (cy, y, x, fs) => (cy, x, fs ++ ⟨.right, cz, y, l⟩ :: up)
  | _ => none

/-- Deletion: the node is taken out, then the tree is settled. -/
theorem rbtreeDelete_eq [DecidableEq α] (z : α) (t : RbTree α) :
    rbtreeDelete z t = (takenOut z t).bind fun y => settle y.1 y.2.1 y.2.2 := by
  unfold rbtreeDelete takenOut
  rcases locate z t [] with _ | ⟨_ | ⟨cz, l, a, r⟩, up⟩
  · rfl
  · rfl
  cases l with
  | nil => rfl
  | node cl ll la lr =>
    cases r with
    | nil => rfl
    | node cr rl ra rr =>
      rw [bind_map]
      rfl

theorem minimum_spec : ∀ (r : RbTree α) (fs : Parents α), r ≠ nil → (∀ f ∈ fs, f.side = .left) →
    ∃ c y x gs, minimum r fs = some (c, y, x, gs) ∧ plug (node c nil y x) gs = plug r fs ∧ ∀ f ∈ gs, f.side = .left
  | nil, _, h, _ => absurd rfl h
  | node c nil a r, fs, _, hfs => ⟨c, a, r, fs, rfl, rfl, hfs⟩
  | node c (node c' l' a' r') a r, fs, _, hfs => by
    refine minimum_spec (node c' l' a' r') (⟨.left, c, a, r⟩ :: fs) (by simp) ?_
    intro f hf
    rcases List.mem_cons.1 hf with rfl | hf
    · rfl
    · exact hfs f hf

theorem Hole.replace {fs : Parents α} {y : α} (h : Hole (fs ++ ⟨d, c', a, o⟩ :: up) c n) :
    Hole (fs ++ ⟨d, c', y, o⟩ :: up) c n := by
  induction fs generalizing c n with
  | nil =>
    cases h with
    | red d a ho hup => exact .red d y ho hup
    | black d c a ho hup => exact .black d c y ho hup
  | cons f fs ih =>
    cases h with
    | red d a ho hup => exact .red d a ho (ih hup)
    | black d c a ho hup => exact .black d c a ho (ih hup)

theorem Balanced.color_eq (h : Balanced (branch d c l a r) c' n) : c' = c := by
  cases d with
  | left =>
    cases h with
    | red a hl hr => rfl
    | black a hl hr => rfl
  | right =>
    cases h with
    | red a hl hr => rfl
    | black a hl hr => rfl

/-- In a balanced tree the node that is taken out is balanced, and its parents leave room for it. -/
theorem takenOut_balanced [DecidableEq α] {s : α} (hz : s ∈ t.toList) (h : Balanced t c' m) :
    ∃ c x up d y n, takenOut s t = some (c, x, up) ∧ Balanced (branch d c nil y x) c n ∧ Hole up c n := by
  obtain ⟨c, l, r, up, hloc, rfl⟩ := locate_spec hz
  have hplace : ∀ {x : RbTree α} {gs : Parents α} {d : Side} {y : α} {cy : Color},
      plug (branch d cy nil y x) gs = plug (node c l s r) up → ∃ n, Balanced (branch d cy nil y x) cy n ∧
      Hole gs cy n := by
    intro x gs d y cy he
    rw [← he] at h
    obtain ⟨c1, n, hb, hup⟩ := hole_of_balanced h
    obtain rfl := hb.color_eq
    exact ⟨n, hb, hup⟩
  unfold takenOut
  rw [hloc]
  cases l with
  | nil =>
    obtain ⟨n, hb, hup⟩ := hplace (x := r) (d := .left) rfl
    exact ⟨c, r, up, .left, s, n, rfl, hb, hup⟩
  | node cl ll la lr =>
    cases r with
    | nil =>
      obtain ⟨n, hb, hup⟩ := hplace (x := node cl ll la lr) (d := .right) rfl
      exact ⟨c, _, up, .right, s, n, rfl, hb, hup⟩
    | node cr rl ra rr =>
      obtain ⟨cy, y, x, fs, hmin, hplug, -⟩ := minimum_spec (node cr rl ra rr) [] (by simp) (by simp)
      have he : plug (branch .left cy nil y x) (fs ++ ⟨.right, c, s, node cl ll la lr⟩ :: up) =
          plug (node c (node cl ll la lr) s (node cr rl ra rr)) up := by
        rw [plug_append, show branch .left cy nil y x = node cy nil y x from rfl, hplug]
        rfl
      obtain ⟨n, hb, hup⟩ := hplace he
      refine ⟨cy, x, fs ++ ⟨.right, c, y, node cl ll la lr⟩ :: up, .left, y, n, ?_, hb, hup.replace⟩
      dsimp only
      rw [hmin]
      rfl

/-- No path loses a black node: what `rbtree_delete` takes out of its place is red, has a child or is the root. -/
def NoLoss [DecidableEq α] (z : α) (t : RbTree α) : Prop :=
  ∀ y ∈ takenOut z t, y.1 = .red ∨ y.2.1 ≠ nil ∨ y.2.2 = []

theorem Hole.red_black (h : Hole up .red n) : Hole up .black n := by
  cases h with
  | root c n => exact .root _ _
  | black d c a ho hup => exact .black d _ a ho hup

theorem eq_nil_of_balanced (h : Balanced t .black 0) : t = nil := by
  cases h with
  | nil => rfl

/-- Beside an empty subtree there is at most one red node. -/
theorem balanced_branch_nil (h : Balanced (branch d c nil a r) c n) :
    (c = .red ∧ n = 0 ∧ r = nil) ∨ (c = .black ∧ n = 1 ∧ (r = nil ∨ Balanced r .red 0)) := by
  have hchild : ∀ {c1 c2 : Color} {k : Nat}, Balanced (nil : RbTree α) c1 k → Balanced r c2 k →
      k = 0 ∧ (r = nil ∨ Balanced r .red 0) := by
    rintro c1 c2 k ⟨⟩ hr
    cases c2 with
    | red => exact ⟨rfl, .inr hr⟩
    | black => exact ⟨rfl, .inl (eq_nil_of_balanced hr)⟩
  cases d with
  | left =>
    cases h with
    | red a hl hr =>
      cases hl with
      | nil => exact .inl ⟨rfl, rfl, eq_nil_of_balanced hr⟩
    | black a hl hr =>
      obtain ⟨rfl, hor⟩ := hchild hl hr
      exact .inr ⟨rfl, rfl, hor⟩
  | right =>
    cases h with
    | red a hr hl =>
      cases hl with
      | nil => exact .inl ⟨rfl, rfl, eq_nil_of_balanced hr⟩
    | black a hr hl =>
      obtain ⟨rfl, hor⟩ := hchild hl hr
      exact .inr ⟨rfl, rfl, hor⟩

theorem settle_red (hx : Balanced x .red n) (up : Parents α) :
    settle .black x up = some (plug (paint .black x) up) := by
  cases hx with
  | red a hl hr =>
    cases up with
    | nil => rfl
    | cons f up => rfl

/-- All paths through the room for a tree have the same number of black nodes, unless there is no other path. -/
theorem Hole.height_eq {f : Frame Color α} (h : Hole (f :: up) c n) (h' : Hole (f :: up) c' m) : n = m := by
  have hsame : ∀ {o : RbTree α} {c1 c2 : Color} {k j : Nat}, Balanced o c1 k → Balanced o c2 j → k = j := by
    intro o c1 c2 k j hk hj
    obtain ⟨i, hi⟩ := List.exists_mem_of_ne_nil _ (blackHeights_ne_nil o)
    rw [← hk.heights i hi, hj.heights i hi]
  cases h with
  | red d a ho hup =>
    cases h' with
    | red d a ho' hup' => exact hsame ho ho'
  | black d c a ho hup =>
    cases h' with
    | black d c a ho' hup' => exact hsame ho ho'

/-- **`rbtree_delete` keeps a valid tree valid exactly when no path loses a black node.** -/
theorem rbtreeDelete_balanced [DecidableEq α] {s : α} (hv : Valid t) (hz : s ∈ t.toList) (hnodup : t.toList.Nodup) :
    (∃ t', rbtreeDelete s t = some t' ∧ Valid t') ↔ NoLoss s t := by
  obtain ⟨m, hb⟩ := valid_iff.1 hv
  obtain ⟨c, x, up, d, y, n, htaken, hy, hup⟩ := takenOut_balanced hz hb
  have hdel : rbtreeDelete s t = settle c x up := by
    rw [rbtreeDelete_eq, htaken]
    rfl
  have hdone (hbal : ∃ t', settle c x up = some t' ∧ ∃ c' n', Balanced t' c' n') : ∃ t', rbtreeDelete s t = some t' ∧
    Valid t' := by
    obtain ⟨t', ht', c', n', hb'⟩ := hbal
    refine ⟨t', hdel.trans ht', ?_⟩
    have hroot := (rbtreeDelete_spec hz hnodup (hdel.trans ht')).2 hv.root
    rw [hb'.isred] at hroot
    cases c' with
    | red => cases hroot
    | black => exact valid_iff.2 ⟨n', hb'⟩
  have hloss : NoLoss s t ↔ c = .red ∨ x ≠ nil ∨ up = [] := by simp [NoLoss, htaken]
  rw [hloss]
  rcases balanced_branch_nil hy with ⟨rfl, rfl, rfl⟩ | ⟨rfl, rfl, rfl | hx⟩
  · exact iff_of_true (hdone ⟨_, rfl, hup.red_black.fill .nil⟩) (.inl rfl)
  · -- a black leaf: `fixup_del` is not called, and with a parent there is a path that keeps its black nodes
    cases up with
    | nil => exact iff_of_true (hdone ⟨nil, rfl, _, _, .nil⟩) (.inr (.inr rfl))
    | cons f up =>
      refine iff_of_false ?_ (by simp)
      rintro ⟨t', ht', hv'⟩
      obtain rfl : plug nil (f :: up) = t' := some.inj (hdel.symm.trans ht')
      obtain ⟨k, hbal⟩ := valid_iff.1 hv'
      obtain ⟨c', k', hnil, hup'⟩ := hole_of_balanced hbal
      cases hnil
      exact absurd (hup.height_eq hup') one_ne_zero
  · refine iff_of_true (hdone ⟨_, settle_red hx up, hup.fill hx.paint_red⟩) (.inr (.inl ?_))
    rintro rfl
    cases hx

/-! ## Reads through `NULL` -/

/-- `fixup_del` finds the nodes it needs above a black node: a parent has another child, and if that is red, it has a
child on the near side. The next parent matters if this one and its other child are black and the children of that are,
too. -/
def repairs : Parents α → Bool
  | [] => true
  | ⟨_, _, _, nil⟩ :: _ => false
  | ⟨.left, _, _, node .red nil _ _⟩ :: _ => false
  | ⟨.right, _, _, node .red _ _ nil⟩ :: _ => false
  | ⟨_, _, _, node .red _ _ _⟩ :: _ => true
  | ⟨_, c, _, node .black l _ r⟩ :: up => isred l || isred r || c == .red || repairs up

/-- `fixup_del` is not called when the node is taken out, or ends at once, or finds the nodes it needs. -/
def Deletes [DecidableEq α] (z : α) (t : RbTree α) : Prop :=
  ∀ y ∈ takenOut z t, y.1 = .red ∨ y.2.1 = nil ∨ isred y.2.1 = true ∨ repairs y.2.2 = true
deriving Decidable

variable {near far : RbTree α} {p w : α}

theorem repairs_red : repairs (⟨d, c, p, branch d .red near w far⟩ :: up) = true ↔ near ≠ nil := by
  cases d with
  | left => cases near <;> simp [repairs, branch, Frame.plug]
  | right => cases near <;> simp [repairs, branch, Frame.plug]

theorem repairs_black : repairs (⟨d, c, p, branch d .black near w far⟩ :: up) = true ↔
    isred near = true ∨ isred far = true ∨ c = .red ∨ repairs up = true := by
  cases d with
  | left =>
    simp only [repairs, branch, Frame.plug, Bool.or_eq_true, beq_iff_eq]
    tauto
  | right =>
    simp only [repairs, branch, Frame.plug, Bool.or_eq_true, beq_iff_eq]
    tauto

theorem delSide_isSome {o : RbTree α} : (delSide d x ⟨d, c, p, o⟩).isSome = true ↔ o ≠ nil := by
  rcases o with _ | ⟨cw, l, w, r⟩
  · simp [delSide_nil]
  obtain ⟨near, far, he⟩ := branch_eq_of_node d cw l w r
  rw [he]
  refine iff_of_true ?_ branch_ne_nil
  cases hf : isred far with
  | true => simp [delSide_far hf]
  | false =>
    cases hn : isred near with
    | false => simp [delSide_up hn hf]
    | true =>
      obtain ⟨nl, b, nr, rfl⟩ := exists_of_isred d hn
      simp [delSide_near hf]

/-- **The loop of `fixup_del` returns if and only if it finds the nodes it needs.** -/
theorem fixupDel_isSome : ∀ (up : Parents α) (x : RbTree α), isred x = false →
    ((fixupDel x up).isSome = true ↔ repairs up = true)
  | [], x, _ => by simp [fixupDel, repairs]
  | ⟨d, c, p, o⟩ :: up, x, hx => by
    rcases o with _ | ⟨cw, l, w, r⟩
    · rw [fixupDel_blackSibling hx rfl, delSide_nil]
      simp [repairs]
    obtain ⟨near, far, he⟩ := branch_eq_of_node d cw l w r
    rw [he]
    cases cw with
    | red => rw [fixupDel_redSibling hx, isSome_map, repairs_red, delSide_isSome]
    | black =>
      rw [fixupDel_blackSibling hx (isred_branch ..), repairs_black]
      cases hf : isred far with
      | true => simp [delSide_far hf]
      | false =>
        cases hn : isred near with
        | true =>
          obtain ⟨nl, b, nr, rfl⟩ := exists_of_isred d hn
          simp [delSide_near hf]
        | false =>
          -- the sibling becomes red and the loop goes on with the parent
          rw [delSide_up hn hf, bind_some]
          cases c with
          | red => cases up <;> simp [fixupDel]
          | black => simpa using fixupDel_isSome up _ (isred_branch d .black x p _)

/-- **`rbtree_delete` returns if and only if `fixup_del` finds the nodes it needs.** -/
theorem rbtreeDelete_isSome [DecidableEq α] {z : α} (hz : z ∈ t.toList) :
    (rbtreeDelete z t).isSome = true ↔ Deletes z t := by
  obtain ⟨⟨c, x, up⟩, htaken⟩ : ∃ y, takenOut z t = some y := by
    obtain ⟨c, l, r, up, hloc, rfl⟩ := locate_spec hz
    unfold takenOut
    rw [hloc]
    cases l with
    | nil => exact ⟨_, rfl⟩
    | node cl ll la lr =>
      cases r with
      | nil => exact ⟨_, rfl⟩
      | node cr rl ra rr =>
        obtain ⟨cy, y, x, fs, hmin, -⟩ := minimum_spec (node cr rl ra rr) [] (by simp) (by simp)
        dsimp only
        rw [hmin]
        exact ⟨_, rfl⟩
  have hdel : Deletes z t ↔ c = .red ∨ x = nil ∨ isred x = true ∨ repairs up = true := by simp [Deletes, htaken]
  rw [rbtreeDelete_eq, htaken, hdel, bind_some]
  cases c with
  | red => simp [settle]
  | black =>
    rcases x with _ | ⟨cx, l, a, r⟩
    · simp [settle]
    cases cx with
    | red => cases up <;> simp [settle, fixupDel, isred]
    | black =>
      rw [settle, fixupDel_isSome up _ rfl]
      simp [isred]

end TextOS.Mman
