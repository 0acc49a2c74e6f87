import Mathlib

/-!
# Trees of tables in memory

A memory `m f i` holds the entry `i` of the table in frame `f`; `child e` is the frame the entry `e` points to, if any.
`follow child m root p` is the table reached from `root` along the indices `p`.

- a write that changes no child changes no path (`follow_eq_of_child`), and any write changes only the paths through its
  entry (`follow_setAt_of_not_prefix`);
- a fresh frame, filled with entries without a child and linked where there was none, is one more table and leaves every
  other path as it was (`follow_link`, `separate_link`).
-/

namespace TextOS.Lib

open List Option

variable {ε : Type} {child : ε → Option Nat} {m m' : Nat → Nat → ε} {root F i new : Nat} {p q : List Nat} {v z : ε}

/-- Write one entry. -/
def setAt (m : Nat → Nat → ε) (f i : Nat) (v : ε) : Nat → Nat → ε := fun g j => if g = f ∧ j = i then v else m g j

/-- Write one value to all entries of a table. -/
def fillAt (m : Nat → Nat → ε) (f : Nat) (z : ε) : Nat → Nat → ε := fun g j => if g = f then z else m g j

@[simp] theorem setAt_self : setAt m F i v F i = v := if_pos ⟨rfl, rfl⟩

theorem setAt_of_ne {g j : Nat} (h : ¬ (g = F ∧ j = i)) : setAt m F i v g j = m g j := if_neg h

@[simp] theorem fillAt_self (j : Nat) : fillAt m F z F j = z := if_pos rfl

theorem fillAt_of_ne {g : Nat} (h : g ≠ F) (j : Nat) : fillAt m F z g j = m g j := if_neg h

theorem fillAt_setAt (h : F ≠ new) : fillAt (setAt m F i v) new z = setAt (fillAt m new z) F i v := by
  funext g j
  by_cases hg : g = new
  · rw [hg, fillAt_self, setAt_of_ne fun hx => h hx.1.symm, fillAt_self]
  rw [fillAt_of_ne hg]
  by_cases hx : g = F ∧ j = i
  · rw [hx.1, hx.2, setAt_self, setAt_self]
  · rw [setAt_of_ne hx, setAt_of_ne hx, fillAt_of_ne hg]

/-- The table reached along a path. -/
def follow (child : ε → Option Nat) (m : Nat → Nat → ε) (root : Nat) : List Nat → Option Nat
  | [] => some root
  | i :: p => (child (m root i)).bind fun f => follow child m f p

@[simp] theorem follow_nil : follow child m root [] = some root := rfl

theorem follow_append (p q : List Nat) :
    follow child m root (p ++ q) = (follow child m root p).bind fun f => follow child m f q := by
  induction p generalizing root with
  | nil => rfl
  | cons i p ih =>
    simp only [cons_append, follow]
    cases child (m root i) with
    | none => rfl
    | some f => exact ih

theorem follow_concat (p : List Nat) (i : Nat) :
    follow child m root (p ++ [i]) = (follow child m root p).bind fun f => child (m f i) := by
  rw [follow_append]
  congr 1
  funext f
  simp [follow]

theorem follow_eq_of_agree (q : List Nat)
    (h : ∀ q' j, q' ++ [j] <+: q → ∀ f, follow child m root q' = some f → child (m' f j) = child (m f j)) :
    follow child m' root q = follow child m root q := by
  induction q using List.reverseRecOn with
  | nil => rfl
  | append_singleton q j ih =>
    have ih' := ih fun q' j' hq' => h q' j' (hq'.trans (prefix_append _ _))
    rw [follow_concat, follow_concat, ih']
    cases hf : follow child m root q with
    | none => rfl
    | some f => exact h q j (prefix_refl _) f hf

theorem follow_eq_of_child (h : ∀ f j, child (m' f j) = child (m f j)) (q : List Nat) :
    follow child m' root q = follow child m root q :=
  follow_eq_of_agree q fun _ j _ f _ => h f j

/-- No frame is reached along two different paths of `A`. -/
def Separate (child : ε → Option Nat) (m : Nat → Nat → ε) (root : Nat) (A : List Nat → Prop) : Prop :=
  ∀ p q f, A p → A q → follow child m root p = some f → follow child m root q = some f → p = q

/-- The frame is reached along no path of `A`. -/
def Fresh (child : ε → Option Nat) (m : Nat → Nat → ε) (root : Nat) (A : List Nat → Prop) (f : Nat) : Prop :=
  ∀ p, A p → follow child m root p ≠ some f

section Writes

variable {A : List Nat → Prop} (hA : ∀ p q, p <+: q → A q → A p) (hsep : Separate child m root A)
  (hp : A p) (hF : follow child m root p = some F)
include hA hsep hp hF

theorem follow_setAt_of_not_prefix (hq : A q) (hnot : ¬ p ++ [i] <+: q) :
    follow child (setAt m F i v) root q = follow child m root q := by
  apply follow_eq_of_agree
  intro q' j hq' f hf
  rw [setAt_of_ne]
  rintro ⟨rfl, rfl⟩
  have hq'' : A q' := hA _ _ ((prefix_append _ _).trans hq') hq
  obtain rfl := hsep p q' f hp hq'' hF hf
  exact hnot hq'

/-- **A fresh table linked into the tree**: it is reached along the path to its entry, nothing else changes. -/
theorem follow_link (hnone : child (m F i) = none) (hnew : Fresh child m root A new) (hz : child z = none)
    (hv : child v = some new) (hq : A q) :
    follow child (setAt (fillAt m new z) F i v) root q = if q = p ++ [i] then some new else follow child m root q := by
  have hFnew : F ≠ new := fun h => hnew p hp (h ▸ hF)
  -- paths that do not run through the entry meet neither the entry nor the new table
  have hother : ∀ q, A q → ¬ p ++ [i] <+: q →
      follow child (setAt (fillAt m new z) F i v) root q = follow child m root q := by
    intro q hq hnot
    apply follow_eq_of_agree
    intro q' j hq' f hf
    have hq'' : A q' := hA _ _ ((prefix_append _ _).trans hq') hq
    rw [setAt_of_ne, fillAt_of_ne]
    · exact fun h => hnew q' hq'' (h ▸ hf)
    rintro ⟨rfl, rfl⟩
    obtain rfl := hsep p q' f hp hq'' hF hf
    exact hnot hq'
  by_cases hthrough : p ++ [i] <+: q
  · obtain ⟨r, rfl⟩ := hthrough
    have hpre : follow child (setAt (fillAt m new z) F i v) root p = some F := by
      rw [hother p hp, hF]
      intro h
      have := h.length_le
      simp at this
    have hlink : follow child (setAt (fillAt m new z) F i v) root (p ++ [i]) = some new := by
      rw [follow_concat, hpre, bind_some, setAt_self, hv]
    rw [follow_append, hlink, bind_some]
    cases r with
    | nil => simp
    | cons j r =>
      have hdead : follow child (setAt (fillAt m new z) F i v) new (j :: r) = none := by
        rw [follow, setAt_of_ne fun h => hFnew h.1.symm, fillAt_self, hz, bind_none]
      rw [hdead, if_neg (by simp), follow_append, follow_concat, hF, bind_some, hnone, bind_none]
  · rw [hother q hq hthrough, if_neg]
    rintro rfl
    exact hthrough (prefix_refl _)

theorem separate_link (hnone : child (m F i) = none) (hnew : Fresh child m root A new) (hz : child z = none)
    (hv : child v = some new) : Separate child (setAt (fillAt m new z) F i v) root A := by
  intro q r f hq hr hfq hfr
  rw [follow_link hA hsep hp hF hnone hnew hz hv hq] at hfq
  rw [follow_link hA hsep hp hF hnone hnew hz hv hr] at hfr
  split at hfq
  · split at hfr
    · next h1 h2 => exact h1.trans h2.symm
    · exact absurd (hfr.trans hfq.symm) (hnew r hr)
  split at hfr
  · exact absurd (hfq.trans hfr.symm) (hnew q hq)
  · exact hsep q r f hq hr hfq hfr

theorem fresh_link {g : Nat} (hnone : child (m F i) = none) (hnew : Fresh child m root A new) (hz : child z = none)
    (hv : child v = some new) (hg : Fresh child m root A g) (hne : g ≠ new) :
    Fresh child (setAt (fillAt m new z) F i v) root A g := by
  intro q hq h
  rw [follow_link hA hsep hp hF hnone hnew hz hv hq] at h
  split at h
  · exact hne (some.inj h).symm
  · exact hg q hq h

end Writes

end TextOS.Lib
