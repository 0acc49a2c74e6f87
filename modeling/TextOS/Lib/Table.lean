import Mathlib

/-!
# Tables with free places

A table gives each index an entry or nothing. `modify m i f` changes the entry of `i`, if there is one; each entry of
the new table comes from one of the old table (`modify_eq_some`), so what holds of every entry is checked for the
changed one (`forall_modify`). `Pointwise R` relates the entries of two tables with the same free places; a change of
one entry gives such a relation (`Pointwise.modify`).
-/

namespace TextOS.Lib

open Function Option

variable {α : Type}

/-- The table with the entry of `i` changed. -/
def modify (m : Nat → Option α) (i : Nat) (f : α → α) : Nat → Option α := update m i ((m i).map f)

variable {m : Nat → Option α} {i j : Nat} {f : α → α} {a b : α}

theorem modify_self (h : m i = some a) : modify m i f i = some (f a) := by rw [modify, update_self, h, map_some]

theorem modify_of_ne (h : j ≠ i) : modify m i f j = m j := update_of_ne h _ _

theorem modify_modify (g : α → α) : modify (modify m i f) i g = modify m i fun a => g (f a) := by
  rw [modify, modify, modify, update_self, update_idem, map_map]
  rfl

theorem modify_eq_some : modify m i f j = some b ↔ ∃ a, m j = some a ∧ b = if j = i then f a else a := by
  by_cases h : j = i
  · subst h
    simp only [modify, update_self, map_eq_some_iff, if_pos, eq_comm]
  · simp [modify_of_ne h, h]

theorem modify_eq_none : modify m i f j = none ↔ m j = none := by
  by_cases h : j = i
  · subst h
    rw [modify, update_self, map_eq_none_iff]
  · rw [modify_of_ne h]

/-- What holds of the new entry and of the others holds of every entry. -/
theorem forall_update {ι : Type} [DecidableEq ι] {m : ι → Option α} {i : ι} {o : Option α} {P : ι → α → Prop}
    (hi : ∀ a, o = some a → P i a) (h : ∀ j a, j ≠ i → m j = some a → P j a) : ∀ j a, update m i o j = some a → P j a :=
  (forall_update_iff m fun j x => ∀ a, x = some a → P j a).2 ⟨hi, fun j hj a ha => h j a hj ha⟩

/-- What holds of every entry and of the changed one holds of every entry of the new table. -/
theorem forall_modify {P : Nat → α → Prop} (h : ∀ j a, m j = some a → P j a) (hi : ∀ a, m i = some a → P i (f a)) :
    ∀ j a, modify m i f j = some a → P j a := by
  intro j a ha
  obtain ⟨b, hb, rfl⟩ := modify_eq_some.1 ha
  by_cases hj : j = i
  · subst hj
    rw [if_pos rfl]
    exact hi b hb
  · rw [if_neg hj]
    exact h j b hb

/-- The same places are free, and the entries are related. -/
def Pointwise (R : α → α → Prop) (m m' : Nat → Option α) : Prop := ∀ j, Option.Rel R (m j) (m' j)

namespace Pointwise

variable {R : α → α → Prop} {m' m'' : Nat → Option α}

theorem right (h : Pointwise R m m') (ha : m j = some a) : ∃ b, m' j = some b ∧ R a b := by
  have hj := h j
  rw [ha] at hj
  cases hb : m' j with
  | none =>
    rw [hb] at hj
    cases hj
  | some b =>
    rw [hb] at hj
    cases hj with
    | some hab => exact ⟨b, rfl, hab⟩

theorem left (h : Pointwise R m m') (hb : m' j = some b) : ∃ a, m j = some a ∧ R a b := by
  have hj := h j
  rw [hb] at hj
  cases ha : m j with
  | none =>
    rw [ha] at hj
    cases hj
  | some a =>
    rw [ha] at hj
    cases hj with
    | some hab => exact ⟨a, rfl, hab⟩

protected theorem refl (hR : ∀ a, R a a) (m : Nat → Option α) : Pointwise R m m := by
  intro j
  cases m j with
  | none => exact .none
  | some a => exact .some (hR a)

theorem mono {R' : α → α → Prop} (h : Pointwise R m m') (hR : ∀ a b, R a b → R' a b) : Pointwise R' m m' := by
  intro j
  have hj := h j
  generalize m j = a at hj ⊢
  generalize m' j = b at hj ⊢
  cases hj with
  | none => exact .none
  | some hab => exact .some (hR _ _ hab)

protected theorem trans (hR : ∀ a b c, R a b → R b c → R a c) (h : Pointwise R m m') (h' : Pointwise R m' m'') :
    Pointwise R m m'' := by
  intro j
  have hj := h j
  have hj' := h' j
  generalize m j = a at hj ⊢
  generalize m' j = b at hj hj'
  generalize m'' j = c at hj' ⊢
  cases hj with
  | none => exact hj'
  | some hab =>
    cases hj' with
    | some hbc => exact .some (hR _ _ _ hab hbc)

theorem modify (hR : ∀ a, R a a) (hi : ∀ a, m i = some a → R a (f a)) : Pointwise R m (modify m i f) := by
  intro j
  by_cases h : j = i
  · subst h
    cases ha : m j with
    | none =>
      rw [modify_eq_none.2 ha]
      exact .none
    | some a =>
      rw [modify_self ha]
      exact .some (hi a ha)
  · rw [modify_of_ne h]
    exact Pointwise.refl hR m j

end Pointwise

end TextOS.Lib
