import Mathlib.Algebra.BigOperators.Group.Finset.Piecewise

/-!
# Counting references

`refs S f a` is the number of places of `S` that hold a reference to `a`, where the place `i` holds `f i`.
-/

namespace TextOS.Lib

open Function Finset

variable {ι κ : Type*} [DecidableEq κ] {S : Finset ι} {f g : ι → Option κ} {i j : ι} {a : κ}

def refs (S : Finset ι) (f : ι → Option κ) (a : κ) : Nat := (S.filter fun i => f i = some a).card

theorem refs_update [DecidableEq ι] (hi : i ∈ S) (f : ι → Option κ) (o : Option κ) (a : κ) :
    refs S (update f i o) a + (if f i = some a then 1 else 0) = refs S f a + if o = some a then 1 else 0 := by
  have hrest : ∑ j ∈ S.erase i, (if update f i o j = some a then 1 else 0) =
      ∑ j ∈ S.erase i, if f j = some a then 1 else 0 :=
    sum_congr rfl fun j hj => by rw [update_of_ne (ne_of_mem_erase hj)]
  rw [refs, refs, card_filter, card_filter, ← add_sum_erase S _ hi, ← add_sum_erase S _ hi,
    hrest, update_self]
  omega

theorem refs_pos (hi : i ∈ S) (h : f i = some a) : 0 < refs S f a := card_pos.2 ⟨i, mem_filter.2 ⟨hi, h⟩⟩

theorem refs_eq_zero_iff : refs S f a = 0 ↔ ∀ i ∈ S, f i ≠ some a := by rw [refs, card_eq_zero, filter_eq_empty_iff]

theorem eq_of_refs_eq_one (h : refs S f a = 1) (hi : i ∈ S) (hfi : f i = some a) (hj : j ∈ S) (hfj : f j = some a) :
    i = j := by
  obtain ⟨k, hk⟩ := card_eq_one.1 h
  have hmem : ∀ l ∈ S, f l = some a → l = k := fun l hl hfl => by
    have hl : l ∈ S.filter fun i => f i = some a := mem_filter.2 ⟨hl, hfl⟩
    rw [hk] at hl
    exact mem_singleton.1 hl
  rw [hmem i hi hfi, hmem j hj hfj]

theorem refs_congr (h : ∀ i ∈ S, f i = g i) : refs S f a = refs S g a := by
  rw [refs, refs, filter_congr fun i hi => by rw [h i hi]]

end TextOS.Lib
