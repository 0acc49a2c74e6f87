import Mathlib

/-!
# Fields of a list

A list is cut at the separators: `field sep l` is the part in front of the first one, `afterField sep l` what follows
behind it, where several separators in a row count as one.
-/

namespace TextOS.Lib

open List

variable {α : Type} [DecidableEq α] {sep : α} {l : List α}

/-- The elements up to the first separator. -/
def field (sep : α) (l : List α) : List α := l.takeWhile (· ≠ sep)

/-- What is behind the first field and the separators that follow it. -/
def afterField (sep : α) (l : List α) : List α := (l.dropWhile (· ≠ sep)).dropWhile (· = sep)

theorem sep_not_mem_field (sep : α) (l : List α) : sep ∉ field sep l := fun h => by simpa using mem_takeWhile_imp h

theorem field_eq_self (h : sep ∉ l) : field sep l = l := by
  refine takeWhile_eq_self_iff.2 fun x hx => ?_
  simpa using fun he : x = sep => h (he ▸ hx)

theorem field_append (h : sep ∉ l) (l' : List α) : field sep (l ++ sep :: l') = l := by
  rw [field, takeWhile_append_of_pos fun x hx => by simpa using ne_of_mem_of_not_mem hx h]
  simp

end TextOS.Lib
