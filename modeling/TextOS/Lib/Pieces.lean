import Mathlib

/-!
# Lists cut into pieces

`Pieces p ls`: the lists `ls` are the pieces of a list cut every `p` elements, all of length `p` but the last one, which
may be shorter.

- the pieces in front of the last one are full (`Pieces.front`), and any short piece may be put behind full ones
  (`pieces_concat`).
-/

namespace TextOS.Lib

open List

variable {α : Type} {p : Nat} {ls : List (List α)} {l l' : List α}

/-- All pieces have length `p`, the last one at most. -/
def Pieces (p : Nat) : List (List α) → Prop
  | [] => True
  | l :: ls => l.length ≤ p ∧ (ls ≠ [] → l.length = p) ∧ Pieces p ls

theorem Pieces.getElem?_flatten (h : Pieces p ls) {c j : Nat} (hj : j < p) :
    ls.flatten[p * c + j]? = ls[c]?.bind fun l => l[j]? := by
  induction ls generalizing c with
  | nil => simp
  | cons l ls ih =>
    obtain ⟨hle, hfull, hrest⟩ := h
    rw [flatten_cons]
    cases c with
    | zero =>
      rw [Nat.mul_zero, Nat.zero_add, getElem?_cons_zero, Option.bind_some]
      by_cases hl : j < l.length
      · rw [getElem?_append_left hl]
      -- a short piece is the last one
      obtain rfl : ls = [] := by
        by_contra hne
        exact hl (hfull hne ▸ hj)
      rw [flatten_nil, append_nil]
    | succ c =>
      rw [getElem?_cons_succ, ← ih hrest, Nat.mul_succ]
      by_cases hne : ls = []
      · subst hne
        rw [flatten_nil, append_nil, getElem?_nil, getElem?_eq_none (by omega)]
      rw [getElem?_append_right (by rw [hfull hne]; omega), hfull hne]
      congr 1
      omega

theorem Pieces.length_le (h : Pieces p ls) : ls.flatten.length ≤ p * ls.length := by
  induction ls with
  | nil => exact Nat.zero_le _
  | cons l ls ih =>
    have := ih h.2.2
    have := h.1
    rw [flatten_cons, length_append, length_cons, Nat.mul_succ]
    omega

theorem Pieces.full (h : Pieces p ls) (hl : ls.flatten.length = p * ls.length) : ∀ x ∈ ls, x.length = p := by
  induction ls with
  | nil => simp
  | cons l ls ih =>
    have hle := h.1
    have hrest := h.2.2.length_le
    rw [flatten_cons, length_append, length_cons, Nat.mul_succ] at hl
    intro x hx
    rcases mem_cons.1 hx with rfl | hx
    · omega
    · exact ih h.2.2 (by omega) x hx

theorem length_flatten_of_full (h : ∀ x ∈ ls, x.length = p) : ls.flatten.length = p * ls.length := by
  induction ls with
  | nil => rfl
  | cons l ls ih =>
    rw [flatten_cons, length_append, length_cons, h l mem_cons_self,
      ih fun x hx => h x (mem_cons_of_mem l hx), Nat.mul_succ, Nat.add_comm]

theorem pieces_of_full (h : ∀ x ∈ ls, x.length = p) : Pieces p ls := by
  induction ls with
  | nil => trivial
  | cons l ls ih =>
    have hl := h l mem_cons_self
    exact ⟨hl.le, fun _ => hl, ih fun x hx => h x (mem_cons_of_mem l hx)⟩

theorem Pieces.front (h : Pieces p (ls ++ [l])) : ∀ x ∈ ls, x.length = p := by
  induction ls with
  | nil => simp
  | cons y ls ih =>
    obtain ⟨-, hfull, hrest⟩ := h
    intro x hx
    rcases mem_cons.1 hx with rfl | hx
    · exact hfull (by simp)
    · exact ih hrest x hx

theorem pieces_concat (h : ∀ x ∈ ls, x.length = p) (hl : l.length ≤ p) : Pieces p (ls ++ [l]) := by
  induction ls with
  | nil => exact ⟨hl, fun hne => absurd rfl hne, trivial⟩
  | cons x ls ih =>
    have hx := h x mem_cons_self
    exact ⟨hx.le, fun _ => hx, ih fun y hy => h y (mem_cons_of_mem x hy)⟩

end TextOS.Lib
