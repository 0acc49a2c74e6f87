import Mathlib.Data.List.Basic
import Mathlib.Data.List.Nodup

/-!
# Paths of pointers

`Path next e p l`: from `p` the pointers `next` lead through the elements of `l` to the end mark `e`. The list is
determined by `p` (`Path.unique`), so that no element is met twice (`Path.nodup`).
-/

namespace TextOS.Lib

open List

variable {κ : Type} {next next' : κ → κ} {e p q : κ} {l l' : List κ}

/-- From `p` the pointers lead through `l` to the end mark. -/
def Path (next : κ → κ) (e : κ) : κ → List κ → Prop
  | p, [] => p = e
  | p, q :: l => p = q ∧ q ≠ e ∧ Path next e (next q) l

@[simp] theorem path_nil : Path next e p [] ↔ p = e := Iff.rfl

@[simp] theorem path_cons : Path next e p (q :: l) ↔ p = q ∧ q ≠ e ∧ Path next e (next q) l := Iff.rfl

theorem Path.congr (h : Path next e p l) (hn : ∀ q ∈ l, next' q = next q) : Path next' e p l := by
  induction l generalizing p with
  | nil => exact h
  | cons q l ih =>
    obtain ⟨hp, hq, hl⟩ := h
    refine ⟨hp, hq, ?_⟩
    rw [hn q mem_cons_self]
    exact ih hl fun r hr => hn r (mem_cons_of_mem q hr)

theorem Path.unique (h : Path next e p l) (h' : Path next e p l') : l = l' := by
  induction l generalizing p l' with
  | nil =>
    cases l' with
    | nil => rfl
    | cons q l' => exact absurd (h'.1.symm.trans h) h'.2.1
  | cons q l ih =>
    cases l' with
    | nil => exact absurd (h.1.symm.trans h') h.2.1
    | cons q' l' =>
      obtain rfl : q = q' := h.1.symm.trans h'.1
      rw [ih h.2.2 h'.2.2]

theorem Path.suffix {l1 l2 : List κ} (h : Path next e p (l1 ++ q :: l2)) : Path next e q (q :: l2) := by
  induction l1 generalizing p with
  | nil => exact ⟨rfl, h.2⟩
  | cons r l1 ih => exact ih h.2.2

/-- A path that ends meets no element twice. -/
theorem Path.nodup (h : Path next e p l) : l.Nodup := by
  induction l generalizing p with
  | nil => exact nodup_nil
  | cons q l ih =>
    refine nodup_cons.2 ⟨fun hq => ?_, ih h.2.2⟩
    -- the path would go on from `q` in two ways
    obtain ⟨l1, l2, hl⟩ := append_of_mem hq
    have h1 : Path next e q (q :: l) := ⟨rfl, h.2⟩
    have h2 : Path next e q (q :: l2) := by
      have hs := h.2.2
      rw [hl] at hs
      exact hs.suffix
    have := congrArg List.length (h1.unique h2)
    rw [hl] at this
    simp only [length_cons, length_append] at this
    omega

end TextOS.Lib
