import Mathlib

/-!
# Loops with a bound on their rounds

A function with an unbounded loop is given a bound on the rounds and fails when they do not suffice. `Stable f` says
that the bound is no more than that: once there is a result, more rounds do not change it. Functions composed of stable
ones are stable.
-/

namespace TextOS.Lib

variable {ε α β : Type}

/-- More rounds do not change a result. -/
def Stable (f : Nat → Except ε α) : Prop := ∀ n m a, n ≤ m → f n = .ok a → f m = .ok a

theorem stable_const (r : Except ε α) : Stable fun _ => r := fun _ _ _ _ h => h

theorem bind_ok {r : Except ε α} {f : α → Except ε β} {b : β} : r.bind f = .ok b ↔ ∃ a, r = .ok a ∧ f a = .ok b := by
  cases r with
  | error e => simp [Except.bind]
  | ok a => simp [Except.bind]

theorem Stable.bind {f : Nat → Except ε α} {g : α → Nat → Except ε β} (hf : Stable f) (hg : ∀ a, Stable (g a)) :
    Stable fun n => (f n).bind fun a => g a n := by
  intro n m b hnm h
  obtain ⟨a, hfn, h⟩ := bind_ok.1 h
  exact bind_ok.2 ⟨a, hf n m a hnm hfn, hg a n m b hnm h⟩

theorem Stable.map {f : Nat → Except ε α} (hf : Stable f) (g : α → β) : Stable fun n => (f n).map g :=
  hf.bind fun a => stable_const (.ok (g a))

theorem Stable.ite {p : Prop} [Decidable p] {f g : Nat → Except ε α} (hf : Stable f) (hg : Stable g) :
    Stable fun n => if p then f n else g n := by
  by_cases hp : p
  · simpa only [if_pos hp] using hf
  · simpa only [if_neg hp] using hg

end TextOS.Lib
