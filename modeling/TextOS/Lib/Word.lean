import Mathlib

/-!
# Machine words as natural numbers

`u64 n` and `u32 n` are the values of unsigned 64-bit and 32-bit expressions whose exact value is `n`; `toInt n` is the
value of a signed 32-bit one.
-/

namespace TextOS.Lib

/-- The value of an unsigned 64-bit expression. -/
def u64 (n : Nat) : Nat := n % 2 ^ 64

/-- The value of an unsigned 32-bit expression. -/
def u32 (n : Nat) : Nat := n % 2 ^ 32

theorem u64_of_lt {n : Nat} (h : n < 2 ^ 64) : u64 n = n := Nat.mod_eq_of_lt h

theorem u32_of_lt {n : Nat} (h : n < 2 ^ 32) : u32 n = n := Nat.mod_eq_of_lt h

/-- The value of an `int` expression. -/
def toInt (n : Int) : Int := n.bmod (2 ^ 32)

theorem toInt_of_lt {n : Nat} (h : n < 2 ^ 31) : toInt n = n := by
  unfold toInt Int.bmod
  dsimp only
  split <;> omega

end TextOS.Lib
