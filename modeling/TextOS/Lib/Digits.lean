import Mathlib

/-!
# Numbers from digits, the most significant one first

- `value b ds`: the number with the digits `ds` to the base `b`;
- appending digits (`value_append`), leading zeros (`value_dropWhile`), the bound (`value_lt`), and the digits of a
  number (`value_reverse_digits`).
-/

namespace TextOS.Lib

open List

variable {b a d : Nat} {ds xs ys : List Nat}

def value (b : Nat) (ds : List Nat) : Nat := ds.foldl (fun a d => a * b + d) 0

theorem foldl_value (b a : Nat) (ds : List Nat) : ds.foldl (fun a d => a * b + d) a = a * b ^ ds.length +
    value b ds := by
  induction ds generalizing a with
  | nil => simp [value]
  | cons d ds ih =>
    have hcons : value b (d :: ds) = (0 * b + d) * b ^ ds.length + value b ds := ih (0 * b + d)
    rw [foldl_cons, ih, hcons, length_cons, pow_succ]
    ring

@[simp] theorem value_nil (b : Nat) : value b [] = 0 := rfl

theorem value_cons (b d : Nat) (ds : List Nat) : value b (d :: ds) = d * b ^ ds.length + value b ds := by
  rw [value, foldl_cons, foldl_value, Nat.zero_mul, Nat.zero_add]

theorem value_append (b : Nat) (xs ys : List Nat) : value b (xs ++ ys) = value b xs * b ^ ys.length + value b ys := by
  rw [value, foldl_append, foldl_value]
  rfl

theorem value_lt (h : ∀ d ∈ ds, d < b) : value b ds < b ^ ds.length := by
  induction ds with
  | nil => simp
  | cons d ds ih =>
    have hd : d + 1 ≤ b := h d mem_cons_self
    have hds := ih fun e he => h e (mem_cons_of_mem d he)
    calc value b (d :: ds) = d * b ^ ds.length + value b ds := value_cons b d ds
      _ < (d + 1) * b ^ ds.length := by rw [Nat.add_mul, Nat.one_mul]; omega
      _ ≤ b * b ^ ds.length := Nat.mul_le_mul_right _ hd
      _ = b ^ (d :: ds).length := by rw [length_cons, pow_succ, Nat.mul_comm]

theorem value_dropWhile (b : Nat) (ds : List Nat) : value b (ds.dropWhile (· = 0)) = value b ds := by
  induction ds with
  | nil => rfl
  | cons d ds ih =>
    by_cases hd : d = 0
    · rw [dropWhile_cons_of_pos (by simpa using hd), ih, value_cons, hd, Nat.zero_mul, Nat.zero_add]
    · rw [dropWhile_cons_of_neg (by simpa using hd)]

theorem value_replicate_zero (b n : Nat) : value b (List.replicate n 0) = 0 := by
  induction n with
  | zero => rfl
  | succ n ih => rw [replicate_succ, value_cons, ih, Nat.zero_mul]

theorem value_reverse_digits (hb : 1 < b) (n : Nat) : value b (Nat.digits b n).reverse = n := by
  induction n using Nat.strong_induction_on with
  | _ n ih =>
    rcases n.eq_zero_or_pos with rfl | hn
    · simp
    rw [Nat.digits_def' hb hn, reverse_cons, value_append, ih _ (Nat.div_lt_self hn hb)]
    simp [value]
    rw [Nat.mul_comm]
    exact Nat.div_add_mod n b

end TextOS.Lib
