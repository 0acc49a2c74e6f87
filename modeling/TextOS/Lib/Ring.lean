import Mathlib.Data.List.Basic

/-!
# Places of a ring

`ringOf n tail head` are the places from `tail` up to `head`, in a ring of `n` places. A place is added at `head`
(`ringOf_push`), taken at `tail` (`ringOf_pop`) or at `head` (`ringOf_back`).
-/

namespace TextOS.Lib

open List

variable {n tail head : Nat}

/-- The number of places in use. -/
def fill (n tail head : Nat) : Nat := (head + n - tail) % n

def ringOf (n tail head : Nat) : List Nat := (List.range (fill n tail head)).map fun i => (tail + i) % n

theorem mod_of_lt_two_mul {a : Nat} (h : a < 2 * n) : a % n = if a < n then a else a - n := by
  split
  next hlt => exact Nat.mod_eq_of_lt hlt
  next hge => rw [Nat.mod_eq_sub_mod (Nat.le_of_not_lt hge), Nat.mod_eq_of_lt (by omega)]

theorem fill_eq (ht : tail < n) (hh : head < n) : fill n tail head = if tail ≤ head then head - tail else head +
    n - tail := by
  rw [fill, mod_of_lt_two_mul (by omega)]
  split <;> split <;> omega

@[simp] theorem ringOf_self (n tail : Nat) : ringOf n tail tail = [] := by
  rw [ringOf, fill, Nat.add_sub_cancel_left, Nat.mod_self, range_zero, map_nil]

theorem ringOf_push (ht : tail < n) (hh : head < n) (h : (head + 1) % n ≠ tail) :
    ringOf n tail ((head + 1) % n) = ringOf n tail head ++ [head] := by
  have hmod := mod_of_lt_two_mul (n := n) (a := head + 1) (by omega)
  have hlt : (head + 1) % n < n := Nat.mod_lt _ (by omega)
  have hf := fill_eq ht hh
  have hfill : fill n tail ((head + 1) % n) = fill n tail head + 1 := by
    rw [fill_eq ht hlt, hf]
    split at hmod <;> split <;> split <;> omega
  have hlast : (tail + fill n tail head) % n = head := by
    rw [hf, mod_of_lt_two_mul (by split <;> omega)]
    split <;> split <;> omega
  rw [ringOf, hfill, range_succ, map_append, map_singleton, hlast, ringOf]

theorem ringOf_pop (ht : tail < n) (hh : head < n) (h : head ≠ tail) :
    ringOf n tail head = tail :: ringOf n ((tail + 1) % n) head := by
  have hmod := mod_of_lt_two_mul (n := n) (a := tail + 1) (by omega)
  have hlt : (tail + 1) % n < n := Nat.mod_lt _ (by omega)
  have hfill : fill n tail head = fill n ((tail + 1) % n) head + 1 := by
    rw [fill_eq ht hh, fill_eq hlt hh]
    split at hmod <;> split <;> split <;> omega
  rw [ringOf, hfill, range_succ_eq_map, map_cons, Nat.add_zero, Nat.mod_eq_of_lt ht, map_map, ringOf]
  congr 1
  refine map_congr_left fun i _ => ?_
  rw [Function.comp_apply, Nat.mod_add_mod, Nat.add_right_comm, Nat.add_assoc]

theorem ringOf_back (ht : tail < n) (hh : head < n) (h : head ≠ tail) :
    ringOf n tail head = ringOf n tail ((head + n - 1) % n) ++ [(head + n - 1) % n] := by
  have hmod := mod_of_lt_two_mul (n := n) (a := head + n - 1) (by omega)
  have hlt : (head + n - 1) % n < n := Nat.mod_lt _ (by omega)
  have hnext : ((head + n - 1) % n + 1) % n = head := by
    rw [mod_of_lt_two_mul (n := n) (a := (head + n - 1) % n + 1) (by omega)]
    split at hmod <;> split <;> omega
  have hp := ringOf_push ht hlt (by rwa [hnext])
  rwa [hnext] at hp

theorem ne_head_of_mem_ringOf (ht : tail < n) (hh : head < n) {i : Nat} (hi : i ∈ ringOf n tail head) : i ≠ head := by
  obtain ⟨k, hk, rfl⟩ := mem_map.1 hi
  rw [mem_range, fill_eq ht hh] at hk
  rw [mod_of_lt_two_mul (by split at hk <;> omega)]
  split at hk <;> split <;> omega

end TextOS.Lib
