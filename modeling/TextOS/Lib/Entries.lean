import TextOS.Lib.Bytes

/-!
# Arrays of little-endian numbers

A block of bytes seen as an array of numbers of `w` bytes each.

- a block of zeros has zeros only (`entry_zero`).
-/

namespace TextOS.Lib

/-- The number with the given digits to the base 256, the lowest first. -/
def ofBytes (f : Nat → Nat) : Nat → Nat
  | 0 => 0
  | w + 1 => ofBytes f w + 256 ^ w * f w

/-- Entry `i` of an array of numbers of `w` bytes. -/
def entry (w : Nat) (m : Bytes) (i : Nat) : Nat := ofBytes (fun k => (m (w * i + k)).toNat) w

/-- The array with `v` in entry `i`. -/
def putEntry (w : Nat) (m : Bytes) (i v : Nat) : Bytes := fun x =>
  if x / w = i then .ofNat (v / 256 ^ (x % w)) else m x

theorem ofBytes_congr {f f' : Nat → Nat} {w : Nat} (h : ∀ k < w, f k = f' k) : ofBytes f w = ofBytes f' w := by
  induction w with
  | zero => rfl
  | succ w ih => rw [ofBytes, ofBytes, h w (Nat.lt_succ_self w), ih fun k hk => h k (Nat.lt_succ_of_lt hk)]

theorem ofBytes_digits (v w : Nat) : ofBytes (fun k => v / 256 ^ k % 256) w = v % 256 ^ w := by
  induction w with
  | zero => rw [ofBytes, pow_zero, Nat.mod_one]
  | succ w ih => rw [ofBytes, ih, Nat.mod_pow_succ]

variable {w : Nat} {m m' : Bytes} {i j v : Nat}

theorem putEntry_byte {k : Nat} (hk : k < w) :
    putEntry w m i v (w * j + k) = if j = i then .ofNat (v / 256 ^ k) else m (w * j + k) := by
  have hd : (w * j + k) / w = j := by rw [Nat.mul_add_div (by omega), Nat.div_eq_of_lt hk, Nat.add_zero]
  have hm : (w * j + k) % w = k := by rw [Nat.mul_add_mod, Nat.mod_eq_of_lt hk]
  rw [putEntry, hd, hm]

/-- **An entry reads back as written.** -/
theorem entry_putEntry (hv : v < 256 ^ w) : entry w (putEntry w m i v) i = v := by
  have hd : ∀ k < w, (putEntry w m i v (w * i + k)).toNat = v / 256 ^ k % 256 := fun k hk => by
    rw [putEntry_byte hk, if_pos rfl, UInt8.toNat_ofNat']
  rw [entry, ofBytes_congr hd, ofBytes_digits, Nat.mod_eq_of_lt hv]

/-- **The other entries keep their value.** -/
theorem entry_putEntry_of_ne (h : j ≠ i) : entry w (putEntry w m i v) j = entry w m j :=
  ofBytes_congr fun k hk => by rw [putEntry_byte hk, if_neg h]

theorem entry_zero (w i : Nat) : entry w (fun _ => 0) i = 0 := by
  have h : ∀ n, ofBytes (fun _ => 0) n = 0 := fun n => by
    induction n with
    | zero => rfl
    | succ n ih => rw [ofBytes, ih, Nat.mul_zero]
  exact h w

end TextOS.Lib
