import TextOS.Lib.Bytes

/-!
# Bitmaps: `kernel/klib/bitmap.c`

A bitmap is a range of bytes; `bit m i` is bit `i` of it.

- `bitmap_set` and `bitmap_reset` in terms of `bit` (`bit_bitmapSet`, `bit_bitmapReset`);
- `bitmap_find_range` goes through the bytes; **it returns the first clear bit, now set, or there is none**
  (`bitmapFindFrom_found`).
-/

namespace TextOS.Klib

open Lib List Function

/-- The byte has the bit. -/
def has (x : UInt8) (i : Nat) : Bool := x.toBitVec.getLsbD i

/-- Bit `i` of the map. -/
def bit (m : Bytes) (i : Nat) : Bool := has (m (i / 8)) (i % 8)

/-- `1 << i`. -/
def one (i : Nat) : UInt8 := .ofNat (2 ^ i)

/-- `poplow`: the lowest clear bit. -/
def poplow (x : UInt8) : Nat := ((List.range 8).find? fun i => has (~~~x) i).getD 0

def bitmapSet (m : Bytes) (i : Nat) : Bytes := update m (i / 8) (m (i / 8) ||| one (i % 8))

def bitmapReset (m : Bytes) (i : Nat) : Bytes := update m (i / 8) (m (i / 8) &&& ~~~one (i % 8))

/-- The loop of `bitmap_find_range`, for `n` bytes from `idx` on. -/
def findLoop (m : Bytes) (bits : Nat) : Nat → Nat → UInt8 → Option Nat × Bytes
  | 0, _, _ => (none, m)
  | n + 1, idx, mask =>
    let unit := m idx ||| mask
    if unit = 0xff then findLoop m bits n (idx + 1) 0
    else
      let low := poplow unit
      if n = 0 ∧ bits % 8 ≠ 0 ∧ bits % 8 ≤ low then (none, m)
      else (some (low + 8 * idx), update m idx (m idx ||| one low))

def bitmapFindFrom (m : Bytes) (bits start : Nat) : Option Nat × Bytes :=
  findLoop m bits ((bits + 7) / 8 - start / 8) (start / 8) (.ofNat (2 ^ (start % 8) - 1))

def bitmapFind (m : Bytes) (bits : Nat) : Option Nat × Bytes := bitmapFindFrom m bits 0

/-! ## Bits of a byte -/

variable {m m' : Bytes} {x y : UInt8} {bits start i j n idx : Nat}

theorem has_or (x y : UInt8) (i : Nat) : has (x ||| y) i = (has x i || has y i) := by simp [has, UInt8.toBitVec_or]

theorem has_and (x y : UInt8) (i : Nat) : has (x &&& y) i = (has x i && has y i) := by simp [has, UInt8.toBitVec_and]

theorem has_not (hi : i < 8) (x : UInt8) : has (~~~x) i = !has x i := by simp [has, UInt8.toBitVec_not, hi]

theorem has_ofNat (hi : i < 8) (n : Nat) : has (.ofNat n) i = n.testBit i := by
  rw [has, UInt8.toBitVec_ofNat', BitVec.getLsbD_ofNat, decide_eq_true hi, Bool.true_and]

theorem has_one (hi : i < 8) (j : Nat) : has (one j) i = decide (j = i) := by
  rw [one, has_ofNat hi, Nat.testBit_two_pow]

theorem eq_of_has (h : ∀ i < 8, has x i = has y i) : x = y := UInt8.toBitVec_inj.1 (BitVec.eq_of_getLsbD_eq h)

theorem eq_full_iff : x = 0xff ↔ ∀ i < 8, has x i = true := by
  have hf : ∀ i < 8, has 0xff i = true := by decide
  exact ⟨fun h i hi => h ▸ hf i hi, fun h => eq_of_has fun i hi => (h i hi).trans (hf i hi).symm⟩

theorem poplow_spec (hx : x ≠ 0xff) : poplow x < 8 ∧ has x (poplow x) = false ∧ ∀ i < poplow x, has x i = true := by
  cases hf : (List.range 8).find? fun i => has (~~~x) i with
  | none =>
    refine absurd (eq_full_iff.2 fun i hi => ?_) hx
    have := find?_eq_none.1 hf i (mem_range.2 hi)
    simpa [has_not hi] using this
  | some i =>
    obtain ⟨hi, hmem, hlow⟩ := find?_range_eq_some.1 hf
    have hi8 : i < 8 := mem_range.1 hmem
    rw [poplow, hf, Option.getD_some]
    refine ⟨hi8, by simpa [has_not hi8] using hi, fun j hj => ?_⟩
    simpa [has_not (show j < 8 by omega)] using hlow j hj

/-! ## Bits of a map -/

theorem bit_bitmapSet (m : Bytes) (i j : Nat) : bit (bitmapSet m i) j = (decide (i = j) || bit m j) := by
  have hj : j % 8 < 8 := Nat.mod_lt _ (by decide)
  rw [bit, bit, bitmapSet]
  by_cases hb : j / 8 = i / 8
  · have he : decide (i % 8 = j % 8) = decide (i = j) := decide_eq_decide.2 (by omega)
    rw [hb, update_self, has_or, has_one hj, he, Bool.or_comm]
  · rw [update_of_ne hb, decide_eq_false (by omega : ¬ i = j), Bool.false_or]

theorem bit_bitmapReset (m : Bytes) (i j : Nat) : bit (bitmapReset m i) j = (!decide (i = j) && bit m j) := by
  have hj : j % 8 < 8 := Nat.mod_lt _ (by decide)
  rw [bit, bit, bitmapReset]
  by_cases hb : j / 8 = i / 8
  · have he : decide (i % 8 = j % 8) = decide (i = j) := decide_eq_decide.2 (by omega)
    rw [hb, update_self, has_and, has_not hj, has_one hj, he, Bool.and_comm]
  · rw [update_of_ne hb, decide_eq_false (by omega : ¬ i = j), Bool.not_false, Bool.true_and]

/-! ## Finding a clear bit -/

/-- What a search from `start` on returns: the first clear bit, now set, or nothing if all are set. -/
def Found (m : Bytes) (bits start : Nat) : Option Nat × Bytes → Prop
  | (some i, m') =>
    start ≤ i ∧ i < bits ∧ bit m i = false ∧ (∀ j, start ≤ j → j < i → bit m j = true) ∧ m' = bitmapSet m i
  | (none, m') => (∀ j, start ≤ j → j < bits → bit m j = true) ∧ m' = m

/-- The loop finds the first clear bit, with the bits before `start` masked. -/
theorem findLoop_spec {mask : UInt8} (hn : idx + n = (bits + 7) / 8) (hs : start < 8 * idx + 8)
    (hmask : ∀ i < 8, has mask i = decide (8 * idx + i < start))
    (hset : ∀ j, start ≤ j → j < 8 * idx → bit m j = true) : Found m bits start (findLoop m bits n idx mask) := by
  induction n generalizing idx mask with
  | zero => exact ⟨fun j hj hb => hset j hj (by omega), rfl⟩
  | succ n ih =>
    -- a bit of this byte that counts is one of the masked byte
    have hbit : ∀ j, start ≤ j → j / 8 = idx → bit m j = has (m idx ||| mask) (j % 8) := by
      intro j hj hd
      rw [has_or, hmask _ (Nat.mod_lt _ (by decide)), bit, hd, decide_eq_false (by omega), Bool.or_false]
    rw [findLoop]
    split
    · next hfull =>
      refine ih (by omega) (by omega) (fun i hi => ?_) fun j hj hlt => ?_
      · rw [decide_eq_false (by omega)]
        simp [has]
      by_cases hd : j / 8 = idx
      · rw [hbit j hj hd]
        exact eq_full_iff.1 hfull _ (Nat.mod_lt _ (by decide))
      · exact hset j hj (by omega)
    next hfull =>
    obtain ⟨h8, hclear, hlow⟩ := poplow_spec hfull
    generalize poplow (m idx ||| mask) = low at h8 hclear hlow
    have hstart : start ≤ low + 8 * idx := by
      rw [has_or, Bool.or_eq_false_iff, hmask low h8, decide_eq_false_iff_not] at hclear
      omega
    have hbelow : ∀ j, start ≤ j → j < low + 8 * idx → bit m j = true := by
      intro j hj hlt
      by_cases hd : j / 8 = idx
      · rw [hbit j hj hd]
        exact hlow _ (by omega)
      · exact hset j hj (by omega)
    dsimp only
    split
    · exact ⟨fun j hj hb => hbelow j hj (by omega), rfl⟩
    refine ⟨hstart, by omega, ?_, hbelow, ?_⟩
    · rw [hbit _ hstart (by omega), show (low + 8 * idx) % 8 = low by omega]
      exact hclear
    · rw [bitmapSet, show (low + 8 * idx) / 8 = idx by omega, show (low + 8 * idx) % 8 = low by omega]

/-- **A search returns the first clear bit and sets it, or there is none.** -/
theorem bitmapFindFrom_found (m : Bytes) (hs : start < bits) : Found m bits start (bitmapFindFrom m bits start) := by
  refine findLoop_spec (by omega) (by omega) (fun i hi => ?_) fun j hj hlt => by omega
  rw [has_ofNat hi, Nat.testBit_two_pow_sub_one, decide_eq_decide]
  omega

end TextOS.Klib
