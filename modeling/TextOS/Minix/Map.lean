import TextOS.Klib.Bitmap

/-!
# Bitmaps over several blocks: `kernel/fs/minix/minix.c`

The inode and zone bitmaps take several blocks of `xmapnr_perblk` bits each. `minix_ialloc` and `minix_zalloc` look for
a clear bit block after block (`xmapFind`), `minix_ifree` and `minix_zfree` clear a bit (`xmapReset`).

- **`xmapFind` returns a clear bit that is set then, and fails only if there is none** (`xmapFind_some`,
  `xmapFind_none`).
-/

namespace TextOS.Minix

open Lib Klib Function

/-- Bit `k` of a bitmap with `p` bits in a block. -/
def xmapBit (p : Nat) (map : Nat → Bytes) (k : Nat) : Bool := bit (map (k / p)) (k % p)

/-- The search of `minix_ialloc` and `minix_zalloc` in `n` blocks from `b` on. -/
def xmapFind (p : Nat) (map : Nat → Bytes) : Nat → Nat → Option (Nat × (Nat → Bytes))
  | 0, _ => none
  | n + 1, b =>
    match bitmapFind (map b) p with
    | (some i, m) => some (b * p + i, update map b (bitmapSet m i))
    | (none, _) => xmapFind p map n (b + 1)

/-- What `minix_ifree` and `minix_zfree` do to the bitmap. -/
def xmapReset (p : Nat) (map : Nat → Bytes) (k : Nat) : Nat → Bytes :=
  update map (k / p) (bitmapReset (map (k / p)) (k % p))

variable {p n b i j k : Nat} {map map' : Nat → Bytes}

theorem eq_iff_div_mod (p i j : Nat) : i = j ↔ i / p = j / p ∧ i % p = j % p := by
  refine ⟨fun h => h ▸ ⟨rfl, rfl⟩, fun ⟨hd, hm⟩ => ?_⟩
  rw [← Nat.div_add_mod i p, ← Nat.div_add_mod j p, hd, hm]

theorem xmapBit_update (p : Nat) (map : Nat → Bytes) (b : Nat) (m : Bytes) (j : Nat) :
    xmapBit p (update map b m) j = if j / p = b then bit m (j % p) else xmapBit p map j := by
  rw [xmapBit, xmapBit]
  split
  · next h => rw [h, update_self]
  · next h => rw [update_of_ne h]

theorem xmapBit_reset (p : Nat) (map : Nat → Bytes) (k j : Nat) :
    xmapBit p (xmapReset p map k) j = (!decide (k = j) && xmapBit p map j) := by
  rw [xmapReset, xmapBit_update]
  split
  · next h =>
    have he : decide (k % p = j % p) = decide (k = j) :=
      decide_eq_decide.2 ((and_iff_right h.symm).symm.trans (eq_iff_div_mod p k j).symm)
    rw [bit_bitmapReset, xmapBit, h, he]
  next h =>
  have hne : ¬ k = j := fun he => h (he ▸ rfl)
  rw [decide_eq_false hne, Bool.not_false, Bool.true_and]

/-- What is found was clear and is the only bit that changes. -/
theorem xmapFind_some (hp : 0 < p) (h : xmapFind p map n b = some (k, map')) :
    k < (b + n) * p ∧ xmapBit p map k = false ∧ ∀ j, xmapBit p map' j = (decide (k = j) || xmapBit p map j) := by
  induction n generalizing b with
  | zero => cases h
  | succ n ih =>
    have hf := bitmapFindFrom_found (map b) hp
    rw [xmapFind, bitmapFind] at h
    match hr : bitmapFindFrom (map b) p 0 with
    | (none, m) =>
      simp only [hr] at h
      rw [show b + (n + 1) = b + 1 + n by omega]
      exact ih h
    | (some i, m) =>
      rw [hr] at hf
      simp only [hr, Option.some.injEq, Prod.mk.injEq] at h
      obtain ⟨rfl, rfl⟩ := h
      obtain ⟨-, hi, hclear, -, rfl⟩ := hf
      have hd : (b * p + i) / p = b := by rw [Nat.mul_comm, Nat.mul_add_div hp, Nat.div_eq_of_lt hi, Nat.add_zero]
      have hm : (b * p + i) % p = i := by rw [Nat.mul_comm, Nat.mul_add_mod, Nat.mod_eq_of_lt hi]
      refine ⟨?_, by rw [xmapBit, hd, hm, hclear], fun j => ?_⟩
      · calc b * p + i < b * p + 1 * p := by omega
          _ = (b + 1) * p := by rw [Nat.add_mul]
          _ ≤ (b + (n + 1)) * p := Nat.mul_le_mul_right p (by omega)
      rw [xmapBit_update]
      split
      · next h =>
        have he : decide (i = j % p) = decide (b * p + i = j) := by
          rw [decide_eq_decide, eq_iff_div_mod p (b * p + i) j, hd, hm]
          exact (and_iff_right h.symm).symm
        rw [bit_bitmapSet, bit_bitmapSet, xmapBit, h, he, ← Bool.or_assoc, Bool.or_self]
      next h =>
      have hne : ¬ b * p + i = j := fun he => h (he ▸ hd)
      rw [decide_eq_false hne, Bool.false_or]

/-- Where nothing is found every bit is set. -/
theorem xmapFind_none (hp : 0 < p) (h : xmapFind p map n b = none) (hk : b * p ≤ k) (hk' : k < (b + n) * p) :
    xmapBit p map k = true := by
  induction n generalizing b with
  | zero => exact absurd hk' (by rw [Nat.add_zero]; omega)
  | succ n ih =>
    have hf := bitmapFindFrom_found (map b) hp
    rw [xmapFind, bitmapFind] at h
    match hr : bitmapFindFrom (map b) p 0 with
    | (some i, m) => simp [hr] at h
    | (none, m) =>
      rw [hr] at hf
      simp only [hr] at h
      by_cases hb : k < (b + 1) * p
      · have hd : k / p = b := Nat.div_eq_of_lt_le hk hb
        rw [xmapBit, hd]
        exact hf.1 _ (Nat.zero_le _) (Nat.mod_lt _ hp)
      · exact ih h (by omega) (by rwa [show b + 1 + n = b + (n + 1) by omega])

end TextOS.Minix
