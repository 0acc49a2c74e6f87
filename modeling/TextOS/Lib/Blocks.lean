import Mathlib

/-!
# Contents of a list of blocks

A file is kept in blocks of `bs` elements each. `Shows blk bs ds t`: the blocks `ds` hold the contents `t`, the last
block may hold more.

- `splice t off data` are the contents with `data` written at `off`; writing piece by piece is writing the whole
  (`splice_splice`);
- **writing inside one block writes the contents** (`Shows.write`), and reading inside one block reads them
  (`Shows.read`).
-/

namespace TextOS.Lib

open List Function

variable {α β : Type}

/-- The contents with `data` written at `off`. -/
def splice (t : List α) (off : Nat) (data : List α) : List α := t.take off ++ data ++ t.drop (off + data.length)

variable {t data data' : List α} {off i n bs : Nat}

theorem getElem?_splice (h : off ≤ t.length) :
    (splice t off data)[i]? = if off ≤ i ∧ i < off + data.length then data[i - off]? else t[i]? := by
  have hlen : (t.take off).length = off := length_take_of_le h
  rw [splice, append_assoc]
  by_cases hlt : i < off
  · rw [getElem?_append_left (by omega), getElem?_take, if_pos hlt, if_neg (by omega)]
  rw [getElem?_append_right (by omega), hlen]
  by_cases hin : i < off + data.length
  · rw [getElem?_append_left (by omega), if_pos (by omega)]
  rw [getElem?_append_right (by omega), getElem?_drop, if_neg (by omega)]
  congr 1
  omega

theorem length_splice (h : off ≤ t.length) : (splice t off data).length = max t.length (off + data.length) := by
  rw [splice, length_append, length_append, length_take, length_drop]
  omega

theorem splice_nil (h : off ≤ t.length) : splice t off [] = t := by
  refine ext_getElem? fun i => ?_
  rw [getElem?_splice h, if_neg (by simp)]

theorem splice_splice (data data' : List α) (h : off ≤ t.length) :
    splice (splice t off data) (off + data.length) data' = splice t off (data ++ data') := by
  refine ext_getElem? fun i => ?_
  rw [getElem?_splice (by rw [length_splice h]; omega), getElem?_splice h, getElem?_splice h, length_append]
  by_cases h1 : off + data.length ≤ i ∧ i < off + data.length + data'.length
  · rw [if_pos h1, if_pos (by omega), getElem?_append_right (by omega)]
    congr 1
    omega
  rw [if_neg h1]
  by_cases h2 : off ≤ i ∧ i < off + data.length
  · rw [if_pos h2, if_pos (by omega), getElem?_append_left (by omega)]
  · rw [if_neg h2, if_neg (by omega)]

/-! ## Blocks -/

/-- The block with `data` at `off`. -/
def writeAt (m : Nat → α) (off : Nat) (data : List α) : Nat → α := fun x =>
  if off ≤ x then data[x - off]?.getD (m x) else m x

/-- The `n` elements at `off`. -/
def readAt (m : Nat → α) (off n : Nat) : List α := (List.range n).map fun j => m (off + j)

theorem writeAt_of_apart (m : Nat → α) (h : i < off ∨ off + data.length ≤ i) : writeAt m off data i = m i := by
  rw [writeAt]
  split
  · rw [getElem?_eq_none (by omega)]
    rfl
  · rfl

/-- The blocks `ds` hold `t`. -/
def Shows (blk : β → Nat → α) (bs : Nat) (ds : List β) (t : List α) : Prop :=
  ∀ i a, t[i]? = some a → ∃ b, ds[i / bs]? = some b ∧ blk b (i % bs) = a

variable {blk blk' : β → Nat → α} {ds : List β} {b : β}

theorem Shows.congr (h : Shows blk bs ds t) (hb : ∀ b ∈ ds, blk' b = blk b) : Shows blk' bs ds t := by
  intro i a hi
  obtain ⟨b, hd, hv⟩ := h i a hi
  exact ⟨b, hd, by rw [hb b (mem_of_getElem? hd), hv]⟩

theorem Shows.append (h : Shows blk bs ds t) (es : List β) : Shows blk bs (ds ++ es) t := by
  intro i a hi
  obtain ⟨b, hd, hv⟩ := h i a hi
  exact ⟨b, by rw [List.getElem?_append_left (List.getElem?_eq_some_iff.1 hd).1, hd], hv⟩

theorem Shows.take (h : Shows blk bs ds t) (n : Nat) : Shows blk bs ds (t.take n) := by
  intro i a hi
  rw [getElem?_take] at hi
  split at hi
  next => exact h i a hi
  next => cases hi

theorem Shows.snoc (h : Shows blk bs ds t) (hlt : t.length < bs * ds.length) : ∃ a, Shows blk bs ds (t ++ [a]) := by
  obtain ⟨b, hb⟩ : ∃ b, ds[t.length / bs]? = some b := ⟨_, getElem?_eq_getElem (Nat.div_lt_of_lt_mul hlt)⟩
  refine ⟨blk b (t.length % bs), fun i a hi => ?_⟩
  by_cases hlt : i < t.length
  · rw [getElem?_append_left hlt] at hi
    exact h i a hi
  rw [getElem?_append_right (by omega), getElem?_singleton] at hi
  split at hi
  next h0 =>
    obtain rfl : i = t.length := by omega
    exact ⟨b, hb, Option.some.inj hi⟩
  next => cases hi

theorem Shows.pad (h : Shows blk bs ds t) {k : Nat} (hk : t.length + k ≤ bs * ds.length) :
    ∃ gap : List α, gap.length = k ∧ Shows blk bs ds (t ++ gap) := by
  induction k with
  | zero => exact ⟨[], rfl, by rwa [append_nil]⟩
  | succ k ih =>
    obtain ⟨gap, hlen, hgap⟩ := ih (by omega)
    obtain ⟨a, ha⟩ := hgap.snoc (by rw [length_append]; omega)
    exact ⟨gap ++ [a], by rw [length_append, hlen]; rfl, by rwa [← append_assoc]⟩

theorem div_mod_add (off : Nat) (hn : off % bs + n < bs) : (off + n) / bs = off / bs ∧
    (off + n) % bs = off % bs + n := by
  have hsplit : off + n = bs * (off / bs) + (off % bs + n) := by rw [← Nat.add_assoc, Nat.div_add_mod]
  rw [hsplit]
  constructor
  · rw [Nat.mul_add_div (by omega), Nat.div_eq_of_lt hn, Nat.add_zero]
  · rw [Nat.mul_add_mod, Nat.mod_eq_of_lt hn]

/-- **Writing inside one block writes the contents.** -/
theorem Shows.write [DecidableEq β] (h : Shows blk bs ds t) (hnd : ds.Nodup) (hb : ds[off / bs]? = some b)
    (hoff : off ≤ t.length) (hfit : off % bs + data.length ≤ bs) :
    Shows (update blk b (writeAt (blk b) (off % bs) data)) bs ds (splice t off data) := by
  intro i a hi
  rw [getElem?_splice hoff] at hi
  split at hi
  next hin =>
    obtain ⟨n, rfl⟩ : ∃ n, i = off + n := ⟨i - off, by omega⟩
    obtain ⟨hdiv, hmod⟩ := div_mod_add off (by omega : off % bs + n < bs)
    refine ⟨b, by rw [hdiv, hb], ?_⟩
    rw [Nat.add_sub_cancel_left] at hi
    rw [update_self, hmod, writeAt, if_pos (by omega), Nat.add_sub_cancel_left, hi]
    rfl
  next hout =>
    obtain ⟨b', hd, hv⟩ := h i a hi
    refine ⟨b', hd, ?_⟩
    by_cases he : b' = b
    · subst he
      -- the same block, so another place in it
      have hdiv : i / bs = off / bs := (List.getElem?_inj (List.getElem?_eq_some_iff.1 hd).1 hnd).1 (hd.trans hb.symm)
      rw [update_self, writeAt_of_apart, hv]
      have h1 := Nat.div_add_mod i bs
      have h2 := Nat.div_add_mod off bs
      rw [hdiv] at h1
      omega
    · rw [update_of_ne he, hv]

/-- **Reading inside one block reads the contents.** -/
theorem Shows.read (h : Shows blk bs ds t) (hb : ds[off / bs]? = some b) (hlen : off + n ≤ t.length)
    (hfit : off % bs + n ≤ bs) : readAt (blk b) (off % bs) n = (t.drop off).take n := by
  refine ext_getElem? fun j => ?_
  rw [readAt, getElem?_map, getElem?_take]
  by_cases hj : j < n
  · rw [getElem?_range hj, if_pos hj, getElem?_drop, Option.map_some]
    obtain ⟨hdiv, hmod⟩ := div_mod_add off (by omega : off % bs + j < bs)
    obtain ⟨b', hd, hv⟩ := h (off + j) _ (getElem?_eq_getElem (by omega))
    rw [hdiv, hb] at hd
    rw [hmod] at hv
    rw [getElem?_eq_getElem (by omega), Option.some.inj hd, hv]
  · rw [if_neg hj, getElem?_eq_none (by rw [length_range]; omega)]
    rfl

end TextOS.Lib
