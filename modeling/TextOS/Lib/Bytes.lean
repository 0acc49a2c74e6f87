import Mathlib

/-!
# Byte memory with 32-bit words

`Bytes` is a memory of bytes; `word m a` reads the little-endian 32-bit word at `a` and `putWord m a v` writes one.

- a word reads back as written (`word_putWord`), and other words and bytes keep their value (`word_putWord_of_apart`,
  `putWord_of_apart`).
-/

namespace TextOS.Lib

abbrev Bytes := Nat → UInt8

/-- The word at `a`. -/
def word (m : Bytes) (a : Nat) : Nat :=
  (m a).toNat + 2 ^ 8 * (m (a + 1)).toNat + 2 ^ 16 * (m (a + 2)).toNat + 2 ^ 24 * (m (a + 3)).toNat

/-- The memory with the low 32 bits of `v` stored at `a`. -/
def putWord (m : Bytes) (a v : Nat) : Bytes := fun x =>
  if x = a then .ofNat v
  else if x = a + 1 then .ofNat (v / 2 ^ 8)
  else if x = a + 2 then .ofNat (v / 2 ^ 16)
  else if x = a + 3 then .ofNat (v / 2 ^ 24)
  else m x

theorem putWord_of_apart (m : Bytes) {a x : Nat} (v : Nat) (h : x < a ∨ a + 4 ≤ x) : putWord m a v x = m x := by
  unfold putWord
  rw [if_neg (by omega), if_neg (by omega), if_neg (by omega), if_neg (by omega)]

/-- **A word reads back as written.** -/
theorem word_putWord (m : Bytes) (a v : Nat) : word (putWord m a v) a = v % 2 ^ 32 := by
  simp [word, putWord]
  omega

theorem word_congr {m m' : Bytes} {a : Nat} (h : ∀ x, a ≤ x → x < a + 4 → m' x = m x) : word m' a = word m a := by
  unfold word
  rw [h a (by omega) (by omega), h (a + 1) (by omega) (by omega), h (a + 2) (by omega) (by omega),
    h (a + 3) (by omega) (by omega)]

/-- **Other words keep their value.** -/
theorem word_putWord_of_apart (m : Bytes) {a b : Nat} (v : Nat) (h : b + 4 ≤ a ∨ a + 4 ≤ b) :
    word (putWord m a v) b = word m b :=
  word_congr fun x _ _ => putWord_of_apart m v (by omega)

/-- The memories differ at most in `[s, t)`. -/
def SameOutside (m m' : Bytes) (s t : Nat) : Prop := ∀ x, x < s ∨ t ≤ x → m' x = m x

theorem SameOutside.refl (m : Bytes) (s t : Nat) : SameOutside m m s t := fun _ _ => rfl

theorem SameOutside.trans {m m' m'' : Bytes} {s t : Nat} (h : SameOutside m m' s t) (h' : SameOutside m' m'' s t) :
    SameOutside m m'' s t := fun x hx => (h' x hx).trans (h x hx)

theorem SameOutside.mono {m m' : Bytes} {s t s' t' : Nat} (h : SameOutside m m' s t) (hs : s' ≤ s) (ht : t ≤ t') :
    SameOutside m m' s' t' := fun x hx => h x (by omega)

theorem SameOutside.putWord {m m' : Bytes} {s t : Nat} (h : SameOutside m m' s t) {a : Nat} (v : Nat) (hs : s ≤ a)
    (ht : a + 4 ≤ t) : SameOutside m (putWord m' a v) s t :=
  fun x hx => (putWord_of_apart m' v (by omega)).trans (h x hx)

theorem SameOutside.word {m m' : Bytes} {s t a : Nat} (h : SameOutside m m' s t) (ha : a + 4 ≤ s ∨ t ≤ a) :
    word m' a = word m a :=
  word_congr fun x _ _ => h x (by omega)

/-! ## 64-bit words and lists of bytes -/

/-- The 64-bit word at `a`. -/
def quad (m : Bytes) (a : Nat) : Nat := word m a + 2 ^ 32 * word m (a + 4)

/-- The memory with the low 64 bits of `v` stored at `a`. -/
def putQuad (m : Bytes) (a v : Nat) : Bytes := putWord (putWord m a v) (a + 4) (v / 2 ^ 32)

theorem quad_putQuad (m : Bytes) (a v : Nat) : quad (putQuad m a v) a = v % 2 ^ 64 := by
  rw [quad, putQuad, word_putWord, word_putWord_of_apart _ _ (by omega), word_putWord]
  omega

theorem quad_congr {m m' : Bytes} {a : Nat} (h : ∀ x, a ≤ x → x < a + 8 → m' x = m x) : quad m' a = quad m a := by
  rw [quad, quad, word_congr fun x hx hx' => h x hx (by omega), word_congr fun x hx hx' => h x (by omega) (by omega)]

theorem putQuad_outside (m : Bytes) (a v : Nat) : SameOutside m (putQuad m a v) a (a + 8) :=
  ((SameOutside.refl m a (a + 8)).putWord v le_rfl (by omega)).putWord _ (by omega) le_rfl

/-- The memory with the words stored from `a` on. -/
def putQuads (m : Bytes) (a : Nat) : List (BitVec 64) → Bytes
  | [] => m
  | v :: vs => putQuads (putQuad m a v.toNat) (a + 8) vs

/-- The words lie from `a` on. -/
def HasQuads (m : Bytes) (a : Nat) (vs : List (BitVec 64)) : Prop :=
  ∀ k (hk : k < vs.length), quad m (a + 8 * k) = vs[k].toNat

theorem putQuads_outside (vs : List (BitVec 64)) :
    ∀ (m : Bytes) (a : Nat), SameOutside m (putQuads m a vs) a (a + 8 * vs.length) := by
  induction vs with
  | nil => exact fun m a => .refl m _ _
  | cons v vs ih =>
    intro m a
    have hlen : a + 8 + 8 * vs.length = a + 8 * (v :: vs).length := by
      rw [List.length_cons]
      omega
    refine ((putQuad_outside m a v.toNat).mono le_rfl (by omega)).trans ?_
    exact (ih (putQuad m a v.toNat) (a + 8)).mono (by omega) hlen.le

theorem HasQuads.congr {m m' : Bytes} {a : Nat} {vs : List (BitVec 64)} (h : HasQuads m a vs)
    (hm : ∀ x, a ≤ x → x < a + 8 * vs.length → m' x = m x) : HasQuads m' a vs := fun k hk =>
  (quad_congr fun x hx hx' => hm x (by omega) (by omega)).trans (h k hk)

/-- **A list of words reads back as stored.** -/
theorem hasQuads_putQuads (vs : List (BitVec 64)) : ∀ (m : Bytes) (a : Nat), HasQuads (putQuads m a vs) a vs := by
  induction vs with
  | nil => exact fun m a k hk => absurd hk (Nat.not_lt_zero k)
  | cons v vs ih =>
    rintro m a (_ | k) hk
    · have hout := putQuads_outside vs (putQuad m a v.toNat) (a + 8)
      change quad _ a = v.toNat
      rw [putQuads, quad_congr fun x _ hx => hout x (.inl hx), quad_putQuad, Nat.mod_eq_of_lt v.isLt]
    · have := ih (putQuad m a v.toNat) (a + 8) k (by simpa using hk)
      rwa [show a + 8 * (k + 1) = a + 8 + 8 * k by omega]

end TextOS.Lib
