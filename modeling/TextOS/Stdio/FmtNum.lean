import TextOS.Klib.Vsprintf

/-!
# Integer conversions: `app/libc/stdio/vfprintf.c`

An argument is the word that `va_arg` finds. The flags, the letters, the digits and the text of `SPECIAL` are those of
the kernel's `vsprintf`.

- **the text of a number reads back as the number** (`number_printed`), except for an `unsigned int` with its top bit
  set and for the smallest `int` (`number_wrong`): `va_arg` fetches both as an `int`, which is then made 64 bits wide.
-/

namespace TextOS.Vfprintf

open Lib List Vsprintf

variable {bits : Nat} {sign : Bool} {v : Int}

/-- The bits of the type that the length modifiers name, `len` counts them. -/
def bitsOf (len : Int) : Option Nat :=
  if len = -2 then some 8 else if len = -1 then some 16 else if len = 0 then some 32
  else if len = 1 ∨ len = 2 then some 64 else none

/-- `v` and `minus`; types of less than 32 bits come as an `int`, and so does their negative. -/
def fetch (bits : Nat) (sign : Bool) (a : Nat) : Nat × Bool :=
  let v : Nat := ((a : Int).bmod (2 ^ max 32 bits) % 2 ^ 64).toNat
  let t := (v : Int).bmod (2 ^ bits)
  if sign ∧ t < 0 then (((-t).bmod (2 ^ max 32 bits) % 2 ^ 64).toNat, true) else (v, false)

/-- `fmt_num`: the sign, `prefix` and the digits. -/
def fmtNum (flgs : Flgs) (len : Int) (spec : Conv) (a : Nat) : Option (Int × List Char × List Char) :=
  (bitsOf len).map fun bits =>
    let v := fetch bits spec.sign a
    (if v.2 then -1 else 1, mark flgs spec.radix spec.upper, number v.1 spec.radix spec.upper)

/-- The character before the number. -/
def signChar (flgs : Flgs) (sign : Int) : Option Char :=
  if sign < 0 then some '-' else if flgs.sign then some '+' else if flgs.space then some ' ' else none

/-- What `vfprintf` prints for one conversion. -/
def field (flgs : Flgs) (width sign : Int) (pre s : List Char) : List Char :=
  let padsz := (width - (s.length + pre.length)).toNat
  (if ¬flgs.zero ∧ ¬flgs.left then List.replicate padsz ' ' else []) ++ (signChar flgs sign).toList ++ pre ++
    (if flgs.zero then List.replicate padsz '0' else []) ++ s ++
    if ¬flgs.zero ∧ flgs.left then List.replicate padsz ' ' else []

/-- `vfprintf` of one conversion of a number. -/
def printNum (flgs : Flgs) (len width : Int) (spec : Conv) (a : Nat) : Option (List Char) :=
  (fmtNum flgs len spec a).map fun r => field flgs width r.1 r.2.1 r.2.2

/-- The values of the type that a conversion takes. -/
def InType (bits : Nat) (sign : Bool) (v : Int) : Prop :=
  if sign then -2 ^ (bits - 1) ≤ v ∧ v < 2 ^ (bits - 1) else 0 ≤ v ∧ v < 2 ^ bits

/-- The value survives the way through an `int`. -/
def Survives (bits : Nat) (sign : Bool) (v : Int) : Prop := bits = 32 → v ≠ -2 ^ 31 ∧ (sign = false → v < 2 ^ 31)

/-- The number that `v` and `minus` are. -/
def signed (w : Nat × Bool) : Int := if w.2 then -w.1 else w.1

/-- The number that a printed text denotes; spaces may stand on both sides. -/
def readBack (radix : Nat) (text : List Char) : Option Int := decode radix (text.rdropWhile (· = ' '))

theorem fetch_eq (hb : bits ∈ [8, 16, 32, 64]) (hv : InType bits sign v) (hs : Survives bits sign v) :
    fetch bits sign (encode v) = (v.natAbs, decide (v < 0)) := by
  have hle : bits ≤ 64 ∧ max 32 bits ≤ 64 := by
    simp only [mem_cons, not_mem_nil, or_false] at hb
    omega
  unfold fetch encode
  dsimp only
  unfold InType at hv
  unfold Survives at hs
  simp only [mem_cons, not_mem_nil, or_false] at hb
  rcases hb with rfl | rfl | rfl | rfl <;> cases sign <;> norm_num [Int.bmod] at hv hs ⊢ <;> split_ifs <;>
    first | omega | (simp; omega)

/-- An `int` is made 64 bits wide: its negative, or the unsigned value, becomes one near 2 ^ 64. -/
theorem signed_fetch_ne (hv : InType bits sign v) (hs : ¬ Survives bits sign v) :
    signed (fetch bits sign (encode v)) ≠ v := by
  unfold Survives at hs
  obtain ⟨rfl, hs⟩ := Classical.not_imp.1 hs
  unfold InType at hv
  cases sign with
  | true =>
    have hmin : v = -2 ^ 31 := by simpa using hs
    subst hmin
    decide
  | false =>
    have hlow : 2 ^ 31 ≤ v ∧ v < 2 ^ 32 := by
      norm_num at hv hs ⊢
      omega
    have hw : fetch 32 false (encode v) = (v.toNat + (2 ^ 64 - 2 ^ 32), false) := by
      unfold fetch encode
      norm_num [Int.bmod] at hlow ⊢
      split_ifs <;> omega
    rw [hw, signed, if_neg Bool.false_ne_true]
    push_cast
    omega

theorem bitsOf_mem {len : Int} (h : bitsOf len = some bits) : bits ∈ [8, 16, 32, 64] := by
  unfold bitsOf at h
  split_ifs at h <;> simp_all

theorem signChar_spec (flgs : Flgs) (sign : Int) : signChar flgs sign ∈ [none, some ' ', some '+', some '-'] ∧
    (signChar flgs sign = some '-' ↔ sign < 0) := by
  unfold signChar
  split_ifs <;> simp_all

/-- The padding: spaces on one side, or zeros before the digits. -/
theorem field_eq (flgs : Flgs) (width sign : Int) (pre s : List Char) : ∃ n k m, field flgs width sign pre s =
    List.replicate n ' ' ++ ((signChar flgs sign).toList ++ (pre ++ (List.replicate k '0' ++ s))) ++
    List.replicate m ' ' := by
  unfold field
  cases flgs.zero
  · cases flgs.left
    · exact ⟨_, 0, 0, by simp; rfl⟩
    · exact ⟨0, 0, _, by simp; rfl⟩
  · exact ⟨0, _, 0, by simp; rfl⟩

theorem readBack_append {c : Char} (hc : c ≠ ' ') (radix : Nat) (l : List Char) (m : Nat) :
    readBack radix (l ++ [c] ++ List.replicate m ' ') = decode radix (l ++ [c]) := by
  unfold readBack rdropWhile
  rw [reverse_append, reverse_replicate, dropWhile_append_of_pos fun x hx =>
    by simp [eq_of_mem_replicate hx], reverse_append,
    reverse_singleton, singleton_append, dropWhile_cons_of_neg (by simpa using hc)]
  simp

/-- The text of a conversion reads back as the number that was fetched. -/
theorem printNum_reads (flgs : Flgs) (len width : Int) (spec : Conv) (a : Nat) (hlen : bitsOf len = some bits) :
    (printNum flgs len width spec a).bind (readBack spec.radix) = some (signed (fetch bits spec.sign a)) := by
  have hradix : spec.radix = 8 ∨ spec.radix = 10 ∨ spec.radix = 16 := by cases spec <;> simp [Conv.radix]
  rw [printNum, fmtNum, hlen, Option.map_some, Option.map_some]
  obtain ⟨w, minus⟩ := fetch bits spec.sign a
  dsimp only
  obtain ⟨ds, hnum, hne, hds, hval⟩ := number_spec w spec.upper (by omega : 1 < spec.radix)
  obtain ⟨n, k, m, hfield⟩ := field_eq flgs width (if minus then -1 else 1) (mark flgs spec.radix spec.upper)
    (ds.map (letters spec.upper))
  obtain ⟨hmem, hminus⟩ := signChar_spec flgs (if minus then -1 else 1)
  -- the zeros of the padding are more digits
  have hzeros : List.replicate k '0' ++ ds.map (letters spec.upper) = (List.replicate k 0 ++ ds).map
    (letters spec.upper) := by
    rw [map_append, map_replicate, letters_zero]
  have hlt : ∀ d ∈ List.replicate k 0 ++ ds, d < spec.radix := fun d hd => by
    rcases mem_append.1 hd with hd | hd
    · rw [eq_of_mem_replicate hd]
      omega
    · exact hds d hd
  obtain ⟨l, d, rfl⟩ := (eq_nil_or_concat' ds).resolve_left hne
  have hd : letters spec.upper d ≠ ' ' := (letters_ne _ ((hds d (by simp)).trans_le (by omega))).1
  obtain ⟨t, ht⟩ : ∃ t, List.replicate n ' ' ++ ((signChar flgs (if minus then -1 else 1)).toList ++
      (mark flgs spec.radix spec.upper ++ (List.replicate k 0 ++ (l ++ [d])).map (letters spec.upper))) =
      t ++ [letters spec.upper d] := by
    simp only [map_append, map_cons, map_nil, ← append_assoc]
    exact ⟨_, rfl⟩
  rw [hnum, hfield, hzeros, ht, Option.bind_some, readBack_append hd, ← ht,
    decode_field flgs spec.upper hradix (by simp) hlt hmem, value_append, value_replicate_zero, Nat.zero_mul,
    Nat.zero_add, hval]
  simp only [hminus, signed]
  cases minus <;> rfl

/-- **The text of a number reads back as the number** iff the value survives the way through an `int`. -/
theorem number_printed (flgs : Flgs) (len width : Int) (spec : Conv) (bits : Nat) (v : Int)
    (hlen : bitsOf len = some bits) (hv : InType bits spec.sign v) :
    (printNum flgs len width spec (encode v)).bind (readBack spec.radix) = some v ↔ Survives bits spec.sign v := by
  rw [printNum_reads flgs len width spec _ hlen, Option.some_inj]
  refine ⟨fun h => not_not.1 fun hs => signed_fetch_ne hv hs h, fun hs => ?_⟩
  rw [fetch_eq (bitsOf_mem hlen) hv hs, signed]
  simp only [decide_eq_true_eq]
  split_ifs <;> omega

/-- The smallest `long` is printed rightly, the smallest `int` is not. -/
theorem number_printed_min :
    (printNum { zero := true } 1 8 .d (encode (-2 ^ 63))).bind (readBack 10) = some (-2 ^ 63) ∧
    (printNum {} 0 0 .d (encode (-2 ^ 31))).bind (readBack 10) ≠ some (-2 ^ 31) :=
  ⟨(number_printed { zero := true } 1 8 .d 64 (-2 ^ 63) rfl (by simp [InType, Conv.sign])).2 nofun,
    fun h => ((number_printed {} 0 0 .d 32 (-2 ^ 31) rfl (by simp [InType, Conv.sign])).1 h rfl).1 rfl⟩

/-- `%u` of 2147483648 and `%d` of -2147483648. -/
theorem number_wrong : printNum {} 0 0 .u (encode (2 ^ 31)) = some "18446744071562067968".toList ∧
    printNum {} 0 0 .d (encode (-2 ^ 31)) = some "-18446744071562067968".toList := by
  decide +kernel

end TextOS.Vfprintf
