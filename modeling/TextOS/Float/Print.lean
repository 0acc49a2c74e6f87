import TextOS.Lib.Digits

/-!
# The conversion `%a`: `app/libc/stdio/vfprintf.c`, `big.h`

The bits of a `double` as hexadecimal text. `fmt_fp` passes two variables to `big_tohex` that have no value yet; what is
in them is `Garbage`.

- `bigTohex`: the digits of the fraction, by long division of its decimal digits.
-/

namespace TextOS.Float

def FRACBITS : Nat := 52
def BIAS : Int := 1023

/-- What is in `dummy`, up to the first zero, and in `erupt` before they are set. -/
structure Garbage where
  dummy : List Char
  erupt : Int

inductive FpClass
  | nan
  | inf
  | norm
  | subnorm
  | zero
deriving DecidableEq

/-- The fields of a `double`. -/
structure Fields where
  sign : Nat
  expo : Nat
  frac : Nat

/-- `__xfp_binary64`. -/
def xfp (x : UInt64) : Fields := ⟨x.toNat / 2 ^ 63, x.toNat / 2 ^ 52 % 2 ^ 11, x.toNat % 2 ^ 52⟩

/-- The class of a `double`. -/
def Fields.cl (f : Fields) : FpClass :=
  if f.expo = 0 then (if f.frac = 0 then .zero else .subnorm)
  else if f.expo = 0x7ff then (if f.frac = 0 then .inf else .nan)
  else .norm

/-! ## Digits -/

/-- `big_push_u128` to an empty number: the decimal digits. -/
def bigPushU128 (num : Nat) : List Nat := (Nat.digits 10 num).reverse

/-- The decimal digits divided by 16, and the remainder. -/
def divide : Nat → List Nat → List Nat × Nat
  | rem, [] => ([], rem)
  | rem, d :: num =>
    let cur := rem * 10 + d
    let r := divide (cur % 16) num
    (cur / 16 :: r.1, r.2)

/-- The remainders, the first one first. -/
def remainders : Nat → List Nat → Option (List Nat)
  | _, [] => some []
  | 0, _ :: _ => none
  | fuel + 1, num =>
    let r := divide 0 num
    (remainders fuel (r.1.dropWhile (· = 0))).map (r.2 :: ·)

/-- The carry from the right, for digits with the last one first. -/
def addCarry : Bool → List Nat → List Nat × Bool
  | carry, [] => ([], carry)
  | carry, d :: ds =>
    let h := if carry then d + 1 else d
    let r := addCarry (16 ≤ h) ds
    ((if 16 ≤ h then h - 16 else h) :: r.1, r.2)

/-- The digits that are printed, the precision that is left, and `erupt`. -/
def round (hex : List Nat) (prec : Int) : List Nat × Int × Int :=
  if prec < 0 then ((hex.reverse.dropWhile (· = 0)).reverse, 0, 0)
  else if prec < hex.length then
    let p := prec.toNat
    let carry := 8 < hex.getD p 0 ∨ hex.getD p 0 = 8 ∧ hex.getD (p - 1) 0 % 2 = 1
    let r := addCarry carry (hex.take p).reverse
    (r.1.reverse, 0, if r.2 then 1 else 0)
  else (hex, prec - hex.length, 0)

/-- `lwstr` and `upstr`. -/
def letter (lower : Bool) (d : Nat) : Char :=
  ((if lower then "0123456789abcdef" else "0123456789ABCDEF").toList).getD d '0'

/-- What `big_tohex` returns and stores. -/
structure Hex where
  buf : List Char
  hexsz : Nat
  prec : Int
  erupt : Int

def bigTohex (g : Garbage) (a : List Nat) (lower : Bool) (hexcnt : Nat) (prec : Int) : Option Hex :=
  if a.length = 0 then some ⟨g.dummy, 0, prec, g.erupt⟩
  else do
    let hex ← remainders a.length a
    let hex := hex.reverse
    let hex := List.replicate (hexcnt - hex.length) 0 ++ hex
    let r := round hex prec
    return ⟨r.1.map (letter lower), r.1.length, r.2.1, r.2.2⟩

/-! ## The text -/

def fmtExp (type : Char) (e : Int) (wid : Nat) : List Char :=
  let ds := (Nat.digits 10 e.natAbs).reverse
  type :: (if 0 ≤ e then '+' else '-') :: ((List.replicate (wid - ds.length) 0 ++ ds).map (letter true))

/-- What `fmt_fp` returns and stores. -/
structure Parts where
  sign : Int
  pre : List Char
  fpbuf : List Char
  suffix : List Char
  prec : Int

/-- `fmt_fp` for the conversions `a` (`lower`) and `A`; `special` is the flag `#`. -/
def fmtFp (g : Garbage) (x : UInt64) (lower special : Bool) (prec : Int) : Option Parts :=
  let f := xfp x
  let sign := if f.sign ≠ 0 then -1 else 1
  let pre := ['0', if lower then 'x' else 'X']
  match f.cl with
  | .nan => some ⟨sign, [], (if lower then "nan" else "NAN").toList, [], 0⟩
  | .inf => some ⟨sign, [], (if lower then "inf" else "INF").toList, [], 0⟩
  | .zero => some ⟨sign, pre, (if 0 < prec then "0." else "0").toList, "p+0".toList, prec⟩
  | cl => do
    let h ← bigTohex g (bigPushU128 f.frac) lower (FRACBITS / 4) prec
    let m := (if cl ≠ .subnorm then 1 else 0) + (if h.erupt ≠ 0 then 1 else 0)
    let hid := letter true m :: (if 0 < h.hexsz ∨ special then ['.'] else [])
    let e := if cl ≠ .subnorm then (f.expo : Int) - BIAS else 1 - BIAS
    return ⟨sign, pre, hid ++ h.buf, fmtExp 'p' e 1, h.prec⟩

/-- `vfprintf` for the conversion `%a` without flags, width and precision. -/
def vfprintfA (g : Garbage) (x : UInt64) : Option (List Char) := do
  let r ← fmtFp g x true false (-1)
  return (if r.sign < 0 then ['-'] else []) ++ r.pre ++ r.fpbuf ++ List.replicate r.prec.toNat '0' ++ r.suffix

end TextOS.Float
