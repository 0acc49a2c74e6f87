import Mathlib

/-!
# `strtod`: `app/libc/stdlib/strtod.c`

A text is a list of characters, and a pointer into it is the rest of the text. The conversion of decimal text, `dec2fp`,
is a parameter.

- `packfp`: rounding to the bits of a `double`.
-/

namespace TextOS.Float

def u128 (n : Nat) : Nat := n % 2 ^ 128

def MAX_EXP : Int := 1024
def EXPOBITS : Nat := 11
def FGRSBITS : Nat := 56

/-- The bits of `HUGE_VAL`. -/
def HUGE : Nat := 0x7ff * 2 ^ 52

def isxdigit (c : Char) : Bool := ('0' ≤ c && c ≤ '9') || ('a' ≤ c && c ≤ 'f') || ('A' ≤ c && c ≤ 'F')

def xxdigit (c : Char) : Nat :=
  if '0' ≤ c ∧ c ≤ '9' then c.toNat - '0'.toNat
  else if 'a' ≤ c ∧ c ≤ 'z' then c.toNat - 'a'.toNat + 10
  else c.toNat - 'A'.toNat + 10

/-- `__mkfp_binary64`. -/
def mkfp (signbit : Bool) (frac : Nat) (expo : Int) : UInt64 :=
  UInt64.ofNat ((if signbit then 2 ^ 63 else 0) ||| ((expo % 2 ^ 11).toNat <<< 52) ||| (frac % 2 ^ 52))

/-- `sign < 0 ? -v : v`. -/
def signed (sign : Int) (v : Nat) : UInt64 := UInt64.ofNat (if sign < 0 then v + 2 ^ 63 else v)

/-- The end of `packfp`: rounding to even. -/
def roundfp (sign : Int) (fgrs : Nat) (biased : Int) (sticky : Nat) : UInt64 :=
  let F := (fgrs >>> 3) % 2 ^ 52
  let G := fgrs / 4 % 2
  let R := fgrs / 2 % 2
  let S := fgrs % 2
  let F := if G ≠ 0 ∧ (R ≠ 0 ∨ S ≠ 0 ∨ sticky ≠ 0 ∨ F % 2 ≠ 0) then F + 1 else F
  let biased := if 2 ^ 52 ≤ F then biased + 1 else biased
  let F := if 2 ^ 52 ≤ F then 0 else F
  if 2 ^ EXPOBITS ≤ biased then signed sign HUGE
  else if F = 0 ∧ biased = 0 then signed sign 0
  else mkfp (sign < 0) F biased

def packfp (sign : Int) (fgrs : Nat) (biased : Int) (sticky : Nat) : UInt64 :=
  let extraShift : Int := if biased ≤ 0 then 1 - biased else 0
  let rshift := (127 - (FGRSBITS - 1 : Int) + extraShift).toNat
  let sticky := if 128 ≤ rshift then 1 else if fgrs % 2 ^ rshift ≠ 0 then 1 else sticky
  let fgrs := if 128 ≤ rshift then 0 else fgrs >>> rshift
  roundfp sign fgrs (if biased ≤ 0 then 0 else biased) sticky

/-! ## Hexadecimal text -/

/-- The variables of the first loop of `hex2fp`. -/
structure Scan where
  frac : Nat
  lz : Nat
  elz : Nat
  elzFirst : Nat
  gotdot : Bool
  f128 : Nat

/-- The first loop; `true` if it ends with `goto compute`. -/
def scan : Scan → List Char → Scan × List Char × Bool
  | st, [] => (st, [], false)
  | st, c :: p =>
    if isxdigit c then
      let d := xxdigit c
      let st := { st with
        frac := if st.gotdot then st.frac + 1 else st.frac, elzFirst := if st.elzFirst = 0 then d else st.elzFirst }
      if d ≠ 0 ∨ 0 < st.elz then
        if 128 / 4 ≤ st.elz then (st, c :: p, false)
        else scan { st with elz := st.elz + 1, f128 := u128 (st.f128 * 16 + d) } p
      else scan { st with lz := st.lz + 1 } p
    else if c = '.' then
      if st.gotdot then (st, c :: p, true) else scan { st with gotdot := true } p
    else (st, c :: p, false)

/-- The second loop; `none` if there is a second dot. -/
def scanSticky : Bool → Nat → List Char → Option (Nat × List Char)
  | _, sticky, [] => some (sticky, [])
  | gotdot, sticky, c :: p =>
    if isxdigit c then scanSticky gotdot (sticky ||| xxdigit c) p
    else if c = '.' then (if gotdot then none else scanSticky true sticky p)
    else some (sticky, c :: p)

/-- The digits of `stoint`. -/
def stointLoop : Int → Nat → List Char → Int × Nat × List Char
  | r, n, [] => (r, n, [])
  | r, n, c :: p => if '0' ≤ c ∧ c ≤ '9' then stointLoop (r * 10 + c.toNat - '0'.toNat) (n + 1) p else (r, n, c :: p)

/-- `stoint`: the number, how many digits it has, and the rest. -/
def stoint (p : List Char) : Int × Nat × List Char :=
  let sign : Int := if p.head? = some '-' then -1 else 1
  let p := if p.head? = some '+' ∨ p.head? = some '-' then p.tail else p
  let zeros := p.takeWhile (· = '0')
  let r := stointLoop 0 zeros.length (p.dropWhile (· = '0'))
  (r.1 * sign, r.2)

/-- From the label `compute` on. -/
def compute (nptr p : List Char) (sign : Int) (st : Scan) (sticky : Nat) (pE : Int) : UInt64 × List Char :=
  if st.lz + st.elz = 0 then (0, nptr)
  else if st.elz = 0 then (signed sign 0, p)
  else
    let nibbleClz : Int := (31 - (Nat.log2 st.elzFirst : Int)) - 28
    let nibbleMsb := 3 - nibbleClz
    let msb : Int := ((st.elz : Int) - 1) * 4 + nibbleMsb
    let e := pE + msb - 4 * st.frac
    let biased := e + (MAX_EXP - 1)
    let fgrs := if msb ≤ 127 then u128 (st.f128 <<< (127 - msb).toNat) else st.f128
    (packfp sign fgrs biased sticky, p)

/-- `hex2fp`: the bits and `*endptr`. -/
def hex2fp (nptr : List Char) (sign : Int) : UInt64 × List Char :=
  if nptr.head? ≠ some '0' ∨ (nptr.tail.head? ≠ some 'x' ∧ nptr.tail.head? ≠ some 'X') then (0, nptr)
  else
    let (st, p, done) := scan ⟨0, 0, 0, 0, false, 0⟩ (nptr.drop 2)
    if done then compute nptr p sign st 0 0
    else
      match scanSticky st.gotdot 0 p with
      | none => (0, nptr)
      | some (sticky, p) =>
        if p.head? = some 'p' ∨ p.head? = some 'P' then
          let r := stoint p.tail
          if r.2.1 = 0 then (0, nptr) else compute nptr r.2.2 sign st sticky r.1
        else compute nptr p sign st sticky 0

/-! ## `strtod` -/

/-- The text starts with `word`, in either case. -/
def startsWith (word : List Char) (s : List Char) : Bool := (s.take word.length).map Char.toLower = word

def isspace (c : Char) : Bool := c = ' ' || ('\t' ≤ c && c ≤ '\r')

variable (dec2fp : List Char → Int → UInt64 × List Char)

/-- `strtod`: the bits, and what is stored to `endptr`, if anything. -/
def strtod (text : List Char) : UInt64 × Option (List Char) :=
  let nptr := text.dropWhile isspace
  let sign : Int := if nptr.head? = some '-' then -1 else 1
  let nptr := if nptr.head? = some '+' ∨ nptr.head? = some '-' then nptr.tail else nptr
  if startsWith "inf".toList nptr then (signed sign HUGE, none)
  else if startsWith "nan".toList nptr then (signed sign (HUGE + 2 ^ 51), none)
  else
    let r := if nptr.head? = some '0' ∧ (nptr.tail.head? = some 'x' ∨ nptr.tail.head? = some 'X') then hex2fp nptr sign
      else dec2fp nptr sign
    (r.1, some (if r.2 = nptr then text else r.2))

end TextOS.Float
