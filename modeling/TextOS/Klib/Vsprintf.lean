import TextOS.Lib.Digits
import TextOS.Lib.Word

/-!
# Formatted text: `kernel/klib/vsprintf.c`

The format is a list of characters without its final 0, an argument is a 64-bit word or a string. `none` stands for a
format that ends inside a conversion, or for an argument that is missing or of the wrong kind.

`vsprintf_field` says for which integer conversions the field reads back to its argument and has the right length
(`Field.Fits`): sign, mark and padding share one budget `siz`, and a sign that is tested when nothing is left of it is
lost.
-/

namespace TextOS.Vsprintf

open Lib List

/-- `LEFT`, `SIGN`, `ZERO`, `SPECIAL`, `SPACE`. -/
structure Flgs where
  left : Bool := false
  sign : Bool := false
  zero : Bool := false
  special : Bool := false
  space : Bool := false
deriving DecidableEq

/-- What `va_arg` finds. -/
inductive Arg
  | num (n : Nat)
  | str (s : Option (List Char))

def letters (upper : Bool) (d : Nat) : Char :=
  (if upper then ['0', '1', '2', '3', '4', '5', '6', '7', '8', '9', 'A', 'B', 'C', 'D', 'E', 'F']
    else ['0', '1', '2', '3', '4', '5', '6', '7', '8', '9', 'a', 'b', 'c', 'd', 'e', 'f']).getD d '0'

/-- `_number`: the digits, the last one found first. -/
def number (num base : Nat) (upper : Bool) : List Char :=
  if num = 0 then ['0'] else ((Nat.digits base num).map (letters upper)).reverse

def isDigit (c : Char) : Bool := decide ('0' ≤ c) && decide (c ≤ '9')

/-- `_int`: the number and the rest of the format. -/
def int (i : Int) : List Char → Int × List Char
  | [] => (i, [])
  | c :: ptr => if isDigit c then int (toInt (i * 10 + (c.toNat - '0'.toNat : Nat))) ptr else (i, c :: ptr)

def parseFlgs (flgs : Flgs) : List Char → Flgs × List Char
  | [] => (flgs, [])
  | c :: ptr =>
    if c = '#' then parseFlgs { flgs with special := true } ptr
    else if c = '0' then if flgs.zero then (flgs, c :: ptr) else parseFlgs { flgs with zero := true } ptr
    else if c = '-' then parseFlgs { flgs with left := true } ptr
    else if c = ' ' then parseFlgs { flgs with space := true } ptr
    else if c = '+' then parseFlgs { flgs with sign := true } ptr
    else (flgs, c :: ptr)

/-- What a conversion prints. -/
inductive Kind
  | percent
  | char
  | string
  | fill
  | number (radix : Nat) (sign upper : Bool)

/-- The variables of `parse_args`. -/
structure Spec where
  flgs : Flgs
  len : Nat := 0
  width : Int := 0

/-- The kind of a conversion that ends with this character; a number in the base 10 for every other one. -/
def kindOf (c : Char) : Kind :=
  if c = '%' then .percent
  else if c = 'X' then .number 16 false true
  else if c = 'x' ∨ c = 'p' then .number 16 false false
  else if c = 'o' then .number 8 false false
  else if c = 'd' ∨ c = 'i' then .number 10 true false
  else if c = 'c' then .char
  else if c = 's' then .string
  else if c = 'q' then .fill
  else .number 10 false false

/-- `parse_args`, for at most `k` rounds. -/
def parseArgs : Nat → Spec → List Arg → List Char → Option (Spec × Kind × List Arg × List Char)
  | 0, _, _, _ => none
  | _, _, _, [] => none
  | k + 1, sp, args, c :: ptr =>
    if c = 'l' ∨ c = 'L' then
      match ptr with
      | [] => none
      | c' :: ptr' => if c' = 'l' ∨ c' = 'L' then parseArgs k { sp with len := 2 } args ptr'
        else parseArgs k { sp with len := 1 } args ptr
    else if isDigit c then
      let r := int 0 (c :: ptr)
      parseArgs k { sp with width := r.1 } args r.2
    else if c = '*' then
      match args with
      | .num n :: args =>
        let w := toInt n
        parseArgs k { sp with width := w, flgs := { sp.flgs with left := sp.flgs.left || decide (w < 0) } } args ptr
      | _ => none
    else if c = 'p' then some ({ sp with len := 2, flgs := { sp.flgs with special := true } }, kindOf c, args, ptr)
    else some (sp, kindOf c, args, ptr)

/-- `val` and `minus`. -/
def fetch (len : Nat) (sign : Bool) (a : Nat) : Nat × Bool :=
  if len = 0 then
    let val : Nat := a % 2 ^ 32
    if sign ∧ toInt val < 0 then ((toInt (-toInt val) % 2 ^ 64).toNat, true) else (val, false)
  else
    let val := u64 a
    if sign ∧ 2 ^ 63 ≤ val then (u64 (2 ^ 64 - val), true) else (val, false)

/-- The sign that is printed, and `siz` after the tests `siz--`, which count even when they fail. -/
def signOf (flgs : Flgs) (sign minus : Bool) (siz : Int) : Option Char × Int :=
  if minus ∧ siz ≠ 0 then (some '-', siz - 1)
  else
    let siz := if minus then siz - 1 else siz
    if sign ∧ flgs.sign ∧ siz ≠ 0 then (some '+', siz - 1)
    else
      let siz := if sign ∧ flgs.sign then siz - 1 else siz
      if flgs.space ∧ siz ≠ 0 then (some ' ', siz - 1) else (none, if flgs.space then siz - 1 else siz)

/-- `"0x"`, `"0X"` or `"0"` for `SPECIAL`. -/
def mark (flgs : Flgs) (radix : Nat) (upper : Bool) : List Char :=
  if flgs.special ∧ radix ≠ 10 then '0' :: if radix = 16 then [if upper then 'X' else 'x'] else [] else []

/-- The text of a number. -/
def field (sp : Spec) (radix : Nat) (sign upper : Bool) (a : Nat) : List Char :=
  let v := fetch sp.len sign a
  let tmp := number v.1 radix upper
  let s := if radix = 10 then signOf sp.flgs sign v.2 (sp.width - tmp.length) else (none, sp.width - tmp.length)
  let siz := s.2 - if sp.flgs.special then if radix = 16 then 2 else if radix = 8 then 1 else 0 else 0
  let first := s.1.toList ++ mark sp.flgs radix upper
  let pad := if ¬ sp.flgs.left ∧ 0 < siz then List.replicate siz.toNat (if sp.flgs.zero then '0' else ' ') else []
  (if sp.flgs.zero then first else []) ++ pad ++ (if sp.flgs.zero then [] else first) ++ tmp

/-- The text of one conversion, and the arguments that are left. -/
def convert (sp : Spec) (args : List Arg) : Kind → Option (List Char × List Arg)
  | .percent => some (['%'], args)
  | .char => match args with
    | .num n :: args => some (List.replicate (sp.width - 1).toNat ' ' ++ [Char.ofNat (n % 256)], args)
    | _ => none
  | .string => match args with
    | .str s :: args =>
      let src := s.getD ['(', 'n', 'u', 'l', 'l', ')']
      some (List.replicate (sp.width - src.length).toNat ' ' ++ src, args)
    | _ => none
  | .fill => match args with
    | .num n :: args => some (List.replicate sp.width.toNat (Char.ofNat (n % 256)), args)
    | _ => none
  | .number radix sign upper => match args with
    | .num n :: args => some (field sp radix sign upper n, args)
    | _ => none

/-- The loop of `vsprintf`, for at most `k` rounds. -/
def loop : Nat → List Char → List Arg → Option (List Char)
  | _, [], _ => some []
  | 0, _, _ => none
  | k + 1, c :: ptr, args =>
    if c ≠ '%' then (loop k ptr args).map (c :: ·)
    else
      let f := parseFlgs {} ptr
      (parseArgs (f.2.length + 3) { flgs := f.1 } args f.2).bind fun r =>
        (convert r.1 r.2.2.1 r.2.1).bind fun o => (loop k r.2.2.2 o.2).map (o.1 ++ ·)

/-- `vsprintf`: the text, without its final 0. -/
def vsprintf (format : List Char) (args : List Arg) : Option (List Char) := loop (format.length + 1) format args

example : vsprintf ['a', '%', '0', '5', 'd', '%', '%'] [.num (2 ^ 64 - 42)] =
    some ['a', '-', '0', '0', '4', '2', '%'] := by
  decide +kernel

/-! ## The integer conversions -/

inductive Conv
  | d
  | i
  | u
  | x
  | X
  | o

def Conv.char : Conv → Char
  | .d => 'd'
  | .i => 'i'
  | .u => 'u'
  | .x => 'x'
  | .X => 'X'
  | .o => 'o'

def Conv.radix : Conv → Nat
  | .x | .X => 16
  | .o => 8
  | _ => 10

def Conv.sign : Conv → Bool
  | .d | .i => true
  | _ => false

def Conv.upper : Conv → Bool
  | .X => true
  | _ => false

/-! ## Reading a field -/

/-- The digit of a letter. -/
def digitVal (c : Char) : Option Nat :=
  if isDigit c then some (c.toNat - 48)
  else if 'a' ≤ c ∧ c ≤ 'f' then some (c.toNat - 87)
  else if 'A' ≤ c ∧ c ≤ 'F' then some (c.toNat - 55)
  else none

/-- The number without a sign. -/
def magnitude (radix : Nat) (l : List Char) : Option Nat :=
  if l = [] then none
  else (l.mapM digitVal).bind fun ds => if ∀ d ∈ ds, d < radix then some (value radix ds) else none

/-- The text behind `0x` or `0X`. -/
def unmark (radix : Nat) : List Char → List Char
  | '0' :: c :: l => if radix = 16 ∧ (c = 'x' ∨ c = 'X') then l else '0' :: c :: l
  | l => l

/-- The number of a field: spaces, a sign, the mark of the base, digits. -/
def decode (radix : Nat) (l : List Char) : Option Int :=
  match l.dropWhile (· = ' ') with
  | '-' :: l => (magnitude radix (unmark radix l)).map fun n : Nat => -(n : Int)
  | '+' :: l => (magnitude radix (unmark radix l)).map fun n : Nat => (n : Int)
  | l => (magnitude radix (unmark radix l)).map fun n : Nat => (n : Int)

variable {radix n k : Nat} {upper sign minus : Bool} {ds es : List Nat} {flgs : Flgs} {siz : Int}

/-! ## Digits -/

theorem digitVal_letters (upper : Bool) {d : Nat} (h : d < 16) : digitVal (letters upper d) = some d := by
  revert d
  cases upper <;> decide

theorem letters_ne (upper : Bool) {d : Nat} (h : d < 16) : letters upper d ≠ ' ' ∧ letters upper d ≠ '-' ∧
    letters upper d ≠ '+' ∧ letters upper d ≠ 'x' ∧ letters upper d ≠ 'X' := by
  revert d
  cases upper <;> decide

theorem mapM_letters (upper : Bool) (h : ∀ d ∈ ds, d < 16) : (ds.map (letters upper)).mapM digitVal = some ds := by
  induction ds with
  | nil => rfl
  | cons d ds ih =>
    have hd := digitVal_letters upper (h d mem_cons_self)
    rw [map_cons, mapM_cons, hd, ih fun e he => h e (mem_cons_of_mem d he)]
    rfl

theorem number_spec (num : Nat) (upper : Bool) (h1 : 1 < radix) :
    ∃ ds, number num radix upper = ds.map (letters upper) ∧ ds ≠ [] ∧ (∀ d ∈ ds, d < radix) ∧ value radix ds = num := by
  unfold number
  split
  · next h0 =>
    refine ⟨[0], by cases upper <;> rfl, by simp, by simp; omega, ?_⟩
    simp [value, h0]
  next h0 =>
  refine ⟨(Nat.digits radix num).reverse, map_reverse.symm, ?_, fun d hd => ?_, value_reverse_digits h1 num⟩
  · simpa [Nat.digits_ne_nil_iff_ne_zero] using h0
  · exact Nat.digits_lt_base h1 (mem_reverse.1 hd)

theorem magnitude_letters (upper : Bool) (hne : ds ≠ []) (hr : radix ≤ 16) (h : ∀ d ∈ ds, d < radix) :
    magnitude radix (ds.map (letters upper)) = some (value radix ds) := by
  unfold magnitude
  rw [if_neg (by simpa using hne), mapM_letters upper fun d hd => (h d hd).trans_le hr, Option.bind_some, if_pos h]

/-- Digits do not look like a mark. -/
theorem unmark_letters (radix : Nat) (upper : Bool) (h : ∀ d ∈ ds, d < 16) :
    unmark radix (ds.map (letters upper)) = ds.map (letters upper) := by
  rcases ds with _ | ⟨d, _ | ⟨e, ds⟩⟩
  · rfl
  · unfold unmark
    split
    · next heq => simp at heq
    · rfl
  have he := letters_ne upper (h e (by simp))
  rw [map_cons, map_cons]
  unfold unmark
  split
  · next heq =>
    simp only [List.cons.injEq] at heq
    obtain ⟨h0, rfl, rfl⟩ := heq
    rw [if_neg (by simp [he]), h0]
  · rfl

theorem letters_zero (upper : Bool) : letters upper 0 = '0' := by cases upper <;> rfl

theorem letters_x (upper : Bool) : (if upper then 'X' else 'x') = 'x' ∨ (if upper then 'X' else 'x') = 'X' := by
  cases upper <;> simp

/-- **Digits behind their mark.** -/
theorem magnitude_marked (flgs : Flgs) (upper : Bool) (hradix : radix = 8 ∨ radix = 10 ∨ radix = 16) (hne : ds ≠ [])
    (h : ∀ d ∈ ds, d < radix) :
    magnitude radix (unmark radix (mark flgs radix upper ++ ds.map (letters upper))) = some (value radix ds) := by
  have hr : radix ≤ 16 := by omega
  have h16 : ∀ d ∈ ds, d < 16 := fun d hd => (h d hd).trans_le hr
  unfold mark
  split
  · rcases hradix with rfl | rfl | rfl
    · -- the mark is one more zero
      have hzero : ∀ d ∈ 0 :: ds, d < 8 := forall_mem_cons.2 ⟨by omega, h⟩
      have hcons : ('0' :: if 8 = 16 then [if upper then 'X' else 'x'] else []) ++ ds.map (letters upper) =
          (0 :: ds).map (letters upper) := by
        rw [map_cons, letters_zero]
        rfl
      rw [hcons, unmark_letters 8 upper fun d hd => (hzero d hd).trans_le hr,
        magnitude_letters upper (cons_ne_nil 0 ds) hr hzero, value_cons, Nat.zero_mul, Nat.zero_add]
    · simp_all
    · rw [if_pos rfl, cons_append, singleton_append, unmark, if_pos ⟨rfl, letters_x upper⟩,
        magnitude_letters upper hne hr h]
  · rw [nil_append, unmark_letters radix upper h16, magnitude_letters upper hne hr h]

theorem head_marked (radix : Nat) (flgs : Flgs) (upper : Bool) (hne : ds ≠ []) (h : ∀ d ∈ ds, d < 16) :
    ∃ c l, mark flgs radix upper ++ ds.map (letters upper) = c :: l ∧ c ≠ ' ' ∧ c ≠ '-' ∧ c ≠ '+' := by
  unfold mark
  split
  · exact ⟨'0', _, rfl, by decide, by decide, by decide⟩
  obtain ⟨d, ds, rfl⟩ := exists_cons_of_ne_nil hne
  obtain ⟨h1, h2, h3, -⟩ := letters_ne upper (h d mem_cons_self)
  exact ⟨letters upper d, _, rfl, h1, h2, h3⟩

/-- The sign a field should have. -/
def wanted (flgs : Flgs) (sign minus : Bool) : Option Char :=
  if minus then some '-' else if sign ∧ flgs.sign then some '+' else if flgs.space then some ' ' else none

/-- **A field reads back.** -/
theorem decode_field {s : Option Char} (flgs : Flgs) (upper : Bool) (hradix : radix = 8 ∨ radix = 10 ∨ radix = 16)
    (hne : ds ≠ []) (h : ∀ d ∈ ds, d < radix) (hs : s ∈ [none, some ' ', some '+', some '-']) (n : Nat) :
    decode radix (List.replicate n ' ' ++ (s.toList ++ (mark flgs radix upper ++ ds.map (letters upper)))) =
      some (if s = some '-' then -(value radix ds : Int) else value radix ds) := by
  have hmag := magnitude_marked flgs upper hradix hne h
  obtain ⟨c, l, heq, hsp, hmi, hpl⟩ := head_marked radix flgs upper hne
    fun d hd => (h d hd).trans_le (by omega : radix ≤ 16)
  rw [heq] at hmag ⊢
  have hdrop : ∀ (n : Nat) (t : List Char), (List.replicate n ' ' ++ t).dropWhile (· = ' ') =
    t.dropWhile (· = ' ') := by
    intro n t
    induction n with
    | zero => rfl
    | succ n ih => simp [replicate_succ]
  have hplain : decode radix (c :: l) = some (value radix ds : Int) := by
    unfold decode
    rw [dropWhile_cons_of_neg (by simpa using hsp)]
    split
    · next heq' => exact absurd (List.cons.inj heq').1 hmi
    · next heq' => exact absurd (List.cons.inj heq').1 hpl
    · rw [hmag]
      rfl
  simp only [mem_cons, not_mem_nil, or_false] at hs
  unfold decode
  rw [hdrop]
  rcases hs with rfl | rfl | rfl | rfl
  · exact hplain
  · exact hplain
  · show (magnitude radix (unmark radix (c :: l))).map _ = _
    rw [hmag]
    rfl
  show (magnitude radix (unmark radix (c :: l))).map _ = _
  rw [hmag]
  rfl

/-- A field with its padding reads back: spaces in front, or zeros behind the mark. -/
theorem decode_padded {s : Option Char} (flgs : Flgs) (upper : Bool) (hradix : radix = 8 ∨ radix = 10 ∨ radix = 16)
    (hne : ds ≠ []) (h : ∀ d ∈ ds, d < radix) (hs : s ∈ [none, some ' ', some '+', some '-']) (n : Nat) :
    decode radix ((if flgs.zero then s.toList ++ mark flgs radix upper else []) ++
        List.replicate n (if flgs.zero then '0' else ' ') ++
        (if flgs.zero then [] else s.toList ++ mark flgs radix upper) ++ ds.map (letters upper)) =
        some (if s = some '-' then -(value radix ds : Int) else value radix ds) := by
  by_cases h0 : flgs.zero = true
  · have hzeros : ∀ d ∈ List.replicate n 0 ++ ds, d < radix := by
      intro d hd
      rcases mem_append.1 hd with hd | hd
      · rw [eq_of_mem_replicate hd]
        omega
      · exact h d hd
    have hdec := decode_field flgs upper hradix (by simp [hne]) hzeros hs 0
    rw [value_append, value_replicate_zero, Nat.zero_mul, Nat.zero_add] at hdec
    rw [← hdec]
    simp [h0, letters_zero]
  · rw [← decode_field flgs upper hradix hne h hs n]
    simp [h0]

/-! ## The text of a number -/

/-- The sign is printed if `siz` is not 0. -/
theorem signOf_eq (h : wanted flgs sign minus ≠ none → siz ≠ 0) :
    signOf flgs sign minus siz = (wanted flgs sign minus, siz - (wanted flgs sign minus).toList.length) := by
  unfold wanted at h ⊢
  unfold signOf
  split_ifs at h ⊢ <;> simp_all

/-- Without room for it a sign is lost, and then a later test may succeed. -/
theorem signOf_zero : signOf flgs sign minus 0 =
    if minus then
      if sign ∧ flgs.sign then (some '+', -2) else if flgs.space then (some ' ', -2) else (none, -1)
    else if sign ∧ flgs.sign then if flgs.space then (some ' ', -2) else (none, -1)
    else if flgs.space then (none, -1) else (none, 0) := by
  unfold signOf
  split_ifs <;> simp_all

theorem signOf_mem (flgs : Flgs) (sign minus : Bool) (siz : Int) :
    (signOf flgs sign minus siz).1 ∈ [none, some ' ', some '+', some '-'] := by
  unfold signOf
  simp only [apply_ite Prod.fst]
  split_ifs <;> decide

/-- The sign that is printed, and what is left of the width behind it and the digits. -/
def placed (sp : Spec) (radix : Nat) (sign upper : Bool) (v : Nat × Bool) : Option Char × Int :=
  if radix = 10 then signOf sp.flgs sign v.2 (sp.width - (number v.1 radix upper).length)
  else (none, sp.width - (number v.1 radix upper).length)

theorem placed_mem (sp : Spec) (radix : Nat) (sign upper : Bool) (v : Nat × Bool) :
    (placed sp radix sign upper v).1 ∈ [none, some ' ', some '+', some '-'] := by
  unfold placed
  split
  · exact signOf_mem _ _ _ _
  · exact mem_cons_self

/-- **What a field reads back to, and its length**, by the sign that is printed. -/
theorem field_reads {v : Nat × Bool} {a : Nat} (sp : Spec) (upper : Bool) (hv : fetch sp.len sign a = v)
    (hradix : radix = 8 ∨ radix = 10 ∨ radix = 16) :
    decode radix (field sp radix sign upper a) =
        some (if (placed sp radix sign upper v).1 = some '-' then -(v.1 : Int) else v.1) ∧
      (field sp radix sign upper a).length = (placed sp radix sign upper v).1.toList.length +
        (mark sp.flgs radix upper).length + (number v.1 radix upper).length +
        if sp.flgs.left then 0 else ((placed sp radix sign upper v).2 - (mark sp.flgs radix upper).length).toNat := by
  obtain ⟨ds, hds, hne, hlt, hval⟩ := number_spec v.1 upper (show 1 < radix by omega)
  have hspecial : (if sp.flgs.special then if radix = 16 then 2 else if radix = 8 then 1 else 0 else 0 : Int) =
      (mark sp.flgs radix upper).length := by
    unfold mark
    rcases hradix with rfl | rfl | rfl <;> cases sp.flgs.special <;> simp
  obtain ⟨k, hk⟩ : ∃ k, k = if sp.flgs.left then 0
      else ((placed sp radix sign upper v).2 - (mark sp.flgs radix upper).length).toNat := ⟨_, rfl⟩
  have hfield : field sp radix sign upper a =
      (if sp.flgs.zero then (placed sp radix sign upper v).1.toList ++ mark sp.flgs radix upper else []) ++
        List.replicate k (if sp.flgs.zero then '0' else ' ') ++
        (if sp.flgs.zero then [] else (placed sp radix sign upper v).1.toList ++ mark sp.flgs radix upper) ++
        number v.1 radix upper := by
    unfold field
    dsimp only
    rw [hv]
    rw [← placed, hspecial]
    congr 3
    split
    next hpad => rw [hk, if_neg hpad.1]
    next hpad =>
      have h0 : k = 0 := by
        rw [hk]
        split
        · rfl
        · have : ¬ 0 < (placed sp radix sign upper v).2 - (mark sp.flgs radix upper).length := fun hpos =>
            hpad ⟨by assumption, hpos⟩
          omega
      rw [h0, replicate_zero]
  rw [hfield, ← hk]
  constructor
  · rw [hds, decode_padded sp.flgs upper hradix hne hlt (placed_mem ..), hval]
  · by_cases h0 : sp.flgs.zero = true
    · simp [h0]
      omega
    · simp [h0]
      omega

/-! ## The arguments -/

/-- The values of the type that a conversion takes. -/
def InRange (len : Nat) (sign : Bool) (v : Int) : Prop :=
  if sign then if len = 0 then -2 ^ 31 ≤ v ∧ v < 2 ^ 31 else -2 ^ 63 ≤ v ∧ v < 2 ^ 63
  else 0 ≤ v ∧ v < if len = 0 then 2 ^ 32 else 2 ^ 64

/-- The word that holds a value. -/
def encode (v : Int) : Nat := (v % 2 ^ 64).toNat

theorem toInt_of_ge {n : Nat} (h : 2 ^ 31 ≤ n) (hlt : n < 2 ^ 32) : toInt n = n - 2 ^ 32 := by
  unfold toInt Int.bmod
  dsimp only
  split <;> omega

/-- The value and its sign; the smallest `int` has no negative. -/
theorem fetch_encode {len : Nat} {v : Int} (h : InRange len sign v) (hmin : ¬ (len = 0 ∧ sign = true ∧ v = -2 ^ 31)) :
    fetch len sign (encode v) = (v.natAbs, decide (v < 0)) := by
  unfold InRange at h
  unfold fetch encode
  by_cases hlen : len = 0
  · cases sign
    · simp only [hlen, Bool.false_eq_true, if_false, if_true, false_and] at h ⊢
      rw [decide_eq_false (by omega)]
      congr 1
      omega
    simp only [hlen, if_true, true_and] at h hmin ⊢
    rcases lt_or_ge v 0 with hneg | hpos
    · have hint : toInt ((v % 2 ^ 64).toNat % 2 ^ 32 : Nat) = v := by
        rw [toInt_of_ge (by omega) (by omega)]
        omega
      rw [hint, if_pos hneg,
        show -v = (v.natAbs : Int) by omega, toInt_of_lt (by omega), decide_eq_true hneg, Prod.mk.injEq]
      exact ⟨by omega, rfl⟩
    have hint : toInt ((v % 2 ^ 64).toNat % 2 ^ 32 : Nat) = v := by
      rw [toInt_of_lt (by omega)]
      omega
    rw [hint, if_neg (by omega), decide_eq_false (by omega), Prod.mk.injEq]
    exact ⟨by omega, rfl⟩
  · have hu : u64 (v % 2 ^ 64).toNat = (v % 2 ^ 64).toNat := u64_of_lt (by omega)
    cases sign
    · simp only [hlen, Bool.false_eq_true, if_false, false_and] at h ⊢
      rw [decide_eq_false (by omega)]
      congr 1
      omega
    simp only [hlen, if_false, if_true, true_and] at h ⊢
    rcases lt_or_ge v 0 with hneg | hpos
    · rw [if_pos (by omega), decide_eq_true hneg, u64_of_lt (by omega)]
      congr 1
      omega
    rw [if_neg (by omega), decide_eq_false (by omega)]
    congr 1
    omega

/-! ## The format -/

/-- The flags of a conversion. -/
def flgsOf (flags : List Char) : Flgs :=
  ⟨decide ('-' ∈ flags), decide ('+' ∈ flags), decide ('0' ∈ flags), decide ('#' ∈ flags), decide (' ' ∈ flags)⟩

/-- Both sets of flags. -/
def Flgs.or (f g : Flgs) : Flgs :=
  ⟨f.left || g.left, f.sign || g.sign, f.zero || g.zero, f.special || g.special, f.space || g.space⟩

/-- **The flags are found**, in any order, up to a character that is no flag. -/
theorem parseFlgs_eq {flags rest : List Char} : ∀ {f : Flgs},
    (∀ c ∈ flags, c ∈ ['-', '+', ' ', '0', '#']) → flags.Nodup → (f.zero = true → '0' ∉ flags) →
    (∀ c ∈ rest.head?, c ∉ ['-', '+', ' ', '0', '#']) → parseFlgs f (flags ++ rest) = (f.or (flgsOf flags), rest) := by
  induction flags with
  | nil =>
    intro f _ _ _ hrest
    have hf : f.or (flgsOf []) = f := by simp [Flgs.or, flgsOf]
    rw [nil_append, hf]
    cases rest with
    | nil => rfl
    | cons c rest =>
      have hc := hrest c rfl
      simp only [mem_cons, not_mem_nil, or_false, not_or] at hc
      simp [parseFlgs, hc]
  | cons c flags ih =>
    intro f hflags hnd hzero hrest
    obtain ⟨hc, hflags'⟩ := forall_mem_cons.1 hflags
    obtain ⟨hcn, hnd'⟩ := nodup_cons.1 hnd
    simp only [mem_cons, not_mem_nil, or_false] at hc
    rw [cons_append]
    unfold parseFlgs
    rcases hc with rfl | rfl | rfl | rfl | rfl
    · rw [if_neg (by decide), if_neg (by decide), if_pos rfl, ih hflags' hnd' (by simpa using hzero) hrest]
      simp [Flgs.or, flgsOf]
    · rw [if_neg (by decide), if_neg (by decide), if_neg (by decide), if_neg (by decide), if_pos rfl,
        ih hflags' hnd' (by simpa using hzero) hrest]
      simp [Flgs.or, flgsOf]
    · rw [if_neg (by decide), if_neg (by decide), if_neg (by decide), if_pos rfl,
        ih hflags' hnd' (by simpa using hzero) hrest]
      simp [Flgs.or, flgsOf]
    · have hf : f.zero = false := by simpa using hzero
      rw [if_neg (by decide), if_pos rfl, if_neg (by simp [hf]), ih hflags' hnd' (fun _ => hcn) hrest]
      simp [Flgs.or, flgsOf]
    · rw [if_pos rfl, ih hflags' hnd' (by simpa using hzero) hrest]
      simp [Flgs.or, flgsOf]

theorem letters_digit {d : Nat} (h : d < 10) : isDigit (letters false d) = true ∧
    (letters false d).toNat - '0'.toNat = d ∧ letters false d ≠ 'l' ∧ letters false d ≠ 'L' := by
  revert d
  decide

/-- The number `_int` reads, up to a character that is no digit. -/
theorem int_eq {rest : List Char} (hrest : ∀ c ∈ rest.head?, isDigit c = false) (ws : List Nat) :
    ∀ i : Nat, (∀ d ∈ ws, d < 10) → i * 10 ^ ws.length + value 10 ws < 2 ^ 31 →
      int i (ws.map (letters false) ++ rest) = (((i * 10 ^ ws.length + value 10 ws : Nat) : Int), rest) := by
  induction ws with
  | nil =>
    intro i _ _
    cases rest with
    | nil => simp [int]
    | cons c rest => simp [int, hrest c rfl]
  | cons d ws ih =>
    intro i hws hlt
    obtain ⟨hd, hws⟩ := forall_mem_cons.1 hws
    obtain ⟨hdig, hval, -⟩ := letters_digit hd
    have hsum : (i * 10 + d) * 10 ^ ws.length + value 10 ws = i * 10 ^ (d :: ws).length + value 10 (d :: ws) := by
      rw [value_cons, length_cons, pow_succ]
      ring
    have hle : i * 10 + d ≤ (i * 10 + d) * 10 ^ ws.length := Nat.le_mul_of_pos_right _ (by positivity)
    have hnext : toInt ((i : Int) * 10 + ((letters false d).toNat - '0'.toNat : Nat)) = ((i * 10 + d : Nat) : Int) := by
      rw [hval, ← toInt_of_lt (show i * 10 + d < 2 ^ 31 by omega)]
      push_cast
      rfl
    rw [map_cons, cons_append, int, if_pos hdig, hnext, ih _ hws (by rwa [hsum]), hsum]

theorem parseArgs_conv (cv : Conv) (sp : Spec) (args : List Arg) (rest : List Char) :
    parseArgs (k + 1) sp args (cv.char :: rest) = some (sp, .number cv.radix cv.sign cv.upper, args, rest) := by
  cases cv <;> rfl

/-- Up to two length letters, then the conversion. -/
theorem parseArgs_modifier {md : List Char} (hmd : ∀ c ∈ md, c = 'l' ∨ c = 'L') (hlen : md.length ≤ 2) (cv : Conv)
    {sp : Spec} (h0 : sp.len = 0) (args : List Arg) (rest : List Char) :
    parseArgs (k + 2) sp args (md ++ cv.char :: rest) =
      some ({ sp with len := md.length }, .number cv.radix cv.sign cv.upper, args, rest) := by
  rcases md with _ | ⟨c, _ | ⟨c', _ | ⟨c'', md⟩⟩⟩
  · rw [nil_append, parseArgs_conv, length_nil, ← h0]
  · have hc := hmd c (by simp)
    have hcv : ¬ (cv.char = 'l' ∨ cv.char = 'L') := by cases cv <;> decide
    rw [singleton_append]
    unfold parseArgs
    rw [if_pos hc]
    dsimp only
    rw [if_neg hcv, parseArgs_conv]
    rfl
  · have hc := hmd c (by simp)
    have hc' := hmd c' (by simp)
    rw [cons_append, singleton_append]
    unfold parseArgs
    rw [if_pos hc]
    dsimp only
    rw [if_pos hc', parseArgs_conv]
    rfl
  · simp at hlen

/-! ## Fields -/

/-- A conversion with flags, a width and a length modifier, as texts. -/
structure Field where
  flags : List Char
  width : List Nat
  modifier : List Char
  conv : Conv
  flags_mem : ∀ c ∈ flags, c ∈ ['-', '+', ' ', '0', '#']
  flags_nodup : flags.Nodup
  width_digits : ∀ d ∈ width, d < 10
  width_head : width.head? ≠ some 0
  width_lt : value 10 width < 2 ^ 31
  modifier_mem : ∀ c ∈ modifier, c = 'l' ∨ c = 'L'
  modifier_length : modifier.length ≤ 2

/-- What stands behind the flags. -/
def Field.behind (f : Field) : List Char := f.width.map (letters false) ++ (f.modifier ++ [f.conv.char])

/-- The text of the conversion. -/
def Field.text (f : Field) : List Char := '%' :: (f.flags ++ f.behind)

def Field.spec (f : Field) : Spec := ⟨flgsOf f.flags, f.modifier.length, (value 10 f.width : Nat)⟩

theorem modifier_head {md : List Char} (hmd : ∀ c ∈ md, c = 'l' ∨ c = 'L') (cv : Conv) {c : Char}
    (hc : c ∈ (md ++ [cv.char]).head?) : c ∉ ['-', '+', ' ', '0', '#'] ∧ isDigit c = false := by
  rcases md with _ | ⟨c', md⟩
  · obtain rfl : cv.char = c := by simpa using hc
    cases cv <;> decide
  · obtain rfl : c' = c := by simpa using hc
    rcases hmd c' mem_cons_self with rfl | rfl <;> decide

theorem Field.behind_head (f : Field) {c : Char} (hc : c ∈ f.behind.head?) : c ∉ ['-', '+', ' ', '0', '#'] := by
  unfold Field.behind at hc
  rcases hw : f.width with _ | ⟨d, ws⟩
  · rw [hw] at hc
    exact (modifier_head f.modifier_mem f.conv hc).1
  obtain rfl : letters false d = c := by simpa [hw] using hc
  have hd : d < 10 := f.width_digits d (by simp [hw])
  have h0 : d ≠ 0 := fun h => f.width_head (by simp [hw, h])
  clear hc hw
  interval_cases d <;> simp_all +decide

/-- **What the scans find in a conversion.** -/
theorem parse_spec (f : Field) (args : List Arg) : parseFlgs {} (f.flags ++ f.behind) = (flgsOf f.flags, f.behind) ∧
    parseArgs (k + 3) { flgs := flgsOf f.flags } args f.behind =
      some (f.spec, .number f.conv.radix f.conv.sign f.conv.upper, args, []) := by
  constructor
  · rw [parseFlgs_eq f.flags_mem f.flags_nodup (by simp) fun c hc => f.behind_head hc]
    simp [Flgs.or]
  unfold Field.behind Field.spec
  rcases hw : f.width with _ | ⟨d, ws⟩
  · rw [map_nil, nil_append, parseArgs_modifier f.modifier_mem f.modifier_length f.conv rfl]
    rfl
  have hd : d < 10 := f.width_digits d (by simp [hw])
  obtain ⟨hdig, -, hl, hL⟩ := letters_digit hd
  have hint := int_eq (fun c hc => (modifier_head f.modifier_mem f.conv hc).2) (d :: ws) 0
    (by rw [← hw]; exact f.width_digits)
    (by rw [Nat.zero_mul, Nat.zero_add, ← hw]; exact f.width_lt)
  rw [Nat.zero_mul, Nat.zero_add, map_cons, cons_append] at hint
  rw [map_cons, cons_append]
  unfold parseArgs
  rw [if_neg (by simp [hl, hL]), if_pos hdig]
  rw [show (0 : Int) = ((0 : Nat) : Int) from rfl, hint]
  exact parseArgs_modifier f.modifier_mem f.modifier_length f.conv rfl args []

/-- The sign of a field, if it has one. -/
def Field.signOf (f : Field) (v : Int) : Option Char :=
  if f.conv.radix = 10 then wanted (flgsOf f.flags) f.conv.sign (decide (v < 0)) else none

def Field.digits (f : Field) (v : Int) : List Char := number v.natAbs f.conv.radix f.conv.upper

/-- The field without padding: sign, mark, digits. -/
def Field.natural (f : Field) (v : Int) : List Char :=
  (f.signOf v).toList ++ mark (flgsOf f.flags) f.conv.radix f.conv.upper ++ f.digits v

theorem Conv.radix_cases (cv : Conv) : cv.radix = 8 ∨ cv.radix = 10 ∨ cv.radix = 16 := by cases cv <;> decide

theorem Field.signOf_minus (f : Field) {v : Int} (h : InRange f.modifier.length f.conv.sign v) :
    f.signOf v = some '-' ↔ v < 0 := by
  unfold Field.signOf
  split
  · unfold wanted
    split_ifs <;> simp_all
  next h10 =>
  have hs : f.conv.sign = false := by
    revert h10
    cases f.conv <;> simp [Conv.radix, Conv.sign]
  simp only [InRange, hs, Bool.false_eq_true, if_false] at h
  simp only [reduceCtorEq, false_iff, not_lt]
  exact h.1

theorem vsprintf_text (f : Field) (a : Nat) :
    vsprintf f.text [.num a] = some (field f.spec f.conv.radix f.conv.sign f.conv.upper a) := by
  obtain ⟨hflgs, hargs⟩ := parse_spec (k := f.behind.length) f [.num a]
  unfold vsprintf Field.text loop
  dsimp only
  rw [hflgs]
  rw [hargs, Option.bind_some]
  simp [convert, loop]

/-- The sign finds a place, or a space stands in for a plus; no padding on the right is asked for; the argument is not
the smallest `int`. -/
structure Field.Fits (f : Field) (v : Int) : Prop where
  min : ¬ (f.modifier = [] ∧ f.conv.sign = true ∧ v = -2 ^ 31)
  left : '-' ∈ f.flags → value 10 f.width ≤ (f.natural v).length
  place : f.signOf v ≠ none → value 10 f.width ≠ (f.digits v).length ∨
    (0 ≤ v ∧ f.conv.sign = true ∧ '+' ∈ f.flags ∧ ' ' ∈ f.flags)

variable {f : Field} {v : Int}

/-- The field reads back to the argument and has the right length. -/
def Field.Right (f : Field) (v : Int) (out : List Char) : Prop :=
  decode f.conv.radix out = some v ∧ out.length = max (value 10 f.width) (f.natural v).length

/-- The sign of the field is printed. -/
theorem placed_eq (hplace : f.signOf v ≠ none → value 10 f.width ≠ (f.digits v).length) :
    placed f.spec f.conv.radix f.conv.sign f.conv.upper (v.natAbs, decide (v < 0)) =
      (f.signOf v, (value 10 f.width : Int) - (f.digits v).length - (f.signOf v).toList.length) := by
  unfold placed Field.signOf at *
  by_cases h10 : f.conv.radix = 10
  · simp only [if_pos h10] at hplace ⊢
    refine signOf_eq fun hw => ?_
    have := hplace hw
    show (value 10 f.width : Int) - (f.digits v).length ≠ 0
    omega
  · simp only [if_neg h10]
    show (none, (value 10 f.width : Int) - (f.digits v).length) = _
    simp

theorem Field.not_min (f : Field) (hmin : ¬ (f.modifier = [] ∧ f.conv.sign = true ∧ v = -2 ^ 31)) :
    ¬ (f.spec.len = 0 ∧ f.conv.sign = true ∧ v = -2 ^ 31) := fun h => hmin ⟨length_eq_zero_iff.1 h.1, h.2⟩

theorem Field.value_eq (hv : InRange f.modifier.length f.conv.sign v) :
    (if f.signOf v = some '-' then -(v.natAbs : Int) else v.natAbs) = v := by
  simp only [f.signOf_minus hv]
  split <;> omega

/-- **With a sign in its place** only padding on the right is missing. -/
theorem right_of_place (hv : InRange f.modifier.length f.conv.sign v)
    (hmin : ¬ (f.modifier = [] ∧ f.conv.sign = true ∧ v = -2 ^ 31))
    (hplace : f.signOf v ≠ none → value 10 f.width ≠ (f.digits v).length) :
    f.Right v (field f.spec f.conv.radix f.conv.sign f.conv.upper (encode v)) ↔
      ('-' ∈ f.flags → value 10 f.width ≤ (f.natural v).length) := by
  obtain ⟨hdec, hlen⟩ := field_reads f.spec f.conv.upper (fetch_encode hv (f.not_min hmin)) f.conv.radix_cases
  rw [placed_eq hplace] at hdec hlen
  rw [Field.Right, hdec, Field.value_eq hv, hlen]
  have hnat : (f.natural v).length = (f.signOf v).toList.length +
    (mark (flgsOf f.flags) f.conv.radix f.conv.upper).length +
      (f.digits v).length := by rw [Field.natural, length_append, length_append]
  have hleft : f.spec.flgs.left = true ↔ '-' ∈ f.flags := decide_eq_true_iff
  have hdig : number v.natAbs f.conv.radix f.conv.upper = f.digits v := rfl
  have hmark : mark f.spec.flgs f.conv.radix f.conv.upper = mark (flgsOf f.flags) f.conv.radix f.conv.upper := rfl
  rw [hdig, hmark, hnat]
  by_cases hl : '-' ∈ f.flags
  · rw [if_pos (hleft.2 hl)]
    simp only [true_and, hl, forall_const]
    omega
  · rw [if_neg (hleft.not.2 hl)]
    simp only [true_and, hl, false_imp_iff, iff_true]
    omega

/-- **Without a place for the sign** the field is right only if a space stands in for a plus. -/
theorem right_of_no_place (hv : InRange f.modifier.length f.conv.sign v)
    (hmin : ¬ (f.modifier = [] ∧ f.conv.sign = true ∧ v = -2 ^ 31)) (hwant : f.signOf v ≠ none)
    (hwidth : value 10 f.width = (f.digits v).length) :
    f.Right v (field f.spec f.conv.radix f.conv.sign f.conv.upper (encode v)) ↔
      0 ≤ v ∧ f.conv.sign = true ∧ '+' ∈ f.flags ∧ ' ' ∈ f.flags := by
  have h10 : f.conv.radix = 10 := by
    by_contra h10
    exact hwant (if_neg h10)
  obtain ⟨hdec, hlen⟩ := field_reads f.spec f.conv.upper (fetch_encode hv (f.not_min hmin)) f.conv.radix_cases
  have hplaced : placed f.spec f.conv.radix f.conv.sign f.conv.upper (v.natAbs, decide (v < 0)) =
      signOf (flgsOf f.flags) f.conv.sign (decide (v < 0)) 0 := by
    rw [placed, if_pos h10]
    congr 1
    show (value 10 f.width : Int) - (f.digits v).length = 0
    omega
  have hone : (f.signOf v).toList.length = 1 := by
    obtain ⟨c, hc⟩ := Option.ne_none_iff_exists'.1 hwant
    rw [hc]
    rfl
  have hmark : mark (flgsOf f.flags) f.conv.radix f.conv.upper = [] := if_neg (by simp [h10])
  have hmark' : mark f.spec.flgs f.conv.radix f.conv.upper = [] := hmark
  have hdig : number v.natAbs f.conv.radix f.conv.upper = f.digits v := rfl
  have hnat : max (value 10 f.width) (f.natural v).length = 1 + (f.digits v).length := by
    rw [Field.natural, length_append, length_append, hone, hmark, hwidth, length_nil]
    omega
  rw [Field.Right, hdec, hlen, hnat, hplaced, signOf_zero, hmark', hdig, Option.some.injEq]
  rw [Field.signOf, if_pos h10, wanted] at hwant
  have hplus : (flgsOf f.flags).sign = true ↔ '+' ∈ f.flags := decide_eq_true_iff
  have hspace : (flgsOf f.flags).space = true ↔ ' ' ∈ f.flags := decide_eq_true_iff
  rw [← hplus, ← hspace]
  by_cases hneg : v < 0
  · have hno : ¬ 0 ≤ v := by omega
    rw [decide_eq_true hneg, if_pos rfl]
    refine iff_of_false ?_ fun h => hno h.1
    rintro ⟨hval, -⟩
    split_ifs at hval <;> simp only [Option.some.injEq, Char.reduceEq] at * <;> omega
  · have hpos : 0 ≤ v := by omega
    have habs : (v.natAbs : Int) = v := by omega
    rw [decide_eq_false hneg] at hwant ⊢
    rw [if_neg Bool.false_ne_true] at hwant ⊢
    simp only [hpos, true_and]
    split_ifs at hwant ⊢ <;> simp_all

/-- The smallest `int` is read back as another number. -/
theorem not_right_min (hm : f.modifier = []) (hs : f.conv.sign = true) :
    ¬ f.Right (-2 ^ 31) (field f.spec f.conv.radix f.conv.sign f.conv.upper (encode (-2 ^ 31))) := by
  have hfetch : fetch f.spec.len f.conv.sign (encode (-2 ^ 31)) = (2 ^ 64 - 2 ^ 31, true) := by
    rw [hs, show f.spec.len = 0 by rw [Field.spec, hm]; rfl]
    decide +kernel
  rintro ⟨hdec, -⟩
  rw [(field_reads f.spec f.conv.upper hfetch f.conv.radix_cases).1, Option.some.injEq] at hdec
  split at hdec <;> omega

/-- **The field of an integer conversion reads back to the argument and has the right length** if and only if its sign
finds a place or a space stands in for a plus, no padding on the right is asked for, and the argument is not the
smallest `int`. -/
theorem vsprintf_field (f : Field) (v : Int) (hv : InRange f.modifier.length f.conv.sign v) :
    (∃ out, vsprintf f.text [.num (encode v)] = some out ∧ decode f.conv.radix out = some v ∧
      out.length = max (value 10 f.width) (f.natural v).length) ↔ f.Fits v := by
  have hout : (∃ out, vsprintf f.text [.num (encode v)] = some out ∧ f.Right v out) ↔
      f.Right v (field f.spec f.conv.radix f.conv.sign f.conv.upper (encode v)) := by
    rw [vsprintf_text]
    simp
  refine hout.trans ?_
  by_cases hmin : f.modifier = [] ∧ f.conv.sign = true ∧ v = -2 ^ 31
  · obtain ⟨hm, hs, rfl⟩ := hmin
    exact iff_of_false (not_right_min hm hs) fun h => h.min ⟨hm, hs, rfl⟩
  by_cases hplace : f.signOf v ≠ none → value 10 f.width ≠ (f.digits v).length
  · rw [right_of_place hv hmin hplace]
    exact ⟨fun hleft => ⟨hmin, hleft, fun hw => .inl (hplace hw)⟩, fun h => h.left⟩
  · push Not at hplace
    obtain ⟨hwant, hwidth⟩ := hplace
    rw [right_of_no_place hv hmin hwant hwidth]
    refine ⟨fun h => ⟨hmin, fun _ => ?_, fun _ => .inr h⟩, fun h => (h.place hwant).resolve_left (not_not.2 hwidth)⟩
    rw [Field.natural, length_append, hwidth]
    omega

/-- The conversion `%+08lx`. -/
def wideHex : Field :=
  ⟨['+', '0'], [8], ['l'], .x, by simp, by simp, by simp, by simp, by decide, by simp, by simp⟩

theorem vsprintf_field_wideHex : ∃ out, vsprintf wideHex.text [.num (encode 48879)] = some out ∧
    decode 16 out = some 48879 ∧ out.length = max 8 (wideHex.natural 48879).length :=
  (vsprintf_field wideHex 48879 (by simp [InRange, wideHex, Conv.sign])).2 ⟨by decide, by decide, by decide⟩

/-- **A sign without a place is lost** (`%1d` of -5), **fields are not padded on the right** (`%-5d` of 3), and **the
smallest `int` is not printed** (`%d` of -2147483648). -/
theorem vsprintf_wrong : vsprintf ['%', '1', 'd'] [.num (encode (-5))] = some ['5'] ∧
    vsprintf ['%', '-', '5', 'd'] [.num (encode 3)] = some ['3'] ∧
    (vsprintf ['%', 'd'] [.num (encode (-2147483648))]).bind (decode 10) = some (-18446744071562067968) := by
  decide +kernel

end TextOS.Vsprintf
