import TextOS.Float.Parse
import TextOS.Float.Print

/-!
# `strtod` reads what `%a` prints

- `bigTohex_spec`: the digits that are printed, and the fraction;
- `scan_digits`, `scan_fraction`, `stoint_fmtExp`: what `hex2fp` reads from them;
- `packfp_exact`: nothing is rounded;
- **the text that `vfprintf` prints for a finite `double` is read back with the same bits, and to its end, unless the
  `double` is a power of two that is not subnormal** (`strtod_vfprintfA`): then `big_tohex` returns before it sets the
  two variables (`power_of_two_wrong`).
-/

namespace TextOS.Float

open Lib List Option

variable {ds : List Nat} {gotdot : Bool} {d : Nat}

/-! ## Printing digits -/

theorem length_divide (rem : Nat) (num : List Nat) : (divide rem num).1.length = num.length := by
  induction num generalizing rem with
  | nil => rfl
  | cons d num ih => exact congrArg (· + 1) (ih _)

/-- One long division by sixteen. -/
theorem divide_spec {rem : Nat} {num : List Nat} (hrem : rem < 16) (hnum : ∀ d ∈ num, d < 10) :
    value 10 (divide rem num).1 * 16 + (divide rem num).2 = rem * 10 ^ num.length + value 10 num ∧
    (divide rem num).2 < 16 ∧
      ∀ d ∈ (divide rem num).1, d < 10 := by
  induction num generalizing rem with
  | nil => exact ⟨by simp [divide], hrem, nofun⟩
  | cons d num ih =>
    have hd := hnum d mem_cons_self
    obtain ⟨hval, hlt, hdig⟩ := ih (Nat.mod_lt (rem * 10 + d) (by decide : 0 < 16)) fun e he =>
      hnum e (mem_cons_of_mem d he)
    refine ⟨?_, hlt, ?_⟩
    · rw [divide]
      rw [value_cons, length_divide, value_cons, length_cons]
      calc ((rem * 10 + d) / 16 * 10 ^ num.length + value 10 (divide ((rem * 10 + d) % 16) num).1) * 16 +
            (divide ((rem * 10 + d) % 16) num).2
          = 16 * ((rem * 10 + d) / 16) * 10 ^ num.length + (value 10 (divide ((rem * 10 + d) % 16) num).1 * 16 +
            (divide ((rem * 10 + d) % 16) num).2) := by ring
        _ = (16 * ((rem * 10 + d) / 16) + (rem * 10 + d) % 16) * 10 ^ num.length + value 10 num := by rw [hval]; ring
        _ = rem * 10 ^ (num.length + 1) + (d * 10 ^ num.length + value 10 num) := by rw [Nat.div_add_mod]; ring
    intro e he
    rcases mem_cons.1 he with rfl | he
    · omega
    · exact hdig e he

theorem head?_dropWhile_zero (ds : List Nat) : (ds.dropWhile (· = 0)).head? ≠ some 0 := by
  intro h
  have := head?_dropWhile_not (· = 0) ds
  rw [h] at this
  simp at this

/-- The remainders of repeated division are the hexadecimal digits. -/
theorem remainders_eq {fuel : Nat} {num : List Nat} (hnum : ∀ d ∈ num, d < 10) (hhead : num.head? ≠ some 0)
    (hfuel : value 10 num < 16 ^ fuel) : remainders fuel num = some (Nat.digits 16 (value 10 num)) := by
  induction fuel generalizing num with
  | zero =>
    cases num with
    | nil => rfl
    | cons d num =>
      -- a number with digits is positive
      have hd : d ≠ 0 := fun h => hhead (by rw [h]; rfl)
      have := Nat.mul_pos (Nat.pos_of_ne_zero hd) (pow_pos (by decide : 0 < 10) num.length)
      rw [value_cons, pow_zero] at hfuel
      omega
  | succ fuel ih =>
    cases num with
    | nil => rfl
    | cons d num =>
      have hd : d ≠ 0 := fun h => hhead (by rw [h]; rfl)
      obtain ⟨hval, hlt, hdig⟩ := divide_spec (by decide : 0 < 16) hnum
      have hpos : 0 < value 10 (d :: num) := by
        rw [value_cons]
        exact Nat.add_pos_left (Nat.mul_pos (Nat.pos_of_ne_zero hd) (pow_pos (by decide) _)) _
      have hq : value 10 ((divide 0 (d :: num)).1.dropWhile (· = 0)) = value 10 (d :: num) / 16 := by
        rw [value_dropWhile]
        omega
      rw [remainders, ih (fun e he => hdig e (dropWhile_subset _ he)) (head?_dropWhile_zero _), hq,
        Nat.digits_def' (by decide) hpos, map_some]
      · have : (divide 0 (d :: num)).2 = value 10 (d :: num) % 16 := by omega
        rw [this]
      · rw [hq, Nat.div_lt_iff_lt_mul (by decide), ← pow_succ]
        exact hfuel
      · exact cons_ne_nil _ _

theorem exists_append_replicate_zero (ds : List Nat) : ∃ k, ds = (ds.reverse.dropWhile (· = 0)).reverse ++
    List.replicate k 0 := by
  refine ⟨(ds.reverse.takeWhile (· = 0)).length, ?_⟩
  have hz : (ds.reverse.takeWhile (· = 0)) = List.replicate (ds.reverse.takeWhile (· = 0)).length 0 := by
    rw [eq_replicate_iff]
    exact ⟨rfl, fun d hd => by simpa using mem_takeWhile_imp hd⟩
  have h := congrArg List.reverse (takeWhile_append_dropWhile (p := (· = 0)) (l := ds.reverse))
  rw [reverse_append, reverse_reverse, hz, reverse_replicate] at h
  exact h.symm

/-- The fraction is printed as its hexadecimal digits, up to zeros at the end. -/
theorem bigTohex_spec (g : Garbage) {frac : Nat} (h0 : frac ≠ 0) (hlt : frac < 2 ^ 52) :
    ∃ ds k, bigTohex g (bigPushU128 frac) true 13 (-1) = some ⟨ds.map (letter true), ds.length, 0, 0⟩ ∧
    ds.length + k = 13 ∧
      value 16 ds * 16 ^ k = frac ∧ ∀ d ∈ ds, d < 16 := by
  have hval : value 10 (bigPushU128 frac) = frac := value_reverse_digits (by decide) frac
  have hne : (bigPushU128 frac).length ≠ 0 := by
    rw [bigPushU128, length_reverse, Ne, length_eq_zero_iff, Nat.digits_eq_nil_iff_eq_zero]
    exact h0
  have hdig : ∀ d ∈ bigPushU128 frac, d < 10 := fun d hd => Nat.digits_lt_base (by decide) (mem_reverse.1 hd)
  have hrem : remainders (bigPushU128 frac).length (bigPushU128 frac) = some (Nat.digits 16 frac) := by
    rw [remainders_eq hdig, hval]
    · rw [bigPushU128, head?_reverse, getLast?_eq_some_getLast (Nat.digits_ne_nil_iff_ne_zero.2 h0), Ne, some.injEq]
      exact Nat.getLast_digit_ne_zero 10 h0
    · exact (value_lt hdig).trans_le (Nat.pow_le_pow_left (by decide) _)
  -- all thirteen digits
  obtain ⟨hex, hhex⟩ : ∃ hex, hex = List.replicate (13 - (Nat.digits 16 frac).reverse.length) 0 ++
    (Nat.digits 16 frac).reverse := ⟨_, rfl⟩
  have hlen : hex.length = 13 := by
    have : (Nat.digits 16 frac).length ≤ 13 := by
      rw [Nat.digits_length_le_iff (by decide)]
      exact hlt
    rw [hhex, length_append, length_replicate, length_reverse]
    omega
  have hhexval : value 16 hex = frac := by
    rw [hhex, value_append, value_replicate_zero, Nat.zero_mul, Nat.zero_add, value_reverse_digits (by decide)]
  have hhexdig : ∀ d ∈ hex, d < 16 := by
    intro d hd
    rw [hhex] at hd
    rcases mem_append.1 hd with hd | hd
    · rw [eq_of_mem_replicate hd]
      decide
    · exact Nat.digits_lt_base (by decide) (mem_reverse.1 hd)
  obtain ⟨k, hk⟩ := exists_append_replicate_zero hex
  refine ⟨(hex.reverse.dropWhile (· = 0)).reverse, k, ?_, ?_, ?_, ?_⟩
  · rw [bigTohex, if_neg hne, hrem, bind_eq_bind, bind_some]
    dsimp only
    rw [← hhex, round, if_pos (by decide)]
    rfl
  · have := congrArg List.length hk
    rw [length_append, length_replicate, hlen] at this
    exact this.symm
  · have := congrArg (value 16) hk
    rw [value_append, value_replicate_zero, Nat.add_zero, length_replicate, hhexval] at this
    exact this.symm
  · intro d hd
    exact hhexdig d (by rw [hk]; exact mem_append_left _ hd)

/-! ## Reading digits -/

theorem isxdigit_letter (h : d < 16) : isxdigit (letter true d) = true := by interval_cases d <;> decide

theorem xxdigit_letter (h : d < 16) : xxdigit (letter true d) = d := by interval_cases d <;> decide

/-- Digits behind the first nonzero one are shifted in. -/
theorem scan_digits (st : Scan) (rest : List Char) (hds : ∀ d ∈ ds, d < 16) (hdot : st.gotdot = true)
    (hpos : 0 < st.elz) (hfirst : st.elzFirst ≠ 0) (hlen : st.elz + ds.length ≤ 32) (hlt : st.f128 < 16 ^ st.elz) :
    scan st (ds.map (letter true) ++ rest) =
      scan { st with frac := st.frac + ds.length, elz := st.elz + ds.length,
                     f128 := st.f128 * 16 ^ ds.length + value 16 ds } rest := by
  induction ds generalizing st with
  | nil => simp
  | cons d ds ih =>
    have hd := hds d mem_cons_self
    rw [length_cons] at hlen
    have hnext : st.f128 * 16 + d < 16 ^ (st.elz + 1) := by omega
    have hfit : u128 (st.f128 * 16 + d) = st.f128 * 16 + d := by
      refine Nat.mod_eq_of_lt (hnext.trans_le ?_)
      exact (Nat.pow_le_pow_right (by decide) (by omega : st.elz + 1 ≤ 32)).trans (by decide)
    rw [map_cons, cons_append, scan, if_pos (isxdigit_letter hd), xxdigit_letter hd, if_pos (.inr hpos)]
    dsimp only
    rw [if_neg (by omega), hfit, if_pos hdot, if_neg hfirst, hdot]
    refine (ih ⟨st.frac + 1, st.lz, st.elz + 1, st.elzFirst, true, st.f128 * 16 + d⟩
      (fun e he => hds e (mem_cons_of_mem d he)) rfl (Nat.succ_pos _) hfirst (show st.elz + 1 + ds.length ≤ 32 by omega)
      hnext).trans ?_
    rw [value_cons, length_cons, pow_succ]
    dsimp only
    congr 2
    · omega
    · omega
    · ring

/-- A nonzero fraction is scanned to its value and the length of its leading part. -/
theorem scan_fraction (frac lz : Nat) (hds : ∀ d ∈ ds, d < 16) (hval : value 16 ds ≠ 0) (hlen : ds.length ≤ 32) :
    ∃ lz' n first, (∀ rest, scan ⟨frac, lz, 0, 0, true, 0⟩ (ds.map (letter true) ++ rest) =
        scan ⟨frac + ds.length, lz', n + 1, first, true, value 16 ds⟩ rest) ∧
      0 < first ∧ first < 16 ∧ n < ds.length ∧ first * 16 ^ n ≤ value 16 ds ∧ value 16 ds < (first + 1) * 16 ^ n := by
  induction ds generalizing frac lz with
  | nil => exact absurd rfl hval
  | cons d ds ih =>
    have hd := hds d mem_cons_self
    have hds' : ∀ e ∈ ds, e < 16 := fun e he => hds e (mem_cons_of_mem d he)
    rw [length_cons] at hlen
    by_cases h0 : d = 0
    · subst h0
      obtain ⟨lz', n, first, hscan, hpos, hlt, hn, hle, hub⟩ := ih (frac + 1) (lz + 1) hds' hval (by omega)
      refine ⟨lz', n, first, fun rest => ?_, hpos, hlt, by rw [length_cons]; omega, hle, hub⟩
      rw [map_cons, cons_append, scan, if_pos (isxdigit_letter hd), xxdigit_letter hd, length_cons,
        show frac + (ds.length + 1) = frac + 1 + ds.length by omega]
      exact hscan rest
    have hvlt := value_lt hds'
    refine ⟨lz, ds.length, d, fun rest => ?_, Nat.pos_of_ne_zero h0, hd, by rw [length_cons]; omega, ?_, ?_⟩
    · rw [map_cons, cons_append, scan, if_pos (isxdigit_letter hd), xxdigit_letter hd, if_pos (.inl h0)]
      refine (scan_digits ⟨frac + 1, lz, 1, d, true, u128 (0 * 16 + d)⟩ rest hds' rfl Nat.one_pos h0
        (show 1 + ds.length ≤ 32 by omega) ?_).trans ?_
      · show u128 (0 * 16 + d) < 16 ^ 1
        rw [u128, Nat.zero_mul, Nat.zero_add]
        omega
      rw [value_cons, length_cons]
      dsimp only
      have hu : u128 (0 * 16 + d) = d := by
        rw [u128, Nat.zero_mul, Nat.zero_add]
        omega
      rw [hu]
      congr 2 <;> omega
    · rw [value_cons]
      omega
    · rw [value_cons, Nat.add_mul, Nat.one_mul]
      omega

theorem scan_p (st : Scan) (rest : List Char) : scan st ('p' :: rest) = (st, 'p' :: rest, false) := by
  rw [scan, if_neg (by decide), if_neg (by decide)]

theorem scanSticky_p (gotdot : Bool) (rest : List Char) : scanSticky gotdot 0 ('p' :: rest) =
    some (0, 'p' :: rest) := by
  rw [scanSticky, if_neg (by decide), if_neg (by decide)]

theorem letter_eq_zero (h : d < 10) : (letter true d = '0') = (d = 0) := by interval_cases d <;> decide

theorem digit_letter (h : d < 10) : '0' ≤ letter true d ∧ letter true d ≤ '9' ∧
    (letter true d).toNat = '0'.toNat + d := by
  interval_cases d <;> decide

theorem stointLoop_letters (r : Int) (n : Nat) (hds : ∀ d ∈ ds, d < 10) :
    stointLoop r n (ds.map (letter true)) = (r * 10 ^ ds.length + value 10 ds, n + ds.length, []) := by
  induction ds generalizing r n with
  | nil => simp [stointLoop]
  | cons d ds ih =>
    obtain ⟨hlo, hhi, hval⟩ := digit_letter (hds d mem_cons_self)
    rw [map_cons, stointLoop, if_pos ⟨hlo, hhi⟩, ih _ _ fun e he => hds e (mem_cons_of_mem d he), hval, value_cons,
      length_cons, pow_succ]
    push_cast
    congr 1
    · ring
    · congr 1
      omega

theorem dropWhile_letters (hds : ∀ d ∈ ds, d < 10) :
    (ds.map (letter true)).dropWhile (· = '0') = (ds.dropWhile (· = 0)).map (letter true) := by
  induction ds with
  | nil => rfl
  | cons d ds ih =>
    have hz := letter_eq_zero (hds d mem_cons_self)
    rw [map_cons, dropWhile_cons, dropWhile_cons]
    simp only [hz, decide_eq_true_eq]
    split
    · exact ih fun e he => hds e (mem_cons_of_mem d he)
    · rfl

theorem stoint_letters (neg : Bool) (hds : ∀ d ∈ ds, d < 10) :
    stoint ((if neg then '-' else '+') :: ds.map (letter true)) = ((value 10 ds : Int) * (if neg then -1 else 1),
    ds.length, []) := by
  have hlen := congrArg List.length (takeWhile_append_dropWhile (p := (· = '0')) (l := ds.map (letter true)))
  rw [length_append, length_map, dropWhile_letters hds, length_map] at hlen
  have hloop := stointLoop_letters 0 ((ds.map (letter true)).takeWhile (· = '0')).length
    fun d hd => hds d (dropWhile_subset (· = 0) hd)
  rw [value_dropWhile, Int.zero_mul, Int.zero_add, hlen] at hloop
  rw [← dropWhile_letters hds] at hloop
  cases neg <;> simp [stoint, hloop]

/-- The printed exponent reads back. -/
theorem stoint_fmtExp (e : Int) : ∃ rest n, fmtExp 'p' e 1 = 'p' :: rest ∧ stoint rest = (e, n + 1, []) := by
  obtain ⟨ds, hds⟩ : ∃ ds, ds = List.replicate (1 - (Nat.digits 10 e.natAbs).reverse.length) 0 ++
    (Nat.digits 10 e.natAbs).reverse := ⟨_, rfl⟩
  have hdig : ∀ d ∈ ds, d < 10 := by
    intro d hd
    rw [hds] at hd
    rcases mem_append.1 hd with hd | hd
    · rw [eq_of_mem_replicate hd]
      decide
    · exact Nat.digits_lt_base (by decide) (mem_reverse.1 hd)
  have hval : value 10 ds = e.natAbs := by
    rw [hds, value_append, value_replicate_zero, Nat.zero_mul, Nat.zero_add, value_reverse_digits (by decide)]
  have hlen : ds.length = ds.length - 1 + 1 := by
    rw [hds, length_append, length_replicate]
    omega
  refine ⟨(if decide (e < 0) then '-' else '+') :: ds.map (letter true), ds.length - 1, ?_, ?_⟩
  · rw [fmtExp, ← hds]
    congr 2
    by_cases he : 0 ≤ e
    · rw [if_pos he, if_neg (by simpa using he)]
    · rw [if_neg he, if_pos (by simpa using he)]
  rw [stoint_letters _ hdig, hval, ← hlen]
  by_cases he : 0 ≤ e
  · rw [if_neg (by simpa using he)]
    congr 1
    omega
  rw [if_pos (by simpa using he)]
  congr 1
  omega

/-! ## Packing -/

theorem mkfp_eq {signbit : Bool} {frac expo : Nat} (hf : frac < 2 ^ 52) (he : expo < 2 ^ 11) :
    mkfp signbit frac expo = UInt64.ofNat ((if signbit then 2 ^ 63 else 0) + expo * 2 ^ 52 + frac) := by
  have hexpo : ((expo : Int) % 2 ^ 11).toNat = expo := by omega
  rw [mkfp, hexpo, Nat.mod_eq_of_lt hf, Nat.or_assoc, ← Nat.shiftLeft_add_eq_or_of_lt hf, Nat.shiftLeft_eq,
    Nat.add_assoc]
  congr 1
  cases signbit with
  | false => exact (Nat.zero_or _).trans (Nat.zero_add _).symm
  | true =>
    have hlow : expo * 2 ^ 52 + frac < 2 ^ 63 := by omega
    have := Nat.shiftLeft_add_eq_or_of_lt hlow 1
    exact this.symm

theorem roundfp_exact {sign biased : Int} {M : Nat} (hb : biased < 2 ^ 11) (hne : ¬(M % 2 ^ 52 = 0 ∧ biased = 0)) :
    roundfp sign (M * 8) biased 0 = mkfp (sign < 0) (M % 2 ^ 52) biased := by
  have hF : (M * 8) >>> 3 = M := by omega
  have hG : M * 8 / 4 % 2 = 0 := by omega
  have hlt : ¬2 ^ 52 ≤ M % 2 ^ 52 := not_le.2 (Nat.mod_lt _ (by decide))
  have hexpo : ¬2 ^ EXPOBITS ≤ biased := not_le.2 hb
  simp only [roundfp, hF, hG, ne_eq, not_true_eq_false, false_and, if_false, hlt, hexpo, hne]

/-- A significand that fits is packed without rounding. -/
theorem packfp_exact {sign biased : Int} {M rshift : Nat}
    (hr : (127 - (FGRSBITS - 1 : Int) + if biased ≤ 0 then 1 - biased else 0) = rshift) (hlt : rshift < 128)
    (hb : biased < 2 ^ 11) (hne : ¬(M % 2 ^ 52 = 0 ∧ biased ≤ 0)) :
    packfp sign (M * 8 * 2 ^ rshift) biased 0 = mkfp (sign < 0) (M % 2 ^ 52) (if biased ≤ 0 then 0 else biased) := by
  have hsh : (M * 8 * 2 ^ rshift) >>> rshift = M * 8 := by
    rw [Nat.shiftRight_eq_div_pow, Nat.mul_div_cancel _ (by positivity)]
  have hlost : M * 8 * 2 ^ rshift % 2 ^ rshift = 0 := Nat.mul_mod_left _ _
  simp only [packfp, hr, Int.toNat_natCast, not_le.2 hlt, if_false, hlost, hsh, ne_eq, not_true_eq_false]
  apply roundfp_exact
  · split
    · decide
    · exact hb
  rintro ⟨hm, h0⟩
  refine hne ⟨hm, ?_⟩
  by_contra hpos
  omega

/-- The significand is moved to the top of the register and packed. -/
theorem compute_eq (nptr p : List Char) (sign pE : Int) {frac lz n first V : Nat} (hfirst : first < 16) (hn : n < 31)
    (hV : V < (first + 1) * 16 ^ n) : compute nptr p sign ⟨frac, lz, n + 1, first, gotdot, V⟩ 0 pE =
      (packfp sign (V * 2 ^ (127 - (4 * n + Nat.log2 first)))
      (pE + (4 * n + Nat.log2 first : Nat) - 4 * frac + 1023) 0, p) := by
  have hlog : Nat.log2 first < 4 := by interval_cases first <;> decide
  have hmsb : (((n + 1 : Nat) : Int) - 1) * 4 + (3 - (31 - (Nat.log2 first : Int) - 28)) =
    (4 * n + Nat.log2 first : Nat) := by
    push_cast
    ring
  have hfit : V * 2 ^ (127 - (4 * n + Nat.log2 first)) < 2 ^ 128 := by
    have hup : V < 2 ^ (4 * n + Nat.log2 first + 1) := by
      calc V < (first + 1) * 16 ^ n := hV
        _ ≤ 2 ^ (Nat.log2 first + 1) * 16 ^ n := Nat.mul_le_mul_right _ Nat.lt_log2_self
        _ = 2 ^ (4 * n + Nat.log2 first + 1) := by
          rw [show (16 : Nat) = 2 ^ 4 by rfl, ← pow_mul, ← pow_add]
          congr 1
          omega
    calc V * 2 ^ (127 - (4 * n + Nat.log2 first))
        < 2 ^ (4 * n + Nat.log2 first + 1) * 2 ^ (127 - (4 * n + Nat.log2 first)) :=
        Nat.mul_lt_mul_of_pos_right hup (by positivity)
      _ = 2 ^ 128 := by
        rw [← pow_add]
        congr 1
        omega
  have hto : ((127 : Int) - (4 * n + Nat.log2 first : Nat)).toNat = 127 - (4 * n + Nat.log2 first) := by omega
  rw [compute, if_neg (by dsimp only; omega), if_neg (by dsimp only; omega)]
  dsimp only
  rw [hmsb, if_pos (by omega), hto, Nat.shiftLeft_eq, u128, Nat.mod_eq_of_lt hfit]
  rfl

theorem shift_eq {V k m r M : Nat} (hM : V * 16 ^ k = M) (hr : 4 * k + 3 + r = m) : V * 2 ^ m = M * 8 * 2 ^ r := by
  rw [← hM, ← hr, pow_add, pow_add, pow_mul]
  ring

theorem lt_of_digits {V M nd k : Nat} (hnd : nd + k = 13) (hV : V * 16 ^ k < M * 2 ^ 52) : V < M * 16 ^ nd := by
  refine Nat.lt_of_mul_lt_mul_right (a := 16 ^ k) ?_
  rwa [Nat.mul_assoc, ← pow_add, hnd]

theorem compute_norm (nptr p : List Char) (sign : Int) {nd lz k V frac expo : Nat} (hnd : nd + k = 13)
    (hV : V * 16 ^ k = 2 ^ 52 + frac) (hfrac : frac < 2 ^ 52) (hexpo : 0 < expo ∧ expo < 2 ^ 11) :
    compute nptr p sign ⟨nd, lz, nd + 1, 1, gotdot, V⟩ 0 ((expo : Int) - BIAS) = (mkfp (sign < 0) frac expo, p) := by
  have hbiased : (expo : Int) - BIAS + (4 * nd + Nat.log2 1 : Nat) - 4 * nd + 1023 = expo := by
    rw [BIAS, show Nat.log2 1 = 0 by decide]
    push_cast
    omega
  have hpos : ¬(expo : Int) ≤ 0 := by omega
  rw [compute_eq nptr p sign _ (by decide) (by omega) (lt_of_digits hnd (by omega)), hbiased,
    shift_eq (r := 72) hV (by rw [show Nat.log2 1 = 0 by decide]; omega), packfp_exact (by rw [if_neg hpos]; rfl)
    (by decide) (by omega) (by omega), if_neg hpos, Nat.add_mod_left, Nat.mod_eq_of_lt hfrac]

/-- A subnormal number is packed as it was. -/
theorem compute_subnorm (nptr p : List Char) (sign : Int) {nd lz k n first V : Nat} (hnd : nd + k = 13) (hn : n < nd)
    (hfirst : 0 < first ∧ first < 16) (hlo : first * 16 ^ n ≤ V) (hhi : V < (first + 1) * 16 ^ n)
    (hV : V * 16 ^ k < 2 ^ 52) : compute nptr p sign ⟨nd, lz, n + 1, first, gotdot, V⟩ 0 (1 - BIAS) =
    (mkfp (sign < 0) (V * 16 ^ k) 0, p) := by
  obtain ⟨msb, hmsb⟩ : ∃ msb, msb = 4 * n + Nat.log2 first := ⟨_, rfl⟩
  have hle : msb < 4 * nd := by
    have : Nat.log2 first < 4 := by
      have := hfirst.2
      interval_cases first <;> decide
    omega
  have hpos : 0 < V * 16 ^ k := Nat.mul_pos ((Nat.mul_pos hfirst.1 (by positivity)).trans_le hlo) (by positivity)
  have hneg : (1 : Int) - BIAS + (msb : Nat) - 4 * nd + 1023 ≤ 0 := by
    rw [BIAS]
    omega
  rw [compute_eq nptr p sign _ hfirst.2 (by omega) hhi, ← hmsb, shift_eq (r := 72 + (4 * nd - msb))
    (M := V * 16 ^ k) rfl (by omega), packfp_exact ?_ (by omega) (by omega) (by omega), if_pos hneg,
    Nat.mod_eq_of_lt hV]
  rw [if_pos hneg, FGRSBITS, BIAS]
  push_cast
  omega

/-! ## The text -/

theorem hex2fp_eq (digits : List Char) (sign e : Int) {st : Scan}
    (hscan : ∀ rest, scan ⟨0, 0, 0, 0, false, 0⟩ (digits ++ 'p' :: rest) = scan st ('p' :: rest)) :
    hex2fp ('0' :: 'x' :: (digits ++ fmtExp 'p' e 1)) sign = compute ('0' :: 'x' :: (digits ++ fmtExp 'p' e 1))
    [] sign st 0 e := by
  obtain ⟨rest, n, htext, hst⟩ := stoint_fmtExp e
  rw [htext, hex2fp, if_neg (by simp)]
  simp only [drop_succ_cons, drop_zero, hscan, scan_p, scanSticky_p, head?_cons, tail_cons, hst]
  simp

/-- `strtod` of a sign and a hexadecimal text that is read to its end. -/
theorem strtod_hex (dec2fp : List Char → Int → UInt64 × List Char) (neg : Bool) {body : List Char} {bits : UInt64}
    (h : hex2fp ('0' :: 'x' :: body) (if neg then -1 else 1) = (bits, [])) :
    strtod dec2fp ((if neg then ['-'] else []) ++ '0' :: 'x' :: body) = (bits, some []) := by
  cases neg <;> simp_all [strtod, isspace, startsWith]

theorem frac_lt (x : UInt64) : (xfp x).frac < 2 ^ 52 := Nat.mod_lt _ (by decide)

theorem expo_lt (x : UInt64) : (xfp x).expo < 2 ^ 11 := Nat.mod_lt _ (by decide)

theorem ofNat_fields (x : UInt64) :
    UInt64.ofNat ((if decide ((xfp x).sign ≠ 0) then 2 ^ 63 else 0) + (xfp x).expo * 2 ^ 52 + (xfp x).frac) = x := by
  have hx : x.toNat < 2 ^ 64 := x.toNat_lt
  have hsum : (if decide ((xfp x).sign ≠ 0) then 2 ^ 63 else 0) + (xfp x).expo * 2 ^ 52 + (xfp x).frac = x.toNat := by
    rw [xfp]
    dsimp only
    by_cases hs : x.toNat / 2 ^ 63 ≠ 0
    · rw [if_pos (decide_eq_true hs)]
      omega
    · rw [if_neg (by simpa using hs)]
      omega
  rw [hsum]
  exact UInt64.ofNat_toNat

theorem sign_lt_zero (x : UInt64) : decide ((if decide ((xfp x).sign ≠ 0) then (-1 : Int) else 1) < 0) =
    decide ((xfp x).sign ≠ 0) := by
  by_cases hs : (xfp x).sign ≠ 0 <;> simp [hs]

theorem strtod_text (dec2fp : List Char → Int → UInt64 × List Char) (x : UInt64) (digits : List Char)
    (e : Int) (st : Scan) (hscan : ∀ rest, scan ⟨0, 0, 0, 0, false, 0⟩ (digits ++ 'p' :: rest) = scan st ('p' :: rest))
    (hcompute : ∀ nptr sign, compute nptr [] sign st 0 e = (mkfp (sign < 0) (xfp x).frac (xfp x).expo, [])) :
    strtod dec2fp ((if decide ((xfp x).sign ≠ 0) then ['-'] else []) ++ '0' :: 'x' :: (digits ++ fmtExp 'p' e 1)) =
    (x, some []) := by
  apply strtod_hex
  rw [hex2fp_eq digits _ e hscan, hcompute, sign_lt_zero, mkfp_eq (frac_lt x) (expo_lt x), ofNat_fields]

theorem vfprintfA_eq (g : Garbage) (x : UInt64) (digits : List Char) (e prec : Int) (hprec : prec ≤ 0)
    (h : fmtFp g x true false (-1) = some ⟨if (xfp x).sign ≠ 0 then -1 else 1, ['0', 'x'], digits,
    fmtExp 'p' e 1, prec⟩) : vfprintfA g x = some ((if decide ((xfp x).sign ≠ 0) then ['-'] else []) ++ '0' :: 'x' ::
    (digits ++ fmtExp 'p' e 1)) := by
  have hz : prec.toNat = 0 := by omega
  rw [vfprintfA, h, bind_eq_bind, bind_some]
  rw [hz]
  by_cases hs : (xfp x).sign ≠ 0 <;> simp [hs]

variable {g : Garbage} {x : UInt64} (dec2fp : List Char → Int → UInt64 × List Char)

theorem roundTrip_zero (hexpo : (xfp x).expo = 0) (hfrac : (xfp x).frac = 0) :
    ∃ text, vfprintfA g x = some text ∧ strtod dec2fp text = (x, some []) := by
  have hcl : (xfp x).cl = .zero := by rw [Fields.cl, if_pos hexpo, if_pos hfrac]
  refine ⟨_, vfprintfA_eq g x ['0'] 0 (-1) (by decide) (by rw [fmtFp, hcl]; rfl), ?_⟩
  refine strtod_text dec2fp x ['0'] 0 ⟨0, 1, 0, 0, false, 0⟩ (fun rest => rfl) fun nptr sign => ?_
  rw [hexpo, hfrac]
  by_cases hs : sign < 0 <;> simp [compute, signed, mkfp, hs]

theorem roundTrip_subnorm (hexpo : (xfp x).expo = 0) (hfrac : (xfp x).frac ≠ 0) :
    ∃ text, vfprintfA g x = some text ∧ strtod dec2fp text = (x, some []) := by
  have hcl : (xfp x).cl = .subnorm := by rw [Fields.cl, if_pos hexpo, if_neg hfrac]
  obtain ⟨ds, k, hhex, hlen, hval, hdig⟩ := bigTohex_spec g hfrac (frac_lt x)
  have hne : value 16 ds ≠ 0 := fun h0 => hfrac (by rw [← hval, h0, Nat.zero_mul])
  have hpos : 0 < ds.length := length_pos_iff.2 fun hnil => hne (by rw [hnil]; rfl)
  obtain ⟨lz, n, first, hscan, hfirst, hlt, hn, hlo, hhi⟩ := scan_fraction 0 1 hdig hne (by omega)
  have hfmt : fmtFp g x true false (-1) = some ⟨if (xfp x).sign ≠ 0 then -1 else 1, ['0', 'x'],
    '0' :: '.' :: ds.map (letter true),
      fmtExp 'p' (1 - BIAS) 1, 0⟩ := by
    simp [fmtFp, hcl, FRACBITS, hhex, hpos, letter]
  refine ⟨_, vfprintfA_eq g x _ _ 0 le_rfl hfmt, strtod_text dec2fp x _ _ _ (fun rest => hscan ('p' :: rest))
    fun nptr sign => ?_⟩
  rw [Nat.zero_add, compute_subnorm nptr [] sign hlen hn ⟨hfirst, hlt⟩ hlo hhi
    (by rw [hval]; exact frac_lt x), hval, hexpo]
  rfl

theorem roundTrip_norm (hexpo : (xfp x).expo ≠ 0) (hfin : (xfp x).expo ≠ 0x7ff) (hfrac : (xfp x).frac ≠ 0) :
    ∃ text, vfprintfA g x = some text ∧ strtod dec2fp text = (x, some []) := by
  have hcl : (xfp x).cl = .norm := by rw [Fields.cl, if_neg hexpo, if_neg hfin]
  obtain ⟨ds, k, hhex, hlen, hval, hdig⟩ := bigTohex_spec g hfrac (frac_lt x)
  have hpos : 0 < ds.length := length_pos_iff.2 fun hnil => hfrac (by rw [← hval, hnil]; simp)
  have hfmt : fmtFp g x true false (-1) = some ⟨if (xfp x).sign ≠ 0 then -1 else 1, ['0', 'x'],
    '1' :: '.' :: ds.map (letter true),
      fmtExp 'p' ((xfp x).expo - BIAS) 1, 0⟩ := by
    simp [fmtFp, hcl, FRACBITS, hhex, hpos, letter]
  have hscan : ∀ rest, scan ⟨0, 0, 0, 0, false, 0⟩ ('1' :: '.' :: ds.map (letter true) ++ 'p' :: rest) =
      scan ⟨ds.length, 0, ds.length + 1, 1, true, 16 ^ ds.length + value 16 ds⟩ ('p' :: rest) := by
    intro rest
    refine (scan_digits ⟨0, 0, 1, 1, true, 1⟩ _ hdig rfl Nat.one_pos one_ne_zero (show 1 + ds.length ≤ 32 by omega)
      (by decide)).trans ?_
    rw [Nat.zero_add, Nat.add_comm 1, Nat.one_mul]
  have hV : (16 ^ ds.length + value 16 ds) * 16 ^ k = 2 ^ 52 + (xfp x).frac := by
    rw [Nat.add_mul, ← pow_add, hlen, hval]
    norm_num
  refine ⟨_, vfprintfA_eq g x _ _ 0 le_rfl hfmt, strtod_text dec2fp x _ _ _ hscan fun nptr sign => ?_⟩
  exact compute_norm nptr [] sign hlen hV (frac_lt x) ⟨Nat.pos_of_ne_zero hexpo, expo_lt x⟩

theorem roundTrip_pow (hexpo : (xfp x).expo ≠ 0) (hfin : (xfp x).expo ≠ 0x7ff) (hfrac : (xfp x).frac = 0)
    (hg : g.erupt = 0 ∧ g.dummy = []) : ∃ text, vfprintfA g x = some text ∧ strtod dec2fp text = (x, some []) := by
  have hcl : (xfp x).cl = .norm := by rw [Fields.cl, if_neg hexpo, if_neg hfin]
  have hfmt : fmtFp g x true false (-1) = some ⟨if (xfp x).sign ≠ 0 then -1 else 1, ['0', 'x'], ['1'],
      fmtExp 'p' ((xfp x).expo - BIAS) 1, -1⟩ := by
    simp [fmtFp, hcl, hfrac, bigPushU128, bigTohex, hg.1, hg.2, letter]
  refine ⟨_, vfprintfA_eq g x _ _ (-1) (by decide) hfmt, strtod_text dec2fp x _ _ ⟨0, 0, 1, 1, false, 1⟩
    (fun rest => rfl) fun nptr sign => ?_⟩
  exact compute_norm nptr [] sign (show 0 + 13 = 13 from rfl) (by rw [hfrac]; rfl)
    (frac_lt x) ⟨Nat.pos_of_ne_zero hexpo, expo_lt x⟩

/-- A stray byte in the text ends the number. -/
theorem strtod_stray (neg : Bool) (rest : List Char) :
    (strtod dec2fp ((if neg then ['-'] else []) ++ '0' :: 'x' :: '1' :: 'z' :: rest)).2 ≠ some [] := by
  have hend (sign : Int) : (hex2fp ('0' :: 'x' :: '1' :: 'z' :: rest) sign).2 = 'z' :: rest := rfl
  cases neg <;> simp [strtod, isspace, startsWith, hend]

/-- **`strtod` reads the text of `%a` to its end and returns the same bits**, whatever the two variables hold, if and
only if the number is no power of two; for a power of two it does if they happen to be zero. -/
theorem strtod_vfprintfA (dec2fp : List Char → Int → UInt64 × List Char) (x : UInt64) (hfin : (xfp x).expo ≠ 0x7ff) :
    ((∀ g, ∃ text, vfprintfA g x = some text ∧ strtod dec2fp text = (x, some [])) ↔
      (xfp x).frac ≠ 0 ∨ (xfp x).expo = 0) ∧
    ∀ g : Garbage, g.erupt = 0 ∧ g.dummy = [] →
      ∃ text, vfprintfA g x = some text ∧ strtod dec2fp text = (x, some []) := by
  by_cases hexpo : (xfp x).expo = 0
  · have hall (g : Garbage) : ∃ text, vfprintfA g x = some text ∧ strtod dec2fp text = (x, some []) := by
      by_cases hfrac : (xfp x).frac = 0
      · exact roundTrip_zero dec2fp hexpo hfrac
      · exact roundTrip_subnorm dec2fp hexpo hfrac
    exact ⟨iff_of_true hall (.inr hexpo), fun g _ => hall g⟩
  by_cases hfrac : (xfp x).frac = 0
  · refine ⟨iff_of_false (fun hall => ?_) (by simp [hexpo, hfrac]), fun g => roundTrip_pow dec2fp hexpo hfin hfrac⟩
    obtain ⟨text, htext, hread⟩ := hall ⟨['z'], 0⟩
    have hcl : (xfp x).cl = .norm := by rw [Fields.cl, if_neg hexpo, if_neg hfin]
    have hfmt : fmtFp ⟨['z'], 0⟩ x true false (-1) = some ⟨if (xfp x).sign ≠ 0 then -1 else 1, ['0', 'x'], ['1', 'z'],
        fmtExp 'p' ((xfp x).expo - BIAS) 1, -1⟩ := by
      simp [fmtFp, hcl, hfrac, bigPushU128, bigTohex, letter]
    rw [vfprintfA_eq _ x _ _ (-1) (by decide) hfmt] at htext
    cases htext
    exact strtod_stray dec2fp _ _ (congrArg Prod.snd hread)
  · have hall (g : Garbage) := roundTrip_norm (g := g) dec2fp hexpo hfin hfrac
    exact ⟨iff_of_true hall (.inl hfrac), fun g _ => hall g⟩

/-- The number -3/2. -/
theorem strtod_vfprintfA_neg : ∃ text, vfprintfA ⟨['?'], 7⟩ 0xbff8000000000000 = some text ∧
    strtod (fun p _ => (0, p)) text = (0xbff8000000000000, some []) :=
  (strtod_vfprintfA _ 0xbff8000000000000 (by decide)).1.2 (.inl (by decide)) ⟨['?'], 7⟩

/-- The number 1 is printed as 2 if `erupt` happens not to be zero. -/
theorem power_of_two_wrong : vfprintfA ⟨[], 1⟩ 0x3ff0000000000000 = some "0x2p+0".toList ∧
    strtod (fun p _ => (0, p)) "0x2p+0".toList = (0x4000000000000000, some []) := by
  decide +kernel

end TextOS.Float
