import TextOS.Lib.Word

/-!
# Calendar time: `kernel/klib/time.c`

`time_stamp` counts the days of the years before by a formula, `time_rtctm` takes away one year after the other. The
numbers of the formula are unsigned and wrap before the year 2000; the number of days of common years is a 32-bit
number.

- `leapDays_succ`: the formula counts the leap years;
- **both functions are inverse** for the dates from 1970 to the year 10000000 (`time_calendar`).
-/

namespace TextOS.Time

open Lib

variable {Y : Nat}

/-- `rtc_tm_t`. -/
structure RtcTm where
  second : Nat
  minute : Nat
  hour : Nat
  day : Nat
  month : Nat
  year : Nat
deriving DecidableEq, Repr

/-- The table `month`: the days of a common year up to the end of a month. -/
def month : List Nat := [0, 31, 59, 90, 120, 151, 181, 212, 243, 273, 304, 334, 365]

def leapCkr (year : Nat) : Bool := if year % 100 = 0 then year % 400 == 0 else year % 4 == 0

/-- `DIV_ROUND_UP` of a 64-bit number. -/
def divRoundUp (num divisor : Nat) : Nat := u64 (num + (divisor - 1)) / divisor

/-- `offset`: the leap years before `Y`. -/
def leapDays (Y : Nat) : Nat :=
  u64 (divRoundUp (u64 (Y + 2 ^ 64 - 1972)) 4 + 2 ^ 64 - divRoundUp (u64 (Y + 2 ^ 64 - 2000)) 100 +
    divRoundUp (u64 (Y + 2 ^ 64 - 2000)) 400)

/-- `common`. -/
def commonDays (Y : Nat) : Nat := u32 (u32 (Y + 2 ^ 32 - 1970) * 365)

def timeStamp (tm : RtcTm) : Nat :=
  let days := u32 (month.getD (tm.month - 1) 0 + (if 2 < tm.month ∧ leapCkr tm.year then 1 else 0) +
    (tm.day + 2 ^ 32 - 1))
  u64 ((commonDays tm.year + leapDays tm.year + days) * 86400 + tm.hour * 3600 + tm.minute * 60 + tm.second)

/-- `year_days`. -/
def yearLength (year : Nat) : Nat := if leapCkr year then 366 else 365

theorem yearLength_pos (year : Nat) : 0 < yearLength year := by
  unfold yearLength
  split <;> omega

theorem yearLength_le (year : Nat) : yearLength year ≤ 366 := by
  unfold yearLength
  split <;> omega

/-- The `while` loop of `time_rtctm`: `days_left` and `year`. -/
def yearLoop (daysLeft year : Nat) : Nat × Nat :=
  if daysLeft < yearLength year then (daysLeft, year) else yearLoop (daysLeft - yearLength year) (year + 1)
termination_by daysLeft
decreasing_by
  have := yearLength_pos year
  omega

/-- `cum_days` and `prev_days`: the days of a year up to the end of the month `i`. -/
def cumDays (isLeap : Bool) (i : Nat) : Nat := month.getD i 0 + if isLeap ∧ 2 ≤ i then 1 else 0

/-- The `for` loop of `time_rtctm`: `i` and `prev_days`. -/
def monthLoop (isLeap : Bool) (daysLeft i : Nat) : Nat × Nat :=
  if i ≤ 12 then
    if daysLeft < cumDays isLeap i then (i, cumDays isLeap (i - 1)) else monthLoop isLeap daysLeft (i + 1)
  else (i, 0)
termination_by 13 - i

def timeRtctm (ts : Nat) : RtcTm :=
  let y := yearLoop (ts / 86400) 1970
  let m := monthLoop (leapCkr y.2) y.1 1
  { year := u32 y.2
    month := m.1 % 256
    day := u64 (y.1 + 2 ^ 64 - m.2 + 1) % 256
    hour := ts % 86400 / 3600 % 256
    minute := ts % 86400 % 3600 / 60 % 256
    second := ts % 86400 % 3600 % 60 % 256 }

/-! ## The calendar -/

/-- The leap years of the Gregorian calendar. -/
def Leap (year : Nat) : Prop := year % 4 = 0 ∧ (year % 100 ≠ 0 ∨ year % 400 = 0)

instance : DecidablePred Leap := fun _ => inferInstanceAs (Decidable (_ ∧ _))

/-- The days of a month. -/
def daysOfMonth (year m : Nat) : Nat :=
  if m = 2 then if Leap year then 29 else 28 else if m = 4 ∨ m = 6 ∨ m = 9 ∨ m = 11 then 30 else 31

/-- The days from the start of 1970 to the start of a year. -/
def daysBefore (year : Nat) : Nat := ∑ y ∈ Finset.Ico 1970 year, if Leap y then 366 else 365

/-- A date of the calendar and a time of the day. -/
structure RtcTm.Valid (d : RtcTm) : Prop where
  month : 1 ≤ d.month ∧ d.month ≤ 12
  day : 1 ≤ d.day ∧ d.day ≤ daysOfMonth d.year d.month
  hour : d.hour < 24
  minute : d.minute < 60
  second : d.second < 60

theorem leapCkr_iff (year : Nat) : leapCkr year = true ↔ Leap year := by
  unfold leapCkr Leap
  split <;> simp <;> omega

theorem yearLength_eq (year : Nat) : yearLength year = if Leap year then 366 else 365 := by
  simp only [yearLength, leapCkr_iff]

theorem daysBefore_succ {year : Nat} (h : 1970 ≤ year) : daysBefore (year + 1) = daysBefore year + yearLength year := by
  rw [daysBefore, Finset.sum_Ico_succ_top h, yearLength_eq]
  rfl

theorem daysBefore_mono {y y' : Nat} (h : y ≤ y') : daysBefore y ≤ daysBefore y' :=
  Finset.sum_le_sum_of_subset (Finset.Ico_subset_Ico_right h)

/-! ## The formula for the leap years -/

theorem divRoundUp_sub {Y a d : Nat} (hd : 1 ≤ d) (h : a ≤ Y + (d - 1)) (hY : Y < 2 ^ 32) (hd' : d < 2 ^ 32) :
    divRoundUp (u64 (Y + 2 ^ 64 - a)) d = (Y + (d - 1) - a) / d := by
  unfold divRoundUp u64
  congr 1
  omega

/-- The multiples of `d` after the multiple `a` and before `Y`. -/
def multiplesBetween (a d Y : Nat) : Nat := (Y - (a + 1)) / d

theorem multiplesBetween_succ {a d Y : Nat} (ha : a < Y) (hd : d ∣ a) :
    multiplesBetween a d (Y + 1) = multiplesBetween a d Y + if d ∣ Y then 1 else 0 := by
  obtain ⟨k, rfl⟩ : ∃ k, Y = k + 1 + a := ⟨Y - (a + 1), by omega⟩
  unfold multiplesBetween
  rw [Nat.add_sub_add_right, Nat.add_sub_cancel, show k + 1 + a - (a + 1) = k by omega, Nat.succ_div]
  simp only [Nat.dvd_add_left hd]

theorem leapDays_eq (h : 1970 ≤ Y) (hlt : Y < 2 ^ 32) :
    leapDays Y + multiplesBetween 1900 100 Y = multiplesBetween 1968 4 Y + multiplesBetween 1600 400 Y := by
  unfold leapDays multiplesBetween
  rw [divRoundUp_sub (by omega) (by omega) hlt (by omega), divRoundUp_sub (by omega) (by omega) hlt (by omega),
    divRoundUp_sub (by omega) (by omega) hlt (by omega)]
  have hcent : (Y - 1901) / 100 ≤ (Y - 1969) / 4 := by omega
  unfold u64
  omega

theorem leap_count (Y : Nat) : (if Leap Y then 1 else 0) + (if 100 ∣ Y then 1 else 0) =
    (if 4 ∣ Y then 1 else 0) + if 400 ∣ Y then 1 else 0 := by
  by_cases h400 : 400 ∣ Y
  · rw [if_pos (show Leap Y by unfold Leap; omega), if_pos (by omega), if_pos (by omega), if_pos h400]
  rw [if_neg h400]
  by_cases h100 : 100 ∣ Y
  · rw [if_neg (show ¬ Leap Y by unfold Leap; omega), if_pos h100, if_pos (by omega)]
  · rw [if_neg h100]
    exact if_congr (by unfold Leap; omega) rfl rfl

theorem leapDays_succ (h : 1970 ≤ Y) (hlt : Y + 1 < 2 ^ 32) :
    leapDays (Y + 1) = leapDays Y + if Leap Y then 1 else 0 := by
  have h0 := leapDays_eq h (by omega)
  have h1 := leapDays_eq (show 1970 ≤ Y + 1 by omega) hlt
  rw [multiplesBetween_succ (by omega) (by norm_num), multiplesBetween_succ (by omega) (by norm_num),
    multiplesBetween_succ (by omega) (by norm_num)] at h1
  have hleap := leap_count Y
  omega

theorem commonDays_eq (h : 1970 ≤ Y) (hlt : Y ≤ 10000000) : commonDays Y = (Y - 1970) * 365 := by
  have hd : (Y + 2 ^ 32 - 1970) % 2 ^ 32 = Y - 1970 := by omega
  unfold commonDays u32
  rw [hd, Nat.mod_eq_of_lt (by omega)]

/-- **The formula of `time_stamp` counts the days of the years before.** -/
theorem formula_eq (h : 1970 ≤ Y) (hlt : Y ≤ 10000000) : commonDays Y + leapDays Y = daysBefore Y := by
  induction Y, h using Nat.le_induction with
  | base => decide
  | succ Y h ih =>
    rw [daysBefore_succ h, yearLength_eq, leapDays_succ h (by omega), ← ih (by omega), commonDays_eq h (by omega),
      commonDays_eq (by omega) hlt, Nat.sub_add_comm h]
    split_ifs <;> omega

/-! ## The loops -/

/-- **The year of a day.** -/
theorem yearLoop_spec {d y : Nat} (h : 1970 ≤ y) : y ≤ (yearLoop d y).2 ∧
    (yearLoop d y).1 < yearLength (yearLoop d y).2 ∧ daysBefore (yearLoop d y).2 + (yearLoop d y).1 =
    daysBefore y + d := by
  fun_induction yearLoop d y with
  | case1 d y hlt => exact ⟨le_rfl, hlt, rfl⟩
  | case2 d y hge ih =>
    obtain ⟨hle, hlt, hsum⟩ := ih (by omega)
    refine ⟨by omega, hlt, ?_⟩
    rw [hsum, daysBefore_succ h]
    omega

/-- **The month of a day**: the first month whose end lies behind the day. -/
theorem monthLoop_spec {b : Bool} {d i : Nat} (hd : d < cumDays b 12) (hi : i ≤ 12) (hprev : cumDays b (i - 1) ≤ d) :
    i ≤ (monthLoop b d i).1 ∧ (monthLoop b d i).1 ≤ 12 ∧ (monthLoop b d i).2 = cumDays b ((monthLoop b d i).1 - 1) ∧
      (monthLoop b d i).2 ≤ d ∧ d < cumDays b (monthLoop b d i).1 := by
  fun_induction monthLoop b d i with
  | case1 i _ hlt => exact ⟨le_rfl, hi, rfl, hprev, hlt⟩
  | case2 i _ hge ih =>
    have hne : i ≠ 12 := by
      rintro rfl
      exact hge hd
    obtain ⟨hle, hrest⟩ := ih (by omega) (not_lt.1 hge)
    exact ⟨by omega, hrest⟩
  | case3 i hgt => exact absurd hi hgt

theorem cumDays_month {y i : Nat} (h1 : 1 ≤ i) (h12 : i ≤ 12) :
    cumDays (leapCkr y) i = cumDays (leapCkr y) (i - 1) + daysOfMonth y i := by
  unfold daysOfMonth
  simp only [← leapCkr_iff]
  cases leapCkr y <;> interval_cases i <;> rfl

theorem cumDays_mono (b : Bool) {i j : Nat} (h : i ≤ j) (hj : j ≤ 12) : cumDays b i ≤ cumDays b j := by
  induction j, h using Nat.le_induction with
  | base => exact le_rfl
  | succ j _ ih =>
    have hj' : j ≤ 11 := by omega
    refine (ih (by omega)).trans ?_
    cases b <;> interval_cases j <;> decide

theorem cumDays_twelve (y : Nat) : cumDays (leapCkr y) 12 = yearLength y := by
  unfold yearLength
  cases leapCkr y <;> rfl

theorem slot_unique {f : Nat → Nat} {n i j d : Nat} (hf : ∀ {i j}, i ≤ j → j ≤ n → f i ≤ f j) (hi : i < n) (hj : j < n)
    (hid : f i ≤ d ∧ d < f (i + 1)) (hjd : f j ≤ d ∧ d < f (j + 1)) : i = j := by
  rcases Nat.lt_trichotomy i j with h | h | h
  · have := hf (show i + 1 ≤ j from h) hj.le
    omega
  · exact h
  · have := hf (show j + 1 ≤ i from h) hi.le
    omega

theorem yearLoop_eq {Y k : Nat} (h : 1970 ≤ Y) (hk : k < yearLength Y) : yearLoop (daysBefore Y + k) 1970 = (k, Y) := by
  obtain ⟨hle, hlt, hsum⟩ := yearLoop_spec (d := daysBefore Y + k) (le_refl 1970)
  generalize yearLoop (daysBefore Y + k) 1970 = r at hle hlt hsum
  obtain ⟨k', Y'⟩ := r
  dsimp only at hle hlt hsum
  have h0 : daysBefore 1970 = 0 := by simp [daysBefore]
  have hY := daysBefore_succ h
  have hY' := daysBefore_succ hle
  obtain rfl : Y' = Y := by
    refine slot_unique (n := Y + Y' + 1) (d := daysBefore Y + k) (fun h _ => daysBefore_mono h) ?_ ?_ ?_ ?_ <;> omega
  rw [show k' = k by omega]

/-- The loop ends at the month that holds the day. -/
theorem monthLoop_eq {b : Bool} {i k : Nat} (h1 : 1 ≤ i) (h12 : i ≤ 12) (hk : cumDays b (i - 1) ≤ k ∧ k < cumDays b i) :
    monthLoop b k 1 = (i, cumDays b (i - 1)) := by
  have hd : k < cumDays b 12 := hk.2.trans_le (cumDays_mono b h12 le_rfl)
  obtain ⟨hle, hle12, hprev, hprevle, hlt⟩ := monthLoop_spec hd (by omega : 1 ≤ 12) (by simp [cumDays, month])
  generalize monthLoop b k 1 = r at hle hle12 hprev hprevle hlt
  obtain ⟨i', c⟩ := r
  dsimp only at hle hle12 hprev hprevle hlt
  have hsame : i' - 1 = i - 1 := by
    refine slot_unique (n := 12) (d := k) (cumDays_mono b) (by omega) (by omega) ⟨?_, ?_⟩ ⟨hk.1, ?_⟩
    · rwa [← hprev]
    · rwa [Nat.sub_add_cancel hle]
    · rw [Nat.sub_add_cancel h1]
      exact hk.2
  obtain rfl : i' = i := by omega
  rw [hprev]

/-! ## The conversions -/

/-- The day of the year, from 0. -/
def dayOfYear (d : RtcTm) : Nat := cumDays (leapCkr d.year) (d.month - 1) + (d.day - 1)

/-- The seconds from the start of 1970 to a date. -/
def secondsOf (d : RtcTm) : Nat := (daysBefore d.year + dayOfYear d) * 86400 + d.hour * 3600 + d.minute * 60 + d.second

theorem RtcTm.Valid.dayOfYear_lt {d : RtcTm} (h : d.Valid) : cumDays (leapCkr d.year) (d.month - 1) ≤ dayOfYear d ∧
    dayOfYear d < cumDays (leapCkr d.year) d.month ∧ dayOfYear d < yearLength d.year := by
  obtain ⟨h1, h12⟩ := h.month
  obtain ⟨hd, hd'⟩ := h.day
  have hcum := cumDays_month (y := d.year) h1 h12
  have hmono := cumDays_mono (leapCkr d.year) h12 le_rfl
  rw [cumDays_twelve] at hmono
  unfold dayOfYear
  omega

theorem daysBefore_lt (h : 1970 ≤ Y) (hlt : Y ≤ 10000000) : daysBefore Y < 2 ^ 33 := by
  have hf := formula_eq h hlt
  have hl := leapDays_eq h (by omega)
  rw [commonDays_eq h hlt] at hf
  have h4 : multiplesBetween 1968 4 Y ≤ 2500000 := by
    unfold multiplesBetween
    omega
  have h400 : multiplesBetween 1600 400 Y ≤ 2500000 := by
    unfold multiplesBetween
    omega
  omega

/-- **The time stamp of a valid date** is its number of seconds. -/
theorem timeStamp_eq {d : RtcTm} (h : d.Valid) (hY : 1970 ≤ d.year) (hlt : d.year ≤ 10000000) :
    timeStamp d = secondsOf d := by
  obtain ⟨h1, h12⟩ := h.month
  obtain ⟨hd, -⟩ := h.day
  have hday : u32 (month.getD (d.month - 1) 0 + (if 2 < d.month ∧ leapCkr d.year then 1 else 0) +
    (d.day + 2 ^ 32 - 1)) =
      dayOfYear d := by
    have hlt := h.dayOfYear_lt.2.2
    have hcum : cumDays (leapCkr d.year) (d.month - 1) =
        month.getD (d.month - 1) 0 + if 2 < d.month ∧ leapCkr d.year then 1 else 0 := by
      unfold cumDays
      congr 1
      exact if_congr (by rw [and_comm]; exact and_congr_left' (by omega)) rfl rfl
    unfold dayOfYear at hlt ⊢
    have hlen := yearLength_le d.year
    unfold u32
    omega
  have hh := h.hour
  have hm := h.minute
  have hs := h.second
  have hlen := yearLength_le d.year
  have hk := h.dayOfYear_lt.2.2
  have hb := daysBefore_lt hY hlt
  unfold timeStamp
  rw [hday, formula_eq hY hlt, u64_of_lt (by omega)]
  rfl

/-- Calendar time, to seconds and back. -/
theorem timeRtctm_eq {d : RtcTm} (h : d.Valid) (hY : 1970 ≤ d.year) (hlt : d.year ≤ 10000000) :
    timeRtctm (secondsOf d) = d := by
  obtain ⟨h1, h12⟩ := h.month
  obtain ⟨hd, hd'⟩ := h.day
  obtain ⟨hlo, hhi, hlen⟩ := h.dayOfYear_lt
  have hh := h.hour
  have hm := h.minute
  have hs := h.second
  have hmonth : daysOfMonth d.year d.month ≤ 31 := by
    unfold daysOfMonth
    split_ifs <;> omega
  obtain ⟨k, hk⟩ : ∃ k, k = d.hour * 3600 + d.minute * 60 + d.second := ⟨_, rfl⟩
  have hdays : secondsOf d / 86400 = daysBefore d.year + dayOfYear d := by
    unfold secondsOf
    omega
  have hrest : secondsOf d % 86400 = k := by
    unfold secondsOf
    omega
  have hday : u64 (dayOfYear d + 2 ^ 64 - cumDays (leapCkr d.year) (d.month - 1) + 1) % 256 = d.day := by
    unfold dayOfYear u64
    omega
  unfold timeRtctm
  dsimp only
  rw [hdays, hrest, yearLoop_eq hY hlen]
  rw [monthLoop_eq h1 h12 ⟨hlo, hhi⟩]
  rw [hday, u32_of_lt (by omega), Nat.mod_eq_of_lt (by omega : d.month < 256), show k / 3600 % 256 = d.hour by omega,
    show k % 3600 / 60 % 256 = d.minute by omega, show k % 3600 % 60 % 256 = d.second by omega]

/-- Every number of seconds is some calendar time's. -/
theorem exists_secondsOf {ts : Nat} (h : ts < 86400 * daysBefore 10000001) :
    ∃ d : RtcTm, d.Valid ∧ 1970 ≤ d.year ∧ d.year ≤ 10000000 ∧ secondsOf d = ts := by
  obtain ⟨hle, hlt, hsum⟩ := yearLoop_spec (d := ts / 86400) (le_refl 1970)
  generalize yearLoop (ts / 86400) 1970 = r at hle hlt hsum
  obtain ⟨k, Y⟩ := r
  dsimp only at hle hlt hsum
  have h0 : daysBefore 1970 = 0 := by simp [daysBefore]
  have hY : Y ≤ 10000000 := by
    by_contra hgt
    have := daysBefore_mono (show 10000001 ≤ Y by omega)
    omega
  rw [← cumDays_twelve] at hlt
  obtain ⟨h1, h12, hprev, hprevle, hmlt⟩ := monthLoop_spec hlt (by omega : 1 ≤ 12) (by simp [cumDays, month])
  generalize monthLoop (leapCkr Y) k 1 = r at h1 h12 hprev hprevle hmlt
  obtain ⟨i, c⟩ := r
  dsimp only at h1 h12 hprev hprevle hmlt
  have hcum := cumDays_month (y := Y) h1 h12
  refine ⟨⟨ts % 86400 % 3600 % 60, ts % 86400 % 3600 / 60, ts % 86400 / 3600, k - c + 1, i, Y⟩,
    ⟨⟨h1, h12⟩, ⟨?_, ?_⟩, ?_, ?_, ?_⟩, hle, hY, ?_⟩
  · dsimp only
    omega
  · dsimp only
    omega
  · dsimp only
    omega
  · dsimp only
    omega
  · dsimp only
    omega
  · simp only [secondsOf, dayOfYear]
    omega

/-- **The two conversions are inverse to each other** up to the year 10,000,000, and every result is a date of the
calendar. -/
theorem time_calendar : (∀ ts < 86400 * daysBefore 10000001, (timeRtctm ts).Valid ∧ timeStamp (timeRtctm ts) = ts) ∧
    ∀ d : RtcTm, d.Valid → 1970 ≤ d.year → d.year ≤ 10000000 → timeRtctm (timeStamp d) = d := by
  constructor
  · intro ts hts
    obtain ⟨d, hd, hY, hlt, rfl⟩ := exists_secondsOf hts
    rw [timeRtctm_eq hd hY hlt]
    exact ⟨hd, timeStamp_eq hd hY hlt⟩
  · intro d hd hY hlt
    rw [timeStamp_eq hd hY hlt, timeRtctm_eq hd hY hlt]

theorem le_daysBefore (h : 1970 ≤ Y) : (Y - 1970) * 365 ≤ daysBefore Y := by
  induction Y, h using Nat.le_induction with
  | base => simp
  | succ Y h ih =>
    have hlen : 365 ≤ yearLength Y := by
      unfold yearLength
      split <;> omega
    rw [daysBefore_succ h, Nat.sub_add_comm h, Nat.add_mul, Nat.one_mul]
    exact Nat.add_le_add ih hlen

/-- The last second of February 2000, both ways. -/
theorem time_calendar_february : (timeRtctm 951868799).Valid ∧ timeStamp (timeRtctm 951868799) = 951868799 ∧
    timeRtctm (timeStamp ⟨59, 59, 23, 29, 2, 2000⟩) = ⟨59, 59, 23, 29, 2, 2000⟩ := by
  have hts : 951868799 < 86400 * daysBefore 10000001 :=
    calc 951868799 < 86400 * ((10000001 - 1970) * 365) := by norm_num
      _ ≤ 86400 * daysBefore 10000001 := Nat.mul_le_mul_left _ (le_daysBefore (by norm_num))
  obtain ⟨hv, hs⟩ := time_calendar.1 951868799 hts
  exact ⟨hv, hs, time_calendar.2 _ ⟨by decide, by decide, by decide, by decide, by decide⟩ (by decide) (by decide)⟩

end TextOS.Time
