/-
# Calendar time

`timegm` and `gmtime` of the C library, over the proleptic Gregorian calendar: seconds since
the start of 1970 from a broken-down time, and back.  As in C, the month is counted from 0 and
the year from 1900, and `timegm` takes fields outside their ranges as well.

Years are counted from the start of an era of 400 years, which has 146097 days whatever the era.
`gmtime` looks up the year in its era and the month in its year by the first match.

* `gmtime_timegm`: a date and time of the calendar comes back;
* `timegm_gmtime`: so do the seconds, and `gmtime_valid`: they are a date and time of the calendar.
-/
import Mathlib.Tactic.Common
import Mathlib.Tactic.IntervalCases
import PfsShell.Lib.Scan

namespace PfsShell.Lib

/-! ## 1. Days -/

/-- A leap year. -/
def leap (year : ℤ) : Bool := 4 ∣ year && (!decide (100 ∣ year) || 400 ∣ year)

/-- The days from the start of year 0 to the start of `year`. -/
def daysBefore (year : ℤ) : ℤ :=
  365 * year + (year + 3) / 4 - (year + 99) / 100 + (year + 399) / 400

/-- The days of a year before its month `mon`, of a year without a leap day. -/
def monthStart : ℕ → ℤ
  | 0 => 0
  | 1 => 31
  | 2 => 59
  | 3 => 90
  | 4 => 120
  | 5 => 151
  | 6 => 181
  | 7 => 212
  | 8 => 243
  | 9 => 273
  | 10 => 304
  | 11 => 334
  | _ => 365

/-- The days of `year` before its month `mon`. -/
def daysBeforeMonth (year : ℤ) (mon : ℕ) : ℤ :=
  monthStart mon + if leap year = true ∧ 2 ≤ mon then 1 else 0

theorem leap_iff {year : ℤ} :
    leap year = true ↔ year % 4 = 0 ∧ (year % 100 ≠ 0 ∨ year % 400 = 0) := by
  simp only [leap, Bool.and_eq_true, Bool.or_eq_true, decide_eq_true_eq, Bool.not_eq_true',
    decide_eq_false_iff_not, Int.dvd_iff_emod_eq_zero, ne_eq]

/-- A year ends where the next one starts. -/
theorem daysBefore_succ (year : ℤ) :
    daysBefore (year + 1) = daysBefore year + daysBeforeMonth year 12 := by
  simp only [daysBefore, daysBeforeMonth, monthStart, leap_iff]
  split <;> omega

/-- The leap days come back every 400 years. -/
theorem leap_era (era year : ℤ) : leap (400 * era + year) = leap year := by
  rw [Bool.eq_iff_iff, leap_iff, leap_iff]
  omega

theorem daysBefore_era (era year : ℤ) :
    daysBefore (400 * era + year) = 146097 * era + daysBefore year := by
  simp only [daysBefore]
  omega

theorem daysBeforeMonth_era (era year : ℤ) (mon : ℕ) :
    daysBeforeMonth (400 * era + year) mon = daysBeforeMonth year mon := by
  rw [daysBeforeMonth, daysBeforeMonth, leap_era]

theorem daysBefore_mono {y z : ℤ} (h : y ≤ z) : daysBefore y ≤ daysBefore z := by
  simp only [daysBefore]
  omega

theorem daysBeforeMonth_mono (year : ℤ) {m n : ℕ} (h : m ≤ n) :
    daysBeforeMonth year m ≤ daysBeforeMonth year n := by
  have hstep : ∀ k, daysBeforeMonth year k ≤ daysBeforeMonth year (k + 1) := by
    intro k
    have hmonths : monthStart k ≤ monthStart (k + 1) := by
      rcases Nat.lt_or_ge k 12 with hk | hk
      · interval_cases k <;> decide
      · obtain ⟨j, rfl⟩ := Nat.exists_eq_add_of_le' hk
        exact Int.le_refl _
    have hleap : leap year = true ∧ 2 ≤ k → leap year = true ∧ 2 ≤ k + 1 :=
      fun h => ⟨h.1, Nat.le_succ_of_le h.2⟩
    unfold daysBeforeMonth
    split_ifs with h1 h2 <;> first | omega | exact absurd (hleap h1) h2
  exact monotone_nat_of_le_succ hstep h

/-- No month has more than 31 days. -/
theorem month_le (year : ℤ) {m : ℕ} (hm : m < 12) :
    daysBeforeMonth year (m + 1) ≤ daysBeforeMonth year m + 31 := by
  have hstart : monthStart (m + 1) ≤ monthStart m + if m = 1 then 28 else 31 := by
    interval_cases m <;> decide
  unfold daysBeforeMonth
  cases leap year with
  | false =>
    simp only [Bool.false_eq_true, false_and, if_false]
    split_ifs at hstart <;> omega
  | true =>
    simp only [true_and]
    split_ifs at hstart ⊢ <;> omega

/-! ## 2. Broken-down times -/

/-- `struct tm`, the fields that both functions use. -/
@[ext] structure Tm where
  sec : ℤ
  min : ℤ
  hour : ℤ
  mday : ℤ
  mon : ℤ
  year : ℤ
  deriving DecidableEq

/-- The days from the start of year 0 to the start of 1970. -/
def epoch : ℤ := 719528

/-- `timegm`. -/
def timegm (t : Tm) : ℤ :=
  let year := 1900 + t.year + t.mon / 12
  let days := daysBefore year + daysBeforeMonth year (t.mon % 12).toNat + (t.mday - 1) - epoch
  days * 86400 + t.hour * 3600 + t.min * 60 + t.sec

/-- `gmtime`. -/
def gmtime (time : ℤ) : Tm :=
  let day := time / 86400 + epoch
  let era := day / 146097
  let dayOfEra := day % 146097
  let yearOfEra : ℕ := scan (fun y => dayOfEra < daysBefore (y + 1)) 400
  let dayOfYear := dayOfEra - daysBefore yearOfEra
  let mon := scan (fun m => dayOfYear < daysBeforeMonth yearOfEra (m + 1)) 12
  { sec := time % 60
    min := time / 60 % 60
    hour := time / 3600 % 24
    mday := dayOfYear - daysBeforeMonth yearOfEra mon + 1
    mon := mon
    year := 400 * era + yearOfEra - 1900 }

/-- A date and time of the calendar. -/
structure Tm.Valid (t : Tm) : Prop where
  sec : 0 ≤ t.sec ∧ t.sec < 60
  min : 0 ≤ t.min ∧ t.min < 60
  hour : 0 ≤ t.hour ∧ t.hour < 24
  mon : 0 ≤ t.mon ∧ t.mon < 12
  mday : 1 ≤ t.mday ∧ t.mday ≤ daysBeforeMonth (1900 + t.year) (t.mon.toNat + 1) -
    daysBeforeMonth (1900 + t.year) t.mon.toNat

/-- The day `d` of month `m` of the year `y` of an era is found there. -/
theorem scan_day {y m : ℕ} {d : ℤ} (hy : y < 400) (hm : m < 12) (hd : 0 ≤ d)
    (hlt : d < daysBeforeMonth y (m + 1) - daysBeforeMonth y m) :
    scan (fun z => daysBefore y + daysBeforeMonth y m + d < daysBefore (z + 1)) 400 = y ∧
      scan (fun n => daysBeforeMonth y m + d < daysBeforeMonth y (n + 1)) 12 = m := by
  have hzero : 0 ≤ daysBeforeMonth y m := by
    have := daysBeforeMonth_mono y (Nat.zero_le m)
    simpa [daysBeforeMonth, monthStart] using this
  have hyear : daysBeforeMonth y (m + 1) ≤ daysBeforeMonth y 12 := daysBeforeMonth_mono y hm
  have hnext := daysBefore_succ y
  constructor
  · refine scan_eq_of_first hy (by omega) fun z hz hlt' => ?_
    have := daysBefore_mono (y := (z : ℤ) + 1) (z := y) (by omega)
    omega
  · refine scan_eq_of_first hm (by omega) fun n hn hlt' => ?_
    have := daysBeforeMonth_mono y (m := n + 1) (n := m) hn
    omega

/-- **A date and time of the calendar comes back.** -/
theorem gmtime_timegm {t : Tm} (h : t.Valid) : gmtime (timegm t) = t := by
  obtain ⟨sec, min, hour, mday, mon, year⟩ := t
  obtain ⟨⟨hs0, hs1⟩, ⟨hm0, hm1⟩, ⟨hh0, hh1⟩, ⟨hmon0, hmon1⟩, hd0, hd1⟩ := h
  simp only at hs0 hs1 hm0 hm1 hh0 hh1 hmon0 hmon1 hd0 hd1
  obtain ⟨m, rfl⟩ : ∃ m : ℕ, mon = m := ⟨mon.toNat, by omega⟩
  obtain ⟨era, y, hy, hyear⟩ : ∃ (era : ℤ) (y : ℕ), y < 400 ∧ 1900 + year = 400 * era + y :=
    ⟨(1900 + year) / 400, ((1900 + year) % 400).toNat, by omega, by omega⟩
  have hmonth : ∀ k, daysBeforeMonth (1900 + year) k = daysBeforeMonth y k := by
    intro k
    rw [hyear, daysBeforeMonth_era]
  rw [hmonth, hmonth, Int.toNat_natCast] at hd1
  obtain ⟨hscany, hscanm⟩ := scan_day (m := m) (d := mday - 1) hy (by omega) (by omega) (by omega)
  -- the day of the era, and the time of the day
  have hnorm : (m : ℤ) / 12 = 0 ∧ (m : ℤ) % 12 = m := by omega
  obtain ⟨n, hn⟩ : ∃ n, n = daysBefore y + daysBeforeMonth y m + (mday - 1) := ⟨_, rfl⟩
  have hbound : 0 ≤ n ∧ n < 146097 := by
    have h0 : 0 ≤ daysBefore y := daysBefore_mono (y := 0) (z := y) (by omega)
    have h400 : daysBefore ((y : ℤ) + 1) ≤ 146097 :=
      daysBefore_mono (y := (y : ℤ) + 1) (z := 400) (by omega)
    have hz : 0 ≤ daysBeforeMonth y m := by
      have := daysBeforeMonth_mono y (Nat.zero_le m)
      simpa [daysBeforeMonth, monthStart] using this
    have h12 : daysBeforeMonth y (m + 1) ≤ daysBeforeMonth y 12 :=
      daysBeforeMonth_mono y (by omega)
    have hnext := daysBefore_succ y
    omega
  have htime : timegm ⟨sec, min, hour, mday, m, year⟩ =
      (146097 * era + n - epoch) * 86400 + hour * 3600 + min * 60 + sec := by
    simp only [timegm, hnorm, Int.toNat_natCast, hyear, add_zero, daysBefore_era]
    rw [← hyear, hmonth, hn]
    omega
  rw [htime]
  have hday : ((146097 * era + n - epoch) * 86400 + hour * 3600 + min * 60 + sec) / 86400 + epoch =
      146097 * era + n := by omega
  have hera : (146097 * era + n) / 146097 = era := by omega
  have hdoe : (146097 * era + n) % 146097 = n := by omega
  rw [← hn] at hscany
  have hdoy : n - daysBefore y = daysBeforeMonth y m + (mday - 1) := by omega
  simp only [gmtime, hday, hera, hdoe, hscany, hdoy, hscanm, Tm.mk.injEq]
  refine ⟨?_, ?_, ?_, ?_, trivial, ?_⟩ <;> omega

/-- What the two searches find on day `d` of an era: the year and the month it lies in. -/
theorem scan_dayOfEra {d : ℤ} {y m : ℕ} (hd : 0 ≤ d ∧ d < 146097)
    (hy : scan (fun z => d < daysBefore (z + 1)) 400 = y)
    (hm : scan (fun n => d - daysBefore y < daysBeforeMonth y (n + 1)) 12 = m) :
    y < 400 ∧ m < 12 ∧ daysBefore y + daysBeforeMonth y m ≤ d ∧
      d < daysBefore y + daysBeforeMonth y (m + 1) := by
  have hyear := scan_between (p := fun z : ℕ => d < daysBefore (z + 1))
    (f := fun z => daysBefore (z : ℤ)) (n := 400) (fun _ => Iff.rfl) hd.1 hd.2
  rw [hy] at hyear
  obtain ⟨hlt, hfrom, hto⟩ := hyear
  have hnext := daysBefore_succ y
  have hto' : d < daysBefore ((y : ℤ) + 1) := hto
  have hmonth := scan_between (p := fun n : ℕ => d - daysBefore y < daysBeforeMonth y (n + 1))
    (f := daysBeforeMonth y) (n := 12) (fun _ => Iff.rfl) (by
      have hzero : daysBeforeMonth y 0 = 0 := by simp [daysBeforeMonth, monthStart]
      rw [hzero]
      omega) (by omega)
  rw [hm] at hmonth
  omega

/-- The day of the era, and the year and the month that `gmtime` finds for it. -/
theorem gmtime_found (time : ℤ) : ∃ (era d : ℤ) (y m : ℕ),
    time / 86400 + epoch = 146097 * era + d ∧ y < 400 ∧ m < 12 ∧
      daysBefore y + daysBeforeMonth y m ≤ d ∧ d < daysBefore y + daysBeforeMonth y (m + 1) ∧
      gmtime time = ⟨time % 60, time / 60 % 60, time / 3600 % 24,
        d - daysBefore y - daysBeforeMonth y m + 1, m, 400 * era + y - 1900⟩ := by
  have hday := Int.mul_ediv_add_emod (time / 86400 + epoch) 146097
  obtain ⟨hy, hm, hfrom, hto⟩ := scan_dayOfEra
    (d := (time / 86400 + epoch) % 146097) (by omega) rfl rfl
  exact ⟨_, _, _, _, hday.symm, hy, hm, hfrom, hto, rfl⟩

/-- **`gmtime` gives a date and time of the calendar.** -/
theorem gmtime_valid (time : ℤ) : (gmtime time).Valid := by
  obtain ⟨era, d, y, m, -, -, hm, hfrom, hto, hgm⟩ := gmtime_found time
  rw [hgm]
  have hyear : (1900 : ℤ) + (400 * era + y - 1900) = 400 * era + y := by omega
  refine ⟨?_, ?_, ?_, ?_, ?_⟩
  · show 0 ≤ time % 60 ∧ time % 60 < 60
    omega
  · show 0 ≤ time / 60 % 60 ∧ time / 60 % 60 < 60
    omega
  · show 0 ≤ time / 3600 % 24 ∧ time / 3600 % 24 < 24
    omega
  · show 0 ≤ (m : ℤ) ∧ (m : ℤ) < 12
    omega
  · show 1 ≤ d - daysBefore y - daysBeforeMonth y m + 1 ∧
      d - daysBefore y - daysBeforeMonth y m + 1 ≤
        daysBeforeMonth (1900 + (400 * era + y - 1900)) (m + 1) -
          daysBeforeMonth (1900 + (400 * era + y - 1900)) m
    rw [hyear, daysBeforeMonth_era, daysBeforeMonth_era]
    omega

/-- **And `timegm` gives the seconds back.** -/
theorem timegm_gmtime (time : ℤ) : timegm (gmtime time) = time := by
  obtain ⟨era, d, y, m, hday, -, hm, -, -, hgm⟩ := gmtime_found time
  rw [hgm]
  have hmon : (m : ℤ) / 12 = 0 ∧ (m : ℤ) % 12 = m := by omega
  have hyear : (1900 : ℤ) + (400 * era + y - 1900) = 400 * era + y := by omega
  simp only [timegm, hmon, Int.toNat_natCast, hyear, add_zero, daysBefore_era,
    daysBeforeMonth_era]
  omega

/-- The second in which an unsigned 32-bit time wraps around. -/
example : gmtime 4294967296 = ⟨16, 28, 6, 7, 1, 206⟩ := by decide

end PfsShell.Lib
