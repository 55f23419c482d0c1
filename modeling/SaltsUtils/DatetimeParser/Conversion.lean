import SaltsUtils.Cron.Clock

/-!
# Dates as counts of seconds

`datetime_to_time` of `src/parser/datetime_parser/src/datetime_parser.c`.
-/

set_option autoImplicit false

namespace SaltsUtils.DatetimeParser
open Gregorian

structure Datetime where
  year : ℤ
  month : ℤ
  day : ℤ
  hour : ℤ
  minute : ℤ
  second : ℤ
  tz_offset : ℤ
  has_tz : Bool

def is_leap (y : ℤ) : Bool := (y.tmod 4 = 0 ∧ y.tmod 100 ≠ 0) ∨ y.tmod 400 = 0

def DAYS_BEFORE_MONTH : List ℤ := [0, 31, 59, 90, 120, 151, 181, 212, 243, 273, 304, 334]

/-- A product of two `int`, where it is one. -/
def int_mul (a b : ℤ) : Option ℤ :=
  if -2147483648 ≤ a * b ∧ a * b < 2147483648 then some (a * b) else none

def datetime_to_time (dt : Option Datetime) : Option ℤ :=
  match dt with
  | none => some (-1)
  | some dt =>
    if dt.month < 1 ∨ 12 < dt.month then some (-1)
    else do
      let days := (dt.year - 1970) * 365
      let days := days + (dt.year - 1969).tdiv 4
      let days := days - (dt.year - 1901).tdiv 100
      let days := days + (dt.year - 1601).tdiv 400
      let days := days + DAYS_BEFORE_MONTH.getD (dt.month - 1).toNat 0
      let days := if 2 < dt.month ∧ is_leap dt.year then days + 1 else days
      let days := days + (dt.day - 1)
      let t := days * 86400 + (← int_mul dt.hour 3600)
      let t := t + (← int_mul dt.minute 60)
      let t := t + dt.second
      if dt.has_tz then some (t - (← int_mul dt.tz_offset 60)) else some t

/-- The seconds from 1970 to a date of the calendar. -/
def Datetime.instant (dt : Datetime) : ℤ :=
  dayNumber dt.year (dt.month - 1) dt.day * 86400 + dt.hour * 3600 + dt.minute * 60 + dt.second -
    if dt.has_tz then dt.tz_offset * 60 else 0

/-- The days that are counted too many: a quotient is rounded up where it is negative. -/
def surplus (y : ℤ) : ℤ :=
  (if y < 1969 ∧ y % 4 ≠ 1 then 1 else 0) - (if y < 1901 ∧ y % 100 ≠ 1 then 1 else 0) +
    if y < 1601 ∧ y % 400 ≠ 1 then 1 else 0

/-- A month of the calendar, and products that are `int`. -/
structure Datetime.Valid (dt : Datetime) : Prop where
  month : 1 ≤ dt.month ∧ dt.month ≤ 12
  hour : int_mul dt.hour 3600 = some (dt.hour * 3600)
  minute : int_mul dt.minute 60 = some (dt.minute * 60)
  tz_offset : int_mul dt.tz_offset 60 = some (dt.tz_offset * 60)

/-- What `gmtime` makes of an instant. -/
def utc (t : ℤ) : Datetime :=
  let tm := Cron.brokenDown t
  ⟨tm.tm_year + 1900, tm.tm_mon + 1, tm.tm_mday, tm.tm_hour, tm.tm_min, tm.tm_sec, 0, false⟩

theorem is_leap_iff (y : ℤ) : is_leap y = true ↔ IsLeap y := by
  unfold is_leap IsLeap
  simp only [decide_eq_true_eq, ← Int.dvd_iff_tmod_eq_zero, ne_eq]
  omega

theorem days_year (y : ℤ) : (y - 1970) * 365 + (y - 1969).tdiv 4 - (y - 1901).tdiv 100 +
    (y - 1601).tdiv 400 = yearStart y + surplus y := by
  simp only [Int.tdiv_eq_ediv, show Int.sign 4 = 1 from rfl, show Int.sign 100 = 1 from rfl,
    show Int.sign 400 = 1 from rfl, yearStart, surplus]
  split_ifs <;> omega

theorem days_month {y m : ℤ} (h : 1 ≤ m ∧ m ≤ 12) (days : ℤ) :
    (if 2 < m ∧ is_leap y then days + DAYS_BEFORE_MONTH.getD (m - 1).toNat 0 + 1
      else days + DAYS_BEFORE_MONTH.getD (m - 1).toNat 0) =
      days + monthStart (IsLeap y) (m - 1) := by
  obtain ⟨h₁, h₂⟩ := h
  simp only [is_leap_iff]
  by_cases hy : IsLeap y <;> interval_cases m <;> simp [hy, DAYS_BEFORE_MONTH, monthStart] <;> ring

theorem to_time_eq {dt : Datetime} (h : dt.Valid) :
    datetime_to_time (some dt) = some (dt.instant + 86400 * surplus dt.year) := by
  obtain ⟨h₁, h₂⟩ := h.month
  have hday := @dayNumber_of_month dt.year (dt.month - 1) dt.day (by omega) (by omega)
  simp only [datetime_to_time, if_neg (not_or.mpr ⟨not_lt.mpr h₁, not_lt.mpr h₂⟩), days_year,
    days_month h.month, h.hour, h.minute, h.tz_offset, Datetime.instant, hday]
  cases dt.has_tz <;> simp <;> ring

theorem utc_valid (t : ℤ) : (utc t).Valid where
  month := by
    have := month_bounds (t / 86400)
    change 1 ≤ month (t / 86400) + 1 ∧ month (t / 86400) + 1 ≤ 12
    omega
  hour := if_pos (by change _ ≤ t / 3600 % 24 * _ ∧ t / 3600 % 24 * _ < _; omega)
  minute := if_pos (by change _ ≤ t / 60 % 60 * _ ∧ t / 60 % 60 * _ < _; omega)
  tz_offset := rfl

theorem instant_utc (t : ℤ) : (utc t).instant = t := by
  simp only [Datetime.instant, utc, Cron.brokenDown, sub_add_cancel, add_sub_cancel_right,
    dayNumber_date, Bool.false_eq_true, if_false]
  omega

/-- A valid date is taken for its instant up to the surplus of its year, and what `gmtime` makes
of an instant for it exactly in the years without one. -/
theorem datetime_to_time_exact (dt : Datetime) (h : dt.Valid) :
    datetime_to_time (some dt) = some (dt.instant + 86400 * surplus dt.year) ∧
      ∀ t, datetime_to_time (some (utc t)) = some t ↔ surplus (utc t).year = 0 := by
  refine ⟨to_time_eq h, fun t => ?_⟩
  rw [to_time_eq (utc_valid t), instant_utc, Option.some.injEq]
  omega

/-- 29 February 1968 is taken for the day after it. -/
theorem datetime_to_time_exact_1968 :
    datetime_to_time (some ⟨1968, 2, 29, 0, 0, 0, 60, true⟩) = some (-58060800 - 3600 + 86400) :=
  (datetime_to_time_exact ⟨1968, 2, 29, 0, 0, 0, 60, true⟩ ⟨by decide, rfl, rfl, rfl⟩).1

end SaltsUtils.DatetimeParser
