import Mathlib.Data.Int.Basic
import Mathlib.Tactic.Ring
import Mathlib.Tactic.Linarith
import Mathlib.Tactic.IntervalCases

/-!
# The proleptic Gregorian calendar

Days are counted from 1 January 1970, day 0.
-/

set_option autoImplicit false

namespace SaltsUtils.Gregorian

def IsLeap (y : ℤ) : Prop := y % 4 = 0 ∧ (y % 100 ≠ 0 ∨ y % 400 = 0)

instance (y : ℤ) : Decidable (IsLeap y) := inferInstanceAs (Decidable (_ ∧ _))

/-- The first day of a year. -/
def yearStart (y : ℤ) : ℤ :=
  365 * (y - 1) + (y - 1) / 4 - (y - 1) / 100 + (y - 1) / 400 - 719162

/-- The days of a year before a month. -/
def monthStart (leap : Prop) [Decidable leap] (m : ℤ) : ℤ :=
  (367 * m + 5) / 12 - if m ≤ 1 then 0 else if leap then 1 else 2

example : (List.range 13).map (fun m : ℕ => monthStart False m) =
    [0, 31, 59, 90, 120, 151, 181, 212, 243, 273, 304, 334, 365] := by decide

/-- The day of a date. -/
def dayNumber (y m d : ℤ) : ℤ :=
  yearStart (y + m / 12) + monthStart (IsLeap (y + m / 12)) (m % 12) + (d - 1)

/-- The year of a day: the mean length of a year gives it up to one. -/
def year (n : ℤ) : ℤ :=
  let y := (n + 719162) * 400 / 146097 + 1
  if n < yearStart y then y - 1 else if yearStart (y + 1) ≤ n then y + 1 else y

def dayOfYear (n : ℤ) : ℤ := n - yearStart (year n)

/-- The month that holds a day of the year, on the same line. -/
def monthOf (leap : Prop) [Decidable leap] (k : ℤ) : ℤ :=
  let lacking : ℤ := if leap then 1 else 2
  (12 * (k + if k < 61 - lacking then 0 else lacking) + 373) / 367 - 1

def month (n : ℤ) : ℤ := monthOf (IsLeap (year n)) (dayOfYear n)

def dayOfMonth (n : ℤ) : ℤ :=
  dayOfYear n - monthStart (IsLeap (year n)) (month n) + 1

/-- Day 0 is a Thursday. -/
def weekday (n : ℤ) : ℤ := (n + 4) % 7

theorem yearStart_succ (y : ℤ) :
    yearStart (y + 1) = yearStart y + 365 + if IsLeap y then 1 else 0 := by
  unfold yearStart IsLeap
  split_ifs with h <;> omega

theorem yearStart_le {y z : ℤ} (h : y ≤ z) : yearStart y ≤ yearStart z := by
  unfold yearStart
  omega

theorem yearStart_add_le (y k : ℤ) (hk : 0 ≤ k) : yearStart (y + k) ≤ yearStart y + 366 * k := by
  unfold yearStart
  omega

theorem year_bounds (n : ℤ) : yearStart (year n) ≤ n ∧ n < yearStart (year n + 1) := by
  unfold year
  simp only
  split_ifs with h₁ h₂
  · unfold yearStart at *
    omega
  · unfold yearStart at *
    omega
  · omega

theorem year_eq {n y : ℤ} (h₁ : yearStart y ≤ n) (h₂ : n < yearStart (y + 1)) : year n = y := by
  obtain ⟨h₃, h₄⟩ := year_bounds n
  rcases lt_trichotomy (year n) y with h | h | h
  · have := yearStart_le (show year n + 1 ≤ y by omega)
    omega
  · exact h
  · have := yearStart_le (show y + 1 ≤ year n by omega)
    omega

theorem dayOfYear_bounds (n : ℤ) :
    0 ≤ dayOfYear n ∧ dayOfYear n < 365 + if IsLeap (year n) then 1 else 0 := by
  obtain ⟨h₁, h₂⟩ := year_bounds n
  rw [yearStart_succ] at h₂
  unfold dayOfYear
  omega

section Months
variable (leap : Prop) [Decidable leap]

theorem monthOf_bounds (k : ℤ) (h₀ : 0 ≤ k) (h₁ : k < 365 + if leap then 1 else 0) :
    0 ≤ monthOf leap k ∧ monthOf leap k ≤ 11 := by
  unfold monthOf
  simp only
  by_cases hl : leap <;> simp only [hl, if_true, if_false] at h₁ ⊢ <;> split_ifs <;> omega

theorem monthStart_monthOf (k : ℤ) (h₀ : 0 ≤ k) (h₁ : k < 365 + if leap then 1 else 0) :
    monthStart leap (monthOf leap k) ≤ k ∧ k < monthStart leap (monthOf leap k + 1) := by
  unfold monthOf monthStart
  by_cases hl : leap <;> simp only [hl, if_true, if_false] at h₁ ⊢ <;> split_ifs <;> omega

theorem monthStart_lt {m m' : ℤ} (h : m < m') : monthStart leap m + 28 ≤ monthStart leap m' := by
  unfold monthStart
  by_cases hl : leap <;> simp only [hl, if_true, if_false] <;> split_ifs <;> omega

theorem monthStart_le {m m' : ℤ} (h : m ≤ m') : monthStart leap m ≤ monthStart leap m' := by
  rcases h.lt_or_eq with h | rfl
  · have := monthStart_lt leap h
    omega
  · exact le_rfl

theorem monthStart_zero : monthStart leap 0 = 0 := rfl

theorem monthStart_twelve : monthStart leap 12 = 365 + if leap then 1 else 0 := by
  unfold monthStart
  by_cases hl : leap <;> simp [hl]

theorem monthOf_eq {k m : ℤ} (hm₀ : 0 ≤ m) (hm₁ : m ≤ 11) (h₀ : monthStart leap m ≤ k)
    (h₁ : k < monthStart leap (m + 1)) : monthOf leap k = m := by
  have hk₀ : 0 ≤ k := by
    have := monthStart_le leap hm₀
    rw [monthStart_zero] at this
    omega
  have hk₁ : k < 365 + if leap then 1 else 0 := by
    have := monthStart_le leap (show m + 1 ≤ 12 by omega)
    rw [monthStart_twelve] at this
    omega
  obtain ⟨h₂, h₃⟩ := monthStart_monthOf leap k hk₀ hk₁
  obtain ⟨h₄, h₅⟩ := monthOf_bounds leap k hk₀ hk₁
  rcases lt_trichotomy (monthOf leap k) m with h | h | h
  · have := monthStart_le leap (show monthOf leap k + 1 ≤ m by omega)
    omega
  · exact h
  · have := monthStart_le leap (show m + 1 ≤ monthOf leap k by omega)
    omega

theorem monthOf_mono {k k' : ℤ} (h : k ≤ k') : monthOf leap k ≤ monthOf leap k' := by
  unfold monthOf
  by_cases hl : leap <;> simp only [hl, if_true, if_false] <;> split_ifs <;> omega

end Months

theorem month_bounds (n : ℤ) : 0 ≤ month n ∧ month n ≤ 11 := by
  obtain ⟨h₁, h₂⟩ := dayOfYear_bounds n
  exact monthOf_bounds _ _ h₁ h₂

theorem dayOfYear_month (n : ℤ) :
    monthStart (IsLeap (year n)) (month n) ≤ dayOfYear n ∧
      dayOfYear n < monthStart (IsLeap (year n)) (month n + 1) := by
  obtain ⟨h₁, h₂⟩ := dayOfYear_bounds n
  exact monthStart_monthOf _ _ h₁ h₂

theorem dayOfMonth_pos (n : ℤ) : 1 ≤ dayOfMonth n := by
  have := (dayOfYear_month n).1
  unfold dayOfMonth
  omega

/-- A day is the day of its own date. -/
theorem dayNumber_date (n : ℤ) : dayNumber (year n) (month n) (dayOfMonth n) = n := by
  obtain ⟨h₀, h₁⟩ := month_bounds n
  have hq : month n / 12 = 0 := by omega
  have hr : month n % 12 = month n := by omega
  unfold dayNumber
  rw [hq, hr, add_zero]
  unfold dayOfMonth dayOfYear
  ring

theorem dayNumber_add (y m d k : ℤ) : dayNumber y m (d + k) = dayNumber y m d + k := by
  unfold dayNumber
  ring

theorem dayNumber_succ (n : ℤ) : dayNumber (year n) (month n) (dayOfMonth n + 1) = n + 1 := by
  rw [dayNumber_add, dayNumber_date]

theorem dayNumber_of_month {y m d : ℤ} (h₀ : 0 ≤ m) (h₁ : m ≤ 11) :
    dayNumber y m d = yearStart y + monthStart (IsLeap y) m + (d - 1) := by
  have hq : m / 12 = 0 := by omega
  have hr : m % 12 = m := by omega
  unfold dayNumber
  rw [hq, hr, add_zero]

theorem dayNumber_year (y : ℤ) : dayNumber y 0 1 = yearStart y := by
  rw [dayNumber_of_month le_rfl (by omega), monthStart_zero]
  ring

/-- The date of a day that is given by a date of the calendar. -/
theorem date_dayNumber {y m d : ℤ} (h₀ : 0 ≤ m) (h₁ : m ≤ 11) (h₂ : 1 ≤ d)
    (h₃ : monthStart (IsLeap y) m + d ≤ monthStart (IsLeap y) (m + 1)) :
    year (dayNumber y m d) = y ∧ month (dayNumber y m d) = m ∧
      dayOfMonth (dayNumber y m d) = d := by
  have h₄ := monthStart_le (IsLeap y) h₀
  have h₅ := monthStart_le (IsLeap y) (show m + 1 ≤ 12 by omega)
  rw [monthStart_zero] at h₄
  rw [monthStart_twelve] at h₅
  rw [dayNumber_of_month h₀ h₁]
  have hy : year (yearStart y + monthStart (IsLeap y) m + (d - 1)) = y := by
    apply year_eq
    · omega
    · rw [yearStart_succ]
      omega
  have hk : dayOfYear (yearStart y + monthStart (IsLeap y) m + (d - 1)) =
      monthStart (IsLeap y) m + (d - 1) := by
    rw [dayOfYear, hy]
    ring
  have hm : month (yearStart y + monthStart (IsLeap y) m + (d - 1)) = m := by
    rw [month, hk]
    simp only [hy]
    exact monthOf_eq _ h₀ h₁ (by omega) (by omega)
  refine ⟨hy, hm, ?_⟩
  rw [dayOfMonth, hk, hm]
  simp only [hy]
  ring

/-- Inside a year the month never goes back. -/
theorem month_mono {n n' : ℤ} (h : n ≤ n') (hy : year n = year n') : month n ≤ month n' := by
  unfold month
  simp only [hy]
  apply monthOf_mono
  unfold dayOfYear
  rw [hy]
  omega

/-- Before the first day of the next year the months only go up from the month of a day. -/
theorem month_rest_of_year {n n' : ℤ} (h : n ≤ n') (h' : n' < yearStart (year n + 1)) :
    year n' = year n ∧ month n ≤ month n' := by
  have hy : year n' = year n := by
    apply year_eq _ h'
    exact le_trans (year_bounds n).1 h
  exact ⟨hy, month_mono h hy.symm⟩

/-- Before the first day of a later month of the same year, the month is earlier than that. -/
theorem month_before {n n' m : ℤ} (h : n ≤ n') (hm : m ≤ 11) (hlt : month n < m)
    (h' : n' < dayNumber (year n) m 1) : year n' = year n ∧ month n ≤ month n' ∧ month n' < m := by
  obtain ⟨h₀, -⟩ := month_bounds n
  rw [dayNumber_of_month (by omega) hm] at h'
  have hend : n' < yearStart (year n + 1) := by
    have := monthStart_le (IsLeap (year n)) (show m ≤ 12 by omega)
    rw [monthStart_twelve] at this
    rw [yearStart_succ]
    omega
  obtain ⟨hy, hle⟩ := month_rest_of_year h hend
  refine ⟨hy, hle, ?_⟩
  by_contra hge
  have h₁ := (dayOfYear_month n').1
  have h₂ := monthStart_le (IsLeap (year n)) (show m ≤ month n' by omega)
  unfold dayOfYear at h₁
  simp only [hy] at h₁
  omega

/-- The first day of a later month of the same year comes after the day. -/
theorem lt_dayNumber_month {n m : ℤ} (hm : m ≤ 11) (hlt : month n < m) :
    n < dayNumber (year n) m 1 := by
  obtain ⟨h₀, -⟩ := month_bounds n
  rw [dayNumber_of_month (by omega) hm]
  have h₁ := (dayOfYear_month n).2
  have h₂ := monthStart_le (IsLeap (year n)) (show month n + 1 ≤ m by omega)
  unfold dayOfYear at h₁
  omega

/-- Eight years in a row hold a leap year. -/
theorem exists_leap (y : ℤ) : ∃ z, y < z ∧ z ≤ y + 8 ∧ IsLeap z := by
  by_cases h : IsLeap (y - y % 4 + 4)
  · exact ⟨y - y % 4 + 4, by omega, by omega, h⟩
  · refine ⟨y - y % 4 + 8, by omega, by omega, ?_⟩
    unfold IsLeap at *
    omega

theorem monthStart_leap (leap : Prop) [Decidable leap] (m : ℤ) (h₀ : 0 ≤ m) (h₁ : m ≤ 11) :
    monthStart leap (m + 1) - monthStart leap m ≤ monthStart True (m + 1) - monthStart True m := by
  unfold monthStart
  by_cases hl : leap <;> simp only [hl, if_true, if_false] <;> split_ifs <;> omega

/-- Every date of the calendar comes again within nine years, whatever the leap years are. -/
theorem exists_same_date (n n₀ : ℤ) : ∃ n', n₀ < n' ∧ n' < n₀ + 9 * 366 ∧
    month n' = month n ∧ dayOfMonth n' = dayOfMonth n := by
  obtain ⟨z, hz₁, hz₂, hz₃⟩ := exists_leap (year n₀)
  obtain ⟨h₀, h₁⟩ := month_bounds n
  have hlen : monthStart (IsLeap z) (month n) + dayOfMonth n ≤
      monthStart (IsLeap z) (month n + 1) := by
    have h₂ := (dayOfYear_month n).2
    have h₃ := monthStart_leap (IsLeap (year n)) (month n) h₀ h₁
    have h₄ : ∀ k, monthStart (IsLeap z) k = monthStart True k := by
      intro k
      simp only [monthStart, hz₃, if_true]
    rw [h₄, h₄]
    unfold dayOfMonth
    omega
  obtain ⟨hy, hm, hd⟩ := date_dayNumber h₀ h₁ (dayOfMonth_pos n) hlen
  refine ⟨_, ?_, ?_, hm, hd⟩
  · have h₂ := (year_bounds (dayNumber z (month n) (dayOfMonth n))).1
    have h₃ := (year_bounds n₀).2
    have h₄ := yearStart_le (show year n₀ + 1 ≤ z by omega)
    rw [hy] at h₂
    omega
  · have h₂ := (year_bounds (dayNumber z (month n) (dayOfMonth n))).2
    have h₃ := (year_bounds n₀).1
    have h₄ := yearStart_le (show z + 1 ≤ year n₀ + 9 by omega)
    have h₅ := yearStart_add_le (year n₀) 9 (by omega)
    rw [hy] at h₂
    omega

/-- Every day of the week comes in every month of the next year. -/
theorem exists_same_weekday (n n₀ : ℤ) : ∃ n', n₀ < n' ∧ n' < n₀ + 9 * 366 ∧
    month n' = month n ∧ weekday n' = weekday n := by
  obtain ⟨h₀, h₁⟩ := month_bounds n
  let first := dayNumber (year n₀ + 1) (month n) 1
  let k := (weekday n - weekday first) % 7
  have hlen : monthStart (IsLeap (year n₀ + 1)) (month n) + (1 + k) ≤
      monthStart (IsLeap (year n₀ + 1)) (month n + 1) := by
    have := monthStart_lt (IsLeap (year n₀ + 1)) (show month n < month n + 1 by omega)
    omega
  obtain ⟨hy, hm, -⟩ := date_dayNumber h₀ h₁ (show 1 ≤ 1 + k by omega) hlen
  have hfirst : dayNumber (year n₀ + 1) (month n) (1 + k) = first + k := dayNumber_add _ _ _ _
  refine ⟨_, ?_, ?_, hm, ?_⟩
  · have h₂ := (year_bounds (dayNumber (year n₀ + 1) (month n) (1 + k))).1
    have h₃ := (year_bounds n₀).2
    rw [hy] at h₂
    omega
  · have h₂ := (year_bounds (dayNumber (year n₀ + 1) (month n) (1 + k))).2
    have h₃ := (year_bounds n₀).1
    have h₄ := yearStart_le (show year n₀ + 1 + 1 ≤ year n₀ + 9 by omega)
    have h₅ := yearStart_add_le (year n₀) 9 (by omega)
    rw [hy] at h₂
    omega
  · rw [hfirst]
    unfold weekday at *
    have hkd : k = ((n + 4) % 7 - (first + 4) % 7) % 7 := rfl
    omega

end SaltsUtils.Gregorian
