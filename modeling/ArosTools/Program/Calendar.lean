import Mathlib.Tactic.IntervalCases
import Mathlib.Algebra.BigOperators.Group.List.Basic

/-!
# The proleptic Gregorian calendar

Dates from the year 0 on, and the days that lie before them.

* `dayNumber` : the number of a date's day, counted from 1 January of the year 0.
* `dayNumber_lt` : a later date has a larger number.
* `dayNumber_march` : the numbers of days, by years that begin in March.
-/

namespace ArosTools

namespace Calendar

/-- A year with a 29 February. -/
def IsLeap (year : ℕ) : Prop := year % 4 = 0 ∧ (year % 100 ≠ 0 ∨ year % 400 = 0)

instance : DecidablePred IsLeap := fun year =>
  inferInstanceAs (Decidable (year % 4 = 0 ∧ (year % 100 ≠ 0 ∨ year % 400 = 0)))

/-- The days of a year. -/
def yearDays (year : ℕ) : ℕ := if IsLeap year then 366 else 365

/-- The days of a month. -/
def monthDays (year : ℕ) : ℕ → ℕ
  | 1 => 31
  | 2 => if IsLeap year then 29 else 28
  | 3 => 31
  | 4 => 30
  | 5 => 31
  | 6 => 30
  | 7 => 31
  | 8 => 31
  | 9 => 30
  | 10 => 31
  | 11 => 30
  | 12 => 31
  | _ => 0

/-- The days before a year. -/
def daysBeforeYear : ℕ → ℕ
  | 0 => 0
  | year + 1 => daysBeforeYear year + yearDays year

/-- The days of a year before a month. -/
def daysBeforeMonth (year : ℕ) : ℕ → ℕ
  | 0 => 0
  | month + 1 => daysBeforeMonth year month + monthDays year month

/-- A date. -/
structure Date where
  year : ℕ
  month : ℕ
  day : ℕ
  deriving DecidableEq, Repr

/-- A date of the calendar. -/
structure Date.Valid (date : Date) : Prop where
  month : 1 ≤ date.month ∧ date.month ≤ 12
  day : 1 ≤ date.day ∧ date.day ≤ monthDays date.year date.month

/-- The number of a date's day. -/
def dayNumber (date : Date) : ℕ :=
  daysBeforeYear date.year + daysBeforeMonth date.year date.month + (date.day - 1)

/-! ### Years counted from March -/

/-- The days before a year that begins in March. -/
def marchDays (year : ℕ) : ℕ := 365 * year + year / 4 - year / 100 + year / 400

theorem succ_div_of_dvd {n k : ℕ} (h : (n + 1) % k = 0) : (n + 1) / k = n / k + 1 := by
  rw [Nat.succ_div, if_pos (Nat.dvd_of_mod_eq_zero h)]

theorem succ_div_of_not_dvd {n k : ℕ} (h : (n + 1) % k ≠ 0) : (n + 1) / k = n / k := by
  rw [Nat.succ_div, if_neg fun hdvd => h (Nat.mod_eq_zero_of_dvd hdvd), Nat.add_zero]

theorem daysBeforeYear_succ (year : ℕ) : daysBeforeYear (year + 1) = marchDays year + 366 := by
  induction year with
  | zero => decide
  | succ year ih =>
    have hcentury : year / 100 ≤ 365 * year := by omega
    rw [daysBeforeYear, ih, marchDays, marchDays, yearDays]
    by_cases h₄ : (year + 1) % 4 = 0
    · have hfour := succ_div_of_dvd h₄
      by_cases h₁₀₀ : (year + 1) % 100 = 0
      · have hhundred := succ_div_of_dvd h₁₀₀
        by_cases h₄₀₀ : (year + 1) % 400 = 0
        · rw [if_pos ⟨h₄, .inr h₄₀₀⟩, hfour, hhundred, succ_div_of_dvd h₄₀₀]
          omega
        · rw [if_neg (fun h => h.2.elim (fun h => h h₁₀₀) h₄₀₀), hfour, hhundred,
            succ_div_of_not_dvd h₄₀₀]
          omega
      · have h₄₀₀ : (year + 1) % 400 ≠ 0 := by omega
        rw [if_pos ⟨h₄, .inl h₁₀₀⟩, hfour, succ_div_of_not_dvd h₁₀₀, succ_div_of_not_dvd h₄₀₀]
        omega
    · have h₁₀₀ : (year + 1) % 100 ≠ 0 := by omega
      have h₄₀₀ : (year + 1) % 400 ≠ 0 := by omega
      rw [if_neg (fun h => h₄ h.1), succ_div_of_not_dvd h₄, succ_div_of_not_dvd h₁₀₀,
        succ_div_of_not_dvd h₄₀₀]
      omega

/-- A date, by the month counted from March and the year that begins there. -/
def marchDate (year month day : ℕ) : Date :=
  if month < 10 then ⟨year, month + 3, day⟩ else ⟨year + 1, month - 9, day⟩

/-- The days of a year that begins in March before one of its months. -/
def daysFromMarch (month : ℕ) : ℕ := (153 * month + 2) / 5

/-- **The number of a date's day**, by the year that begins in March. -/
theorem dayNumber_march {year month day : ℕ} (hmonth : month < 12) :
    dayNumber (marchDate year month day) =
      marchDays year + 60 + daysFromMarch month + (day - 1) := by
  have hnext := daysBeforeYear_succ year
  have hyear : daysBeforeYear (year + 1) = daysBeforeYear year + yearDays year := rfl
  unfold yearDays at hyear
  by_cases hleap : IsLeap year
  · rw [if_pos hleap] at hyear
    interval_cases month <;>
      simp [marchDate, dayNumber, daysBeforeMonth, monthDays, hleap, daysFromMarch] <;> omega
  · rw [if_neg hleap] at hyear
    interval_cases month <;>
      simp [marchDate, dayNumber, daysBeforeMonth, monthDays, hleap, daysFromMarch] <;> omega

theorem marchDate_day (year month day : ℕ) : (marchDate year month day).day = day := by
  unfold marchDate
  split_ifs <;> rfl

theorem marchDate_month {year month day : ℕ} (h : month < 12) :
    1 ≤ (marchDate year month day).month ∧ (marchDate year month day).month ≤ 12 := by
  unfold marchDate
  split_ifs
  · exact ⟨Nat.le_add_left 1 (month + 2), by simp only; omega⟩
  · exact ⟨by simp only; omega, by simp only; omega⟩

/-- The months that do not end the year that begins in March. -/
theorem monthDays_march (year day : ℕ) {month : ℕ} (h : month < 11) :
    monthDays (marchDate year month day).year (marchDate year month day).month =
      daysFromMarch (month + 1) - daysFromMarch month := by
  interval_cases month <;> rfl

/-- A year in its era, century and leap cycle, and a day of it. -/
structure MarchDay where
  era : ℕ
  century : ℕ
  cycle : ℕ
  year : ℕ
  day : ℕ

/-- Every era but the last day of every century and year ends with a leap year. -/
structure MarchDay.Valid (d : MarchDay) : Prop where
  century : d.century ≤ 3
  cycle : d.cycle ≤ 24
  year : d.year ≤ 3
  day : d.day ≤ 365
  last : d.day = 365 → d.year = 3 ∧ (d.cycle = 24 → d.century = 3)

/-- The number of the year. -/
def MarchDay.yearNumber (d : MarchDay) : ℕ :=
  400 * d.era + 100 * d.century + 4 * d.cycle + d.year

/-- The month, counted from March. -/
def MarchDay.month (d : MarchDay) : ℕ := (5 * d.day + 2) / 153

/-- The date. -/
def MarchDay.date (d : MarchDay) : Date :=
  marchDate d.yearNumber d.month (d.day - daysFromMarch d.month + 1)

namespace MarchDay

variable {d : MarchDay}

theorem month_lt (h : d.Valid) : d.month < 12 := by
  have := h.day
  unfold month
  omega

theorem daysFromMarch_le (d : MarchDay) : daysFromMarch d.month ≤ d.day := by
  unfold daysFromMarch month
  omega

theorem marchDays_yearNumber (h : d.Valid) : marchDays d.yearNumber =
    146097 * d.era + 36524 * d.century + 1461 * d.cycle + 365 * d.year := by
  obtain ⟨hcentury, hcycle, hyear, -, -⟩ := h
  have h₄ : d.yearNumber / 4 = 100 * d.era + 25 * d.century + d.cycle := by
    unfold yearNumber
    omega
  have h₁₀₀ : d.yearNumber / 100 = 4 * d.era + d.century := by
    unfold yearNumber
    omega
  have h₄₀₀ : d.yearNumber / 400 = d.era := by
    unfold yearNumber
    omega
  rw [marchDays, h₄, h₁₀₀, h₄₀₀, yearNumber]
  omega

/-- **The number of the day** is that of its date. -/
theorem dayNumber_date (h : d.Valid) : dayNumber d.date =
    146097 * d.era + 36524 * d.century + 1461 * d.cycle + 365 * d.year + d.day + 60 := by
  have := daysFromMarch_le d
  rw [date, dayNumber_march (month_lt h), marchDays_yearNumber h]
  omega

/-- A year that ends with a 29 February. -/
theorem isLeap_succ (h : d.Valid) (hday : d.day = 365) : IsLeap (d.yearNumber + 1) := by
  obtain ⟨hyear, hlast⟩ := h.last hday
  have hcentury := h.century
  have hcycle := h.cycle
  unfold IsLeap yearNumber
  by_cases hcase : d.cycle = 24
  · have := hlast hcase
    exact ⟨by omega, .inr (by omega)⟩
  · exact ⟨by omega, .inl (by omega)⟩

theorem day_lt (d : MarchDay) : d.day < daysFromMarch (d.month + 1) := by
  unfold daysFromMarch month
  omega

theorem date_valid (h : d.Valid) : d.date.Valid := by
  have hday := h.day
  have hle := daysFromMarch_le d
  have hlt := day_lt d
  unfold date
  rcases Nat.lt_or_ge d.month 11 with hmonth | hmonth
  · refine ⟨marchDate_month (month_lt h), by rw [marchDate_day]; omega, ?_⟩
    rw [marchDate_day, monthDays_march _ _ hmonth]
    omega
  · have heleven : d.month = 11 := by
      have := month_lt h
      omega
    have hmarch : daysFromMarch 11 = 337 := rfl
    rw [heleven, hmarch] at hle ⊢
    refine ⟨marchDate_month (by decide), by rw [marchDate_day]; omega, ?_⟩
    have hfebruary : ∀ year day, monthDays (marchDate year 11 day).year (marchDate year 11 day).month =
        if IsLeap (year + 1) then 29 else 28 := fun _ _ => rfl
    rw [hfebruary, marchDate_day]
    split_ifs with hleap
    · omega
    · have : d.day ≠ 365 := fun h365 => hleap (isLeap_succ h h365)
      omega

end MarchDay

/-! ### The order of dates -/

/-- A date is earlier than another one. -/
def Date.Before (a b : Date) : Prop :=
  a.year < b.year ∨ a.year = b.year ∧
    (a.month < b.month ∨ a.month = b.month ∧ a.day < b.day)

theorem daysBeforeYear_mono {a b : ℕ} (h : a ≤ b) : daysBeforeYear a ≤ daysBeforeYear b :=
  monotone_nat_of_le_succ (fun n => Nat.le_add_right _ (yearDays n)) h

theorem daysBeforeMonth_mono (year : ℕ) {a b : ℕ} (h : a ≤ b) :
    daysBeforeMonth year a ≤ daysBeforeMonth year b :=
  monotone_nat_of_le_succ (fun n => Nat.le_add_right _ (monthDays year n)) h

theorem daysBeforeMonth_thirteen (year : ℕ) : daysBeforeMonth year 13 = yearDays year := by
  by_cases h : IsLeap year <;> simp [daysBeforeMonth, monthDays, yearDays, h]

variable {a b : Date}

theorem monthDays_le (year month : ℕ) : monthDays year month ≤ 31 := by
  unfold monthDays
  split
  all_goals first | decide | (split_ifs <;> decide)

/-- Of two dates one is earlier, unless they are the same. -/
theorem Date.before_cases (a b : Date) : a.Before b ∨ a = b ∨ b.Before a := by
  obtain ⟨y, m, d⟩ := a
  obtain ⟨y', m', d'⟩ := b
  simp only [Date.Before, Date.mk.injEq]
  omega

/-- The days before a date lie before its next month. -/
theorem Date.Valid.before_month (h : a.Valid) :
    daysBeforeMonth a.year a.month + (a.day - 1) < daysBeforeMonth a.year (a.month + 1) := by
  have := h.day
  rw [daysBeforeMonth]
  omega

theorem Date.Valid.before_year (h : a.Valid) :
    daysBeforeMonth a.year a.month + (a.day - 1) < yearDays a.year := by
  have hmonth := h.month
  rw [← daysBeforeMonth_thirteen]
  exact h.before_month.trans_le (daysBeforeMonth_mono _ (by omega))

/-- **A later date has a larger number.** -/
theorem dayNumber_lt (ha : a.Valid) (hb : b.Valid) (h : a.Before b) : dayNumber a < dayNumber b := by
  unfold dayNumber
  rcases h with hyear | ⟨hyear, hmonth | ⟨hmonth, hday⟩⟩
  · have hbefore := ha.before_year
    have hnext : daysBeforeYear (a.year + 1) ≤ daysBeforeYear b.year := daysBeforeYear_mono hyear
    rw [daysBeforeYear] at hnext
    omega
  · have hbefore := ha.before_month
    have hnext := daysBeforeMonth_mono b.year (show a.month + 1 ≤ b.month from hmonth)
    rw [← hyear] at hnext ⊢
    omega
  · have := ha.day
    have := hb.day
    rw [hyear, hmonth]
    omega

end Calendar

end ArosTools
