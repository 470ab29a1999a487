import ArosTools.Program.Calendar
import ArosTools.Program.FixedWidth
import ArosTools.Program.Text
import ArosTools.Toolchain.RawTar

/-!
# Timestamps of a package

The source date epoch is printed as a date and a time of day. The date is computed from the number
of days with 64-bit signed arithmetic.

* `civilFromDays` : the arithmetic; an operation that overflows is a panic.
* `rfc3339_denotes` : **the printed timestamp denotes the second that it was printed for**, and
  later seconds are printed as larger texts.
-/

namespace ArosTools

namespace Toolchain

open Str Calendar

/-! ### Dates from days -/

/-- The numbers of an `i64`. -/
def IsInt64 (n : ℤ) : Prop := -2 ^ 63 ≤ n ∧ n < 2 ^ 63

instance (n : ℤ) : Decidable (IsInt64 n) :=
  inferInstanceAs (Decidable (-2 ^ 63 ≤ n ∧ n < 2 ^ 63))

/-- The result of an `i64` operation. -/
def int64 (n : ℤ) : Checked ContractError ℤ := if IsInt64 n then .ok n else .error .panic

/-- `civil_from_days` -/
def civilFromDays (days : ℤ) : Checked ContractError (ℤ × ℤ × ℤ) := do
  let days ← int64 (days + 719468)
  let shifted ← if 0 ≤ days then pure days else int64 (days - 146096)
  let era := shifted.tdiv 146097
  let doe ← int64 (days - (← int64 (era * 146097)))
  let inEra ← int64 (doe - doe.tdiv 1460)
  let inEra ← int64 (inEra + doe.tdiv 36524)
  let inEra ← int64 (inEra - doe.tdiv 146096)
  let yoe := inEra.tdiv 365
  let year ← int64 (yoe + (← int64 (era * 400)))
  let before ← int64 ((← int64 (365 * yoe)) + yoe.tdiv 4)
  let before ← int64 (before - yoe.tdiv 100)
  let dayOfYear ← int64 (doe - before)
  let monthPrime := (← int64 ((← int64 (5 * dayOfYear)) + 2)).tdiv 153
  let inMonths ← int64 ((← int64 (153 * monthPrime)) + 2)
  let day ← int64 ((← int64 (dayOfYear - inMonths.tdiv 5)) + 1)
  let month ← int64 (monthPrime + if monthPrime < 10 then 3 else -9)
  let year ← int64 (year + if month ≤ 2 then 1 else 0)
  pure (year, month, day)

/-! ### The text -/

/-- A number with at least so many characters, zeros in front. -/
def padded (width : ℕ) (n : ℤ) : Text :=
  let zeros (width : ℕ) (digits : Text) : Text :=
    List.replicate (width - digits.length) '0' ++ digits
  if n < 0 then '-' :: zeros (width - 1) (decimal n.natAbs) else zeros width (decimal n.natAbs)

/-- `rfc3339` -/
def rfc3339 (seconds : ℕ) : Checked ContractError Text := do
  if 2 ^ 63 ≤ seconds then
    .fail (.package "source date epoch is outside the supported timestamp range")
  else
    let days : ℤ := (seconds : ℤ) / 86400
    let time : ℤ := (seconds : ℤ) % 86400
    let (year, month, day) ← civilFromDays days
    if ¬(0 ≤ year ∧ year ≤ 9999) then
      .fail (.package "source date epoch is outside the SPDX timestamp range")
    else
      pure (padded 4 year ++ '-' :: padded 2 month ++ '-' :: padded 2 day ++ 'T' ::
        padded 2 (time / 3600) ++ ':' :: padded 2 (time % 3600 / 60) ++ ':' ::
        padded 2 (time % 60) ++ ['Z'])

/-! ### The arithmetic -/

theorem int64_bind {n : ℤ} {β : Type} {f : ℤ → Checked ContractError β}
    (h : IsInt64 n) : (int64 n >>= f) = f n := by
  rw [int64, if_pos h]
  rfl

/-- The days of an era, by their centuries, their leap cycles and the years in these. -/
theorem exists_era_split {doe : ℤ} (h₀ : 0 ≤ doe) (h₁ : doe ≤ 146096) :
    ∃ c q r doy : ℤ, (0 ≤ c ∧ c ≤ 3) ∧ (0 ≤ q ∧ q ≤ 24) ∧ (0 ≤ r ∧ r ≤ 3) ∧ (0 ≤ doy ∧ doy ≤ 365) ∧
      (doy = 365 → r = 3 ∧ (q = 24 → c = 3)) ∧ doe = 36524 * c + 1461 * q + 365 * r + doy := by
  obtain ⟨c, hc⟩ : ∃ c, c = min (doe / 36524) 3 := ⟨_, rfl⟩
  obtain ⟨s, hs⟩ : ∃ s, s = doe - 36524 * c := ⟨_, rfl⟩
  have hcentury : 0 ≤ s ∧ s ≤ 36524 ∧ (c < 3 → s ≤ 36523) ∧ 0 ≤ c ∧ c ≤ 3 := by omega
  obtain ⟨t, ht⟩ : ∃ t, t = s - 1461 * (s / 1461) := ⟨_, rfl⟩
  have hcycle : 0 ≤ t ∧ t ≤ 1460 ∧ s / 1461 ≤ 24 := by omega
  exact ⟨c, s / 1461, min (t / 365) 3, t - 365 * min (t / 365) 3, by omega, by omega, by omega,
    by omega, by omega, by omega⟩

section

variable {doe c q r doy : ℤ} (hc : 0 ≤ c ∧ c ≤ 3) (hq : 0 ≤ q ∧ q ≤ 24) (hr : 0 ≤ r ∧ r ≤ 3)
  (hdoy : 0 ≤ doy ∧ doy ≤ 365) (hlast : doy = 365 → r = 3 ∧ (q = 24 → c = 3))
  (hdoe : doe = 36524 * c + 1461 * q + 365 * r + doy)

include hc hq hr hdoy hlast hdoe in
/-- The corrections give the year of the era. -/
theorem year_of_era : (doe - doe / 1460 + doe / 36524 - doe / 146096) / 365 =
    100 * c + 4 * q + r := by
  by_cases hend : doe = 146096
  · have : c = 3 ∧ q = 24 ∧ r = 3 ∧ doy = 365 := by omega
    omega
  · have hera : doe / 146096 = 0 := by omega
    have hcentury : doe / 36524 = c := by omega
    by_cases hcycle : 24 * c + q + 365 * r + doy < 1460
    · have : doe / 1460 = 25 * c + q := by omega
      omega
    · have : doe / 1460 = 25 * c + q + 1 := by omega
      have : r = 3 := by omega
      omega

end

section

variable {days shifted era doe yoe doy mp : ℤ}

theorem isInt64_era (hshifted : 0 ≤ shifted ∧ shifted ≤ 2 ^ 62) (hera : era = shifted / 146097) :
    IsInt64 shifted ∧ IsInt64 (era * 146097) ∧ IsInt64 (shifted - era * 146097) ∧
      IsInt64 (era * 400) ∧ (0 ≤ era ∧ era ≤ 2 ^ 45) ∧
      (0 ≤ shifted - era * 146097 ∧ shifted - era * 146097 ≤ 146096) := by
  unfold IsInt64
  omega

theorem isInt64_inEra (hdoe : 0 ≤ doe ∧ doe ≤ 146096) :
    IsInt64 (doe - doe / 1460) ∧ IsInt64 (doe - doe / 1460 + doe / 36524) ∧
      IsInt64 (doe - doe / 1460 + doe / 36524 - doe / 146096) ∧
      0 ≤ doe - doe / 1460 + doe / 36524 - doe / 146096 := by
  unfold IsInt64
  omega

theorem isInt64_year (hyoe : 0 ≤ yoe ∧ yoe ≤ 399) (hera : 0 ≤ era ∧ era ≤ 2 ^ 45) (late : ℤ)
    (hlate : 0 ≤ late ∧ late ≤ 1) :
    IsInt64 (yoe + era * 400) ∧ IsInt64 (yoe + era * 400 + late) := by
  unfold IsInt64
  omega

theorem isInt64_before (hyoe : 0 ≤ yoe ∧ yoe ≤ 399) :
    IsInt64 (365 * yoe) ∧ IsInt64 (365 * yoe + yoe / 4) ∧
      IsInt64 (365 * yoe + yoe / 4 - yoe / 100) := by
  unfold IsInt64
  omega

theorem month_bounds (hdoy : 0 ≤ doy ∧ doy ≤ 365) (hmp : (5 * doy + 2) / 153 = mp) :
    0 ≤ mp ∧ mp ≤ 11 := by
  omega

theorem isInt64_month (hdoy : 0 ≤ doy ∧ doy ≤ 365) (hmp : 0 ≤ mp ∧ mp ≤ 11) :
    IsInt64 doy ∧ IsInt64 (5 * doy) ∧ IsInt64 (5 * doy + 2) ∧ IsInt64 (153 * mp) ∧
      IsInt64 (153 * mp + 2) ∧ IsInt64 (doy - (153 * mp + 2) / 5) ∧
      IsInt64 (doy - (153 * mp + 2) / 5 + 1) ∧ IsInt64 (mp + 3) ∧ IsInt64 (mp + -9) := by
  unfold IsInt64
  omega

/-- The steps of the arithmetic, each for the parts of the date found before. -/
theorem civilFromDays_steps (hshifted : shifted = days + 719468)
    (hrange : 0 ≤ shifted ∧ shifted ≤ 2 ^ 62) (hera : era = shifted / 146097)
    (hdoe : doe = shifted - era * 146097)
    (hyoe : (doe - doe / 1460 + doe / 36524 - doe / 146096) / 365 = yoe)
    (hyoe' : 0 ≤ yoe ∧ yoe ≤ 399) (hdoy : doe - (365 * yoe + yoe / 4 - yoe / 100) = doy)
    (hdoy' : 0 ≤ doy ∧ doy ≤ 365) (hmp : (5 * doy + 2) / 153 = mp) :
    civilFromDays days = .ok (yoe + era * 400 + if mp < 10 then 0 else 1,
      mp + (if mp < 10 then 3 else -9), doy - (153 * mp + 2) / 5 + 1) := by
  obtain ⟨hs, he₁, he₂, he₃, hera', hdoe'⟩ := isInt64_era hrange hera
  rw [hshifted] at hs
  rw [← hdoe] at he₂ hdoe'
  obtain ⟨hi₁, hi₂, hi₃, hinEra⟩ := isInt64_inEra hdoe'
  obtain ⟨hy₁, -⟩ := isInt64_year hyoe' hera' 0 (by decide)
  obtain ⟨hb₁, hb₂, hb₃⟩ := isInt64_before hyoe'
  have hmp' := month_bounds hdoy' hmp
  obtain ⟨hm₁, hm₂, hm₃, hm₄, hm₅, hm₆, hm₇, hm₈, hm₉⟩ := isInt64_month hdoy' hmp'
  -- Every dividend is at least zero, so division rounds down.
  have ht : ∀ {n : ℤ} (k : ℤ), 0 ≤ n → n.tdiv k = n / k := fun k h => Int.tdiv_eq_ediv_of_nonneg h
  unfold civilFromDays
  rw [int64_bind hs, ← hshifted, if_pos hrange.1]
  simp only [pure_bind, ht _ hrange.1, ← hera, int64_bind he₁, ← hdoe]
  rw [int64_bind he₂]
  simp only [ht _ hdoe'.1, int64_bind hi₁, int64_bind hi₂, int64_bind hi₃, ht _ hinEra, hyoe,
    int64_bind he₃, int64_bind hy₁, int64_bind hb₁, ht _ hyoe'.1, int64_bind hb₂, int64_bind hb₃,
    hdoy, int64_bind hm₁, int64_bind hm₂, int64_bind hm₃]
  have hfive : 0 ≤ 5 * doy + 2 := by omega
  have hmonths : 0 ≤ 153 * mp + 2 := by omega
  simp only [ht _ hfive, hmp, int64_bind hm₄, int64_bind hm₅, ht _ hmonths, int64_bind hm₆,
    int64_bind hm₇]
  by_cases hearly : mp < 10
  · have hmonth : ¬ mp + 3 ≤ 2 := by omega
    obtain ⟨-, hyear⟩ := isInt64_year hyoe' hera' 0 (by decide)
    simp only [if_pos hearly, int64_bind hm₈, if_neg hmonth, int64_bind hyear]
    rfl
  · have hmonth : mp + -9 ≤ 2 := by omega
    obtain ⟨-, hyear⟩ := isInt64_year hyoe' hera' 1 (by decide)
    simp only [if_neg hearly, int64_bind hm₉, if_pos hmonth, int64_bind hyear]
    rfl

end

/-- A day since the start of the year 0 in March is a day of an era. -/
theorem exists_marchDay {shifted : ℤ} (h : 0 ≤ shifted) : ∃ d : MarchDay, d.Valid ∧
    shifted = 146097 * d.era + 36524 * d.century + 1461 * d.cycle + 365 * d.year + d.day ∧
    (d.era : ℤ) = shifted / 146097 := by
  have hdoe₀ : 0 ≤ shifted % 146097 := by omega
  have hdoe₁ : shifted % 146097 ≤ 146096 := by omega
  obtain ⟨c, q, r, doy, hc, hq, hr, hdoy, hlast, hsplit⟩ := exists_era_split hdoe₀ hdoe₁
  obtain ⟨era, hera⟩ := Int.eq_ofNat_of_zero_le (Int.ediv_nonneg h (by decide : (0 : ℤ) ≤ 146097))
  obtain ⟨c, rfl⟩ := Int.eq_ofNat_of_zero_le hc.1
  obtain ⟨q, rfl⟩ := Int.eq_ofNat_of_zero_le hq.1
  obtain ⟨r, rfl⟩ := Int.eq_ofNat_of_zero_le hr.1
  obtain ⟨doy, rfl⟩ := Int.eq_ofNat_of_zero_le hdoy.1
  have hparts := Int.mul_ediv_add_emod shifted 146097
  have hcentury : c ≤ 3 := by omega
  have hcycle : q ≤ 24 := by omega
  have hyear : r ≤ 3 := by omega
  have hday : doy ≤ 365 := by omega
  have hend : doy = 365 → r = 3 ∧ (q = 24 → c = 3) := by omega
  refine ⟨⟨era, c, q, r, doy⟩, ⟨hcentury, hcycle, hyear, hday, hend⟩, ?_, hera.symm⟩
  rw [hera, hsplit] at hparts
  linarith

/-- **The arithmetic gives the date of a day**, without an overflow. -/
theorem civilFromDays_eq {days : ℤ} (h₀ : 0 ≤ days) (h₁ : days < 2 ^ 61) :
    ∃ date : Date, civilFromDays days = .ok (date.year, date.month, date.day) ∧ date.Valid ∧
      (dayNumber date : ℤ) = days + 719528 := by
  obtain ⟨d, hd, hshifted, hera⟩ := exists_marchDay (show 0 ≤ days + 719468 by omega)
  refine ⟨d.date, ?_, d.date_valid hd, ?_⟩
  · obtain ⟨hcentury, hcycle, hyear, hday, hlast⟩ := hd
    have hrange : 0 ≤ days + 719468 ∧ days + 719468 ≤ 2 ^ 62 := by omega
    have hdoe : (36524 * d.century + 1461 * d.cycle + 365 * d.year + d.day : ℤ) =
        days + 719468 - d.era * 146097 := by linarith
    have hc : (0 : ℤ) ≤ d.century ∧ (d.century : ℤ) ≤ 3 := by omega
    have hq : (0 : ℤ) ≤ d.cycle ∧ (d.cycle : ℤ) ≤ 24 := by omega
    have hr : (0 : ℤ) ≤ d.year ∧ (d.year : ℤ) ≤ 3 := by omega
    have hdoy : (0 : ℤ) ≤ d.day ∧ (d.day : ℤ) ≤ 365 := by omega
    have hend : (d.day : ℤ) = 365 → (d.year : ℤ) = 3 ∧ ((d.cycle : ℤ) = 24 → (d.century : ℤ) = 3) := by
      omega
    have hyoe := year_of_era hc hq hr hdoy hend rfl
    have hbefore : (36524 * d.century + 1461 * d.cycle + 365 * d.year + d.day : ℤ) -
        (365 * (100 * d.century + 4 * d.cycle + d.year) +
          (100 * d.century + 4 * d.cycle + d.year) / 4 -
          (100 * d.century + 4 * d.cycle + d.year) / 100) = d.day := by
      clear hyoe hera hdoe hshifted
      omega
    have hmonth : (5 * d.day + 2 : ℤ) / 153 = d.month := by
      rw [MarchDay.month]
      push_cast
      rfl
    have hyearNumber : (d.yearNumber : ℤ) =
        100 * d.century + 4 * d.cycle + d.year + d.era * 400 := by
      rw [MarchDay.yearNumber]
      push_cast
      ring
    rw [civilFromDays_steps rfl hrange hera hdoe hyoe (by clear hyoe hera hdoe hshifted; omega)
      hbefore hdoy hmonth, ← hyearNumber]
    have hle := d.daysFromMarch_le
    have hmarch : (daysFromMarch d.month : ℤ) = (153 * d.month + 2) / 5 := by
      rw [daysFromMarch]
      push_cast
      rfl
    have hdate : (d.date.day : ℤ) = d.day - (153 * d.month + 2) / 5 + 1 := by
      rw [MarchDay.date, marchDate_day, ← hmarch]
      omega
    rw [← hdate]
    by_cases hearly : d.month < 10
    · have hcast : (d.month : ℤ) < 10 := by omega
      simp only [if_pos hcast, MarchDay.date, marchDate, if_pos hearly, Int.add_zero]
      rfl
    · have hcast : ¬ (d.month : ℤ) < 10 := by omega
      have hnine : (d.month : ℤ) + -9 = ((d.month - 9 : ℕ) : ℤ) := by omega
      simp only [if_neg hcast, MarchDay.date, marchDate, if_neg hearly, hnine]
      rfl
  · rw [MarchDay.dayNumber_date hd]
    push_cast
    linarith

/-! ### The printed instant -/

/-- A date and a time of day as they are printed. -/
def timestamp (date : Date) (hour minute second : ℕ) : Text :=
  padded 4 date.year ++ '-' :: padded 2 date.month ++ '-' :: padded 2 date.day ++ 'T' ::
    padded 2 hour ++ ':' :: padded 2 minute ++ ':' :: padded 2 second ++ ['Z']

/-- The first day of the epoch. -/
def epochDate : Date := ⟨1970, 1, 1⟩

/-- The second that a date and a time of day denote. -/
def instant (date : Date) (hour minute second : ℕ) : ℤ :=
  ((dayNumber date : ℤ) - dayNumber epochDate) * 86400 + hour * 3600 + minute * 60 + second

theorem dayNumber_epochDate : dayNumber epochDate = 719528 := by
  have hmarch : epochDate = marchDate 1969 10 1 := rfl
  rw [hmarch, dayNumber_march (by decide)]
  decide

/-- What is printed for a second. -/
theorem rfc3339_eq {seconds : ℕ} (h : seconds < 2 ^ 63) : ∃ date : Date, date.Valid ∧
    dayNumber date = seconds / 86400 + 719528 ∧
    rfc3339 seconds = if date.year ≤ 9999 then
      .ok (timestamp date (seconds % 86400 / 3600) (seconds % 3600 / 60) (seconds % 60))
    else .fail (.package "source date epoch is outside the SPDX timestamp range") := by
  obtain ⟨date, hcivil, hvalid, hday⟩ := civilFromDays_eq (show (0 : ℤ) ≤ seconds / 86400 by omega)
    (by omega)
  refine ⟨date, hvalid, by omega, ?_⟩
  have hhour : (seconds : ℤ) % 86400 / 3600 = ((seconds % 86400 / 3600 : ℕ) : ℤ) := by omega
  have hminute : (seconds : ℤ) % 86400 % 3600 / 60 = ((seconds % 3600 / 60 : ℕ) : ℤ) := by omega
  have hsecond : (seconds : ℤ) % 86400 % 60 = ((seconds % 60 : ℕ) : ℤ) := by omega
  unfold rfc3339
  rw [if_neg (Nat.not_le.mpr h)]
  simp only [hcivil, hhour, hminute, hsecond]
  by_cases hyear : date.year ≤ 9999
  · have hrange : (0 : ℤ) ≤ date.year ∧ (date.year : ℤ) ≤ 9999 := by omega
    rw [if_pos hyear]
    exact if_neg (not_not.mpr hrange)
  · have hrange : ¬((0 : ℤ) ≤ date.year ∧ (date.year : ℤ) ≤ 9999) := by omega
    rw [if_neg hyear]
    exact if_pos hrange

theorem rfc3339_returns (seconds : ℕ) : (rfc3339 seconds).Returns := by
  rcases Nat.lt_or_ge seconds (2 ^ 63) with h | h
  · obtain ⟨date, -, -, hprinted⟩ := rfc3339_eq h
    rw [hprinted]
    split_ifs
    · exact Checked.returns_ok _
    · exact Checked.returns_fail _
  · unfold rfc3339
    rw [if_pos h]
    exact Checked.returns_fail _

theorem lt_of_rfc3339 {seconds : ℕ} {text : Text} (h : rfc3339 seconds = .ok text) :
    seconds < 2 ^ 63 := by
  by_contra hlarge
  unfold rfc3339 at h
  rw [if_pos (Nat.not_lt.mp hlarge)] at h
  cases h

/-- An accepted second is printed as its date and time of day. -/
theorem rfc3339_ok {seconds : ℕ} {text : Text} (h : rfc3339 seconds = .ok text) :
    ∃ date : Date, date.Valid ∧ date.year ≤ 9999 ∧
      dayNumber date = seconds / 86400 + 719528 ∧
      text = timestamp date (seconds % 86400 / 3600) (seconds % 3600 / 60) (seconds % 60) := by
  obtain ⟨date, hvalid, hday, hprinted⟩ := rfc3339_eq (lt_of_rfc3339 h)
  rw [hprinted] at h
  split_ifs at h with hyear
  · exact ⟨date, hvalid, hyear, hday, (Except.ok.inj h).symm⟩
  · cases h

/-! ### The order of texts -/

theorem padded_eq {width n : ℕ} (h : n < 10 ^ (width + 1)) :
    padded (width + 1) n = fixedDigits (width + 1) n := by
  have hnonneg : ¬ (n : ℤ) < 0 := by omega
  rw [padded, if_neg hnonneg]
  exact replicate_toDigits h

/-- The fields of a timestamp have fixed widths. -/
theorem timestamp_eq {date : Date} {hour minute second : ℕ} (hvalid : date.Valid)
    (hyear : date.year ≤ 9999) (hhour : hour < 24) (hminute : minute < 60) (hsecond : second < 60) :
    timestamp date hour minute second =
      fixedDigits 4 date.year ++ '-' :: (fixedDigits 2 date.month ++ '-' :: (fixedDigits 2 date.day ++
        'T' :: (fixedDigits 2 hour ++ ':' :: (fixedDigits 2 minute ++ ':' ::
          (fixedDigits 2 second ++ 'Z' :: []))))) := by
  have hmonth := hvalid.month
  have hday := hvalid.day.2.trans (monthDays_le _ _)
  rw [timestamp, padded_eq (by omega), padded_eq (by omega), padded_eq (by omega),
    padded_eq (by omega), padded_eq (by omega), padded_eq (by omega)]
  simp only [List.append_assoc, List.cons_append]

/-- Later seconds are printed as larger texts. -/
theorem timestamp_le {date date' : Date} {hour minute second hour' minute' second' : ℕ}
    (hvalid : date.Valid) (hvalid' : date'.Valid) (hyear : date.year ≤ 9999)
    (hyear' : date'.year ≤ 9999) (hhour : hour < 24) (hhour' : hour' < 24) (hminute : minute < 60)
    (hminute' : minute' < 60) (hsecond : second < 60) (hsecond' : second' < 60)
    (h : instant date hour minute second ≤ instant date' hour' minute' second') :
    TextLe (timestamp date hour minute second) (timestamp date' hour' minute' second') := by
  have hmonth := hvalid'.month
  have hday := hvalid'.day.2.trans (monthDays_le _ _)
  unfold instant at h
  have hdate : date.Before date' ∨ date = date' := by
    rcases Date.before_cases date date' with hbefore | hsame | hafter
    · exact .inl hbefore
    · exact .inr hsame
    · have := dayNumber_lt hvalid' hvalid hafter
      omega
  rw [timestamp_eq hvalid hyear hhour hminute hsecond,
    timestamp_eq hvalid' hyear' hhour' hminute' hsecond']
  -- The first field that differs decides.
  rcases hdate with hdate | rfl
  · rcases hdate with hlt | ⟨hy, hlt | ⟨hm, hlt⟩⟩
    · exact .field (by omega) (.inl hlt) _
    · exact .field (by omega) (.inr ⟨hy, .field (by omega) (.inl hlt) _⟩) _
    · exact .field (by omega) (.inr ⟨hy, .field (by omega) (.inr ⟨hm,
        .field (by omega) (.inl hlt) _⟩) _⟩) _
  · refine .field (by omega) (.inr ⟨rfl, .field (by omega) (.inr ⟨rfl, .field (by omega)
      (.inr ⟨rfl, ?_⟩) _⟩) _⟩) _
    rcases Nat.lt_trichotomy hour hour' with hlt | rfl | hgt
    · exact .field (by omega) (.inl hlt) _
    · rcases Nat.lt_trichotomy minute minute' with hlt | rfl | hgt
      · exact .field (by omega) (.inr ⟨rfl, .field (by omega) (.inl hlt) _⟩) _
      · have hle : second < second' ∨ second = second' := by omega
        exact .field (by omega) (.inr ⟨rfl, .field (by omega) (.inr ⟨rfl, .field (by omega)
          (hle.imp_right fun heq => ⟨heq, .inl rfl⟩) _⟩) _⟩) _
      · omega
    · omega

/-- **The printed timestamp denotes the second that it was printed for.**  Nothing overflows, and
later seconds are never printed as smaller texts. -/
theorem rfc3339_denotes (seconds : ℕ) :
    (rfc3339 seconds).Returns ∧
    (∀ text, rfc3339 seconds = .ok text → ∃ date hour minute second,
      date.Valid ∧ date.year ≤ 9999 ∧ hour < 24 ∧ minute < 60 ∧ second < 60 ∧
        text = timestamp date hour minute second ∧ instant date hour minute second = seconds) ∧
    ∀ later text text', seconds ≤ later → rfc3339 seconds = .ok text →
      rfc3339 later = .ok text' → ¬ text' < text := by
  have hinstant : ∀ {n : ℕ} {date : Date}, dayNumber date = n / 86400 + 719528 →
      instant date (n % 86400 / 3600) (n % 3600 / 60) (n % 60) = n := by
    intro n date hday
    rw [instant, dayNumber_epochDate, hday]
    omega
  refine ⟨rfc3339_returns seconds, fun text h => ?_, fun later text text' hle h h' => ?_⟩
  · obtain ⟨date, hvalid, hyear, hday, rfl⟩ := rfc3339_ok h
    exact ⟨date, _, _, _, hvalid, hyear, by omega, by omega, by omega, rfl, hinstant hday⟩
  · obtain ⟨date, hvalid, hyear, hday, rfl⟩ := rfc3339_ok h
    obtain ⟨date', hvalid', hyear', hday', rfl⟩ := rfc3339_ok h'
    refine TextLe.not_lt (timestamp_le hvalid hvalid' hyear hyear' (by omega) (by omega) (by omega)
      (by omega) (by omega) (by omega) ?_)
    rw [hinstant hday, hinstant hday']
    exact_mod_cast hle

/-- The leap day of a century. -/
theorem rfc3339_leap_day : ∃ date hour minute second,
    date.Valid ∧ date.year ≤ 9999 ∧ hour < 24 ∧ minute < 60 ∧ second < 60 ∧
      lit "2000-02-29T00:00:00Z" = timestamp date hour minute second ∧
      instant date hour minute second = (951782400 : ℕ) :=
  (rfc3339_denotes 951782400).2.1 (lit "2000-02-29T00:00:00Z") (by decide)

end Toolchain

end ArosTools
