import ItemMapper.Instant.Calendar
import Mathlib.Tactic.IntervalCases

/-!
# Days of the calendar are counted correctly

`toDays_ofDays`: the day that a count of days leads to has that count, and `day?_ofDays`: it is a
day that the calendar has.

Both need the year of a day inside its cycle of four hundred years.  `Calendar.ofDays` finds it by
a division whose numerator has been corrected for the leap days, and these corrections do not
begin with a century.  `yearOfCycle_bounds` shows that they come out right, for each century
separately: the number of corrections differs by at most one from the number of leap days that
really precede the year.

Days are in the same order as their years (`year_ofDays_le_iff`).
-/

namespace ItemMapper.Calendar

/-- The year of a cycle that a day of it lies in. -/
def yearOfCycle (day : Int) : Int :=
  (day - day / 1460 + day / 36524 - day / 146096) / 365

/-- A day inside a century: the year, counted in groups of four, and the day of that year. -/
theorem century_bounds {century day year corrections : Int} (hcentury : 0 ≤ century ∧ century ≤ 3)
    (hday : 0 ≤ day ∧ day ≤ 36523)
    (hcorrections : 1460 * corrections ≤ day + 24 * century ∧
      day + 24 * century < 1460 * corrections + 1460)
    (hyear : 365 * year ≤ day - corrections ∧ day - corrections < 365 * year + 365) :
    0 ≤ year ∧ year ≤ 99 ∧ 0 ≤ day - 365 * year - year / 4 ∧
      day - 365 * year - year / 4 ≤ 365 ∧
      (day - 365 * year - year / 4 = 365 → year % 4 = 3 ∧ year ≠ 99) := by
  have hnonneg : 0 ≤ year := by omega
  have hless : year ≤ 99 := by omega
  -- the corrections are the leap days before the year, or one more
  have hlower : year / 4 ≤ corrections := by omega
  have hupper : corrections ≤ year / 4 + 1 := by omega
  refine ⟨hnonneg, hless, by omega, by omega, ?_⟩
  intro hlast
  constructor <;> omega

theorem yearStart_century {century year : Int} (hyear : 0 ≤ year ∧ year ≤ 99) :
    yearStart (100 * century + year) = 36524 * century + 365 * year + year / 4 := by
  unfold yearStart
  omega

/-- The year of a day of a cycle begins on or before the day and has it, and a day beyond the 365th
is the leap day of the calendar year that the year ends in. -/
theorem yearOfCycle_bounds {day : Int} (hday : 0 ≤ day ∧ day < daysPerCycle) :
    (0 ≤ yearOfCycle day ∧ yearOfCycle day ≤ 399) ∧
      (0 ≤ day - yearStart (yearOfCycle day) ∧ day - yearStart (yearOfCycle day) ≤ 365) ∧
      (day - yearStart (yearOfCycle day) = 365 → isLeapYear (yearOfCycle day + 1) = true) := by
  unfold daysPerCycle at hday
  rcases eq_or_ne day 146096 with rfl | hne
  -- the last day of the cycle is the leap day of a fourth century
  · decide
  obtain ⟨century, hcentury⟩ : ∃ century, century = day / 36524 := ⟨_, rfl⟩
  obtain ⟨year, hyear⟩ : ∃ year, year = yearOfCycle day - 100 * century := ⟨_, rfl⟩
  have hdefinition : yearOfCycle day = (day - day / 1460 + day / 36524 - day / 146096) / 365 := rfl
  obtain ⟨hnonneg, hless, hfirst, hlast, hleap⟩ :=
    @century_bounds century (day - 36524 * century) year (day / 1460 - 25 * century)
      (by omega) (by omega) (by omega) (by omega)
  -- a fifth century would begin on the last day only, which is dealt with above
  have hsplit : yearOfCycle day = 100 * century + year := by omega
  rw [hsplit, yearStart_century ⟨hnonneg, hless⟩]
  refine ⟨by omega, by omega, ?_⟩
  intro hlong
  obtain ⟨hfour, hcenturyEnd⟩ := hleap (by omega)
  simp only [isLeapYear, Bool.and_eq_true, Bool.or_eq_true, bne_iff_ne, decide_eq_true_eq]
  omega

/-- The day that a count leads to, in years and months that begin in March. -/
theorem ofDays_eq (days : Int) : ∃ cycle year month day : Int,
    (0 ≤ year ∧ year ≤ 399) ∧ (0 ≤ month ∧ month ≤ 11) ∧
      (0 ≤ day ∧ day < monthStart (month + 1) - monthStart month) ∧
      monthStart month + day ≤ 365 ∧
      (monthStart month + day = 365 → isLeapYear (year + 1) = true) ∧
      days = cycle * daysPerCycle + yearStart year + monthStart month + day - daysBeforeEpoch ∧
      ofDays days = ⟨year + cycle * 400 + if 10 ≤ month then 1 else 0,
        (if 10 ≤ month then month - 9 else month + 3).toNat, (day + 1).toNat⟩ := by
  obtain ⟨dayOfCycle, hdayOfCycle⟩ :
      ∃ dayOfCycle, dayOfCycle = (days + daysBeforeEpoch) % daysPerCycle := ⟨_, rfl⟩
  obtain ⟨dayOfYear, hdayOfYear⟩ :
      ∃ dayOfYear, dayOfYear = dayOfCycle - yearStart (yearOfCycle dayOfCycle) := ⟨_, rfl⟩
  obtain ⟨month, hmonth⟩ : ∃ month, month = (5 * dayOfYear + 2) / 153 := ⟨_, rfl⟩
  obtain ⟨hyear, hday, hleap⟩ := @yearOfCycle_bounds dayOfCycle (by
    unfold daysPerCycle at hdayOfCycle ⊢
    omega)
  rw [← hdayOfYear] at hday hleap
  refine ⟨(days + daysBeforeEpoch) / daysPerCycle, yearOfCycle dayOfCycle, month,
    dayOfYear - monthStart month, hyear, ?_, ?_, by omega, fun hlast => hleap (by omega), ?_, ?_⟩
  · omega
  · unfold monthStart
    omega
  · have hdivision := Int.mul_ediv_add_emod (days + daysBeforeEpoch) daysPerCycle
    rw [Int.mul_comm] at hdivision
    omega
  · rw [hmonth, hdayOfYear, hdayOfCycle]
    rfl

/-- The day that a count leads to has that count. -/
theorem toDays_ofDays (days : Int) : toDays (ofDays days) = days := by
  obtain ⟨cycle, year, month, day, hyear, hmonth, hday, -, -, hdays, heq⟩ := ofDays_eq days
  have hcycle : (year + cycle * 400) / 400 = cycle ∧ (year + cycle * 400) % 400 = year := by omega
  rw [heq]
  unfold toDays
  dsimp only
  by_cases hjanuary : 10 ≤ month
  · rw [if_pos hjanuary, if_pos hjanuary, if_pos (by omega), if_pos (by omega)]
    have hsame : year + cycle * 400 + 1 - 1 = year + cycle * 400 := by omega
    have hback : ((month - 9).toNat : Int) + 9 = month := by omega
    rw [hsame, hcycle.1, hcycle.2, hback]
    omega
  · rw [if_neg hjanuary, if_neg hjanuary, if_neg (by omega), if_neg (by omega)]
    have hback : ((month + 3).toNat : Int) - 3 = month := by omega
    rw [Int.add_zero, hcycle.1, hcycle.2, hback]
    omega

/-- Whether a year is a leap year does not depend on its cycle. -/
theorem isLeapYear_add_cycle (year cycle : Int) :
    isLeapYear (year + cycle * 400) = isLeapYear year := by
  unfold isLeapYear
  have hfour : (year + cycle * 400) % 4 = year % 4 := by omega
  have hcentury : (year + cycle * 400) % 100 = year % 100 := by omega
  have hcycle : (year + cycle * 400) % 400 = year % 400 := by omega
  rw [hfour, hcentury, hcycle]

/-- Every month but February has the days that lie between its beginning and the next one. -/
theorem daysInMonth_eq (year : Int) {month : Int} (hmonth : 0 ≤ month ∧ month ≤ 10) :
    (daysInMonth year (if 10 ≤ month then month - 9 else month + 3).toNat : Int) =
      monthStart (month + 1) - monthStart month := by
  obtain ⟨hfirst, hlast⟩ := hmonth
  interval_cases month <;> rfl

/-- The day that a count leads to is a day of the calendar. -/
theorem day?_ofDays (days : Int) :
    day? (ofDays days).year (ofDays days).month (ofDays days).day = some (ofDays days) := by
  obtain ⟨cycle, year, month, day, hyear, hmonth, hday, hlast, hleap, -, heq⟩ := ofDays_eq days
  have hfits : 1 ≤ (ofDays days).day ∧
      (ofDays days).day ≤ daysInMonth (ofDays days).year (ofDays days).month := by
    rw [heq]
    dsimp only
    refine ⟨by omega, ?_⟩
    rcases Int.lt_or_le 10 month with hfebruary | hother
    -- the year ends with February, which has its leap day where the year is that long
    · obtain rfl : month = 11 := by omega
      have hstart : monthStart 11 = 337 := rfl
      have hyearEnd : year + cycle * 400 + (if (10 : Int) ≤ 11 then 1 else 0) =
          year + 1 + cycle * 400 := by
        rw [if_pos (by decide)]
        omega
      rw [hyearEnd]
      change (day + 1).toNat ≤ if isLeapYear (year + 1 + cycle * 400) = true then 29 else 28
      rw [isLeapYear_add_cycle]
      split
      case isTrue => omega
      case isFalse hcommon =>
        have hshort : monthStart 11 + day ≠ 365 := fun hlong => hcommon (hleap hlong)
        omega
    · have hlength := daysInMonth_eq (year + cycle * 400 + if 10 ≤ month then 1 else 0)
        ⟨hmonth.1, hother⟩
      omega
  rw [day?, if_pos (by simpa using hfits)]

/-- Months and days of the calendar have two digits. -/
theorem le_of_day? {year : Int} {month day : Nat} {found : Day}
    (hday : day? year month day = some found) : month ≤ 12 ∧ day ≤ 31 := by
  have hfits : 1 ≤ day ∧ day ≤ daysInMonth year month := by
    by_contra hnone
    rw [day?, if_neg (by simpa using hnone)] at hday
    simp at hday
  unfold daysInMonth at hfits
  split at hfits <;> first | (split at hfits <;> omega) | omega

/-! ## Years -/

/-- The days from the first of March of the year 0 to that of another year. -/
def daysBefore (year : Int) : Int :=
  365 * year + year / 4 - year / 100 + year / 400

theorem daysBefore_cycle {year : Int} (hyear : 0 ≤ year ∧ year ≤ 399) (cycle : Int) :
    daysBefore (year + cycle * 400) = cycle * daysPerCycle + yearStart year := by
  unfold daysBefore daysPerCycle yearStart
  omega

/-- A year has at least 365 days. -/
theorem daysBefore_lt {year other : Int} (hless : year < other) :
    daysBefore year + 365 ≤ daysBefore other := by
  unfold daysBefore
  rcases eq_or_lt_of_le (show year + 1 ≤ other from hless) with rfl | hmore
  · omega
  · omega

theorem daysBefore_mono {year other : Int} (hle : year ≤ other) :
    daysBefore year ≤ daysBefore other := by
  rcases eq_or_lt_of_le hle with rfl | hless
  · exact le_rfl
  · have hlong := daysBefore_lt hless
    omega

theorem toDays_newYear (year : Int) :
    toDays ⟨year + 1, 1, 1⟩ = daysBefore year + 306 - daysBeforeEpoch := by
  have hcycle : daysBefore year = year / 400 * daysPerCycle + yearStart (year % 400) := by
    rw [← daysBefore_cycle (by omega), Int.emod_add_ediv_mul]
  rw [hcycle]
  simp [toDays, monthStart]

/-- A day lies in a year or an earlier one if it comes before the next year. -/
theorem year_ofDays_le_iff (days year : Int) :
    (ofDays days).year ≤ year ↔ days < toDays ⟨year + 1, 1, 1⟩ := by
  obtain ⟨cycle, first, month, day, hfirst, hmonth, hday, hlast, -, hdays, heq⟩ := ofDays_eq days
  rw [← daysBefore_cycle hfirst] at hdays
  rw [heq, toDays_newYear, hdays]
  unfold monthStart at *
  dsimp only
  have hmono := @daysBefore_mono (first + cycle * 400) year
  have hless := @daysBefore_lt (first + cycle * 400) year
  have hmono' := @daysBefore_mono year (first + cycle * 400)
  have hless' := @daysBefore_lt year (first + cycle * 400)
  split
  · omega
  · omega

end ItemMapper.Calendar
