import Mathlib.Tactic.Common

/-!
# The Gregorian calendar

Days are counted from the first of January 1970, before it below zero, and the calendar is
carried on without a gap in both directions. A year is taken to begin in March, so that the
day that not every year has is its last one.
-/

namespace Gregorian

/-- A date. Months are counted from zero for January, days from one. -/
structure Date where
  year : Int
  mon : Int
  mday : Int
  deriving DecidableEq, Repr

/-- The days before a year that begins in March. -/
def daysBeforeYear (year : Int) : Int := 365 * year + year / 4 - year / 100 + year / 400

/-- The days before a month of such a year. -/
def daysBeforeMonth (month : Int) : Int := (153 * month + 2) / 5

/-- The day of a date. -/
def daysFromCivil (date : Date) : Int :=
  let month := (date.mon + 10) % 12
  let year := if date.mon < 2 then date.year - 1 else date.year
  daysBeforeYear year + daysBeforeMonth month + (date.mday - 1) - 719468

/-- The year that begins in March, and the day of it. The fourth century of a cycle and the fourth
year of four are the ones that may be longer. -/
def yearOfDay (day : Int) : Int × Int :=
  let cycle := day / 146097
  let ofCycle := day % 146097
  let century := min (ofCycle / 36524) 3
  let ofCentury := ofCycle - 36524 * century
  let four := ofCentury / 1461
  let ofFour := ofCentury % 1461
  let year := min (ofFour / 365) 3
  (400 * cycle + 100 * century + 4 * four + year, ofFour - 365 * year)

/-- The date of a day. -/
def civilFromDays (days : Int) : Date :=
  let (year, day) := yearOfDay (days + 719468)
  let month := (5 * day + 2) / 153
  let mday := day - daysBeforeMonth month + 1
  if month < 10 then ⟨year, month + 2, mday⟩ else ⟨year + 1, month - 10, mday⟩

/-- The days of the cycles, the centuries, the fours and the years before a year. -/
theorem daysBeforeYear_parts {cycle century four year : Int} (hcentury : 0 ≤ century ∧ century ≤ 3)
    (hfour : 0 ≤ four ∧ four ≤ 24) (hyear : 0 ≤ year ∧ year ≤ 3) :
    daysBeforeYear (400 * cycle + 100 * century + 4 * four + year) =
      146097 * cycle + 36524 * century + 1461 * four + 365 * year := by
  have hfours : (400 * cycle + 100 * century + 4 * four + year) / 4 =
      100 * cycle + 25 * century + four := by omega
  have hcenturies : (400 * cycle + 100 * century + 4 * four + year) / 100 =
      4 * cycle + century := by omega
  have hcycles : (400 * cycle + 100 * century + 4 * four + year) / 400 = cycle := by omega
  rw [daysBeforeYear, hfours, hcenturies, hcycles]
  omega

theorem daysBeforeYear_yearOfDay (day : Int) :
    daysBeforeYear (yearOfDay day).1 + (yearOfDay day).2 = day ∧
      0 ≤ (yearOfDay day).2 ∧ (yearOfDay day).2 ≤ 365 := by
  unfold yearOfDay
  simp only
  rw [daysBeforeYear_parts (by omega) (by omega) (by omega)]
  omega

theorem month_of_day {day : Int} (hlow : 0 ≤ day) (hhigh : day ≤ 365) :
    let month := (5 * day + 2) / 153
    (0 ≤ month ∧ month ≤ 11) ∧ 0 ≤ day - daysBeforeMonth month ∧
      day - daysBeforeMonth month ≤ 30 := by
  unfold daysBeforeMonth
  simp only
  omega

theorem civilFromDays_range (days : Int) :
    (0 ≤ (civilFromDays days).mon ∧ (civilFromDays days).mon ≤ 11) ∧
      1 ≤ (civilFromDays days).mday ∧ (civilFromDays days).mday ≤ 31 := by
  obtain ⟨-, hlow, hhigh⟩ := daysBeforeYear_yearOfDay (days + 719468)
  obtain ⟨hmonth, hday⟩ := month_of_day hlow hhigh
  unfold civilFromDays
  simp only at hmonth hday ⊢
  split_ifs with hmon
  · simp only
    omega
  · simp only
    omega

/-- The date of a day is the date of that day only. -/
theorem daysFromCivil_civilFromDays (days : Int) : daysFromCivil (civilFromDays days) = days := by
  obtain ⟨hyear, hlow, hhigh⟩ := daysBeforeYear_yearOfDay (days + 719468)
  obtain ⟨hmonth, -⟩ := month_of_day hlow hhigh
  unfold civilFromDays daysFromCivil
  simp only at hmonth ⊢
  generalize (5 * (yearOfDay (days + 719468)).2 + 2) / 153 = month at hmonth ⊢
  by_cases hmon : month < 10
  · have hback : (month + 2 + 10) % 12 = month := by omega
    have hmarch : ¬ month + 2 < 2 := by omega
    simp only [if_pos hmon, hback, if_neg hmarch]
    omega
  · have hback : (month - 10 + 10) % 12 = month := by omega
    have hmarch : month - 10 < 2 := by omega
    simp only [if_neg hmon, hback, if_pos hmarch, Int.add_sub_cancel]
    omega

end Gregorian

example : Gregorian.civilFromDays 0 = ⟨1970, 0, 1⟩ := by decide

example : Gregorian.civilFromDays 19782 = ⟨2024, 1, 29⟩ := by decide
