import Drt.Core.Base.Exception
import Drt.Lib.Gregorian
import Mathlib.Algebra.Ring.Int.Defs

/-!
# Time and its calendar

`Time`, with the calendar functions of the C library as a parameter. A time is counted in
thousandths of a second, and the conversion to seconds drops what is left towards zero. The
conversion from a calendar takes any time before 1970 for a failure and returns it as it is.
-/

namespace Drt

/-- The fields of `struct tm` that `Time` uses. -/
structure Tm where
  tm_sec : Int32
  tm_min : Int32
  tm_hour : Int32
  tm_mday : Int32
  tm_mon : Int32
  tm_year : Int32
  deriving DecidableEq, Repr

/-- The fields of `struct tm` as they are filled in. -/
structure Tm.InRange (t : Tm) : Prop where
  sec : 0 ≤ t.tm_sec.toInt ∧ t.tm_sec.toInt ≤ 60
  min : 0 ≤ t.tm_min.toInt ∧ t.tm_min.toInt ≤ 59
  hour : 0 ≤ t.tm_hour.toInt ∧ t.tm_hour.toInt ≤ 23
  mday : 1 ≤ t.tm_mday.toInt ∧ t.tm_mday.toInt ≤ 31
  mon : 0 ≤ t.tm_mon.toInt ∧ t.tm_mon.toInt ≤ 11

/-- The functions of the C library that `Time` calls. -/
structure TimeLibrary where
  /-- `gmtime_r`, which may fail. -/
  gmtime_r : Int64 → Option Tm
  /-- `timegm`. -/
  timegm : Tm → Int64

/-- The two functions are inverse conversions: a time that has a calendar is the time of it. -/
structure TimeLibrary.Exact (lib : TimeLibrary) : Prop where
  timegm_gmtime_r {tt : Int64} {t : Tm} : lib.gmtime_r tt = some t → lib.timegm t = tt
  inRange {tt : Int64} {t : Tm} : lib.gmtime_r tt = some t → t.InRange

/-- The fields `timeToUtcCalendar` fills in. -/
structure Calendar where
  year : Int32
  mon : Int32
  mday : Int32
  hour : Int32
  min : Int32
  sec : Int32

namespace Time

/-- `SEC_BASE`. -/
def secBase : Int64 := 1000

/-- `INVAL_TIME`. -/
def invalTime : Int64 := Int64.minValue

def fromSeconds (seconds : Int64) : Int64 :=
  if seconds ≠ invalTime then seconds * secBase else invalTime

def toSeconds (time : Int64) : Int64 := if time ≠ invalTime then time / secBase else invalTime

def convertUtcTime (lib : TimeLibrary) (year mon day hour min sec timezone_min : Int) : Int64 :=
  let tt := lib.timegm ⟨.ofInt sec, .ofInt min, .ofInt hour, .ofInt (day + 1), .ofInt mon,
    .ofInt (year - 1900)⟩
  if tt < 0 then tt else (tt + (Int32.ofInt timezone_min * 60).toInt64) * secBase

def timeToUtcCalendar (lib : TimeLibrary) (tvalue : Int64) : Call Calendar :=
  match lib.gmtime_r (toSeconds tvalue) with
  | some t =>
    .ok ⟨t.tm_year + 1900, t.tm_mon, t.tm_mday - 1, t.tm_hour, t.tm_min, t.tm_sec⟩
  | none => .raise .exception

/-- The calendar functions of the C library, by their documentation. A month of `timegm` may lie
outside of the year. -/
def gregorian : TimeLibrary where
  gmtime_r tt :=
    let date := Gregorian.civilFromDays (tt.toInt / 86400)
    let secs := tt.toInt % 86400
    let year := date.year - 1900
    if -2 ^ 31 ≤ year ∧ year < 2 ^ 31 then
      some ⟨.ofInt (secs % 60), .ofInt (secs / 60 % 60), .ofInt (secs / 3600), .ofInt date.mday,
        .ofInt date.mon, .ofInt year⟩
    else none
  timegm t :=
    let mon := t.tm_mon.toInt
    let days := Gregorian.daysFromCivil
      ⟨t.tm_year.toInt + 1900 + mon / 12, mon % 12, t.tm_mday.toInt⟩
    .ofInt (days * 86400 + t.tm_hour.toInt * 3600 + t.tm_min.toInt * 60 + t.tm_sec.toInt)

/-- What `gmtime_r` fills in, as numbers. -/
theorem gmtime_r_gregorian {tt : Int64} {t : Tm} (h : gregorian.gmtime_r tt = some t) :
    let date := Gregorian.civilFromDays (tt.toInt / 86400)
    let secs := tt.toInt % 86400
    (t.tm_sec.toInt = secs % 60 ∧ t.tm_min.toInt = secs / 60 % 60 ∧ t.tm_hour.toInt = secs / 3600) ∧
      t.tm_mday.toInt = date.mday ∧ t.tm_mon.toInt = date.mon ∧
      t.tm_year.toInt = date.year - 1900 := by
  obtain ⟨hmon, hmday⟩ := Gregorian.civilFromDays_range (tt.toInt / 86400)
  unfold gregorian at h
  simp only [Option.ite_none_right_eq_some, Option.some.injEq] at h
  obtain ⟨hyear, rfl⟩ := h
  have hback {n : Int} (hlow : -2 ^ 31 ≤ n) (hhigh : n < 2 ^ 31) : (Int32.ofInt n).toInt = n :=
    Int32.toInt_ofInt_of_le hlow hhigh
  refine ⟨⟨hback ?_ ?_, hback ?_ ?_, hback ?_ ?_⟩, hback ?_ ?_, hback ?_ ?_, hback hyear.1 hyear.2⟩
  all_goals omega

/-- The two are inverse, so what is shown of any such functions is about some. -/
theorem exact_gregorian : gregorian.Exact where
  timegm_gmtime_r := by
    intro tt t h
    obtain ⟨⟨hsec, hmin, hhour⟩, hmday, hmon, hyear⟩ := gmtime_r_gregorian h
    obtain ⟨hrange, -⟩ := Gregorian.civilFromDays_range (tt.toInt / 86400)
    have hdate : Gregorian.daysFromCivil ⟨t.tm_year.toInt + 1900 + t.tm_mon.toInt / 12,
        t.tm_mon.toInt % 12, t.tm_mday.toInt⟩ = tt.toInt / 86400 := by
      have hyear' : t.tm_year.toInt + 1900 + t.tm_mon.toInt / 12 =
          (Gregorian.civilFromDays (tt.toInt / 86400)).year := by omega
      have hmon' : t.tm_mon.toInt % 12 = (Gregorian.civilFromDays (tt.toInt / 86400)).mon := by omega
      rw [hyear', hmon', hmday]
      exact Gregorian.daysFromCivil_civilFromDays _
    change Int64.ofInt (_ * 86400 + _ + _ + _) = tt
    have htt : Gregorian.daysFromCivil ⟨t.tm_year.toInt + 1900 + t.tm_mon.toInt / 12,
        t.tm_mon.toInt % 12, t.tm_mday.toInt⟩ * 86400 + t.tm_hour.toInt * 3600 +
          t.tm_min.toInt * 60 + t.tm_sec.toInt = tt.toInt := by
      rw [hdate, hhour, hmin, hsec]
      omega
    rw [htt, Int64.ofInt_toInt]
  inRange := by
    intro tt t h
    obtain ⟨⟨hsec, hmin, hhour⟩, hmday, hmon, -⟩ := gmtime_r_gregorian h
    obtain ⟨hrange, hrange'⟩ := Gregorian.civilFromDays_range (tt.toInt / 86400)
    constructor
    all_goals omega

section Conversions

theorem toInt_toSeconds {t : Int64} (ht : t ≠ invalTime) :
    (toSeconds t).toInt = t.toInt.tdiv 1000 := by
  rw [toSeconds, if_pos ht, Int64.toInt_div_of_ne_right _ _ (by decide)]
  rfl

theorem toInt_fromSeconds {seconds : Int64} (hlow : 0 ≤ seconds.toInt)
    (hhigh : seconds.toInt < 2 ^ 53) : (fromSeconds seconds).toInt = seconds.toInt * 1000 := by
  have hvalid : seconds ≠ invalTime := by
    rintro rfl
    exact absurd hlow (by decide)
  have hbase : secBase.toInt = 1000 := by decide
  rw [fromSeconds, if_pos hvalid, Int64.toInt_mul, hbase, Int.bmod_eq_of_le (by omega) (by omega)]

variable {lib : TimeLibrary} (hlib : lib.Exact) {t : Int64} {cal : Calendar}
  (hcal : timeToUtcCalendar lib t = .ok cal)
include hcal

theorem calendar_cases :
    ∃ tm, lib.gmtime_r (toSeconds t) = some tm ∧
      cal = ⟨tm.tm_year + 1900, tm.tm_mon, tm.tm_mday - 1, tm.tm_hour, tm.tm_min, tm.tm_sec⟩ := by
  unfold timeToUtcCalendar at hcal
  split at hcal
  · next tm htm => exact ⟨tm, htm, (Outcome.ok.inj hcal).symm⟩
  · cases hcal

include hlib

/-- The calendar of a time goes back to its seconds. -/
theorem convertUtcTime_calendar :
    convertUtcTime lib cal.year.toInt cal.mon.toInt cal.mday.toInt cal.hour.toInt cal.min.toInt
        cal.sec.toInt 0 =
      if toSeconds t < 0 then toSeconds t else toSeconds t * secBase := by
  obtain ⟨tm, htm, rfl⟩ := calendar_cases hcal
  have hyear : Int32.ofInt ((tm.tm_year + 1900).toInt - 1900) = tm.tm_year := by
    rw [Int32.ofInt_sub, Int32.ofInt_toInt]
    exact Int32.add_sub_cancel ..
  have hmday : Int32.ofInt ((tm.tm_mday - 1).toInt + 1) = tm.tm_mday := by
    rw [Int32.ofInt_add, Int32.ofInt_toInt]
    exact Int32.sub_add_cancel ..
  have hzone : (Int32.ofInt 0 * 60).toInt64 = 0 := by decide
  unfold convertUtcTime
  simp only [hyear, hmday, Int32.ofInt_toInt, hlib.timegm_gmtime_r htm, hzone, Int64.add_zero]

theorem calendar_inRange :
    (0 ≤ cal.mon.toInt ∧ cal.mon.toInt ≤ 11) ∧ (0 ≤ cal.mday.toInt ∧ cal.mday.toInt ≤ 30) ∧
      (0 ≤ cal.hour.toInt ∧ cal.hour.toInt ≤ 23) ∧ (0 ≤ cal.min.toInt ∧ cal.min.toInt ≤ 59) ∧
      0 ≤ cal.sec.toInt ∧ cal.sec.toInt ≤ 60 := by
  obtain ⟨tm, htm, rfl⟩ := calendar_cases hcal
  obtain ⟨hsec, hmin, hhour, hmday, hmon⟩ := hlib.inRange htm
  have hday : (tm.tm_mday - 1).toInt = tm.tm_mday.toInt - 1 := by
    have hone : (1 : Int32).toInt = 1 := by decide
    rw [Int32.toInt_sub, hone]
    exact Int.bmod_eq_of_le (by omega) (by omega)
  simp only [hday]
  omega

end Conversions

end Time

end Drt
