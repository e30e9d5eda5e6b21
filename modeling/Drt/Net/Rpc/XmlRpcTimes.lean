import Drt.Net.Rpc.FastRpcTimes
import Drt.Net.Rpc.XmlRpcLeaves

/-!
# Times in XML-RPC

The text of a time has fields of a fixed width, so the reader, which takes at most the digits of
a field, finds each where it was printed. The marks between the fields may lack, and the text of
the encoder has only some of them.
-/

open List

namespace Drt

open Outcome XmlRpcEncoder

namespace XmlRpcDecoder

/-- A field of so many digits, and the number in it. -/
structure IsField (width number : Nat) (text : Blob) : Prop where
  length : text.length = width
  digits : ∀ c ∈ text, isdigit c = true
  numeral : numeral 10 text = number

theorem numeral_zeros (count : Nat) (digits : Blob) :
    numeral 10 (List.replicate count 48 ++ digits) = numeral 10 digits := by
  have hzero : digitValue 48 = 0 := by decide
  induction count with
  | zero => rfl
  | succ count ih => rw [replicate_succ, cons_append, numeral_cons, hzero, ih,
    Nat.zero_mul, Nat.zero_add]

/-- A number is printed as a field that is wide enough. -/
theorem isField_padded {width : Nat} (hwidth : 0 < width) {number : Int32}
    (hpos : 0 ≤ number.toInt) (hlt : number.toInt.toNat < 10 ^ width) :
    IsField width number.toInt.toNat (padded width number) := by
  have hhigh := number.toInt_lt
  have habs : number.toInt.natAbs = number.toInt.toNat := by omega
  have hsign : ¬ number < 0 := by
    rw [Int32.lt_iff_toInt_lt]
    exact Int.not_lt.mpr hpos
  have hdigits := digits_numberText number.toInt.toNat
  obtain ⟨k, rfl⟩ : ∃ k, width = k + 1 := ⟨width - 1, by omega⟩
  have hlength : (numberText 10 number.toInt.toNat).length ≤ k + 1 :=
    (length_numberText_le_iff (by decide) (by omega)).mpr hlt
  have htext : padded (k + 1) number =
      List.replicate (k + 1 - (numberText 10 number.toInt.toNat).length) 48 ++
        numberText 10 number.toInt.toNat := by
    unfold padded
    simp only [if_neg hsign, habs]
  rw [htext]
  constructor
  · rw [length_append, length_replicate]
    omega
  · intro c hc
    obtain hc | hc := mem_append.mp hc
    · rw [eq_of_mem_replicate hc]
      decide
    · have hbounds := bounds_of_decimal (hdigits c hc)
      simp [isdigit, hbounds]
  · rw [numeral_zeros]
    exact numeral_numberText (by decide) (by decide) (by omega)

section Fields

variable {width number : Nat} {text : Blob} (h : IsField width number text) (rest : Blob)
include h

theorem timeField_field : timeField width (text ++ rest) = ((number : Int), rest) := by
  have htake : (text ++ rest).take width = text := by
    rw [← h.length]
    exact take_left
  have hall : text.takeWhile isdigit = text := by
    have happend : (text ++ []).takeWhile isdigit = text ++ [] :=
      takeWhile_append_of_pos h.digits
    rwa [append_nil] at happend
  unfold timeField
  simp only [htake, hall, h.numeral, drop_left]

variable (hwidth : 0 < width)
include hwidth

theorem field_cons : ∃ c tail, text = c :: tail ∧ isdigit c = true := by
  have hlength := h.length
  cases text with
  | nil =>
    rw [length_nil] at hlength
    omega
  | cons c tail => exact ⟨c, tail, rfl, h.digits c mem_cons_self⟩

theorem requireDigit_field : requireDigit (text ++ rest) = .ok () := by
  obtain ⟨c, tail, rfl, hc⟩ := field_cons h hwidth
  simp [requireDigit, hc]

theorem withoutMark_field {marks : Blob} (hmarks : ∀ c ∈ marks, isdigit c = false) :
    withoutMark marks (text ++ rest) = text ++ rest := by
  obtain ⟨c, tail, rfl, hc⟩ := field_cons h hwidth
  have hmark : c ∉ marks := fun hmem => by
    rw [hmarks c hmem] at hc
    cases hc
  rw [cons_append, withoutMark, if_neg hmark]

theorem field_ne_nil : text ++ rest ≠ [] := by
  obtain ⟨c, tail, rfl, -⟩ := field_cons h hwidth
  exact cons_ne_nil _ _

end Fields

/-- The hour, the minute, the second and the zone of the encoder. -/
theorem clockOf_fields {hour min sec : Nat} {hourText minText secText : Blob}
    (hhour : IsField 2 hour hourText) (hmin : IsField 2 min minText)
    (hsec : IsField 2 sec secText) :
    clockOf (hourText ++ (ascii ":" ++ (minText ++ (ascii ":" ++ (secText ++ ascii "+0000"))))) =
      .ok ((hour : Int), (min : Int), (sec : Int), 0) := by
  have hmark (text : Blob) : withoutMark (ascii ":") (ascii ":" ++ text) = text := rfl
  have hzone : withoutMark (ascii ":") (ascii "+0000") = ascii "+0000" := by decide
  have hnumber : (Int32.ofInt (strtol 10 (ascii "+0000")).1).toInt = 0 := by decide
  unfold clockOf
  rw [if_neg (field_ne_nil hhour _ Nat.two_pos), requireDigit_field hhour _ Nat.two_pos, ok_bind,
    timeField_field hhour]
  simp only [hmark]
  rw [if_neg (field_ne_nil hmin _ Nat.two_pos), requireDigit_field hmin _ Nat.two_pos, ok_bind,
    timeField_field hmin]
  simp only [hmark]
  rw [if_neg (field_ne_nil hsec _ Nat.two_pos), requireDigit_field hsec _ Nat.two_pos, ok_bind,
    timeField_field hsec]
  simp only [hzone, ok_bind, hnumber]
  rfl

/-- The text of the encoder is taken field by field. -/
theorem timeOf_fields (time : RpcTime) {year mon mday hour min sec : Nat}
    {yearText monText mdayText hourText minText secText : Blob}
    (hyear : IsField 4 year yearText) (hmon : IsField 2 mon monText)
    (hmday : IsField 2 mday mdayText)
    (hhour : IsField 2 hour hourText) (hmin : IsField 2 min minText)
    (hsec : IsField 2 sec secText) :
    timeOf time (yearText ++ (monText ++ (mdayText ++ (ascii "T" ++ (hourText ++ (ascii ":" ++
        (minText ++ (ascii ":" ++ (secText ++ ascii "+0000"))))))))) =
      .ok (time.convertUtcTime (year : Int) ((mon : Int) - 1) ((mday : Int) - 1) (hour : Int)
        (min : Int)
        (sec : Int) 0) := by
  have hdash : ∀ c ∈ ascii "-", isdigit c = false := by decide
  have hmark (text : Blob) : withoutMark (ascii "Tt ") (ascii "T" ++ text) = text := rfl
  have hfour : 0 < 4 := by decide
  unfold timeOf
  rw [requireDigit_field hyear _ hfour, ok_bind, timeField_field hyear]
  simp only [withoutMark_field hmon _ Nat.two_pos hdash]
  rw [requireDigit_field hmon _ Nat.two_pos, ok_bind, timeField_field hmon]
  simp only [withoutMark_field hmday _ Nat.two_pos hdash]
  rw [requireDigit_field hmday _ Nat.two_pos, ok_bind, timeField_field hmday]
  simp only [hmark, clockOf_fields hhour hmin hsec, ok_bind]
  rfl

end XmlRpcDecoder

section Times

open XmlRpcDecoder

variable {lib : TimeLibrary} (hlib : lib.Exact)

include hlib in
/-- The text of the calendar of a time gives the seconds of the time. -/
theorem timeOf_timeText {t : Int64} {cal : Calendar} (hcal : Time.timeToUtcCalendar lib t = .ok cal)
    (hyear : 0 ≤ cal.year.toInt ∧ cal.year.toInt ≤ 9999) :
    timeOf (rpcTime lib) (timeText cal) =
      .ok (if Time.toSeconds t < 0 then Time.toSeconds t else Time.toSeconds t * Time.secBase) := by
  obtain ⟨hmon, hmday, hhour, hmin, hsec⟩ := Time.calendar_inRange hlib hcal
  have hmon' := toInt_add_one hmon.1 (by omega)
  have hmday' := toInt_add_one hmday.1 (by omega)
  have htwo {number : Int32} (hpos : 0 ≤ number.toInt) (hlt : number.toInt < 100) :
      IsField 2 number.toInt.toNat (padded 2 number) :=
    isField_padded Nat.two_pos hpos (by omega)
  have hfour : IsField 4 cal.year.toInt.toNat (padded 4 cal.year) :=
    isField_padded (by decide) hyear.1 (by omega)
  have hmonth : IsField 2 (cal.mon + 1).toInt.toNat (padded 2 (cal.mon + 1)) :=
    htwo (by omega) (by omega)
  have hday : IsField 2 (cal.mday + 1).toInt.toNat (padded 2 (cal.mday + 1)) :=
    htwo (by omega) (by omega)
  have hread := timeOf_fields (rpcTime lib) hfour hmonth hday (htwo hhour.1 (by omega))
    (htwo hmin.1 (by omega)) (htwo hsec.1 (by omega))
  have hback {n : Int} (h : 0 ≤ n) : ((n.toNat : Nat) : Int) = n := Int.toNat_of_nonneg h
  rw [hback hyear.1, hback (by omega), hback (by omega), hback hhour.1, hback hmin.1, hback hsec.1,
    hmon', hmday', Int.add_sub_cancel, Int.add_sub_cancel] at hread
  have htext : timeText cal = padded 4 cal.year ++ (padded 2 (cal.mon + 1) ++
      (padded 2 (cal.mday + 1) ++ (ascii "T" ++ (padded 2 cal.hour ++ (ascii ":" ++
        (padded 2 cal.min ++ (ascii ":" ++ (padded 2 cal.sec ++ ascii "+0000")))))))) := by
    simp only [timeText, append_assoc]
  rw [htext, hread]
  exact congrArg ok (Time.convertUtcTime_calendar hlib hcal)

include hlib in
/-- Every time from 1970 to 9999 in whole seconds is read back wherever it is written. -/
theorem readsBack_time (sprintf : UInt64 → Blob) {t : Int64} (hpos : 0 ≤ t)
    (hsecond : (1000 : Int) ∣ t.toInt) {cal : Calendar}
    (hcal : Time.timeToUtcCalendar lib t = .ok cal)
    (hyear : 1970 ≤ cal.year.toInt ∧ cal.year.toInt ≤ 9999) (strtod : Blob → UInt64) :
    ReadsBack (writeTime (rpcFormat lib sprintf) · t) (readTime ⟨rpcTime lib, strtod⟩) t := by
  intro e ahead hahead
  have hformat : (rpcFormat lib sprintf).timeToUtcCalendar t = cal := by simp only [rpcFormat, hcal]
  have hvalue : (if Time.toSeconds t < 0 then Time.toSeconds t
      else Time.toSeconds t * Time.secBase) = t := by
    have ht : 0 ≤ t.toInt := Int64.le_iff_toInt_le.mp hpos
    have hhigh := t.toInt_lt
    have hvalid : t ≠ Time.invalTime := by
      rintro rfl
      exact absurd hpos (by decide)
    have hseconds := Time.toInt_toSeconds hvalid
    rw [Int.tdiv_eq_ediv_of_nonneg ht] at hseconds
    have hsign : ¬ Time.toSeconds t < 0 := by
      rw [Int64.lt_iff_toInt_lt, hseconds]
      change ¬ t.toInt / 1000 < 0
      omega
    have hbase : Time.secBase.toInt = 1000 := by decide
    rw [if_neg hsign]
    apply Int64.toInt_inj.mp
    rw [Int64.toInt_mul, hseconds, hbase, Int.bmod_eq_of_le (by omega) (by omega)]
    omega
  have htext : ∀ c ∈ timeText cal, c ≠ 60 := fun c hc => ne_of_isPlain (isPlain_of_timeText hc)
  have hname : IsName "dateTime.iso8601" := by decide
  obtain ⟨tail, htail⟩ := readLeaf_written hname List.mem_cons_self "rpc::bool::code" e
    "<value><dateTime.iso8601>" "</dateTime.iso8601></value>" (by decide) (by decide) htext hahead
  rw [readTime]
  simp only [writeTime, hformat]
  rw [htail, ok_bind]
  simp only [take_left]
  rw [timeOf_timeText hlib hcal (by omega), ok_bind, hvalue]

end Times

/-- The last second of February of a leap year. -/
theorem readsBack_time_2024 :
    ReadsBack (writeTime (rpcFormat Time.gregorian fun _ => []) · 1709251199000)
      (XmlRpcDecoder.readTime ⟨rpcTime Time.gregorian, fun _ => 0⟩) 1709251199000 :=
  have hcal : Time.timeToUtcCalendar Time.gregorian 1709251199000 = .ok ⟨2024, 1, 28, 23, 59, 59⟩ :=
    rfl
  readsBack_time Time.exact_gregorian (fun _ => []) (by decide) (by decide) hcal (by decide)
    fun _ => 0

end Drt
