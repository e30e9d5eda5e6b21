import Drt.Core.Types.FormatReading

/-!
# What integers are formatted as

Long runs of zeros and blanks are appended to the string, short ones go into the buffer, and the
sign is written by whoever comes first. The text of a field is put together here from its parts,
as the code does it, and compared with the text that ISO C specifies.
-/

open List Outcome

namespace Drt

namespace StringData

variable {ω : Type}

/-! ## Digits -/

variable {base number room zeros : Nat} {digits o_buf : Blob}

/-- The loop over the digits writes the number. -/
theorem formatDigits_eq {chars : Nat → UInt8} (hbase : 1 < base) (hroom : 0 < room)
    (h : number < base ^ room) (o_buf : Blob) :
    formatDigits chars base room number o_buf =
      .ok (Printf.numeral chars base number ++ o_buf) := by
  induction room generalizing number o_buf with
  | zero => exact absurd hroom (Nat.lt_irrefl 0)
  | succ room ih =>
    rw [formatDigits]
    by_cases hlast : number / base = 0
    · have hlt : number < base := (Nat.div_eq_zero_iff_lt (by omega)).mp hlast
      rw [if_pos hlast, Nat.mod_eq_of_lt hlt, Printf.numeral_of_lt hlt]
      rfl
    · have hle : base ≤ number := by
        by_contra hlt
        exact hlast (Nat.div_eq_of_lt (Nat.lt_of_not_le hlt))
      have hrest : number / base < base ^ room := by
        rw [Nat.div_lt_iff_lt_mul (by omega), ← Nat.pow_succ]
        exact h
      have hroom' : 0 < room := by
        rcases Nat.eq_zero_or_pos room with rfl | hpos
        · rw [Nat.pow_zero, Nat.lt_one_iff] at hrest
          exact absurd hrest hlast
        · exact hpos
      rw [if_neg hlast, ih hroom' hrest, Printf.numeral_of_le hbase hle, append_assoc]
      rfl

theorem formatDigits_word {chars : Nat → UInt8} (hbase : 1 < base) (h : number < 2 ^ 64)
    (hroom : 64 ≤ room) :
    formatDigits chars base room number [] = .ok (Printf.numeral chars base number) := by
  have hlt : number < base ^ room :=
    Nat.lt_of_lt_of_le h (Nat.le_trans (Nat.pow_le_pow_left hbase 64)
      (Nat.pow_le_pow_right (Nat.zero_lt_of_lt hbase) hroom))
  rw [formatDigits_eq hbase (by omega) hlt, append_nil]

/-! ## Fields -/

@[simp] theorem appendAscii_appendAscii (data : StringData) (a b : Blob) :
    (data.appendAscii a).appendAscii b = data.appendAscii (a ++ b) := by
  obtain ⟨views, hash⟩ := data
  cases views <;> simp [appendAscii, StringViews.appendAscii]

theorem fill_eq {c : UInt8} {n : Int} (h : o_buf.length + n.toNat ≤ 1024) :
    fill c n o_buf = .ok (List.replicate n.toNat c ++ o_buf) :=
  if_pos h

theorem push_eq {c : UInt8} (h : o_buf.length < 1024) : push c o_buf = .ok (c :: o_buf) :=
  if_pos h

/-- Zeros of a precision: up to 15 go into the buffer. -/
theorem fillPrec_eq (hdigits : digits.length ≤ 64) {prec : Int}
    (hzeros : zeros = (prec - digits.length).toNat) :
    fillPrec prec digits =
      if 16 ≤ zeros then .ok ((zeros : Int), digits)
      else .ok (0, List.replicate zeros 48 ++ digits) := by
  unfold fillPrec
  by_cases hpos : prec - digits.length > 0
  · by_cases hshort : prec - digits.length < 16
    · simp only [if_pos hpos, if_pos hshort]
      rw [fill_eq (by omega), ok_bind, ← hzeros, if_neg (by omega)]
    · simp only [if_pos hpos, if_neg hshort]
      rw [if_pos (by omega)]
      congr 2
      omega
  · obtain rfl : zeros = 0 := by omega
    simp only [if_neg hpos]
    rfl

/-- The text of a signed field. A sign with many zeros loses these; a sign before many zeros of the
width is written once more behind them. -/
def longText (output : Output) (width : Int) (zeros : Nat) (o_sign : Option UInt8) (digits : Blob) :
    Blob :=
  let sign := o_sign.toList
  let room := width - (zeros + digits.length + sign.length)
  let body := if 16 ≤ zeros ∧ sign ≠ [] then digits else List.replicate zeros 48 ++ digits
  if room ≤ 0 then sign ++ body
  else if output.minus then sign ++ (body ++ List.replicate room.toNat 32)
  else if output.zero then
    sign ++ (List.replicate room.toNat 48 ++ ((if 16 ≤ zeros ∨ 16 < room then sign else []) ++ body))
  else List.replicate room.toNat 32 ++ (sign ++ body)

section Long

variable (output : Output) (room : Int) (o_sign : Option UInt8) (data : StringData)

/-- Zeros that are left: they are written where no sign is. -/
theorem padLong_late {prec : Int} (hprec : 0 < prec) (digits : Blob) :
    padLong output prec ⟨room, o_sign, digits, data⟩ >>= finishLong prec =
      let sign := o_sign.toList
      let body := if sign ≠ [] then digits else List.replicate prec.toNat 48 ++ digits
      .ok (data.appendAscii
        (if room ≤ 0 then sign ++ body
        else if output.minus then sign ++ (body ++ List.replicate room.toNat 32)
        else if output.zero then sign ++ (List.replicate room.toNat 48 ++ (sign ++ body))
        else List.replicate room.toNat 32 ++ (sign ++ body))) := by
  by_cases hpos : 0 < room
  · have hnot : ¬ room ≤ 0 := Int.not_le.mpr hpos
    by_cases hminus : output.minus = true
    · cases o_sign <;> simp [padLong, finishLong, appendAsciiChars, hpos, hprec, hminus, hnot]
    · by_cases hzero : output.zero = true
      · cases o_sign <;>
          simp [-replicate_append_replicate, padLong, finishLong, appendAsciiChars, hpos, hprec,
            hminus, hzero, hnot]
      · cases o_sign <;>
          simp [padLong, finishLong, appendAsciiChars, hpos, hprec, hminus, hzero, hnot]
  · have hle : room ≤ 0 := Int.not_lt.mp hpos
    cases o_sign <;> simp [padLong, finishLong, appendAsciiChars, hpos, hprec, hle]

/-- No zeros are left: a sign goes into the buffer at last. -/
theorem padLong_short {o_buf : Blob} (hlength : o_buf.length ≤ 80) :
    padLong output 0 ⟨room, o_sign, o_buf, data⟩ >>= finishLong 0 =
      let sign := o_sign.toList
      .ok (data.appendAscii
        (if room ≤ 0 then sign ++ o_buf
        else if output.minus then sign ++ (o_buf ++ List.replicate room.toNat 32)
        else if output.zero then
          sign ++ (List.replicate room.toNat 48 ++ ((if 16 < room then sign else []) ++ o_buf))
        else List.replicate room.toNat 32 ++ (sign ++ o_buf))) := by
  have hpush (c : UInt8) : push c o_buf = .ok (c :: o_buf) := push_eq (by omega)
  by_cases hpos : 0 < room
  · have hnot : ¬ room ≤ 0 := Int.not_le.mpr hpos
    by_cases hminus : output.minus = true
    · cases o_sign <;> simp [padLong, finishLong, appendAsciiChars, hpos, hminus, hnot, hpush]
    · by_cases hlong : 16 < room
      · by_cases hzero : output.zero = true
        · cases o_sign <;>
            simp [padLong, finishLong, appendAsciiChars, hpos, hminus, hzero, hnot, hlong, hpush]
        · cases o_sign <;>
            simp [padLong, finishLong, appendAsciiChars, hpos, hminus, hzero, hnot, hlong, hpush]
      · have hfill (c : UInt8) (o_buf : Blob) (hlength : o_buf.length ≤ 81) :
            fill c room o_buf = .ok (List.replicate room.toNat c ++ o_buf) :=
          fill_eq (by omega)
        have hpush' (c c' : UInt8) : push c (List.replicate room.toNat c' ++ o_buf) =
            .ok (c :: (List.replicate room.toNat c' ++ o_buf)) :=
          push_eq (by rw [length_append, length_replicate]; omega)
        by_cases hzero : output.zero = true
        · cases o_sign <;>
            simp [padLong, finishLong, hpos, hminus, hzero, hnot, hlong,
              hfill 48 o_buf (by omega), hpush']
        · cases o_sign with
          | none =>
            simp [padLong, finishLong, pushSign, hpos, hminus, hzero, hnot, hlong,
              hfill 32 o_buf (by omega)]
          | some c =>
            simp [padLong, finishLong, pushSign, hpos, hminus, hzero, hnot, hlong, hpush,
              hfill 32 (c :: o_buf) (Nat.succ_le_succ hlength)]
  · have hle : room ≤ 0 := Int.not_lt.mp hpos
    cases o_sign <;> simp [padLong, finishLong, hpos, hle, hpush]

end Long

theorem formatLongCommon_eq {d : Directive} {o_sign : Option UInt8} (hdigits : digits.length ≤ 64)
    (hzeros : zeros = (d.prec - digits.length).toNat) (data : StringData) :
    formatLongCommon d o_sign digits data =
      .ok (data.appendAscii (longText d.output d.width zeros o_sign digits)) := by
  unfold formatLongCommon longText
  rw [fillPrec_eq hdigits hzeros]
  by_cases hmany : 16 ≤ zeros
  · have hroom : d.width - ((digits.length : Int) + zeros + o_sign.toList.length) =
        d.width - (zeros + digits.length + o_sign.toList.length) := by omega
    rw [if_pos hmany, ok_bind]
    simp only [hroom]
    rw [padLong_late d.output _ o_sign data (by omega : (0 : Int) < zeros) digits]
    simp [hmany]
  · have hlength : (List.replicate zeros 48 ++ digits).length = zeros + digits.length := by
      rw [length_append, length_replicate]
    have hroom : d.width - (((List.replicate zeros 48 ++ digits).length : Int) + 0 +
        o_sign.toList.length) = d.width - (zeros + digits.length + o_sign.toList.length) := by
      omega
    rw [if_neg hmany, ok_bind]
    simp only [hroom]
    rw [padLong_short d.output _ o_sign data (by omega)]
    simp [hmany]

/-- What the `#` flag puts before the digits. -/
def prefixText (big : Bool) (o_signlen : Nat) : Blob :=
  (if big then [48, 88] else [48, 120]).take o_signlen

/-- The text of an unsigned field. A prefix of `%x` with many zeros loses these and is written in
lower case, unless there are zeros of the width. -/
def ulongText (output : Output) (width : Int) (zeros o_signlen : Nat) (digits : Blob) : Blob :=
  let room := width - (zeros + digits.length + o_signlen)
  let lost := 16 ≤ zeros ∧ o_signlen ≠ 0
  let front := prefixText (output.big ∧ ¬ lost) o_signlen
  let body := if lost then digits else List.replicate zeros 48 ++ digits
  if room ≤ 0 then front ++ body
  else if output.minus then front ++ (body ++ List.replicate room.toNat 32)
  else if output.zero then
    prefixText output.big o_signlen ++
      (List.replicate room.toNat 48 ++ (List.replicate zeros 48 ++ digits))
  else List.replicate room.toNat 32 ++ (front ++ body)

section Ulong

variable (output : Output) (room : Int) {o_signlen : Nat} (data : StringData) {type : UInt8}

/-- Zeros that are left: they are written where no prefix is. -/
theorem padUlong_late {prec : Int} (hprec : 0 < prec) (digits : Blob) :
    padUlong output type prec ⟨room, o_signlen, digits, data⟩ >>= finishUlong type prec =
      let front := prefixText false o_signlen
      let body := if o_signlen ≠ 0 then digits else List.replicate prec.toNat 48 ++ digits
      .ok (data.appendAscii
        (if room ≤ 0 then front ++ body
        else if output.minus then front ++ (body ++ List.replicate room.toNat 32)
        else if output.zero then
          prefixText output.big o_signlen ++
            (List.replicate room.toNat 48 ++ (List.replicate prec.toNat 48 ++ digits))
        else List.replicate room.toNat 32 ++ (front ++ body))) := by
  by_cases hpos : 0 < room
  · have hnot : ¬ room ≤ 0 := Int.not_le.mpr hpos
    by_cases hminus : output.minus = true
    · by_cases hlead : o_signlen = 0 <;>
        simp [padUlong, finishUlong, appendAsciiChars, prefixText, hpos, hprec, hminus, hnot, hlead]
    · by_cases hzero : output.zero = true
      · by_cases hlead : o_signlen = 0 <;>
          simp [-replicate_append_replicate, padUlong, finishUlong, appendAsciiChars, prefixText,
            hpos, hprec, hminus, hzero, hnot, hlead]
      · by_cases hlead : o_signlen = 0 <;>
          simp [padUlong, finishUlong, appendAsciiChars, prefixText, hpos, hprec, hminus, hzero, hnot,
            hlead]
  · have hle : room ≤ 0 := Int.not_lt.mp hpos
    by_cases hlead : o_signlen = 0 <;>
      simp [padUlong, finishUlong, appendAsciiChars, prefixText, hpos, hprec, hle, hlead]

/-- A prefix in the buffer. -/
theorem pushPrefix_eq (hlead : o_signlen = 1 ∨ o_signlen = 2)
    (htype : o_signlen = 2 → type = if output.big then 88 else 120) {o_buf : Blob}
    (hlength : o_buf.length ≤ 100) :
    pushPrefix type o_signlen o_buf = .ok (prefixText output.big o_signlen ++ o_buf) := by
  obtain rfl | rfl := hlead
  · have hone : pushPrefix type 1 o_buf = push 48 o_buf := rfl
    rw [hone, push_eq (by omega), prefixText]
    cases output.big <;> rfl
  · have htwo : pushPrefix type 2 o_buf = push type o_buf >>= push 48 := rfl
    rw [htwo, push_eq (by omega), ok_bind, push_eq (by rw [length_cons]; omega),
      htype rfl, prefixText]
    cases output.big <;> rfl

/-- No zeros are left: a prefix goes into the buffer at last. -/
theorem padUlong_short (hlead : o_signlen ≤ 2)
    (htype : o_signlen = 2 → type = if output.big then 88 else 120) {o_buf : Blob}
    (hlength : o_buf.length ≤ 80) :
    padUlong output type 0 ⟨room, o_signlen, o_buf, data⟩ >>= finishUlong type 0 =
      let front := prefixText output.big o_signlen
      .ok (data.appendAscii
        (if room ≤ 0 then front ++ o_buf
        else if output.minus then front ++ (o_buf ++ List.replicate room.toNat 32)
        else if output.zero then front ++ (List.replicate room.toNat 48 ++ o_buf)
        else List.replicate room.toNat 32 ++ (front ++ o_buf))) := by
  have hpush (o_buf : Blob) (hlength : o_buf.length ≤ 100) (hlead' : ¬ o_signlen = 0) :
      pushPrefix type o_signlen o_buf = .ok (prefixText output.big o_signlen ++ o_buf) :=
    pushPrefix_eq output (by omega) htype hlength
  have hempty : prefixText output.big 0 = [] := rfl
  by_cases hpos : 0 < room
  · have hnot : ¬ room ≤ 0 := Int.not_le.mpr hpos
    by_cases hminus : output.minus = true
    · by_cases hnone : o_signlen = 0
      · simp [padUlong, finishUlong, appendAsciiChars, hpos, hminus, hnot, hnone, hempty]
      · simp [padUlong, finishUlong, appendAsciiChars, hpos, hminus, hnot, hnone,
          hpush o_buf (by omega) hnone]
    · by_cases hlong : 16 < room
      · by_cases hzero : output.zero = true
        · by_cases hnone : o_signlen = 0
          · simp [padUlong, finishUlong, appendAsciiChars, hpos, hminus, hzero, hnot, hlong, hnone,
              hempty]
          · simp [padUlong, finishUlong, appendAsciiChars, hpos, hminus, hzero, hnot, hlong, hnone,
              prefixText]
        · by_cases hnone : o_signlen = 0
          · simp [padUlong, finishUlong, appendAsciiChars, hpos, hminus, hzero, hnot, hlong, hnone,
              hempty]
          · simp [padUlong, finishUlong, appendAsciiChars, hpos, hminus, hzero, hnot, hlong, hnone,
              hpush o_buf (by omega) hnone]
      · have hfill (c : UInt8) (o_buf : Blob) (hlength : o_buf.length ≤ 82) :
            fill c room o_buf = .ok (List.replicate room.toNat c ++ o_buf) :=
          fill_eq (by omega)
        have hbuffer (c : UInt8) : (List.replicate room.toNat c ++ o_buf).length ≤ 100 := by
          rw [length_append, length_replicate]
          omega
        have hfront : (prefixText output.big o_signlen ++ o_buf).length ≤ 82 := by
          rw [length_append, prefixText, length_take]
          omega
        by_cases hzero : output.zero = true
        · by_cases hnone : o_signlen = 0
          · simp [padUlong, finishUlong, hpos, hminus, hzero, hnot, hlong, hnone, hempty,
              hfill 48 o_buf (by omega)]
          · simp [padUlong, finishUlong, hpos, hminus, hzero, hnot, hlong, hnone,
              hfill 48 o_buf (by omega), hpush _ (hbuffer 48) hnone]
        · by_cases hnone : o_signlen = 0
          · simp [padUlong, finishUlong, hpos, hminus, hzero, hnot, hlong, hnone, hempty,
              hfill 32 o_buf (by omega)]
          · simp [padUlong, finishUlong, hpos, hminus, hzero, hnot, hlong, hnone,
              hpush o_buf (by omega) hnone, hfill 32 _ hfront]
  · have hle : room ≤ 0 := Int.not_lt.mp hpos
    by_cases hnone : o_signlen = 0
    · simp [padUlong, finishUlong, hpos, hle, hnone, hempty]
    · simp [padUlong, finishUlong, hpos, hle, hnone, hpush o_buf (by omega) hnone]

end Ulong

theorem formatUlongCommon_eq {d : Directive} {o_signlen : Nat} (hlead : o_signlen ≤ 2)
    (htype : o_signlen = 2 → d.type = if d.output.big then 88 else 120)
    (hdigits : digits.length ≤ 64) (hzeros : zeros = (d.prec - digits.length).toNat)
    (data : StringData) :
    formatUlongCommon d o_signlen digits data =
      .ok (data.appendAscii (ulongText d.output d.width zeros
        (if 0 < zeros ∧ o_signlen = 1 then 0 else o_signlen) digits)) := by
  have hpos : d.prec - digits.length > 0 ↔ 0 < zeros := by omega
  unfold formatUlongCommon ulongText
  simp only [hpos]
  rw [fillPrec_eq hdigits hzeros]
  generalize hlead' : (if 0 < zeros ∧ o_signlen = 1 then 0 else o_signlen) = lead
  have hle : lead ≤ 2 ∧ (lead = 2 → d.type = if d.output.big then 88 else 120) := by
    rw [← hlead']
    by_cases hcleared : 0 < zeros ∧ o_signlen = 1
    · rw [if_pos hcleared]
      exact ⟨by omega, fun h => absurd h (by omega)⟩
    · rw [if_neg hcleared]
      exact ⟨hlead, htype⟩
  by_cases hmany : 16 ≤ zeros
  · have hroom : d.width - ((digits.length : Int) + zeros + lead) =
        d.width - (zeros + digits.length + lead) := by omega
    rw [if_pos hmany, ok_bind]
    simp only [hroom]
    rw [padUlong_late d.output _ data (by omega : (0 : Int) < zeros) digits]
    by_cases hnone : lead = 0
    · simp [hnone, prefixText]
    · simp [hmany, hnone]
  · have hlength : (List.replicate zeros 48 ++ digits).length = zeros + digits.length := by
      rw [length_append, length_replicate]
    have hroom : d.width - (((List.replicate zeros 48 ++ digits).length : Int) + 0 + lead) =
        d.width - (zeros + digits.length + lead) := by
      omega
    rw [if_neg hmany, ok_bind]
    simp only [hroom]
    rw [padUlong_short d.output _ data hle.1 hle.2 (by omega)]
    simp [hmany]

/-! ## Conversions -/

/-- The sign that the code writes. -/
def signOf (s : Printf.Conversion) (value : UInt64) : Option UInt8 :=
  if s.negative value then some 45 else if .plus ∈ s.flags then some 43 else none

/-- The zeros of the precision. -/
def zerosOf (s : Printf.Conversion) (value : UInt64) : Nat :=
  (precOf s.precision - (s.digits value).length).toNat

/-- The length of the prefix that the code writes. -/
def leadOf (s : Printf.Conversion) (value : UInt64) : Nat :=
  if .alt ∉ s.flags then 0
  else if s.specifier = .o then if s.magnitude value ≠ 0 ∧ zerosOf s value = 0 then 1 else 0
  else 2

/-- What the code makes of a conversion. -/
def formatted (s : Printf.Conversion) (value : UInt64) : Blob :=
  if s.specifier.isSigned then
    longText (directiveOf s).output (widthOf s.width) (zerosOf s value) (signOf s value)
      (s.digits value)
  else
    ulongText (directiveOf s).output (widthOf s.width) (zerosOf s value) (leadOf s value)
      (s.digits value)

section Conversions

variable (s : Printf.Conversion) (value : UInt64) (more : List (Argument ω)) (data : StringData)

theorem longArgument_eq (hhh : s.length ≠ .hh) :
    ∃ number : Int64, longArgument (lengthOf s.length) (valueArgument s.length value :: more) =
      .ok (number, more) ∧ number.toInt = s.length.signed value := by
  cases hlength : s.length with
  | none | h => exact ⟨_, rfl, by simp [Printf.Length.signed]⟩
  | hh => exact absurd hlength hhh
  | _ => exact ⟨_, rfl, rfl⟩

theorem ulongArgument_eq (hhh : s.length ≠ .hh) :
    ∃ number : UInt64, ulongArgument (lengthOf s.length) (valueArgument s.length value :: more) =
      .ok (number, more) ∧ number.toNat = s.length.unsigned value := by
  cases hlength : s.length with
  | none | h => exact ⟨_, rfl, by simp [Printf.Length.unsigned]⟩
  | hh => exact absurd hlength hhh
  | _ => exact ⟨_, rfl, rfl⟩

theorem zerosOf_eq : zerosOf s value = ((directiveOf s).prec - (s.digits value).length).toNat := rfl

/-- Not the least number, which has no negation. -/
def Negatable (s : Printf.Conversion) (value : UInt64) : Prop :=
  s.specifier.isSigned = true → s.length.signed value ≠ -2 ^ 63

theorem outInt_eq (hhh : s.length ≠ .hh) (hsigned : s.specifier.isSigned = true)
    (hmin : Negatable s value) :
    outInt (directiveOf s) (valueArgument s.length value :: more) data =
      .ok (data.appendAscii (formatted s value), more) := by
  obtain ⟨number, hread, hnumber⟩ := longArgument_eq s value more hhh
  have hneg : number < 0 ↔ s.negative value = true := by
    rw [Int64.lt_iff_toInt_lt, hnumber, Printf.Conversion.negative, decide_eq_true_eq,
      and_iff_right hsigned]
    rfl
  have hmagnitude : magnitude number.toBitVec = .ok (s.magnitude value) := by
    have hne : number.toBitVec ≠ BitVec.intMin 64 := by
      intro heq
      have hleast : number.toInt = -2 ^ 63 := congrArg BitVec.toInt heq
      exact hmin hsigned (hnumber.symm.trans hleast)
    rw [magnitude_eq hne, Printf.Conversion.magnitude, if_pos hsigned, ← hnumber]
    rfl
  have hbase : s.specifier.base = 10 ∧ s.specifier ≠ .X := by
    cases hspecifier : s.specifier <;> simp_all [Printf.Specifier.isSigned, Printf.Specifier.base]
  have hlt : s.magnitude value < 2 ^ 64 := by
    have hlow : -2 ^ 63 ≤ number.toInt := number.le_toInt
    have hhigh : number.toInt < 2 ^ 63 := number.toInt_lt
    rw [Printf.Conversion.magnitude, if_pos hsigned, ← hnumber]
    omega
  have hdigits : formatDigits (fun digit => UInt8.ofNat (digit + 48)) 10 1024
      (s.magnitude value) [] = .ok (s.digits value) := by
    rw [formatDigits_word (by omega) hlt (by decide), Printf.Conversion.digits, hbase.1]
    refine congrArg _ (Printf.numeral_congr (by omega) (fun d hd => ?_) _)
    rw [Printf.Specifier.digit, if_pos hd, Nat.add_comm]
  have hplus : (directiveOf s).output.plus = decide (.plus ∈ s.flags) := rfl
  have hlength : (s.digits value).length ≤ 64 :=
    Printf.length_numeral_le (by rw [hbase.1]; omega) hlt
  have hsign : (if number < 0 then some 45
      else if (directiveOf s).output.plus then some 43 else none) = signOf s value := by
    simp only [signOf, hneg, hplus, decide_eq_true_eq]
  unfold outInt
  rw [show (directiveOf s).flength = lengthOf s.length from rfl, hread, ok_bind]
  simp only [hmagnitude, hdigits, hsign, ok_bind]
  rw [formatLongCommon_eq hlength (zerosOf_eq s value), ok_bind, formatted, if_pos hsigned]
  rfl

theorem outInt_least (hhh : s.length ≠ .hh) (hleast : s.length.signed value = -2 ^ 63) :
    outInt (directiveOf s) (valueArgument s.length value :: more) data = .fault := by
  obtain ⟨number, hread, hnumber⟩ := longArgument_eq s value more hhh
  have heq : number.toBitVec = BitVec.intMin 64 := BitVec.toInt_inj.mp (hnumber.trans hleast)
  unfold outInt
  rw [show (directiveOf s).flength = lengthOf s.length from rfl, hread, ok_bind]
  simp only [heq, magnitude_intMin (Nat.zero_lt_succ 63)]
  rfl

/-- The base, and what the `#` flag puts before the digits: a zero is left out where the precision has
one. -/
theorem ulongBase_eq (hsigned : s.specifier.isSigned = false) {number : UInt64}
    (hzero : number ≠ 0 ↔ s.magnitude value ≠ 0) :
    ∃ lead, ulongBase (directiveOf s) number = (s.specifier.base, lead) ∧ lead ≤ 2 ∧
      (lead = 2 → (directiveOf s).type = if (directiveOf s).output.big then 88 else 120) ∧
      (if 0 < zerosOf s value ∧ lead = 1 then 0 else lead) = leadOf s value := by
  have hbig : (directiveOf s).output.big = decide (s.specifier = .X) := rfl
  have halt : (directiveOf s).output.alt = decide (.alt ∈ s.flags) := rfl
  have hnone : .alt ∈ s.flags → s.specifier.hasAlternative = true := s.alternative
  rw [hbig]
  unfold ulongBase leadOf
  rw [halt, show (directiveOf s).type = s.specifier.char from rfl]
  cases hspecifier : s.specifier with
  | d | i => simp [hspecifier, Printf.Specifier.isSigned] at hsigned
  | u =>
    have hno : .alt ∉ s.flags := fun h => by
      simpa [hspecifier, Printf.Specifier.hasAlternative] using hnone h
    exact ⟨0, rfl, by omega, by omega, by simp [hno]⟩
  | o =>
    refine ⟨if .alt ∈ s.flags ∧ number ≠ 0 then 1 else 0, ?_, ?_, ?_, ?_⟩
    · simp [Printf.Specifier.char, Printf.Specifier.base]
    · split_ifs <;> omega
    · exact fun h => absurd h (by split_ifs <;> decide)
    · by_cases hmagnitude : s.magnitude value = 0
      · have hnumber : number = 0 := not_not.mp fun h => hzero.mp h hmagnitude
        simp [hmagnitude, hnumber]
      · have hnumber : number ≠ 0 := hzero.mpr hmagnitude
        by_cases hzeros : zerosOf s value = 0
        · simp [hmagnitude, hnumber, hzeros]
        · simp [hzeros, Nat.pos_of_ne_zero hzeros]
  | x | X =>
    refine ⟨if .alt ∈ s.flags then 2 else 0, ?_, ?_, fun _ => rfl, ?_⟩
    · simp [Printf.Specifier.char, Printf.Specifier.base]
    · split_ifs <;> omega
    · by_cases halt : .alt ∈ s.flags <;> simp [halt]

theorem outUint_eq (hhh : s.length ≠ .hh) (hsigned : s.specifier.isSigned = false) :
    outUint (directiveOf s) (valueArgument s.length value :: more) data =
      .ok (data.appendAscii (formatted s value), more) := by
  obtain ⟨number, hread, hnumber⟩ := ulongArgument_eq s value more hhh
  have hmagnitude : number.toNat = s.magnitude value := by
    rw [hnumber, Printf.Conversion.magnitude, hsigned]
    rfl
  have hzero : number ≠ 0 ↔ s.magnitude value ≠ 0 := by
    rw [← hmagnitude, ne_eq, ne_eq, ← UInt64.toNat_inj]
    rfl
  have hlt : s.magnitude value < 2 ^ 64 := by
    rw [← hmagnitude]
    exact UInt64.toNat_lt _
  have hbase : 1 < s.specifier.base := by cases s.specifier <;> decide
  have hbig : (directiveOf s).output.big = decide (s.specifier = .X) := rfl
  have hchars : Printf.numeral (if (directiveOf s).output.big then bigDigitChar else digitChar)
      s.specifier.base (s.magnitude value) = s.digits value := by
    refine Printf.numeral_congr hbase (fun d _ => ?_) _
    rw [hbig, Printf.Specifier.digit]
    by_cases hX : s.specifier = .X
    · simp [hX, bigDigitChar]
    · simp [hX, digitChar]
  have hlength : (s.digits value).length ≤ 64 := Printf.length_numeral_le hbase hlt
  obtain ⟨lead, hulong, hle, htype, hcleared⟩ := ulongBase_eq s value hsigned hzero
  unfold outUint
  rw [show (directiveOf s).flength = lengthOf s.length from rfl, hread, ok_bind]
  simp only [hulong]
  rw [hmagnitude, formatDigits_word hbase hlt (by decide), hchars, ok_bind,
    formatUlongCommon_eq hle htype hlength (zerosOf_eq s value), hcleared, ok_bind,
    formatted, if_neg (by simp [hsigned])]
  rfl

end Conversions

end StringData

end Drt
