import Drt.Core.Types.FormatIntegers

/-!
# Which integers are formatted as ISO C says

The text of a field is compared with the one of ISO C: the differences show in its length, in its
first character, or in a character that only one of them has.
-/

open List Option

namespace Drt

namespace StringData

open Printf (Conversion)

/-! ## The conditions -/

/-- What the code writes before the digits. -/
def frontOf (s : Conversion) (value : UInt64) : Blob :=
  if s.specifier.isSigned then (signOf s value).toList
  else prefixText (s.specifier = .X) (leadOf s value)

/-- What is left of the width. -/
def roomOf (s : Conversion) (value : UInt64) : Int :=
  s.width.value - ((zerosOf s value : Int) + (s.digits value).length + (frontOf s value).length)

/-- A blank is called for in place of a sign. -/
def Blank (s : Conversion) (value : UInt64) : Prop :=
  s.specifier.isSigned ∧ s.negative value = false ∧ .plus ∉ s.flags ∧ .space ∈ s.flags

/-- A conversion with an argument for which the code does as ISO C says. -/
structure Conforming (s : Conversion) (value : UInt64) : Prop where
  /-- No precision of zero for the value zero, but for `%#o`. -/
  precise : s.magnitude value = 0 → s.precision.value = some 0 → s.specifier = .o ∧ .alt ∈ s.flags
  /-- No `0x` before zero, nor before 16 zeros. -/
  hexadecimal : .alt ∈ s.flags → s.specifier ≠ .o → s.magnitude value ≠ 0 ∧ zerosOf s value < 16
  /-- No sign before 16 zeros. -/
  sign : s.specifier.isSigned → signOf s value ≠ none → zerosOf s value < 16
  /-- A negative argument for the width has nothing to fill. -/
  justified : s.width.negative → roomOf s value ≤ 0
  /-- No zeros fill the width where there is a precision, nor more than 16 behind a sign. -/
  zeros : 0 < roomOf s value → .zero ∈ s.flags → .minus ∉ s.flags →
    s.precision.value = none ∧
      (s.specifier.isSigned → signOf s value ≠ none → roomOf s value ≤ 16)
  /-- A blank in place of a sign is one of those that fill the width. -/
  blank : Blank s value → 0 < roomOf s value ∧ .minus ∉ s.flags ∧ .zero ∉ s.flags

/-! ## The parts of the texts -/

section Parts

variable {s : Conversion} {value : UInt64}

theorem zerosOf_eq_sub :
    zerosOf s value = s.precision.value.getD 0 - (s.digits value).length := by
  unfold zerosOf precOf Printf.Precision.value
  cases s.precision with
  | omitted => simp
  | number digits =>
    simp only [getD_some]
    omega
  | star arg =>
    by_cases hneg : arg < 0
    · have hlt : arg.toInt < 0 := by simpa [Int32.lt_iff_toInt_lt] using hneg
      simp only [hneg, if_true, getD_none]
      omega
    · simp only [hneg, if_false, getD_some]
      omega

theorem widthOf_eq : widthOf s.width =
    if s.width.negative then -(s.width.value : Int) else s.width.value := by
  unfold widthOf Printf.Width.negative Printf.Width.value
  cases s.width with
  | omitted => rfl
  | number digits => rfl
  | star arg =>
    by_cases hneg : arg < 0
    · have hlt : arg.toInt < 0 := by simpa [Int32.lt_iff_toInt_lt] using hneg
      simp only [hneg, decide_true, if_true]
      omega
    · have hle : 0 ≤ arg.toInt := by simpa [Int32.lt_iff_toInt_lt] using hneg
      simp only [hneg, decide_false, if_false, Bool.false_eq_true]
      omega

theorem digits_pos (s : Conversion) (value : UInt64) : 0 < (s.digits value).length :=
  length_pos_iff.mpr (Printf.numeral_ne_nil _ _ _)

theorem precision_of_zeros (h : 0 < zerosOf s value) : s.precision.value ≠ none := by
  intro hnone
  rw [zerosOf_eq_sub, hnone] at h
  simp at h

theorem preciseDigits_eq (h : s.magnitude value = 0 → s.precision.value ≠ some 0) :
    s.preciseDigits value = List.replicate (zerosOf s value) 48 ++ s.digits value := by
  rw [s.preciseDigits_eq h, zerosOf_eq_sub]

theorem mem_formatted {c : UInt8} (h : c ∈ s.digits value) : c ∈ formatted s value := by
  unfold formatted longText ulongText
  dsimp only
  split_ifs <;> simp [h]

/-- The text of the code says that of a zero with a precision of zero. -/
theorem precise_of_eq (h : formatted s value = s.text value) (hzero : s.magnitude value = 0)
    (hprecision : s.precision.value = some 0) : s.specifier = .o ∧ .alt ∈ s.flags := by
  by_contra hnot
  have hmem : 48 ∈ s.text value := by
    rw [← h]
    exact mem_formatted (by rw [Printf.Conversion.digits_zero hzero]; exact mem_cons_self)
  have hwhole : s.wholeDigits value = [] := by
    rw [Printf.Conversion.wholeDigits, Printf.Conversion.preciseDigits_empty hzero hprecision,
      if_neg fun hall => hnot ⟨hall.2.1, hall.1⟩]
  rcases Printf.Conversion.mem_text hmem with hlead | hdigits | hblank | hfill
  · have hno : 48 ∉ s.lead value := by
      simp only [Printf.Conversion.lead, hzero, ne_eq, not_true_eq_false, and_false, if_false]
      split_ifs <;> simp
    exact hno hlead
  · rw [hwhole] at hdigits
    cases hdigits
  · exact absurd hblank (by decide)
  · rw [hprecision] at hfill
    cases hfill.2.2

/-- A width that is not filled on the right for its sign is read as it is. -/
theorem widthOf_of_pos (hjustified : s.width.negative → roomOf s value ≤ 0)
    (hroom : 0 < roomOf s value) :
    widthOf s.width = s.width.value ∧ s.leftJustified = decide (.minus ∈ s.flags) := by
  have hnegative : s.width.negative = false := by
    by_contra hnot
    have := hjustified (Bool.eq_true_of_not_eq_false hnot)
    omega
  rw [widthOf_eq, hnegative, if_neg Bool.false_ne_true]
  refine ⟨rfl, ?_⟩
  simp [Printf.Conversion.leftJustified, hnegative]

end Parts

/-! ## Fields without a slip -/

/-- A field of which every part is written, and once. -/
def fieldText (output : Output) (room : Int) (front body : Blob) : Blob :=
  if room ≤ 0 then front ++ body
  else if output.minus then front ++ (body ++ List.replicate room.toNat 32)
  else if output.zero then front ++ (List.replicate room.toNat 48 ++ body)
  else List.replicate room.toNat 32 ++ (front ++ body)

theorem longText_eq_fieldText {output : Output} {width : Int} {zeros : Nat} {o_sign : Option UInt8}
    {digits : Blob}
    (h : o_sign ≠ none → zeros < 16 ∧ (output.zero → ¬ output.minus →
      width - (zeros + digits.length + o_sign.toList.length) ≤ 16)) :
    longText output width zeros o_sign digits =
      fieldText output (width - (zeros + digits.length + o_sign.toList.length)) o_sign.toList
        (List.replicate zeros 48 ++ digits) := by
  unfold longText fieldText
  cases o_sign with
  | none => simp
  | some c =>
    obtain ⟨hfew, hshort⟩ := h (some_ne_none c)
    have hkept : ¬ (16 ≤ zeros ∧ (some c).toList ≠ []) := fun hlost => by omega
    simp only [if_neg hkept]
    split_ifs with hroom hminus hzero htwice
    · rfl
    · rfl
    · have := hshort hzero hminus
      omega
    · rfl
    · rfl

theorem ulongText_eq_fieldText {output : Output} {width : Int} {zeros o_signlen : Nat}
    {digits : Blob} (h : o_signlen ≠ 0 → zeros < 16) :
    ulongText output width zeros o_signlen digits =
      fieldText output (width - (zeros + digits.length + o_signlen))
        (prefixText output.big o_signlen) (List.replicate zeros 48 ++ digits) := by
  have hkept : ¬ (16 ≤ zeros ∧ o_signlen ≠ 0) := by
    rintro ⟨hmany, hlead⟩
    have := h hlead
    omega
  simp [ulongText, fieldText, hkept]

section Fields

variable {s : Conversion} {value : UInt64}

theorem room_le (s : Conversion) (value : UInt64) : widthOf s.width - (zerosOf s value +
    (s.digits value).length + (frontOf s value).length) ≤ roomOf s value := by
  have hwidth := widthOf_eq (s := s)
  unfold roomOf
  split_ifs at hwidth <;> omega

/-- A negative width is of no matter where it has nothing to fill. -/
theorem fieldText_room (hjustified : s.width.negative → roomOf s value ≤ 0) (output : Output)
    (front body : Blob) :
    fieldText output (widthOf s.width - (zerosOf s value + (s.digits value).length +
      (frontOf s value).length)) front body = fieldText output (roomOf s value) front body := by
  by_cases hroom : 0 < roomOf s value
  · rw [(widthOf_of_pos hjustified hroom).1]
    rfl
  · have hle := room_le s value
    rw [fieldText, if_pos (by omega), fieldText, if_pos (by omega)]

/-- Where the digits with what is before them are those of ISO C, the field is. -/
theorem fieldText_eq (hconforming : Conforming s value)
    (hparts : ∀ n, s.lead value ++ (List.replicate n 48 ++ s.wholeDigits value) =
      frontOf s value ++ (List.replicate n 48 ++
        (List.replicate (zerosOf s value) 48 ++ s.digits value))) :
    fieldText (directiveOf s).output (roomOf s value) (frontOf s value)
      (List.replicate (zerosOf s value) 48 ++ s.digits value) = s.text value := by
  have hjoined : s.lead value ++ s.wholeDigits value = frontOf s value ++
      (List.replicate (zerosOf s value) 48 ++ s.digits value) := hparts 0
  have hlength := congrArg List.length hjoined
  simp only [length_append, length_replicate] at hlength
  have hminus : (directiveOf s).output.minus = decide (.minus ∈ s.flags) := rfl
  have hzero : (directiveOf s).output.zero = decide (.zero ∈ s.flags) := rfl
  rw [fieldText, hminus, hzero]
  by_cases hroom : 0 < roomOf s value
  · obtain ⟨-, hleft⟩ := widthOf_of_pos hconforming.justified hroom
    have hmissing : s.missing value = (roomOf s value).toNat := by
      rw [Printf.Conversion.missing, hlength, roomOf]
      omega
    rw [if_neg (by omega), Printf.Conversion.text, hleft, hmissing]
    by_cases hflag : .minus ∈ s.flags
    · simp only [hflag, decide_true, if_true, hjoined, append_assoc]
    · by_cases hfill : .zero ∈ s.flags
      · have hprecision := (hconforming.zeros hroom hfill hflag).1
        simp only [hflag, hfill, hprecision, decide_false, decide_true, Bool.false_eq_true, if_false,
          and_self, if_true, append_assoc, hparts]
      · simp only [hflag, hfill, decide_false, Bool.false_eq_true, if_false, false_and, hjoined]
  · have hle : s.width.value ≤ (s.lead value).length + (s.wholeDigits value).length := by
      rw [roomOf] at hroom
      omega
    rw [if_pos (by omega), Printf.Conversion.text_of_le hle, hjoined]

end Fields

/-! ## Signed conversions -/

section Signed

variable {s : Conversion} {value : UInt64} (hs : s.specifier.isSigned = true)

theorem length_longText (output : Output) (width : Int) (zeros : Nat) (o_sign : Option UInt8)
    (digits : Blob) {room : Int} {sign body : Nat}
    (hsign : sign = o_sign.toList.length) (hroom : room = width - (zeros + digits.length + sign))
    (hbody : body = if 16 ≤ zeros ∧ o_sign.toList ≠ [] then digits.length
      else zeros + digits.length) :
    (longText output width zeros o_sign digits).length =
      if room ≤ 0 then sign + body
      else if output.minus then sign + body + room.toNat
      else if output.zero then
        sign + room.toNat + (if 16 ≤ zeros ∨ 16 < room then sign else 0) + body
      else room.toNat + sign + body := by
  subst hsign hroom hbody
  unfold longText
  dsimp only
  split_ifs <;> simp only [length_append, length_replicate, length_nil] <;> omega

include hs

theorem frontOf_signed : frontOf s value = (signOf s value).toList := if_pos hs

/-- ISO C calls for the sign that the code writes, or for a blank. -/
theorem lead_signed :
    (Blank s value → s.lead value = [32] ∧ frontOf s value = []) ∧
      (¬ Blank s value → s.lead value = frontOf s value) := by
  rw [frontOf_signed hs]
  unfold Printf.Conversion.lead signOf Blank
  rw [if_pos hs]
  by_cases hnegative : s.negative value = true
  · simp [hnegative]
  · by_cases hplus : .plus ∈ s.flags
    · simp [hnegative, hplus]
    · by_cases hspace : .space ∈ s.flags
      · simp [hnegative, hplus, hspace, hs]
      · simp [hnegative, hplus, hspace]

/-- Without the `#` flag the digits are those of the code. -/
theorem wholeDigits_signed
    (hprecise : s.magnitude value = 0 → s.precision.value = some 0 →
      s.specifier = .o ∧ .alt ∈ s.flags) :
    s.wholeDigits value = List.replicate (zerosOf s value) 48 ++ s.digits value := by
  have ho : s.specifier ≠ .o := by
    intro ho
    rw [ho] at hs
    cases hs
  rw [Printf.Conversion.wholeDigits, if_neg fun hall => ho hall.2.1]
  exact preciseDigits_eq fun hzero hprecision => ho (hprecise hzero hprecision).1

theorem formatted_signed : formatted s value =
    longText (directiveOf s).output (widthOf s.width) (zerosOf s value) (signOf s value)
      (s.digits value) := if_pos hs

variable (h : formatted s value = s.text value)

include h

/-- The text of the code is as long as that of ISO C. -/
theorem length_of_eq {sign lead : Nat} (hsign : sign = (frontOf s value).length)
    (hlead : lead = (s.lead value).length) {room : Int}
    (hroom : room = widthOf s.width - (zerosOf s value + (s.digits value).length + sign)) {body : Nat}
    (hbody : body = if 16 ≤ zerosOf s value ∧ frontOf s value ≠ [] then (s.digits value).length
      else zerosOf s value + (s.digits value).length) :
    (if room ≤ 0 then sign + body
      else if .minus ∈ s.flags then sign + body + room.toNat
      else if .zero ∈ s.flags then
        sign + room.toNat + (if 16 ≤ zerosOf s value ∨ 16 < room then sign else 0) + body
      else room.toNat + sign + body) =
      max s.width.value (lead + (zerosOf s value + (s.digits value).length)) := by
  rw [frontOf_signed hs] at hsign hbody
  have hlength := congrArg List.length h
  rw [formatted_signed hs, length_longText _ _ _ _ _ hsign hroom hbody,
    Printf.Conversion.length_text, wholeDigits_signed hs (precise_of_eq h), length_append,
    length_replicate, ← hlead] at hlength
  have hminus : (directiveOf s).output.minus = decide (.minus ∈ s.flags) := rfl
  have hzero : (directiveOf s).output.zero = decide (.zero ∈ s.flags) := rfl
  simpa only [hminus, hzero, decide_eq_true_eq] using hlength

theorem sign_of_eq (hsign : signOf s value ≠ none) : zerosOf s value < 16 := by
  by_contra hmany
  have hfront : frontOf s value ≠ [] := by
    rw [frontOf_signed hs]
    simpa using hsign
  have hone : (frontOf s value).length = 1 := by
    obtain ⟨c, hc⟩ := ne_none_iff_exists'.mp hsign
    rw [frontOf_signed hs, hc]
    rfl
  have hlead : s.lead value = frontOf s value :=
    (lead_signed hs).2 fun hblank => hfront ((lead_signed hs).1 hblank).2
  have hlength := length_of_eq hs h hone.symm (by rw [hlead, hone]) rfl
    (if_pos ⟨Nat.le_of_not_lt hmany, hfront⟩).symm
  have hwidth := widthOf_eq (s := s)
  split_ifs at hlength hwidth <;> omega

theorem justified_of_eq (hnegative : s.width.negative = true) : roomOf s value ≤ 0 := by
  have hlength := length_of_eq hs h rfl rfl rfl rfl
  have hwidth := widthOf_eq (s := s)
  have hdigits := digits_pos s value
  rw [if_pos hnegative] at hwidth
  unfold roomOf
  rw [if_pos (by omega)] at hlength
  split_ifs at hlength <;> omega

omit h in
/-- The text of the code starts with a blank only where blanks fill the width. -/
theorem head?_formatted_signed (hroom : 0 < roomOf s value)
    (hwidth : widthOf s.width = s.width.value)
    (hfill : .minus ∈ s.flags ∧ frontOf s value = [] ∨ .minus ∉ s.flags ∧ .zero ∈ s.flags) :
    (formatted s value).head? ≠ some 32 := by
  have hminus : (directiveOf s).output.minus = decide (.minus ∈ s.flags) := rfl
  have hzero : (directiveOf s).output.zero = decide (.zero ∈ s.flags) := rfl
  have hsign : (signOf s value).toList.head? ≠ some 32 := by
    unfold signOf
    split_ifs <;> simp
  unfold roomOf at hroom
  rw [frontOf_signed hs] at hroom hfill
  rw [formatted_signed hs, longText, hwidth, if_neg (by omega), hminus, hzero]
  generalize hcount : ((s.width.value : Int) -
    (zerosOf s value + (s.digits value).length + (signOf s value).toList.length)) = room at *
  obtain ⟨k, hk⟩ : ∃ k, room.toNat = k + 1 := ⟨room.toNat - 1, by omega⟩
  obtain ⟨hleft, hempty⟩ | ⟨hright, hflag⟩ := hfill
  · rw [hempty]
    simp only [hleft, decide_true, if_true, ne_eq, not_true_eq_false, and_false, if_false,
      nil_append]
    cases hmany : zerosOf s value with
    | zero =>
      cases hdigits : s.digits value with
      | nil => exact absurd hdigits (length_pos_iff.mp (digits_pos s value))
      | cons c rest =>
        have hblank := s.blank_not_mem_digits value
        rw [hdigits] at hblank
        simpa using fun heq : c = 32 => hblank (heq ▸ mem_cons_self)
    | succ z => simp [replicate_succ]
  · simp only [hright, hflag, decide_false, decide_true, Bool.false_eq_true, if_false, if_true, hk,
      replicate_succ]
    cases hlist : (signOf s value).toList with
    | nil => simp
    | cons c rest => simpa [hlist] using hsign

/-- Without a precision, nothing is written twice. -/
theorem zeros_of_eq (hroom : 0 < roomOf s value) (hzero : .zero ∈ s.flags)
    (hminus : .minus ∉ s.flags) :
    s.precision.value = none ∧ (signOf s value ≠ none → roomOf s value ≤ 16) := by
  obtain ⟨hwidth, hleft⟩ := widthOf_of_pos (justified_of_eq hs h) hroom
  have hhead := head?_formatted_signed hs hroom hwidth (.inr ⟨hminus, hzero⟩)
  rw [h] at hhead
  have hnotblank : ¬ Blank s value := fun hblank =>
    hhead (Printf.Conversion.head?_text_blank ((lead_signed hs).1 hblank).1)
  have hlead := (lead_signed hs).2 hnotblank
  have hprecision : s.precision.value = none := by
    by_contra hprecision
    refine hhead (Printf.Conversion.head?_text ?_ (fun _ => hprecision) ?_)
    · rw [hleft, decide_eq_false hminus]
    · rw [Printf.Conversion.missing, hlead, wholeDigits_signed hs (precise_of_eq h), length_append,
        length_replicate]
      unfold roomOf at hroom
      omega
  refine ⟨hprecision, fun hsign => ?_⟩
  by_contra hlong
  have hzeros : zerosOf s value = 0 := by
    by_contra hpos
    exact precision_of_zeros (Nat.pos_of_ne_zero hpos) hprecision
  have hone : (frontOf s value).length = 1 := by
    obtain ⟨c, hc⟩ := ne_none_iff_exists'.mp hsign
    rw [frontOf_signed hs, hc]
    rfl
  have hlength := length_of_eq hs h rfl rfl rfl rfl
  unfold roomOf at hroom hlong
  simp only [hlead, hwidth, hminus, hzero, if_false, if_true] at hlength
  split_ifs at hlength <;> omega

theorem blank_of_eq (hblank : Blank s value) :
    0 < roomOf s value ∧ .minus ∉ s.flags ∧ .zero ∉ s.flags := by
  obtain ⟨hlead, hfront⟩ := (lead_signed hs).1 hblank
  have hroom : 0 < roomOf s value := by
    by_contra hnot
    have hlength := length_of_eq hs h rfl rfl rfl rfl
    have hwidth := widthOf_eq (s := s)
    unfold roomOf at hnot
    rw [hlead, hfront] at hlength
    rw [hfront] at hnot
    simp only [length_nil, length_singleton, ne_eq, not_true_eq_false, and_false,
      if_false] at hlength hnot
    split_ifs at hwidth
    · rw [if_pos (by omega)] at hlength
      omega
    · rw [if_pos (by omega)] at hlength
      omega
  have hhead : (formatted s value).head? = some 32 := by
    rw [h]
    exact Printf.Conversion.head?_text_blank hlead
  have hwidth := (widthOf_of_pos (justified_of_eq hs h) hroom).1
  have hminus : .minus ∉ s.flags := fun hminus =>
    head?_formatted_signed hs hroom hwidth (.inl ⟨hminus, hfront⟩) hhead
  exact ⟨hroom, hminus, fun hzero =>
    head?_formatted_signed hs hroom hwidth (.inr ⟨hminus, hzero⟩) hhead⟩

omit h in
/-- A blank in place of a sign is the last one of those that fill the width. -/
theorem fieldText_blank (hconforming : Conforming s value) (hblank : Blank s value) :
    fieldText (directiveOf s).output (roomOf s value) (frontOf s value)
      (List.replicate (zerosOf s value) 48 ++ s.digits value) = s.text value := by
  have hminus : (directiveOf s).output.minus = decide (.minus ∈ s.flags) := rfl
  have hzero : (directiveOf s).output.zero = decide (.zero ∈ s.flags) := rfl
  have hwhole := wholeDigits_signed hs hconforming.precise
  obtain ⟨hlead, hfront⟩ := (lead_signed hs).1 hblank
  obtain ⟨hroom, hright, hspaces⟩ := hconforming.blank hblank
  obtain ⟨-, hleft⟩ := widthOf_of_pos hconforming.justified hroom
  have hmissing : (roomOf s value).toNat = s.missing value + 1 := by
    rw [roomOf, hfront, length_nil] at hroom ⊢
    rw [Printf.Conversion.missing, hlead, hwhole, length_append, length_replicate,
      length_singleton]
    omega
  rw [fieldText, hminus, hzero, if_neg (by omega), if_neg (by simpa using hright),
    if_neg (by simpa using hspaces), hmissing, replicate_succ', Printf.Conversion.text, hleft,
    if_neg (by simpa using hright), if_neg fun hboth => hspaces hboth.1, hlead, hfront, hwhole,
    append_assoc]
  rfl

omit h in
/-- Where the conditions hold, the code gives the text of ISO C. -/
theorem formatted_eq_signed (hconforming : Conforming s value) :
    formatted s value = s.text value := by
  have hminus : (directiveOf s).output.minus = decide (.minus ∈ s.flags) := rfl
  have hzero : (directiveOf s).output.zero = decide (.zero ∈ s.flags) := rfl
  have hfield : formatted s value = fieldText (directiveOf s).output (roomOf s value)
      (frontOf s value) (List.replicate (zerosOf s value) 48 ++ s.digits value) := by
    rw [← fieldText_room hconforming.justified, formatted_signed hs, frontOf_signed hs]
    refine longText_eq_fieldText fun hsign => ⟨hconforming.sign hs hsign, fun hfill hright => ?_⟩
    rw [hzero, decide_eq_true_eq] at hfill
    rw [hminus, decide_eq_true_eq] at hright
    have hle := room_le s value
    rw [frontOf_signed hs] at hle
    by_cases hroom : 0 < roomOf s value
    · have := (hconforming.zeros hroom hfill hright).2 hs hsign
      omega
    · omega
  rw [hfield]
  by_cases hblank : Blank s value
  · exact fieldText_blank hs hconforming hblank
  · refine fieldText_eq hconforming fun n => ?_
    rw [(lead_signed hs).2 hblank, wholeDigits_signed hs hconforming.precise]

end Signed

/-! ## Unsigned conversions -/

section Prefix

variable {s : Conversion} {value : UInt64}

theorem length_prefixText (big : Bool) {o_signlen : Nat} (h : o_signlen ≤ 2) :
    (prefixText big o_signlen).length = o_signlen := by
  cases big <;> simp [prefixText] <;> omega

theorem head?_prefixText (big : Bool) (o_signlen : Nat) (tail : Blob) :
    (prefixText big o_signlen ++ 48 :: tail).head? = some 48 := by
  unfold prefixText
  cases o_signlen <;> cases big <;> rfl

theorem leadOf_le : leadOf s value ≤ 2 := by
  unfold leadOf
  split_ifs <;> omega

theorem length_ulongText (output : Output) (width : Int) (zeros : Nat) {o_signlen : Nat}
    (digits : Blob) (hle : o_signlen ≤ 2) {room : Int} {body : Nat}
    (hroom : room = width - (zeros + digits.length + o_signlen))
    (hbody : body = if 16 ≤ zeros ∧ o_signlen ≠ 0 then digits.length
      else zeros + digits.length) :
    (ulongText output width zeros o_signlen digits).length =
      if room ≤ 0 then o_signlen + body
      else if output.minus then o_signlen + body + room.toNat
      else if output.zero then o_signlen + room.toNat + (zeros + digits.length)
      else room.toNat + o_signlen + body := by
  subst hroom hbody
  unfold ulongText
  dsimp only
  split_ifs <;>
    simp only [length_append, length_replicate, length_prefixText _ hle] <;> omega

/-- No octal number starts with a zero but zero itself. -/
theorem head?_digits_octal (ho : s.specifier = .o) :
    (s.digits value).head? = some 48 ↔ s.magnitude value = 0 := by
  constructor
  · intro hhead
    by_contra hnonzero
    obtain ⟨d, hpos, hlt, hfirst⟩ := Printf.head?_numeral s.specifier.digit
      (by decide : 1 < 8) hnonzero
    have hne (d : Nat) (hlt : d < 8) (hpos : 0 < d) : Printf.Specifier.digit .o d ≠ 48 := by
      revert d
      decide
    rw [Printf.Conversion.digits, show s.specifier.base = 8 by rw [ho]; rfl, hfirst, ho] at hhead
    exact hne d hlt hpos (Option.some.inj hhead)
  · intro hzero
    rw [Printf.Conversion.digits_zero hzero]
    rfl

/-- What the code writes before an octal number with the `#` flag. -/
theorem frontOf_octal (halt : .alt ∈ s.flags) (ho : s.specifier = .o) :
    frontOf s value = if s.magnitude value ≠ 0 ∧ zerosOf s value = 0 then [48] else [] := by
  rw [frontOf, if_neg (by rw [ho]; decide), leadOf, if_neg (not_not.mpr halt), if_pos ho, ho]
  split_ifs <;> rfl

/-- The `#` flag of `%o`: the code puts a zero before the digits, ISO C makes it one of them. -/
theorem wholeDigits_octal (halt : .alt ∈ s.flags) (ho : s.specifier = .o) :
    s.wholeDigits value =
      frontOf s value ++ (List.replicate (zerosOf s value) 48 ++ s.digits value) := by
  rw [frontOf_octal halt ho]
  by_cases hempty : s.magnitude value = 0 ∧ s.precision.value = some 0
  · -- the only digit of `%#.0o` is the one of the flag
    have hzeros : zerosOf s value = 0 := by
      rw [zerosOf_eq_sub, hempty.2, getD_some, Nat.zero_sub]
    have hdigits := Printf.Conversion.preciseDigits_empty hempty.1 hempty.2
    rw [Printf.Conversion.wholeDigits, hdigits, if_pos ⟨halt, ho, by simp⟩, hzeros,
      Printf.Conversion.digits_zero hempty.1, if_neg fun h => h.1 hempty.1]
    rfl
  · have hdigits : s.preciseDigits value = List.replicate (zerosOf s value) 48 ++ s.digits value :=
      preciseDigits_eq fun hzero h => hempty ⟨hzero, h⟩
    have hhead : (s.digits value).head? = some 48 ↔ s.magnitude value = 0 := head?_digits_octal ho
    rw [Printf.Conversion.wholeDigits, hdigits]
    cases hzeros : zerosOf s value with
    | zero => simp [halt, ho, hhead, apply_ite (· ++ s.digits value)]
    | succ z => simp [replicate_succ]

end Prefix

section Unsigned

variable {s : Conversion} {value : UInt64} (hu : s.specifier.isSigned = false)

include hu

theorem frontOf_unsigned : frontOf s value = prefixText (s.specifier = .X) (leadOf s value) :=
  if_neg (by simp [hu])

theorem formatted_unsigned : formatted s value =
    ulongText (directiveOf s).output (widthOf s.width) (zerosOf s value) (leadOf s value)
      (s.digits value) := if_neg (by simp [hu])

theorem length_frontOf : (frontOf s value).length = leadOf s value := by
  rw [frontOf_unsigned hu, length_prefixText _ leadOf_le]

theorem leadOf_hexadecimal (halt : .alt ∈ s.flags) (ho : s.specifier ≠ .o) :
    leadOf s value = 2 ∧ (s.specifier = .x ∨ s.specifier = .X) := by
  refine ⟨by rw [leadOf, if_neg (not_not.mpr halt), if_neg ho], ?_⟩
  have halternative := s.alternative halt
  cases hspecifier : s.specifier <;>
    simp_all [Printf.Specifier.hasAlternative, Printf.Specifier.isSigned]

/-- The digits with what is before them, and zeros of the width between: they are the same in ISO C
and in the code. -/
theorem lead_wholeDigits
    (hprecise : s.magnitude value = 0 → s.precision.value = some 0 →
      s.specifier = .o ∧ .alt ∈ s.flags)
    (hhexadecimal : .alt ∈ s.flags → s.specifier ≠ .o → s.magnitude value ≠ 0) (n : Nat) :
    s.lead value ++ (List.replicate n 48 ++ s.wholeDigits value) = frontOf s value ++
      (List.replicate n 48 ++ (List.replicate (zerosOf s value) 48 ++ s.digits value)) := by
  have hplain (h : ¬ (.alt ∈ s.flags ∧ s.specifier = .o)) :
      s.wholeDigits value = List.replicate (zerosOf s value) 48 ++ s.digits value := by
    rw [Printf.Conversion.wholeDigits, if_neg fun hall => h ⟨hall.1, hall.2.1⟩]
    exact preciseDigits_eq fun hzero hprecision => h (hprecise hzero hprecision).symm
  by_cases halt : .alt ∈ s.flags
  · by_cases ho : s.specifier = .o
    · have hlead : s.lead value = [] := by
        rw [Printf.Conversion.lead, if_neg (by simp [hu]), ho]
        split_ifs <;> rfl
      rw [hlead, wholeDigits_octal halt ho, frontOf_octal halt ho]
      split_ifs
      · -- the zero of the flag is one more of those of the width
        rw [nil_append, ← append_assoc, ← replicate_succ', replicate_succ]
        rfl
      · rfl
    · obtain ⟨hlead, hspecifier⟩ : leadOf s value = 2 ∧ _ := leadOf_hexadecimal hu halt ho
      rw [hplain fun hboth => ho hboth.2, frontOf_unsigned hu, hlead, Printf.Conversion.lead,
        if_neg (by simp [hu]), if_pos ⟨halt, hhexadecimal halt ho⟩]
      obtain hx | hX := hspecifier
      · rw [hx]
        rfl
      · rw [hX]
        rfl
  · rw [hplain fun hboth => halt hboth.1, frontOf_unsigned hu, leadOf, if_pos halt,
      Printf.Conversion.lead, if_neg (by simp [hu]), if_neg fun hboth => halt hboth.1, prefixText,
      take_zero]

theorem length_lead_wholeDigits
    (hprecise : s.magnitude value = 0 → s.precision.value = some 0 →
      s.specifier = .o ∧ .alt ∈ s.flags)
    (hhexadecimal : .alt ∈ s.flags → s.specifier ≠ .o → s.magnitude value ≠ 0) :
    (s.lead value).length + (s.wholeDigits value).length =
      zerosOf s value + (s.digits value).length + leadOf s value := by
  have hlength := congrArg List.length (lead_wholeDigits hu hprecise hhexadecimal 0)
  simp only [length_append, length_replicate, length_frontOf hu] at hlength
  omega

/-- Where zeros fill the width, the text of the code starts with one. -/
theorem head?_formatted_unsigned (hroom : 0 < roomOf s value)
    (hwidth : widthOf s.width = s.width.value) (hzero : .zero ∈ s.flags)
    (hminus : .minus ∉ s.flags) : (formatted s value).head? = some 48 := by
  have hminus' : (directiveOf s).output.minus = false := decide_eq_false hminus
  have hzero' : (directiveOf s).output.zero = true := decide_eq_true hzero
  rw [roomOf, length_frontOf hu] at hroom
  obtain ⟨n, hn⟩ := Nat.exists_eq_add_of_lt (Int.lt_toNat.mpr hroom)
  rw [formatted_unsigned hu, ulongText, hwidth, if_neg (by omega), hminus', hzero',
    if_neg (by decide), if_pos rfl, hn, Nat.zero_add, replicate_succ, cons_append]
  exact head?_prefixText _ _ _

section Equal

variable (h : formatted s value = s.text value)

include h

/-- The code writes `0x` before zero, where the text of ISO C has zeros and blanks only. -/
theorem nonzero_of_eq (halt : .alt ∈ s.flags) (ho : s.specifier ≠ .o) : s.magnitude value ≠ 0 := by
  intro hzero
  have hlead : leadOf s value = 2 := (leadOf_hexadecimal hu halt ho).1
  obtain ⟨c, hc, hmem⟩ : ∃ c, (c = 120 ∨ c = 88) ∧ c ∈ formatted s value := by
    rw [formatted_unsigned hu, hlead, ulongText]
    split_ifs <;> simp [prefixText] <;> split_ifs <;> simp
  have hdigits : c ∉ s.wholeDigits value := by
    rw [Printf.Conversion.wholeDigits, if_neg fun hall => ho hall.2.1,
      preciseDigits_eq fun _ hprecision => ho (precise_of_eq h hzero hprecision).1,
      Printf.Conversion.digits_zero hzero]
    obtain rfl | rfl := hc <;> simp
  have hnone : s.lead value = [] := by
    simp [Printf.Conversion.lead, hu, hzero]
  rw [h] at hmem
  have hother := Printf.Conversion.mem_text hmem
  rw [hnone] at hother
  obtain rfl | rfl := hc <;> simp [hdigits] at hother

/-- The text of the code is as long as that of ISO C. -/
theorem length_of_eq_unsigned {room : Int}
    (hroom : room = widthOf s.width - (zerosOf s value + (s.digits value).length + leadOf s value))
    {body : Nat}
    (hbody : body = if 16 ≤ zerosOf s value ∧ leadOf s value ≠ 0 then (s.digits value).length
      else zerosOf s value + (s.digits value).length) :
    (if room ≤ 0 then leadOf s value + body
      else if .minus ∈ s.flags then leadOf s value + body + room.toNat
      else if .zero ∈ s.flags then
        leadOf s value + room.toNat + (zerosOf s value + (s.digits value).length)
      else room.toNat + leadOf s value + body) =
      max s.width.value (zerosOf s value + (s.digits value).length + leadOf s value) := by
  have hlength := congrArg List.length h
  rw [formatted_unsigned hu, length_ulongText _ _ _ _ leadOf_le hroom hbody,
    Printf.Conversion.length_text,
    length_lead_wholeDigits hu (precise_of_eq h) (nonzero_of_eq hu h)] at hlength
  have hminus : (directiveOf s).output.minus = decide (.minus ∈ s.flags) := rfl
  have hzero : (directiveOf s).output.zero = decide (.zero ∈ s.flags) := rfl
  simpa only [hminus, hzero, decide_eq_true_eq] using hlength

theorem justified_of_eq_unsigned (hnegative : s.width.negative = true) : roomOf s value ≤ 0 := by
  have hlength := length_of_eq_unsigned hu h rfl rfl
  have hwidth : widthOf s.width = -(s.width.value : Int) := by rw [widthOf_eq, if_pos hnegative]
  rw [roomOf, length_frontOf hu]
  rw [if_pos (by omega)] at hlength
  split_ifs at hlength <;> omega

/-- Where zeros fill the width in the code, they do so in ISO C. -/
theorem zeros_of_eq_unsigned (hroom : 0 < roomOf s value) (hzero : .zero ∈ s.flags)
    (hminus : .minus ∉ s.flags) : s.precision.value = none := by
  obtain ⟨hwidth, hleft⟩ := widthOf_of_pos (justified_of_eq_unsigned hu h) hroom
  have hhead := head?_formatted_unsigned hu hroom hwidth hzero hminus
  by_contra hprecision
  rw [h, Printf.Conversion.head?_text] at hhead
  · exact absurd hhead (by decide)
  · rw [hleft, decide_eq_false hminus]
  · exact fun _ => hprecision
  · rw [Printf.Conversion.missing,
      length_lead_wholeDigits hu (precise_of_eq h) (nonzero_of_eq hu h)]
    rw [roomOf, length_frontOf hu] at hroom
    omega

/-- Behind `0x`, many zeros of the precision are lost. -/
theorem few_of_eq (halt : .alt ∈ s.flags) (ho : s.specifier ≠ .o) : zerosOf s value < 16 := by
  by_contra hmany
  have hlead : leadOf s value = 2 := (leadOf_hexadecimal hu halt ho).1
  have hlength := length_of_eq_unsigned hu h rfl
    (if_pos ⟨Nat.le_of_not_lt hmany, by omega⟩).symm
  have hwidth := widthOf_eq (s := s)
  have hzeros : 0 < zerosOf s value := by omega
  have hprecision := precision_of_zeros hzeros
  by_cases hroom : 0 < roomOf s value
  · have hfill (hminus : .minus ∉ s.flags) : .zero ∉ s.flags :=
      fun hzero => hprecision (zeros_of_eq_unsigned hu h hroom hzero hminus)
    rw [roomOf, length_frontOf hu] at hroom
    by_cases hminus : .minus ∈ s.flags
    · split_ifs at hlength hwidth <;> omega
    · rw [if_neg hminus, if_neg (hfill hminus)] at hlength
      split_ifs at hlength hwidth <;> omega
  · rw [roomOf, length_frontOf hu] at hroom
    split_ifs at hlength hwidth <;> omega

end Equal

/-- Where the conditions hold, the code gives the text of ISO C. -/
theorem formatted_eq_unsigned (hconforming : Conforming s value) :
    formatted s value = s.text value := by
  have hfew (hlead : leadOf s value ≠ 0) : zerosOf s value < 16 := by
    unfold leadOf at hlead
    by_cases halt : .alt ∈ s.flags
    · by_cases ho : s.specifier = .o
      · rw [if_neg (not_not.mpr halt), if_pos ho] at hlead
        split_ifs at hlead <;> omega
      · exact (hconforming.hexadecimal halt ho).2
    · exact absurd (if_pos halt) hlead
  have hfield : formatted s value = fieldText (directiveOf s).output (roomOf s value)
      (frontOf s value) (List.replicate (zerosOf s value) 48 ++ s.digits value) := by
    rw [← fieldText_room hconforming.justified, formatted_unsigned hu,
      ulongText_eq_fieldText hfew, length_frontOf hu, frontOf_unsigned hu]
    rfl
  rw [hfield]
  exact fieldText_eq hconforming (lead_wholeDigits hu hconforming.precise
    fun halt ho => (hconforming.hexadecimal halt ho).1)

end Unsigned

/-! ## Both -/

section Both

variable {s : Conversion} {value : UInt64}

/-- The code gives the text of ISO C exactly where the conditions hold. -/
theorem formatted_eq_iff : formatted s value = s.text value ↔ Conforming s value := by
  cases hsigned : s.specifier.isSigned with
  | true =>
    refine ⟨fun h => ⟨precise_of_eq h, fun halt ho => ?_, fun _ => sign_of_eq hsigned h,
      justified_of_eq hsigned h, fun hroom hzero hminus => ?_, blank_of_eq hsigned h⟩,
      formatted_eq_signed hsigned⟩
    · have halternative := s.alternative halt
      cases hspecifier : s.specifier <;>
        simp_all [Printf.Specifier.hasAlternative, Printf.Specifier.isSigned]
    · obtain ⟨hprecision, hshort⟩ := zeros_of_eq hsigned h hroom hzero hminus
      exact ⟨hprecision, fun _ => hshort⟩
  | false =>
    have hnot : s.specifier.isSigned ≠ true := by simp [hsigned]
    refine ⟨fun h => ⟨precise_of_eq h, fun halt ho => ?_, fun hs => absurd hs hnot,
      justified_of_eq_unsigned hsigned h, fun hroom hzero hminus => ?_,
      fun hblank => absurd hblank.1 hnot⟩, formatted_eq_unsigned hsigned⟩
    · exact ⟨nonzero_of_eq hsigned h halt ho, few_of_eq hsigned h halt ho⟩
    · exact ⟨zeros_of_eq_unsigned hsigned h hroom hzero hminus, fun hs => absurd hs hnot⟩

end Both

/-! ## The format -/

variable {ω : Type}

/-- An integer conversion is put out by one of two labels. -/
theorem out_eq (others : Others ω) {s : Conversion} (hhh : s.length ≠ .hh) {value : UInt64}
    (hmin : Negatable s value) (more : List (Argument ω)) (data : StringData) :
    out others (directiveOf s) (valueArgument s.length value :: more) data =
      .ok (data.appendAscii (formatted s value), more) := by
  unfold out
  rw [show (directiveOf s).type = s.specifier.char from rfl]
  cases hsigned : s.specifier.isSigned with
  | true =>
    rw [if_pos, outInt_eq s value more data hhh hsigned hmin]
    cases hspecifier : s.specifier <;> simp_all [Printf.Specifier.isSigned] <;> decide
  | false =>
    rw [if_neg, if_pos, outUint_eq s value more data hhh hsigned]
    · cases hspecifier : s.specifier <;> simp_all [Printf.Specifier.isSigned] <;> decide
    · cases hspecifier : s.specifier <;> simp_all [Printf.Specifier.isSigned] <;> decide

theorem out_least (others : Others ω) {s : Conversion} (hhh : s.length ≠ .hh) {value : UInt64}
    (hsigned : s.specifier.isSigned = true) (hleast : s.length.signed value = -2 ^ 63)
    (more : List (Argument ω)) (data : StringData) :
    out others (directiveOf s) (valueArgument s.length value :: more) data = .fault := by
  unfold out
  rw [show (directiveOf s).type = s.specifier.char from rfl, if_pos,
    outInt_least s value more data hhh hleast]
  cases hspecifier : s.specifier <;> simp_all [Printf.Specifier.isSigned] <;> decide

/-- A conversion in a format takes its arguments, and appends the text that ISO C specifies. -/
def Formats (s : Conversion) (value : UInt64) : Prop :=
  ∀ (ω : Type) (others : Others ω) (fuel : Nat) (rest : Blob) (more : List (Argument ω))
    (data : StringData),
    vformatAscii others (fuel + 1) (37 :: (s.spelling ++ rest))
        (widthArgument s.width ++
          (precisionArgument s.precision ++ (valueArgument s.length value :: more))) data =
      vformatAscii others fuel rest more (data.appendAscii (s.text value))

/-- A format of a conversion only, and an empty string. -/
theorem eq_of_formats {s : Conversion} {value : UInt64} (h : Formats s value) :
    s.length ≠ .hh ∧ WidthFits s.width ∧ PrecisionFits s.precision ∧ Negatable s value ∧
      formatted s value = s.text value := by
  have hrun := h Unit (fun _ _ _ => .fault) 1 [] [] ⟨.bytes [], none⟩
  rw [vformatAscii_spelling] at hrun
  split_ifs at hrun with hread
  · obtain ⟨hhh, hwidth, hprecision⟩ := hread
    have hmin : Negatable s value := by
      intro hsigned hleast
      rw [out_least _ hhh hsigned hleast] at hrun
      cases hrun
    rw [out_eq _ hhh hmin, Outcome.ok_bind] at hrun
    refine ⟨hhh, hwidth, hprecision, hmin, ?_⟩
    simpa [vformatAscii, appendAscii, StringViews.appendAscii] using hrun
  · cases hrun

/-- `%+.*d` of 20 and 42 loses the zeros: it gives `+42`. `%ld` negates the least `long`. -/
theorem not_formats :
    ¬ Formats ⟨[.plus], .omitted, .star 20, .none, .d, trivial, trivial, by decide⟩ 42 ∧
      ¬ Formats ⟨[], .omitted, .omitted, .l, .d, trivial, trivial, by decide⟩ 0x8000000000000000 := by
  refine ⟨fun h => absurd (eq_of_formats h).2.2.2.2 (by decide), fun h => ?_⟩
  exact (eq_of_formats h).2.2.2.1 rfl (by decide)

/-- An integer conversion gives the text of ISO C exactly where the conditions hold, its length is not
`hh`, its numbers can be read, and its value can be negated if it is negative. -/
theorem formats_iff (s : Conversion) (value : UInt64) :
    Formats s value ↔
      s.length ≠ .hh ∧ WidthFits s.width ∧ PrecisionFits s.precision ∧ Negatable s value ∧
        Conforming s value := by
  rw [← formatted_eq_iff]
  refine ⟨eq_of_formats, fun h ω others fuel rest more data => ?_⟩
  obtain ⟨hhh, hwidth, hprecision, hmin, heq⟩ := h
  rw [vformatAscii_spelling, if_pos ⟨hhh, hwidth, hprecision⟩, out_eq _ hhh hmin, Outcome.ok_bind,
    heq]

end StringData

end Drt
