import Drt.Core.Types.Format
import Drt.Lib.Printf

/-!
# Reading a conversion

What is written as ISO C says is read as what it means, label by label, whatever comes behind it.
The exceptions are the two characters of `hh` and numbers that a `ssize_t` does not hold.
-/

open List Outcome

namespace Drt

namespace StringData

variable {ω : Type} {args more : List (Argument ω)} {rest : Blob} {d : Directive} {output : Output}

/-! ## What is to be read -/

/-- The flags that have been read. -/
def Output.withFlags (output : Output) (flags : List Printf.Flag) : Output :=
  { output with
    zero := output.zero || decide (.zero ∈ flags)
    plus := output.plus || decide (.plus ∈ flags)
    minus := output.minus || decide (.minus ∈ flags)
    space := output.space || decide (.space ∈ flags)
    alt := output.alt || decide (.alt ∈ flags) }

/-- The length modifier that is read. -/
def lengthOf : Printf.Length → Length
  | .none => .none
  | .hh => .hh
  | .h => .h
  | .l => .l
  | .ll => .ll
  | .j => .j
  | .z => .z
  | .t => .t

/-- The value of `width`. -/
def widthOf : Printf.Width → Int
  | .omitted => 0
  | .number digits => Printf.decimal digits
  | .star arg => arg.toInt

/-- The value of `prec`. -/
def precOf : Printf.Precision → Int
  | .omitted => 0
  | .number digits => Printf.decimal digits
  | .star arg => arg.toInt

/-- The conversion that a width makes of the flags. -/
def Directive.behindFlags (output : Output) (width : Printf.Width) : Directive where
  width := widthOf width
  prec := 0
  flength := .none
  output :=
    { output with
      width := match width with
        | .number _ => true
        | _ => false }
  type := 0

/-- The conversion that a precision, a length modifier and a specifier make of another one. -/
def Directive.behindWidth (d : Directive) (precision : Printf.Precision) (length : Printf.Length)
    (specifier : Printf.Specifier) : Directive where
  width := d.width
  prec := precOf precision
  flength := lengthOf length
  output :=
    { d.output with
      big := d.output.big || decide (specifier = .X)
      prec := match precision with
        | .number digits => decide (digits ≠ [])
        | _ => false }
  type := specifier.char

/-- No flags. -/
def Output.none : Output := ⟨false, false, false, false, false, false, false, false⟩

/-- The conversion as the labels leave it behind. -/
def directiveOf (s : Printf.Conversion) : Directive :=
  (Directive.behindFlags (Output.none.withFlags s.flags) s.width).behindWidth s.precision s.length
    s.specifier

/-- The argument of a width. -/
def widthArgument : Printf.Width → List (Argument ω)
  | .star arg => [.int arg.toUInt32]
  | _ => []

/-- The argument of a precision. -/
def precisionArgument : Printf.Precision → List (Argument ω)
  | .star arg => [.int arg.toUInt32]
  | _ => []

/-- The argument of a value: an `int` where no longer one is called for. -/
def valueArgument (length : Printf.Length) (value : UInt64) : Argument ω :=
  match length with
  | .none => .int value.toUInt32
  | .hh => .int value.toUInt32
  | .h => .int value.toUInt32
  | _ => .long value

/-- A width of which every step fits a `ssize_t`. -/
def WidthFits : Printf.Width → Prop
  | .number digits => Printf.decimal digits + 48 < 2 ^ 63
  | _ => True

/-- A precision of which every step fits a `ssize_t`. -/
def PrecisionFits : Printf.Precision → Prop
  | .number digits => digits ≠ [] → Printf.decimal digits + 48 < 2 ^ 63
  | _ => True

instance : (width : Printf.Width) → Decidable (WidthFits width)
  | .omitted => inferInstanceAs (Decidable True)
  | .number digits => inferInstanceAs (Decidable (Printf.decimal digits + 48 < 2 ^ 63))
  | .star _ => inferInstanceAs (Decidable True)

instance : (precision : Printf.Precision) → Decidable (PrecisionFits precision)
  | .omitted => inferInstanceAs (Decidable True)
  | .number digits =>
    inferInstanceAs (Decidable (digits ≠ [] → Printf.decimal digits + 48 < 2 ^ 63))
  | .star _ => inferInstanceAs (Decidable True)

/-! ## Numbers -/

/-- The digits behind a number. -/
def addDigits : Int → Blob → Call Int
  | n, [] => .ok n
  | n, c :: digits => addDigit n c >>= fun n => addDigits n digits

theorem addDigit_spec {n : Nat} {c : UInt8} (hc : 48 ≤ c ∧ c ≤ 57) :
    addDigit n c = if 10 * n + (c.toNat - 48) + 48 < 2 ^ 63 then
      .ok ((10 * n + (c.toNat - 48) : Nat) : Int) else .fault := by
  have h48 : 48 ≤ c.toNat := UInt8.le_iff_toNat_le.mp hc.1
  have h57 : c.toNat ≤ 57 := UInt8.le_iff_toNat_le.mp hc.2
  have hssize (m : Int) (hm : 0 ≤ m) : ssize m = if m < 2 ^ 63 then .ok m else .fault := by
    unfold ssize
    by_cases h : m < 2 ^ 63
    · rw [if_pos ⟨by omega, h⟩, if_pos h]
    · rw [if_neg fun hboth => h hboth.2, if_neg h]
  unfold addDigit
  by_cases h : 10 * n + (c.toNat - 48) + 48 < 2 ^ 63
  · rw [hssize _ (by omega), if_pos (by omega), ok_bind, hssize _ (by omega),
      if_pos (by omega), ok_bind, hssize _ (by omega), if_pos (by omega), if_pos h]
    congr 1
    omega
  · rw [if_neg h, hssize _ (by omega)]
    split_ifs with hten
    · rw [ok_bind, hssize _ (by omega), if_neg (by omega)]
      rfl
    · rfl

theorem le_foldl_decimal (digits : Blob) (n : Nat) :
    n ≤ digits.foldl (fun number c => 10 * number + (c.toNat - 48)) n := by
  induction digits generalizing n with
  | nil => exact Nat.le_refl n
  | cons c digits ih => exact Nat.le_trans (by omega) (ih (10 * n + (c.toNat - 48)))

theorem addDigits_spec {digits : Blob} (hdigits : Printf.Decimal digits) (n : Nat) :
    addDigits n digits =
      if digits ≠ [] →
          digits.foldl (fun number c => 10 * number + (c.toNat - 48)) n + 48 < 2 ^ 63 then
        .ok ((digits.foldl (fun number c => 10 * number + (c.toNat - 48)) n : Nat) : Int)
      else .fault := by
  induction digits generalizing n with
  | nil => rfl
  | cons c digits ih =>
    obtain ⟨hc, hdigits⟩ := forall_mem_cons.mp hdigits
    have hle := le_foldl_decimal digits (10 * n + (c.toNat - 48))
    rw [addDigits, addDigit_spec hc, foldl_cons]
    by_cases hstep : 10 * n + (c.toNat - 48) + 48 < 2 ^ 63
    · rw [if_pos hstep, ok_bind, ih hdigits]
      congr 1
      rw [eq_iff_iff]
      cases digits with
      | nil => simpa using hstep
      | cons c' digits => simp
    · rw [if_neg hstep, fault_bind, if_neg]
      intro hall
      have := hall (cons_ne_nil _ _)
      omega

/-! ## Labels -/

/-- A letter of a conversion: no flag, no digit, no `*`, `.` or `%`. -/
def Letter (c : UInt8) : Prop := c ∉ ([45, 43, 48, 32, 35, 37, 42, 46] : Blob) ∧ isdigit c = false

instance (c : UInt8) : Decidable (Letter c) := inferInstanceAs (Decidable (_ ∧ _))

theorem letter_spelling (length : Printf.Length) (specifier : Printf.Specifier) (rest : Blob) :
    ∃ c tail, length.spelling ++ specifier.char :: rest = c :: tail ∧ Letter c := by
  cases length with
  | none => exact ⟨specifier.char, rest, rfl, by cases specifier <;> decide⟩
  | _ => exact ⟨_, _, rfl, by decide⟩

theorem sFlag_flags (flags : List Printf.Flag) (rest : Blob) (output : Output) :
    sFlag (flags.map Printf.Flag.char ++ rest) output = sFlag rest (output.withFlags flags) := by
  induction flags generalizing output with
  | nil => simp [Output.withFlags]
  | cons flag flags ih =>
    have hstep : sFlag ((flag :: flags).map Printf.Flag.char ++ rest) output =
        sFlag (flags.map Printf.Flag.char ++ rest) (output.withFlags [flag]) := by
      cases flag <;> simp [Printf.Flag.char, sFlag, Output.withFlags]
    rw [hstep, ih]
    congr 1
    cases flag <;> simp [Output.withFlags]

theorem sFlag_stop {c : UInt8} (hc : c ∉ ([45, 43, 48, 32, 35] : Blob)) (rest : Blob)
    (output : Output) : sFlag (c :: rest) output = (output, c :: rest) := by
  simp only [mem_cons, not_mem_nil, or_false, not_or] at hc
  obtain ⟨h45, h43, h48, h32, h35⟩ := hc
  rw [sFlag, if_neg h45, if_neg h43, if_neg h48, if_neg h32, if_neg h35]

theorem sType_specifier (specifier : Printf.Specifier) (rest : Blob) (d : Directive)
    (args : List (Argument ω)) :
    sType (specifier.char :: rest) d args =
      .ok ({ d with
        output := { d.output with big := d.output.big || decide (specifier = .X) }
        type := specifier.char }, rest, args) := by
  cases specifier <;> simp [sType, Printf.Specifier.char, Drt.ascii]

/-- The length modifier and the specifier are read, but for `hh`. -/
theorem sLength_spelling (length : Printf.Length) (specifier : Printf.Specifier) (rest : Blob)
    {d : Directive} (hd : d.flength = .none) (args : List (Argument ω)) :
    sLength (length.spelling ++ specifier.char :: rest) d args =
      if length = .hh then .fault
      else .ok ({ d with
        flength := lengthOf length
        output := { d.output with big := d.output.big || decide (specifier = .X) }
        type := specifier.char }, rest, args) := by
  cases length with
  | none =>
    have hnone : sLength (specifier.char :: rest) d args =
        sType (specifier.char :: rest) d args := by
      cases specifier <;> rfl
    show sLength (specifier.char :: rest) d args = _
    rw [hnone, sType_specifier]
    simp [lengthOf, ← hd]
  | hh => rfl
  | h =>
    have hnot : (specifier.char :: rest).head? ≠ some 104 := by
      cases specifier <;> simp [Printf.Specifier.char]
    show sType (specifier.char :: rest) { d with
      flength := (if (specifier.char :: rest).head? = some 104 then .hh else .h) } args = _
    rw [if_neg hnot, sType_specifier]
    rfl
  | l =>
    have hl : sLength (108 :: specifier.char :: rest) d args =
        sType (specifier.char :: rest) { d with flength := .l } args := by
      cases specifier <;> rfl
    exact hl.trans (sType_specifier _ _ _ _)
  | _ => exact sType_specifier _ _ _ _

section Numbers

variable {c : UInt8} {tail : Blob}

/-- The digits of a precision, and what comes behind them. -/
theorem sPrec_digits (hc : Letter c) {digits : Blob} (hdigits : Printf.Decimal digits)
    (d : Directive) (args : List (Argument ω)) :
    sPrec (digits ++ c :: tail) d args =
      addDigits d.prec digits >>= fun prec =>
        sLength (c :: tail) { d with
          prec := prec
          output := { d.output with prec := d.output.prec || decide (digits ≠ []) } } args := by
  induction digits generalizing d with
  | nil =>
    have h42 : c ≠ 42 := by
      rintro rfl
      exact absurd hc (by decide)
    rw [nil_append, sPrec, if_neg (by simp [hc.2]), if_neg h42]
    simp [addDigits]
  | cons digit digits ih =>
    obtain ⟨hdigit, hdigits⟩ := forall_mem_cons.mp hdigits
    have hisdigit : isdigit digit = true := decide_eq_true hdigit
    rw [cons_append, sPrec, if_pos hisdigit, addDigits, bind_assoc]
    congr 1
    funext prec
    rw [ih hdigits]
    simp

/-- The digits of a width, and what comes behind them. -/
theorem sWidth_digits {digits : Blob} (hdigits : Printf.Decimal digits) (d : Directive)
    (args : List (Argument ω)) :
    sWidth (digits ++ tail) d args =
      addDigits d.width digits >>= fun width =>
        sWidth tail { d with
          width := width
          output := { d.output with width := d.output.width || decide (digits ≠ []) } } args := by
  induction digits generalizing d with
  | nil => simp [addDigits]
  | cons digit digits ih =>
    obtain ⟨hdigit, hdigits⟩ := forall_mem_cons.mp hdigits
    have hisdigit : isdigit digit = true := decide_eq_true hdigit
    rw [cons_append, sWidth, if_pos hisdigit, addDigits, bind_assoc]
    congr 1
    funext width
    rw [ih hdigits]
    simp

end Numbers

theorem sWidth_letter {c : UInt8} (hc : Letter c) (tail : Blob) (d : Directive)
    (args : List (Argument ω)) : sWidth (c :: tail) d args = sLength (c :: tail) d args := by
  have hne (k : UInt8) (hk : ¬ Letter k) : c ≠ k := by
    rintro rfl
    exact hk hc
  rw [sWidth, if_neg (by simp [hc.2]), if_neg (hne 46 (by decide)), if_neg (hne 42 (by decide))]

/-- What comes behind a width. -/
theorem sWidth_precision {precision : Printf.Precision} (hvalid : precision.Valid)
    (length : Printf.Length) (specifier : Printf.Specifier) (rest : Blob) {d : Directive}
    (hflength : d.flength = .none) (hprec : d.prec = 0) (hset : d.output.prec = false)
    (more : List (Argument ω)) :
    sWidth (precision.spelling ++ (length.spelling ++ specifier.char :: rest)) d
        (precisionArgument precision ++ more) =
      if length ≠ .hh ∧ PrecisionFits precision then
        .ok (d.behindWidth precision length specifier, rest, more)
      else .fault := by
  obtain ⟨c, tail, htail, hc⟩ := letter_spelling length specifier rest
  have hlength {d' : Directive} (hd' : d'.flength = .none) :=
    htail ▸ sLength_spelling length specifier rest hd' more
  rw [htail]
  obtain ⟨width, prec, flength, output, type⟩ := d
  obtain rfl : flength = .none := hflength
  obtain rfl : prec = 0 := hprec
  have hbool : output.prec = false := hset
  cases precision with
  | omitted =>
    show sWidth (c :: tail) _ more = _
    rw [sWidth_letter hc, hlength rfl]
    by_cases hhh : length = .hh
    · simp [hhh]
    · simp [hhh, PrecisionFits, Directive.behindWidth, precOf, ← hbool]
  | number digits =>
    have hdot : sWidth ((Printf.Precision.number digits).spelling ++ c :: tail)
        ⟨width, 0, .none, output, type⟩ more =
          sPrec (digits ++ c :: tail) ⟨width, 0, .none, output, type⟩ more := rfl
    have hnumber : addDigits 0 digits = if PrecisionFits (.number digits) then
        .ok ((Printf.decimal digits : Nat) : Int) else .fault := addDigits_spec hvalid 0
    show sWidth _ _ more = _
    rw [hdot, sPrec_digits hc hvalid, hnumber]
    by_cases hfits : PrecisionFits (.number digits)
    · rw [if_pos hfits, ok_bind, hlength rfl]
      by_cases hhh : length = .hh
      · simp [hhh]
      · simp [hhh, hfits, hbool, Directive.behindWidth, precOf]
    · rw [if_neg hfits, if_neg fun hboth => hfits hboth.2, fault_bind]
  | star arg =>
    have hstar : sWidth ((Printf.Precision.star arg).spelling ++ c :: tail)
        ⟨width, 0, .none, output, type⟩ (precisionArgument (.star arg) ++ more) =
          sLength (c :: tail) ⟨width, arg.toInt, .none, output, type⟩ more := rfl
    rw [hstar, hlength rfl]
    by_cases hhh : length = .hh
    · simp [hhh]
    · simp [hhh, PrecisionFits, Directive.behindWidth, precOf, ← hbool]

/-- What comes behind the flags. -/
theorem sWidth_spelling (s : Printf.Conversion) (rest : Blob) (output : Output)
    (hwidth : output.width = false) (hprec : output.prec = false) (more : List (Argument ω)) :
    sWidth (s.width.spelling ++
        (s.precision.spelling ++ (s.length.spelling ++ s.specifier.char :: rest)))
        ⟨0, 0, .none, output, 0⟩
        (widthArgument s.width ++ (precisionArgument s.precision ++ more)) =
      if s.length ≠ .hh ∧ WidthFits s.width ∧ PrecisionFits s.precision then
        .ok ((Directive.behindFlags output s.width).behindWidth s.precision s.length s.specifier,
          rest, more)
      else .fault := by
  have hbehind {d : Directive} (hflength : d.flength = .none) (hprec : d.prec = 0)
      (hset : d.output.prec = false) :=
    sWidth_precision s.precision_valid s.length s.specifier rest hflength hprec hset more
  have hvalid := s.width_valid
  cases hw : s.width with
  | omitted =>
    show sWidth (s.precision.spelling ++ _) _ (precisionArgument s.precision ++ more) = _
    rw [hbehind rfl rfl hprec]
    simp [WidthFits, Directive.behindFlags, widthOf, ← hwidth]
  | number digits =>
    rw [hw] at hvalid
    have hnumber : addDigits 0 digits = if WidthFits (.number digits) then
        .ok ((Printf.decimal digits : Nat) : Int) else .fault := by
      rw [show addDigits 0 digits = _ from addDigits_spec hvalid.1 0]
      congr 1
      simp [hvalid.2.1, WidthFits, Printf.decimal]
    show sWidth (digits ++ _) _ (precisionArgument s.precision ++ more) = _
    rw [sWidth_digits hvalid.1, hnumber]
    by_cases hfits : WidthFits (.number digits)
    · rw [if_pos hfits, ok_bind, hbehind rfl rfl hprec]
      simp [hfits, Directive.behindFlags, widthOf, hvalid.2.1]
    · rw [if_neg hfits, if_neg fun hall => hfits hall.2.1, fault_bind]
  | star arg =>
    have hstar (tail : Blob) (more : List (Argument ω)) :
        sWidth (42 :: tail) ⟨0, 0, .none, output, 0⟩ (.int arg.toUInt32 :: more) =
          sWidth tail ⟨arg.toInt, 0, .none, output, 0⟩ more := rfl
    show sWidth (42 :: (s.precision.spelling ++ (s.length.spelling ++ s.specifier.char :: rest))) _
      (.int arg.toUInt32 :: (precisionArgument s.precision ++ more)) = _
    rw [hstar, hbehind rfl rfl hprec]
    simp [WidthFits, Directive.behindFlags, widthOf, ← hwidth]

/-- A width starts with no flag. -/
theorem sFlag_spelling (s : Printf.Conversion) (rest : Blob) (output : Output) :
    ∃ c tail, s.width.spelling ++
        (s.precision.spelling ++ (s.length.spelling ++ s.specifier.char :: rest)) = c :: tail ∧
      c ≠ 37 ∧ sFlag (c :: tail) output = (output, c :: tail) := by
  have hletter {c : UInt8} (hc : Letter c) (tail : Blob) :
      c ≠ 37 ∧ sFlag (c :: tail) output = (output, c :: tail) := by
    refine ⟨?_, sFlag_stop (fun hmem => hc.1 ?_) tail output⟩
    · rintro rfl
      exact absurd hc (by decide)
    · simp only [mem_cons, not_mem_nil, or_false] at hmem ⊢
      tauto
  have hvalid := s.width_valid
  cases hw : s.width with
  | omitted =>
    cases hp : s.precision with
    | omitted =>
      obtain ⟨c, tail, htail, hc⟩ := letter_spelling s.length s.specifier rest
      exact ⟨c, tail, htail, hletter hc tail⟩
    | number digits | star arg => exact ⟨46, _, rfl, by decide, rfl⟩
  | number digits =>
    rw [hw] at hvalid
    obtain ⟨hdecimal, hne, hzero⟩ := hvalid
    obtain ⟨c, digits, rfl⟩ := exists_cons_of_ne_nil hne
    have hc := hdecimal c mem_cons_self
    have h48 : c ≠ 48 := fun h => hzero (congrArg some h)
    have hne' (k : UInt8) (hk : k.toNat < 48) : c ≠ k := by
      rintro rfl
      have := UInt8.le_iff_toNat_le.mp hc.1
      exact absurd this (Nat.not_le.mpr hk)
    refine ⟨c, _, rfl, hne' 37 (by decide), sFlag_stop ?_ _ output⟩
    simp [h48, hne' 45 (by decide), hne' 43 (by decide), hne' 32 (by decide), hne' 35 (by decide)]
  | star arg => exact ⟨42, _, rfl, by decide, rfl⟩

/-- A conversion is one pass of the loop: it is read, and put out. -/
theorem vformatAscii_spelling (others : Others ω) (s : Printf.Conversion) (fuel : Nat)
    (rest : Blob) (more : List (Argument ω)) (data : StringData) :
    vformatAscii others (fuel + 1) (37 :: (s.spelling ++ rest))
        (widthArgument s.width ++ (precisionArgument s.precision ++ more)) data =
      if s.length ≠ .hh ∧ WidthFits s.width ∧ PrecisionFits s.precision then
        out others (directiveOf s) more data >>= fun (data, args) =>
          vformatAscii others fuel rest args data
      else .fault := by
  have happend : s.spelling ++ rest = s.flags.map Printf.Flag.char ++ (s.width.spelling ++
      (s.precision.spelling ++ (s.length.spelling ++ s.specifier.char :: rest))) := by
    simp [Printf.Conversion.spelling]
  obtain ⟨c, tail, htail, hc, hstop⟩ := sFlag_spelling s rest (Output.none.withFlags s.flags)
  have hflags : sFlag (s.spelling ++ rest)
      ⟨false, false, false, false, false, false, false, false⟩ =
        (Output.none.withFlags s.flags, c :: tail) := by
    rw [happend, sFlag_flags, htail]
    exact hstop
  have hwidth := sWidth_spelling s rest (Output.none.withFlags s.flags) rfl rfl more
  rw [htail] at hwidth
  rw [vformatAscii, if_pos rfl, hflags]
  split
  · rename_i heq
    exact absurd (List.cons.inj (Prod.mk.inj heq).2).1 hc
  · rename_i heq
    obtain ⟨rfl, rfl⟩ := Prod.mk.inj heq
    rw [hwidth]
    split_ifs
    · rfl
    · rfl

end StringData

end Drt
