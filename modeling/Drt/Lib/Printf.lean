import Mathlib.Data.Nat.Digits.Lemmas

/-!
# Integer conversions of `printf`

What ISO C says of `%d`, `%i`, `%u`, `%o`, `%x` and `%X`: how a conversion is written, and which
text comes out for an argument. An `int` has 32 bits here, and everything longer has 64.
-/

open List

namespace Printf

/-- The flags. -/
inductive Flag where
  | minus
  | plus
  | space
  | alt
  | zero
  deriving DecidableEq, Repr

/-- The length modifiers that mean something for integers. -/
inductive Length where
  | none
  | hh
  | h
  | l
  | ll
  | j
  | z
  | t
  deriving DecidableEq, Repr

/-- The conversion specifiers. -/
inductive Specifier where
  | d
  | i
  | u
  | o
  | x
  | X
  deriving DecidableEq, Repr

/-- A field width: a number, or an argument. -/
inductive Width where
  | omitted
  | number (digits : List UInt8)
  | star (arg : Int32)
  deriving DecidableEq, Repr

/-- A precision: a number, that may have no digits, or an argument. -/
inductive Precision where
  | omitted
  | number (digits : List UInt8)
  | star (arg : Int32)
  deriving DecidableEq, Repr

/-- Digits of base 10. -/
def Decimal (digits : List UInt8) : Prop := ∀ c ∈ digits, 48 ≤ c ∧ c ≤ 57

/-- A width does not start with a zero, which is a flag. -/
def Width.Valid : Width → Prop
  | number digits => Decimal digits ∧ digits ≠ [] ∧ digits.head? ≠ some 48
  | _ => True

/-- A precision has digits only. -/
def Precision.Valid : Precision → Prop
  | number digits => Decimal digits
  | _ => True

/-- Whether the `#` flag has a meaning. -/
def Specifier.hasAlternative : Specifier → Bool
  | .o => true
  | .x => true
  | .X => true
  | _ => false

/-- A conversion specification for which there is a text. -/
structure Conversion where
  flags : List Flag
  width : Width
  precision : Precision
  length : Length
  specifier : Specifier
  width_valid : width.Valid
  precision_valid : precision.Valid
  alternative : .alt ∈ flags → specifier.hasAlternative

/-! ## How it is written -/

/-- The character of a flag. -/
def Flag.char : Flag → UInt8
  | .minus => 45
  | .plus => 43
  | .space => 32
  | .alt => 35
  | .zero => 48

/-- The characters of a width. -/
def Width.spelling : Width → List UInt8
  | .omitted => []
  | .number digits => digits
  | .star _ => [42]

/-- The characters of a precision. -/
def Precision.spelling : Precision → List UInt8
  | .omitted => []
  | .number digits => 46 :: digits
  | .star _ => [46, 42]

/-- The characters of a length modifier. -/
def Length.spelling : Length → List UInt8
  | .none => []
  | .hh => [104, 104]
  | .h => [104]
  | .l => [108]
  | .ll => [108, 108]
  | .j => [106]
  | .z => [122]
  | .t => [116]

/-- The character of a specifier. -/
def Specifier.char : Specifier → UInt8
  | .d => 100
  | .i => 105
  | .u => 117
  | .o => 111
  | .x => 120
  | .X => 88

/-- A conversion specification behind its `%`. -/
def Conversion.spelling (s : Conversion) : List UInt8 :=
  s.flags.map Flag.char ++ (s.width.spelling ++
    (s.precision.spelling ++ (s.length.spelling ++ [s.specifier.char])))

/-! ## What comes out -/

/-- The number that decimal digits denote. -/
def decimal (digits : List UInt8) : Nat :=
  digits.foldl (fun number c => 10 * number + (c.toNat - 48)) 0

/-- The width; that of a negative argument without its sign. -/
def Width.value : Width → Nat
  | .omitted => 0
  | .number digits => decimal digits
  | .star arg => arg.toInt.natAbs

/-- A negative argument counts as a `-` flag. -/
def Width.negative : Width → Bool
  | .star arg => arg < 0
  | _ => false

/-- The precision; a negative argument counts as none. -/
def Precision.value : Precision → Option Nat
  | .omitted => none
  | .number digits => some (decimal digits)
  | .star arg => if arg < 0 then none else some arg.toInt.toNat

/-- The value of an argument of a signed conversion. -/
def Length.signed : Length → UInt64 → Int
  | .none, value => value.toUInt32.toInt32.toInt
  | .hh, value => value.toUInt8.toInt8.toInt
  | .h, value => value.toUInt16.toInt16.toInt
  | _, value => value.toInt64.toInt

/-- The value of an argument of an unsigned conversion. -/
def Length.unsigned : Length → UInt64 → Nat
  | .none, value => value.toUInt32.toNat
  | .hh, value => value.toUInt8.toNat
  | .h, value => value.toUInt16.toNat
  | _, value => value.toNat

/-- The base of a conversion. -/
def Specifier.base : Specifier → Nat
  | .o => 8
  | .x => 16
  | .X => 16
  | _ => 10

/-- Whether a conversion takes a signed argument. -/
def Specifier.isSigned : Specifier → Bool
  | .d => true
  | .i => true
  | _ => false

/-- The digits: `abcdef`, or `ABCDEF` for `X`. -/
def Specifier.digit (specifier : Specifier) (d : Nat) : UInt8 :=
  UInt8.ofNat (if d < 10 then 48 + d else if specifier = .X then 55 + d else 87 + d)

/-- The digits of a number, without leading zeros. -/
def numeral (digit : Nat → UInt8) (base number : Nat) : List UInt8 :=
  if number = 0 then [digit 0] else ((Nat.digits base number).map digit).reverse

section Numeral

variable {digit : Nat → UInt8} {base number : Nat}

theorem numeral_of_le (hbase : 1 < base) (h : base ≤ number) :
    numeral digit base number =
      numeral digit base (number / base) ++ [digit (number % base)] := by
  have hpos : 0 < number / base := Nat.div_pos h (by omega)
  rw [numeral, if_neg (by omega), numeral, if_neg (by omega),
    Nat.digits_def' hbase (by omega), map_cons, reverse_cons]

theorem numeral_of_lt (h : number < base) : numeral digit base number = [digit number] := by
  rw [numeral]
  split_ifs with hzero
  · rw [hzero]
  · rw [Nat.digits_of_lt base number hzero h]
    rfl

theorem numeral_congr {digit digit' : Nat → UInt8} {base : Nat} (hbase : 1 < base)
    (h : ∀ d < base, digit d = digit' d) (number : Nat) :
    numeral digit base number = numeral digit' base number := by
  unfold numeral
  rw [h 0 (by omega)]
  congr 2
  exact map_congr_left fun d hd => h d (Nat.digits_lt_base hbase hd)

theorem length_numeral_le (hbase : 1 < base) (h : number < 2 ^ 64) :
    (numeral digit base number).length ≤ 64 := by
  unfold numeral
  split_ifs with hzero
  · exact Nat.le_trans (Nat.le_refl 1) (by decide)
  · rw [length_reverse, length_map, Nat.digits_length_le_iff hbase]
    exact Nat.lt_of_lt_of_le h (Nat.pow_le_pow_left hbase 64)

theorem numeral_ne_nil (digit : Nat → UInt8) (base number : Nat) :
    numeral digit base number ≠ [] := by
  unfold numeral
  split_ifs with hzero
  · exact cons_ne_nil _ _
  · simpa [Nat.digits_eq_nil_iff_eq_zero] using hzero

/-- The first digit of a number other than zero is none. -/
theorem head?_numeral (digit : Nat → UInt8) (hbase : 1 < base) (hnumber : number ≠ 0) :
    ∃ d, 0 < d ∧ d < base ∧ (numeral digit base number).head? = some (digit d) := by
  have hne : Nat.digits base number ≠ [] := Nat.digits_ne_nil_iff_ne_zero.mpr hnumber
  refine ⟨(Nat.digits base number).getLast hne, ?_, ?_, ?_⟩
  · exact Nat.pos_of_ne_zero (Nat.getLast_digit_ne_zero base hnumber)
  · exact Nat.digits_lt_base hbase (getLast_mem hne)
  · rw [numeral, if_neg hnumber, List.head?_reverse, List.getLast?_map,
      List.getLast?_eq_getLast_of_ne_nil hne]
    rfl

end Numeral

namespace Conversion

variable (s : Conversion) (value : UInt64)

/-- The value as a number: of a signed conversion without its sign. -/
def magnitude : Nat :=
  if s.specifier.isSigned then (s.length.signed value).natAbs else s.length.unsigned value

/-- Whether the value is negative. -/
def negative : Bool := s.specifier.isSigned ∧ s.length.signed value < 0

/-- The digits of the value. -/
def digits : List UInt8 := numeral s.specifier.digit s.specifier.base (s.magnitude value)

/-- At least so many digits as the precision says: one, where there is none. Zero has no digits
with a precision of zero. -/
def preciseDigits : List UInt8 :=
  let digits := if s.magnitude value = 0 ∧ s.precision.value = some 0 then [] else s.digits value
  List.replicate (s.precision.value.getD 1 - digits.length) 48 ++ digits

/-- The `#` flag of `%o` makes the first digit a zero. -/
def wholeDigits : List UInt8 :=
  if .alt ∈ s.flags ∧ s.specifier = .o ∧ (s.preciseDigits value).head? ≠ some 48 then
    48 :: s.preciseDigits value
  else s.preciseDigits value

/-- The sign of a signed conversion, or what the `#` flag of `%x` and `%X` puts before a value other
than zero. -/
def lead : List UInt8 :=
  if s.specifier.isSigned then
    if s.negative value then [45]
    else if .plus ∈ s.flags then [43]
    else if .space ∈ s.flags then [32]
    else []
  else if .alt ∈ s.flags ∧ s.magnitude value ≠ 0 then
    match s.specifier with
    | .x => [48, 120]
    | .X => [48, 88]
    | _ => []
  else []

/-- Whether the field is filled on the right. -/
def leftJustified : Bool := .minus ∈ s.flags ∨ s.width.negative

/-- The characters that are missing of the width. -/
def missing : Nat := s.width.value - ((s.lead value).length + (s.wholeDigits value).length)

/-- The text of a conversion. -/
def text : List UInt8 :=
  if s.leftJustified then
    s.lead value ++ s.wholeDigits value ++ List.replicate (s.missing value) 32
  else if .zero ∈ s.flags ∧ s.precision.value = none then
    s.lead value ++ List.replicate (s.missing value) 48 ++ s.wholeDigits value
  else List.replicate (s.missing value) 32 ++ (s.lead value ++ s.wholeDigits value)

/-! ## Texts -/

variable {s value}

theorem length_text :
    (s.text value).length =
      max s.width.value ((s.lead value).length + (s.wholeDigits value).length) := by
  unfold text missing
  split_ifs <;> simp only [length_append, length_replicate] <;> omega

theorem text_of_le
    (h : s.width.value ≤ (s.lead value).length + (s.wholeDigits value).length) :
    s.text value = s.lead value ++ s.wholeDigits value := by
  have hmissing : s.missing value = 0 := Nat.sub_eq_zero_of_le h
  unfold text
  split_ifs <;> simp [hmissing]

theorem head?_text (hleft : s.leftJustified = false)
    (hzero : .zero ∈ s.flags → s.precision.value ≠ none) (hmissing : 0 < s.missing value) :
    (s.text value).head? = some 32 := by
  obtain ⟨n, hn⟩ := Nat.exists_eq_add_of_lt hmissing
  rw [text, if_neg (by simp [hleft]), if_neg fun hboth => hzero hboth.1 hboth.2, hn]
  simp [replicate_succ]

theorem mem_text {c : UInt8} (h : c ∈ s.text value) :
    c ∈ s.lead value ∨ c ∈ s.wholeDigits value ∨ c = 32 ∨
      c = 48 ∧ .zero ∈ s.flags ∧ s.precision.value = none := by
  unfold text at h
  split_ifs at h with hleft hzero
  · simp only [mem_append, mem_replicate] at h
    tauto
  · simp only [mem_append, mem_replicate] at h
    tauto
  · simp only [mem_append, mem_replicate] at h
    tauto

theorem preciseDigits_empty (h : s.magnitude value = 0) (hprecision : s.precision.value = some 0) :
    s.preciseDigits value = [] := by
  simp [preciseDigits, h, hprecision]

/-- Otherwise zeros are put before the digits. -/
theorem preciseDigits_eq
    (h : s.magnitude value = 0 → s.precision.value ≠ some 0) :
    s.preciseDigits value =
      List.replicate (s.precision.value.getD 0 - (s.digits value).length) 48 ++ s.digits value := by
  have hpos : 0 < (s.digits value).length := length_pos_iff.mpr (numeral_ne_nil _ _ _)
  have hdigits : (if s.magnitude value = 0 ∧ s.precision.value = some 0 then []
      else s.digits value) = s.digits value := if_neg fun hboth => h hboth.1 hboth.2
  unfold preciseDigits
  rw [hdigits]
  cases s.precision.value with
  | none =>
    have hone : 1 - (s.digits value).length = 0 := by omega
    simp [hone]
  | some n => rfl

/-- A blank in place of a sign is the first character, or behind others. -/
theorem head?_text_blank (h : s.lead value = [32]) : (s.text value).head? = some 32 := by
  unfold text
  rw [h]
  split_ifs
  · rfl
  · rfl
  · cases s.missing value <;> rfl

theorem blank_not_mem_digits (s : Conversion) (value : UInt64) : 32 ∉ s.digits value := by
  have hbase : 1 < s.specifier.base ∧ s.specifier.base ≤ 16 := by cases s.specifier <;> decide
  have hdigit (d : Nat) (hd : d < 16) : s.specifier.digit d ≠ 32 := by
    revert d
    cases s.specifier <;> decide
  intro hmem
  unfold digits numeral at hmem
  split_ifs at hmem
  · exact hdigit 0 (by omega) (mem_singleton.mp hmem).symm
  · obtain ⟨d, hd, heq⟩ := mem_map.mp (mem_reverse.mp hmem)
    have hlt := Nat.digits_lt_base hbase.1 hd
    exact hdigit d (by omega) heq

theorem digits_zero (h : s.magnitude value = 0) : s.digits value = [48] := by
  rw [digits, h]
  rfl

end Conversion

end Printf
