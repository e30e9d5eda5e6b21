import Drt.Core.Types.DrString
import Mathlib.Data.List.TakeWhile
import Mathlib.Tactic.Ring

/-!
# Numbers as text

`appendNumber`, and the functions of the C library that read numbers and classify
characters, in the "C" locale. What `strtol` reads is a text without an end of its
own: it stops at the first character that is no digit, the terminating zero at last.
-/

open List

namespace Drt

def isspace (c : UInt8) : Bool := c = 32 ∨ (9 ≤ c ∧ c ≤ 13)

def isdigit (c : UInt8) : Bool := 48 ≤ c ∧ c ≤ 57

def isalpha (c : UInt8) : Bool := (65 ≤ c ∧ c ≤ 90) ∨ (97 ≤ c ∧ c ≤ 122)

def isalnum (c : UInt8) : Bool := isdigit c ∨ (65 ≤ c ∧ c ≤ 90) ∨ (97 ≤ c ∧ c ≤ 122)

def tolower (c : UInt8) : UInt8 := if 65 ≤ c ∧ c ≤ 90 then c + 32 else c

/-- `"0123456789abcdefghijklmnopqrstuvwxyz"[d]`. -/
def digitChar (d : Nat) : UInt8 := UInt8.ofNat (if d < 10 then 48 + d else 87 + d)

/-- The value of a digit of any base, or 36. -/
def digitValue (c : UInt8) : Nat :=
  if 48 ≤ c ∧ c ≤ 57 then c.toNat - 48
  else if 97 ≤ c ∧ c ≤ 122 then c.toNat - 87
  else if 65 ≤ c ∧ c ≤ 90 then c.toNat - 55
  else 36

/-- The loop of `appendNumber`: the digits of a number, the last one first. -/
def digitsFrom (base : Nat) : Nat → Nat → Blob
  | 0, _ => []
  | fuel + 1, number =>
    digitChar (number % base) :: if number / base = 0 then [] else digitsFrom base fuel (number / base)

/-- What `appendNumber` appends for a `Uint64`. A number of 64 bits has at most 64 digits. -/
def numberText (base number : Nat) : Blob := (digitsFrom base 64 number).reverse

/-- What `appendNumber` appends for a signed number. -/
def intText (base : Nat) (number : Int) : Blob :=
  if number < 0 then 45 :: numberText base number.natAbs else numberText base number.natAbs

/-- The number these digits denote. -/
def numeral (base : Nat) (digits : Blob) : Nat :=
  digits.foldl (fun number c => number * base + digitValue c) 0

/-- The digits at the start of a text. -/
def digitRun (base : Nat) (text : Blob) : Blob := text.takeWhile fun c => digitValue c < base

/-- Whether `0x` and a digit of base 16 come next. -/
def hexPrefixed : Blob → Bool
  | a :: x :: d :: _ => a = 48 ∧ (x = 120 ∨ x = 88) ∧ digitValue d < 16
  | _ => false

/-- The bounds of a `long`. -/
def clampLong (number : Int) : Int := max (-2 ^ 63) (min number (2 ^ 63 - 1))

/-- `strtol` after the blanks and the sign: the number, and how many characters it takes. -/
def strtolUnsigned (base : Nat) (text : Blob) : Option (Nat × Nat) :=
  let (skip, base) :=
    if (base = 0 ∨ base = 16) ∧ hexPrefixed text then (2, 16)
    else if base = 0 then (0, if text.head? = some 48 then 8 else 10)
    else (0, base)
  let digits := digitRun base (text.drop skip)
  if digits = [] then none else some (numeral base digits, skip + digits.length)

/-- `strtol(text, &end, base)`: the number, and the place of `end`. -/
def strtol (base : Nat) (text : Blob) : Int × Nat :=
  let blanks := (text.takeWhile isspace).length
  let text := text.drop blanks
  let sign := if text.head? = some 45 ∨ text.head? = some 43 then 1 else 0
  match strtolUnsigned base (text.drop sign) with
  | none => (0, 0)
  | some (number, length) =>
    (clampLong (if text.head? = some 45 then -number else number), blanks + sign + length)

/-- The text of octets in the value of an exception. -/
def latin (octets : Blob) : String := String.ofList (octets.map fun c => Char.ofNat c.toNat)

theorem foldl_numeral (base : Nat) (digits : Blob) (n : Nat) :
    digits.foldl (fun number c => number * base + digitValue c) n =
      n * base ^ digits.length + numeral base digits := by
  induction digits generalizing n with
  | nil => simp [numeral]
  | cons c digits ih =>
    have hnumeral : numeral base (c :: digits) =
        digitValue c * base ^ digits.length + numeral base digits := by
      rw [numeral, foldl_cons, ih, Nat.zero_mul, Nat.zero_add]
    rw [foldl_cons, ih, hnumeral, length_cons, Nat.pow_succ]
    ring

theorem numeral_cons (base : Nat) (c : UInt8) (digits : Blob) :
    numeral base (c :: digits) = digitValue c * base ^ digits.length + numeral base digits := by
  rw [numeral, foldl_cons, foldl_numeral, Nat.zero_mul, Nat.zero_add]

variable {digits rest text : Blob} {c sign : UInt8} {base fuel k number : Nat}

theorem numeral_lt (h : ∀ c ∈ digits, digitValue c < 10) :
    numeral 10 digits < 10 ^ digits.length := by
  induction digits with
  | nil => simp [numeral]
  | cons c digits ih =>
    obtain ⟨hc, h⟩ := forall_mem_cons.mp h
    have hdigits := ih h
    have hfirst : digitValue c * 10 ^ digits.length ≤ 9 * 10 ^ digits.length :=
      Nat.mul_le_mul_right _ (by omega)
    rw [numeral_cons, length_cons, Nat.pow_succ]
    omega

theorem digitValue_lt_ten_iff : digitValue c < 10 ↔ isdigit c = true := by
  by_cases h : 48 ≤ c ∧ c ≤ 57
  · have hle : c.toNat ≤ 57 := UInt8.le_iff_toNat_le.mp h.2
    rw [digitValue, if_pos h, isdigit, decide_eq_true_eq]
    exact iff_of_true (by omega) h
  · rw [digitValue, if_neg h, isdigit, decide_eq_true_eq]
    refine iff_of_false ?_ h
    split_ifs with hlower hupper
    · have hle : 97 ≤ c.toNat := UInt8.le_iff_toNat_le.mp hlower.1
      omega
    · have hle : 65 ≤ c.toNat := UInt8.le_iff_toNat_le.mp hupper.1
      omega
    · omega

theorem digitValue_digitChar {d : Nat} (h : d < 36) : digitValue (digitChar d) = d := by
  revert d
  decide

theorem numeral_reverse (base : Nat) (digits : Blob) :
    numeral base digits.reverse =
      digits.foldr (fun c number => number * base + digitValue c) 0 := by
  rw [numeral, foldl_reverse]

/-- The digits of a number denote it. -/
theorem foldr_digitsFrom (hbase : 2 ≤ base) (hbase' : base ≤ 36) (h : number < base ^ fuel) :
    (digitsFrom base fuel number).foldr (fun c number => number * base + digitValue c) 0 =
      number := by
  induction fuel generalizing number with
  | zero =>
    have hzero : number = 0 := by simpa using h
    rw [hzero]
    rfl
  | succ fuel ih =>
    have hmod : number % base < base := Nat.mod_lt _ (by omega)
    have hdiv : number / base < base ^ fuel := by
      rw [Nat.div_lt_iff_lt_mul (by omega), ← Nat.pow_succ]
      exact h
    have hsplit := Nat.div_add_mod number base
    rw [digitsFrom, foldr_cons, digitValue_digitChar (by omega)]
    split_ifs with hlast
    · rw [hlast] at hsplit
      simpa using hsplit
    · rw [ih hdiv, Nat.mul_comm]
      exact hsplit

theorem lt_pow_base (hbase : 2 ≤ base) (h : number < 2 ^ 64) : number < base ^ 64 :=
  Nat.lt_of_lt_of_le h (Nat.pow_le_pow_left hbase 64)

theorem numeral_numberText (hbase : 2 ≤ base) (hbase' : base ≤ 36) (h : number < 2 ^ 64) :
    numeral base (numberText base number) = number := by
  rw [numberText, numeral_reverse, foldr_digitsFrom hbase hbase' (lt_pow_base hbase h)]

/-- The text of a number has only digits. -/
theorem digitValue_lt_of_mem (hbase : 2 ≤ base) (hbase' : base ≤ 36)
    (h : c ∈ numberText base number) : digitValue c < base := by
  have hdigits (fuel number : Nat) (hc : c ∈ digitsFrom base fuel number) :
      digitValue c < base := by
    induction fuel generalizing number with
    | zero => cases hc
    | succ fuel ih =>
      have hmod : number % base < base := Nat.mod_lt _ (by omega)
      rw [digitsFrom, mem_cons] at hc
      rcases hc with rfl | hc
      · rw [digitValue_digitChar (by omega)]
        exact hmod
      · split_ifs at hc
        · cases hc
        · exact ih _ hc
  exact hdigits 64 number (mem_reverse.mp h)

theorem digitsFrom_ne_nil (base fuel number : Nat) : digitsFrom base (fuel + 1) number ≠ [] := by
  rw [digitsFrom]
  exact cons_ne_nil _ _

theorem numberText_ne_nil (base number : Nat) : numberText base number ≠ [] := by
  rw [numberText, ne_eq, reverse_eq_nil_iff]
  exact digitsFrom_ne_nil base 63 number

theorem minus_not_mem (hbase : 2 ≤ base) (hbase' : base ≤ 36) (number : Nat) :
    45 ∉ numberText base number := by
  intro h
  have hdigit : digitValue 45 < base := digitValue_lt_of_mem hbase hbase' h
  rw [show digitValue 45 = 36 from rfl] at hdigit
  omega

/-- How many digits a number has, in the loop. -/
theorem length_digitsFrom_le_iff (hbase : 2 ≤ base) (h : number < base ^ fuel) :
    (digitsFrom base fuel number).length ≤ k + 1 ↔ number < base ^ (k + 1) := by
  have hpos : 0 < base := by omega
  induction fuel generalizing number k with
  | zero =>
    rw [Nat.pow_zero, Nat.lt_one_iff] at h
    rw [h]
    exact iff_of_true (Nat.zero_le _) (Nat.pow_pos hpos)
  | succ fuel ih =>
    rw [digitsFrom, length_cons, Nat.add_le_add_iff_right]
    by_cases hlast : number / base = 0
    · have hlt : number < base := (Nat.div_eq_zero_iff_lt hpos).mp hlast
      rw [if_pos hlast]
      exact iff_of_true (Nat.zero_le _) (Nat.lt_of_lt_of_le hlt (Nat.le_self_pow (by omega) base))
    · rw [if_neg hlast]
      rw [Nat.pow_succ] at h
      have hrest : number / base < base ^ fuel := (Nat.div_lt_iff_lt_mul hpos).mpr h
      cases k with
      | zero =>
        have hle : base ≤ number := by
          by_contra hlt
          exact hlast (Nat.div_eq_of_lt (Nat.lt_of_not_le hlt))
        refine iff_of_false ?_ (by rw [Nat.zero_add, Nat.pow_one]; omega)
        cases fuel with
        | zero =>
          rw [Nat.pow_zero, Nat.lt_one_iff] at hrest
          exact absurd hrest hlast
        | succ fuel =>
          rw [Nat.le_zero, length_eq_zero_iff]
          exact digitsFrom_ne_nil base fuel _
      | succ k =>
        rw [Nat.pow_succ base (k + 1)]
        exact (ih hrest).trans (Nat.div_lt_iff_lt_mul hpos)

theorem length_numberText_le_iff (hbase : 2 ≤ base) (h : number < 2 ^ 64) :
    (numberText base number).length ≤ k + 1 ↔ number < base ^ (k + 1) := by
  rw [numberText, length_reverse]
  exact length_digitsFrom_le_iff hbase (Nat.lt_of_lt_of_le h (Nat.pow_le_pow_left hbase 64))

/-- Different numbers have different texts. -/
theorem intText_injective (hbase : 2 ≤ base) (hbase' : base ≤ 36) {number read : Int}
    (hnumber : number.natAbs < 2 ^ 64) (hread : read.natAbs < 2 ^ 64)
    (h : intText base number = intText base read) : number = read := by
  have htext : numberText base number.natAbs = numberText base read.natAbs →
      number.natAbs = read.natAbs := by
    intro htext
    rw [← numeral_numberText hbase hbase' hnumber, htext, numeral_numberText hbase hbase' hread]
  unfold intText at h
  by_cases hneg : number < 0
  · rw [if_pos hneg] at h
    by_cases hneg' : read < 0
    · rw [if_pos hneg', List.cons.injEq] at h
      have := htext h.2
      omega
    · rw [if_neg hneg'] at h
      exact absurd (h ▸ mem_cons_self) (minus_not_mem hbase hbase' read.natAbs)
  · rw [if_neg hneg] at h
    by_cases hneg' : read < 0
    · rw [if_pos hneg'] at h
      exact absurd (h ▸ mem_cons_self) (minus_not_mem hbase hbase' number.natAbs)
    · rw [if_neg hneg'] at h
      have := htext h
      omega

theorem numberText_zero : numberText base 0 = [48] := by
  rw [numberText, digitsFrom, Nat.zero_mod, Nat.zero_div, if_pos rfl]
  rfl

/-- The first digit of a number other than zero is not zero. -/
theorem getLast?_digitsFrom (hbase : 2 ≤ base) (hbase' : base ≤ 36) (h : number < base ^ fuel)
    (hpos : 0 < number) :
    ∃ d, 0 < d ∧ d < base ∧ (digitsFrom base fuel number).getLast? = some (digitChar d) := by
  induction fuel generalizing number with
  | zero => simp at h; omega
  | succ fuel ih =>
    have hmod : number % base < base := Nat.mod_lt _ (by omega)
    have hdiv : number / base < base ^ fuel := by
      rw [Nat.div_lt_iff_lt_mul (by omega), ← Nat.pow_succ]
      exact h
    have hsplit := Nat.div_add_mod number base
    rw [digitsFrom]
    split_ifs with hlast
    · rw [hlast] at hsplit
      exact ⟨number % base, by omega, hmod, rfl⟩
    · obtain ⟨d, hd, hlt, heq⟩ := ih hdiv (Nat.pos_of_ne_zero hlast)
      exact ⟨d, hd, hlt, by rw [List.getLast?_cons, heq]; rfl⟩

theorem head?_numberText (hbase : 2 ≤ base) (hbase' : base ≤ 36) (h : number < 2 ^ 64)
    (hpos : 0 < number) :
    ∃ d, 0 < d ∧ d < base ∧ (numberText base number).head? = some (digitChar d) := by
  obtain ⟨d, hd, hlt, heq⟩ := getLast?_digitsFrom hbase hbase' (lt_pow_base hbase h) hpos
  exact ⟨d, hd, hlt, by rw [numberText, List.head?_reverse, heq]⟩

/-- A text that does not go on with a digit or a letter. -/
def Stops (text : Blob) : Prop := ∀ c, text.head? = some c → digitValue c = 36

theorem le_of_digit (h : digitValue c < 36) : 48 ≤ c := by
  unfold digitValue at h
  rw [UInt8.le_iff_toNat_le]
  split_ifs at h with h₁ h₂ h₃
  · exact UInt8.le_iff_toNat_le.mp h₁.1
  · exact Nat.le_trans (by decide) (UInt8.le_iff_toNat_le.mp h₂.1)
  · exact Nat.le_trans (by decide) (UInt8.le_iff_toNat_le.mp h₃.1)
  · exact absurd h (Nat.lt_irrefl 36)

theorem not_blank_of_digit (h : digitValue c < 36) : isspace c = false ∧ c ≠ 45 ∧ c ≠ 43 := by
  have hle := UInt8.le_iff_toNat_le.mp (le_of_digit h)
  have hne (k : UInt8) (hk : k.toNat < 48) : c ≠ k := by
    rintro rfl
    exact absurd hle (Nat.not_le.mpr hk)
  refine ⟨?_, hne 45 (by decide), hne 43 (by decide)⟩
  have hlt : ¬ c ≤ 13 := by
    rw [UInt8.le_iff_toNat_le]
    exact Nat.not_le.mpr (Nat.lt_of_lt_of_le (by decide) hle)
  simp [isspace, hne 32 (by decide), hlt]

theorem bounds_of_decimal (h : digitValue c < 10) : 48 ≤ c ∧ c ≤ 57 := by
  unfold digitValue at h
  split_ifs at h with h₁ h₂ h₃
  · exact h₁
  · have h97 : 97 ≤ c.toNat := UInt8.le_iff_toNat_le.mp h₂.1
    omega
  · have h65 : 65 ≤ c.toNat := UInt8.le_iff_toNat_le.mp h₃.1
    omega
  · omega

theorem eq_digitChar (h : digitValue c < 10) : c = digitChar (digitValue c) := by
  have hc := bounds_of_decimal h
  have hle : 48 ≤ c.toNat := UInt8.le_iff_toNat_le.mp hc.1
  have hvalue : digitValue c = c.toNat - 48 := by rw [digitValue, if_pos hc]
  rw [digitChar, if_pos h, hvalue, Nat.add_sub_cancel' hle, UInt8.ofNat_toNat]

/-- A digit of base 10 is printable, and the same in lower case. -/
theorem decimal_digit (h : digitValue c < 10) :
    32 ≤ c ∧ c < 127 ∧ isspace c = false ∧ tolower c = c := by
  have hle := bounds_of_decimal h
  have h57 : c.toNat ≤ 57 := UInt8.le_iff_toNat_le.mp hle.2
  refine ⟨UInt8.le_trans (by decide) hle.1, ?_, (not_blank_of_digit (by omega)).1, ?_⟩
  · exact UInt8.lt_iff_toNat_lt.mpr (Nat.lt_of_le_of_lt h57 (by decide))
  · have hnot : ¬ 65 ≤ c := by
      rw [UInt8.le_iff_toNat_le]
      exact Nat.not_le.mpr (Nat.lt_of_le_of_lt h57 (by decide))
    rw [tolower, if_neg fun hupper => hnot hupper.1]

/-- The digits at the start of a text that stops behind them. -/
theorem digitRun_append (hbase : base ≤ 36) (hdigits : ∀ c ∈ digits, digitValue c < base)
    (hrest : Stops rest) : digitRun base (digits ++ rest) = digits := by
  have hnone : rest.takeWhile (fun c => decide (digitValue c < base)) = [] := by
    cases rest with
    | nil => rfl
    | cons c rest =>
      have hc := hrest c rfl
      rw [takeWhile_cons, if_neg (by simp; omega)]
  rw [digitRun, takeWhile_append_of_pos (by simpa using hdigits), hnone, append_nil]

theorem length_of_hexPrefixed (h : hexPrefixed text = true) : 2 ≤ text.length := by
  match text, h with
  | _ :: _ :: _ :: _, _ => simp

/-- No more is taken for a number than is there. -/
theorem strtolUnsigned_le {length : Nat} (h : strtolUnsigned base text = some (number, length)) :
    length ≤ text.length := by
  have hrun (base skip : Nat) (hskip : skip ≤ text.length) :
      skip + (digitRun base (text.drop skip)).length ≤ text.length := by
    have hle := (List.takeWhile_prefix (l := text.drop skip)
      (fun c => decide (digitValue c < base))).length_le
    rw [length_drop] at hle
    rw [digitRun]
    omega
  simp only [strtolUnsigned] at h
  split_ifs at h with h₁ h₂ h₃ h₄ h₅
  all_goals obtain ⟨-, rfl⟩ := Prod.mk.inj (Option.some.inj h)
  · exact hrun 16 2 (length_of_hexPrefixed h₁.2)
  · exact hrun 8 0 (Nat.zero_le _)
  · exact hrun 10 0 (Nat.zero_le _)
  · exact hrun base 0 (Nat.zero_le _)

/-- `strtol` stops within the text. -/
theorem strtol_le (base : Nat) (text : Blob) : (strtol base text).2 ≤ text.length := by
  have hblanks := (List.takeWhile_prefix isspace (l := text)).length_le
  generalize hrest : text.drop (text.takeWhile isspace).length = rest
  have hlength : rest.length = text.length - (text.takeWhile isspace).length := by
    rw [← hrest, length_drop]
  have hsign : (if rest.head? = some 45 ∨ rest.head? = some 43 then 1 else 0) ≤ rest.length := by
    cases rest with
    | nil => simp
    | cons c rest =>
      split_ifs
      · exact Nat.succ_pos _
      · exact Nat.zero_le _
  simp only [strtol, hrest]
  generalize (if rest.head? = some 45 ∨ rest.head? = some 43 then 1 else 0) = sign at hsign ⊢
  cases hunsigned : strtolUnsigned base (rest.drop sign) with
  | none => exact Nat.zero_le _
  | some result =>
    obtain ⟨number, length⟩ := result
    have hle := strtolUnsigned_le hunsigned
    rw [length_drop] at hle
    show (text.takeWhile isspace).length + sign + length ≤ text.length
    omega

/-- A number that is written in base 10 or 16 is read in this base. Base 0 is told by the text. -/
theorem strtol_numberText {read : Nat}
    (hbase : base = 10 ∧ (read = 0 ∨ read = 10) ∨ base = 16 ∧ read = 16) (h : number < 2 ^ 63)
    (hrest : Stops rest) :
    strtol read (numberText base number ++ rest) =
      ((number : Int), (numberText base number).length) := by
  have hle : 2 ≤ base ∧ base ≤ 36 := by omega
  have hdigits : ∀ c ∈ numberText base number, digitValue c < base :=
    fun c hc => digitValue_lt_of_mem hle.1 hle.2 hc
  have hvalue : numeral base (numberText base number) = number :=
    numeral_numberText hle.1 hle.2 (by omega)
  obtain ⟨c, cs, htext⟩ := exists_cons_of_ne_nil (numberText_ne_nil base number)
  have hc : digitValue c < 36 :=
    Nat.lt_of_lt_of_le (hdigits c (htext ▸ mem_cons_self)) hle.2
  obtain ⟨hblank, hminus, hplus⟩ := not_blank_of_digit hc
  -- A text that starts with a zero is the zero itself, so that no `x` follows it.
  have hzero : c = 48 → numberText base number = [48] := by
    rintro rfl
    rcases Nat.eq_zero_or_pos number with rfl | hpos
    · exact numberText_zero
    · obtain ⟨d, hd, hlt, hhead⟩ := head?_numberText hle.1 hle.2 (by omega) hpos
      rw [htext, List.head?_cons] at hhead
      have hval := congrArg digitValue (Option.some.inj hhead)
      rw [digitValue_digitChar (by omega)] at hval
      exact absurd hval (by rw [show digitValue 48 = 0 by decide]; omega)
  have hhex : hexPrefixed (numberText base number ++ rest) = false := by
    by_cases hc48 : c = 48
    · rw [hzero hc48]
      match rest, hrest with
      | [], _ => rfl
      | [_], _ => rfl
      | x :: d :: _, hrest =>
        have hx := hrest x rfl
        have hx120 : x ≠ 120 := by rintro rfl; exact absurd hx (by decide)
        have hx88 : x ≠ 88 := by rintro rfl; exact absurd hx (by decide)
        simp [hexPrefixed, hx120, hx88]
    · rw [htext]
      match cs, rest with
      | _ :: _ :: _, _ => simp [hexPrefixed, hc48]
      | [_], [] => simp [hexPrefixed]
      | [_], _ :: _ => simp [hexPrefixed, hc48]
      | [], [] => simp [hexPrefixed]
      | [], [_] => simp [hexPrefixed]
      | [], _ :: _ :: _ => simp [hexPrefixed, hc48]
  have hunsigned : strtolUnsigned read (numberText base number ++ rest) =
      some (number, (numberText base number).length) := by
    have hrun := digitRun_append hle.2 hdigits hrest
    rw [strtolUnsigned, if_neg (by simp [hhex])]
    rcases hbase with ⟨rfl, rfl | rfl⟩ | ⟨rfl, rfl⟩
    · by_cases hc48 : c = 48
      · have htext := hzero hc48
        have hzero : number = 0 := by rw [← hvalue, htext]; rfl
        have hrun8 : digitRun 8 ([48] ++ rest) = [48] :=
          digitRun_append (by decide) (by decide) hrest
        rw [htext]
        simp only [if_true, cons_append, List.head?_cons, drop_zero]
        rw [nil_append] at *
        simp only [cons_append, nil_append] at hrun8
        simp [hrun8, hzero, numeral, digitValue]
      · have hhead : (numberText 10 number ++ rest).head? ≠ some 48 := by
          rw [htext]
          simpa using hc48
        simp only [if_true, if_neg hhead, drop_zero, hrun, hvalue]
        simp [numberText_ne_nil]
    · simp [hrun, hvalue, numberText_ne_nil]
    · simp [hrun, hvalue, numberText_ne_nil]
  have hclamp : clampLong number = number := by
    unfold clampLong
    omega
  have hblanks : (numberText base number ++ rest).takeWhile isspace = [] := by
    rw [htext, cons_append, takeWhile_cons, hblank]
    rfl
  have hhead : (numberText base number ++ rest).head? = some c := by rw [htext]; rfl
  simp only [strtol, hblanks, length_nil, drop_zero, hhead, Option.some.injEq, hminus,
    hplus, or_self, if_false, hunsigned, hclamp, Nat.zero_add]

/-- A run of digits ends before what does not go on with one. -/
theorem digitRun_append_stops (hbase : base ≤ 36) (text : Blob) (hrest : Stops rest) :
    digitRun base (text ++ rest) = digitRun base text := by
  by_cases hall : ∀ c ∈ text, digitValue c < base
  · have htext : digitRun base (text ++ []) = text := digitRun_append hbase hall (by simp [Stops])
    rw [digitRun_append hbase hall hrest]
    rw [append_nil] at htext
    exact htext.symm
  · induction text with
    | nil => simp at hall
    | cons c text ih =>
      rw [digitRun, digitRun, cons_append, takeWhile_cons, takeWhile_cons]
      by_cases hc : digitValue c < base
      · have htail : ¬ ∀ c ∈ text, digitValue c < base := by
          intro h
          exact hall (by simpa [hc] using h)
        simp only [hc, decide_true, if_true]
        exact congrArg (c :: ·) (ih htail)
      · simp [hc]

/-- Whether a text has the prefix of base 16 is seen before it stops. -/
theorem hexPrefixed_append (text : Blob) (hrest : Stops rest) :
    hexPrefixed (c :: text ++ rest) = hexPrefixed (c :: text) := by
  cases rest with
  | nil => rw [append_nil]
  | cons x rest =>
    have hx : digitValue x = 36 := hrest x rfl
    have hx120 : x ≠ 120 := by rintro rfl; exact absurd hx (by decide)
    have hx88 : x ≠ 88 := by rintro rfl; exact absurd hx (by decide)
    match text with
    | [] => cases rest <;> simp [hexPrefixed, hx120, hx88]
    | [d] => simp [hexPrefixed, hx]
    | _ :: _ :: _ => rfl

/-- A number is read from its text alone when it stops there. -/
theorem strtolUnsigned_append (text : Blob) (hrest : Stops rest) :
    strtolUnsigned 0 (c :: text ++ rest) = strtolUnsigned 0 (c :: text) := by
  have hdrop (n : Nat) (hn : n ≤ (c :: text).length) :
      (c :: text ++ rest).drop n = (c :: text).drop n ++ rest := drop_append_of_le_length hn
  have hhead : (c :: text ++ rest).head? = (c :: text).head? := rfl
  by_cases hhex : hexPrefixed (c :: text) = true
  · have hlength := length_of_hexPrefixed hhex
    simp only [strtolUnsigned, hexPrefixed_append text hrest, hhex, true_or, and_self, if_true,
      hdrop 2 hlength, digitRun_append_stops (show 16 ≤ 36 by decide) _ hrest]
  · by_cases hoctal : (c :: text).head? = some 48
    · simp only [strtolUnsigned, hexPrefixed_append text hrest, hhex, and_false, if_false,
        if_true, hhead, hoctal, hdrop 0 (Nat.zero_le _),
        digitRun_append_stops (show 8 ≤ 36 by decide) _ hrest, Bool.false_eq_true]
    · simp only [strtolUnsigned, hexPrefixed_append text hrest, hhex, and_false, if_false,
        if_true, hhead, hoctal, hdrop 0 (Nat.zero_le _),
        digitRun_append_stops (show 10 ≤ 36 by decide) _ hrest, Bool.false_eq_true]

theorem strtol_digit (base : Nat) (hc : digitValue c < 36) (text : Blob) :
    strtol base (c :: text) =
      match strtolUnsigned base (c :: text) with
      | none => (0, 0)
      | some (number, length) => (clampLong number, length) := by
  obtain ⟨hblank, hminus, hplus⟩ := not_blank_of_digit hc
  have hblanks : (c :: text).takeWhile isspace = [] := by
    rw [takeWhile_cons, hblank]
    rfl
  simp only [strtol, hblanks, length_nil, drop_zero, List.head?_cons,
    Option.some.injEq, hminus, hplus, or_self, if_false, Nat.zero_add]

theorem strtol_sign (base : Nat) (hsign : sign = 43 ∨ sign = 45) (text : Blob) :
    strtol base (sign :: text) =
      match strtolUnsigned base text with
      | none => (0, 0)
      | some (number, length) =>
        (clampLong (if sign = 45 then -number else number), 1 + length) := by
  have hblanks : (sign :: text).takeWhile isspace = [] := by
    rcases hsign with rfl | rfl <;> rfl
  have hor : sign = 45 ∨ sign = 43 := hsign.symm
  simp only [strtol, hblanks, length_nil, drop_zero, List.head?_cons,
    Option.some.injEq, hor, if_true, Nat.zero_add, drop_one, tail_cons]

theorem strtol_append (hc : digitValue c < 36) (text : Blob) (hrest : Stops rest) :
    strtol 0 (c :: text ++ rest) = strtol 0 (c :: text) := by
  have hwhole := strtol_digit 0 hc (text ++ rest)
  rw [← cons_append, strtolUnsigned_append text hrest] at hwhole
  rw [hwhole, strtol_digit 0 hc]

theorem strtol_sign_append (hsign : sign = 43 ∨ sign = 45) (text : Blob) (hrest : Stops rest) :
    strtol 0 (sign :: (c :: text ++ rest)) = strtol 0 (sign :: c :: text) := by
  rw [strtol_sign 0 hsign, strtolUnsigned_append text hrest, ← strtol_sign 0 hsign]

/-- A number that is the whole text has only digits and the letter of its prefix. -/
theorem digits_of_strtolUnsigned (h : strtolUnsigned 0 text = some (number, text.length)) :
    ∀ c ∈ text, digitValue c < 36 := by
  have hrun (base skip : Nat) (hbase : base ≤ 36) (hskip : skip ≤ text.length)
      (hlength : skip + (digitRun base (text.drop skip)).length = text.length) :
      ∀ c ∈ text.drop skip, digitValue c < 36 := by
    have hwhole : digitRun base (text.drop skip) = text.drop skip := by
      refine (List.takeWhile_prefix _).eq_of_length ?_
      rw [length_drop]
      exact Nat.eq_sub_of_add_eq' hlength
    intro c hc
    rw [← hwhole] at hc
    have hdigit : digitValue c < base :=
      of_decide_eq_true (all_eq_true.mp all_takeWhile c hc)
    exact Nat.lt_of_lt_of_le hdigit hbase
  simp only [strtolUnsigned, true_or, true_and, if_true] at h
  split_ifs at h with h₁ h₂ h₃ h₄ h₅
  · have hlength := (Prod.mk.inj (Option.some.inj h)).2
    have hdigits := hrun 16 2 (by decide) (length_of_hexPrefixed h₁) hlength
    match text, h₁ with
    | a :: x :: d :: rest, h₁ =>
      obtain ⟨rfl, hx, -⟩ := of_decide_eq_true h₁
      intro c hc
      rw [mem_cons, mem_cons] at hc
      rcases hc with rfl | rfl | hc
      · decide
      · rcases hx with rfl | rfl <;> decide
      · exact hdigits c hc
  · exact hrun 8 0 (by decide) (Nat.zero_le _) (Prod.mk.inj (Option.some.inj h)).2
  · exact hrun 10 0 (by decide) (Nat.zero_le _) (Prod.mk.inj (Option.some.inj h)).2

/-- A text behind the blanks and the sign of a number. -/
def behindSign (text : Blob) : Blob :=
  let text := text.drop (text.takeWhile isspace).length
  text.drop (if text.head? = some 45 ∨ text.head? = some 43 then 1 else 0)

/-- What a number of any base reads like depends on what comes behind this text. -/
def Unfinished (text : Blob) : Prop :=
  behindSign text = [] ∨ behindSign text = [48, 120] ∨ behindSign text = [48, 88]

instance (text : Blob) : Decidable (Unfinished text) :=
  inferInstanceAs (Decidable (_ ∨ _ ∨ _))

theorem digitRun_append_of_lt (rest : Blob) (h : (digitRun base text).length < text.length) :
    digitRun base (text ++ rest) = digitRun base text := by
  rw [digitRun, digitRun, takeWhile_append, if_neg]
  exact Nat.ne_of_lt h

/-- The prefix of base 16 is seen in a text that is not a part of it. -/
theorem hexPrefixed_append_of_ne (rest : Blob) (hzero : text ≠ [48]) (hlower : text ≠ [48, 120])
    (hupper : text ≠ [48, 88]) (hne : text ≠ []) :
    hexPrefixed (text ++ rest) = hexPrefixed text := by
  match text with
  | [a] =>
    have ha : a ≠ 48 := by
      rintro rfl
      exact hzero rfl
    match rest with
    | [] => rfl
    | [_] => rfl
    | _ :: _ :: _ => simp [hexPrefixed, ha]
  | [a, x] =>
    have hx : ¬ (a = 48 ∧ (x = 120 ∨ x = 88)) := by
      rintro ⟨rfl, rfl | rfl⟩
      · exact hlower rfl
      · exact hupper rfl
    match rest with
    | [] => rfl
    | d :: _ =>
      simp only [cons_append, nil_append, hexPrefixed, ← and_assoc, hx, false_and,
        decide_false]
  | _ :: _ :: _ :: _ => rfl

/-- The number behind a sign is settled where it stops within the text. -/
theorem strtolUnsigned_append_of_lt (rest : Blob) (hne : text ≠ []) (hlower : text ≠ [48, 120])
    (hupper : text ≠ [48, 88])
    (hstop : ∀ number length, strtolUnsigned 0 text = some (number, length) → length < text.length) :
    strtolUnsigned 0 (text ++ rest) = strtolUnsigned 0 text := by
  have hzero : text ≠ [48] := by
    rintro rfl
    exact absurd (hstop 0 1 (by decide)) (by decide)
  have hhex := hexPrefixed_append_of_ne rest hzero hlower hupper hne
  have hhead : (text ++ rest).head? = text.head? := List.head?_append_of_ne_nil _ hne
  have hrun {base skip : Nat} (hdrop : text.drop skip ≠ [])
      (hlen : digitRun base (text.drop skip) ≠ [] →
        skip + (digitRun base (text.drop skip)).length < text.length) :
      digitRun base ((text ++ rest).drop skip) = digitRun base (text.drop skip) := by
    have hpos := length_pos_iff.mpr hdrop
    rw [length_drop] at hpos
    rw [drop_append_of_le_length (by omega)]
    apply digitRun_append_of_lt
    rw [length_drop]
    by_cases hnil : digitRun base (text.drop skip) = []
    · rw [hnil]
      exact hpos
    · have hlt := hlen hnil
      omega
  unfold strtolUnsigned at hstop ⊢
  simp only [hhex, hhead, true_or, true_and, if_true] at hstop ⊢
  by_cases hstart : hexPrefixed text = true
  · simp only [if_pos hstart] at hstop ⊢
    rw [hrun]
    · intro hnil
      match text, hstart with
      | _ :: _ :: _ :: _, _ => cases hnil
    · intro hdigits
      exact hstop _ _ (if_neg hdigits)
  · simp only [if_neg hstart] at hstop ⊢
    rw [hrun]
    · exact hne
    · intro hdigits
      exact hstop _ _ (if_neg hdigits)

/-- What `strtol` makes of a text is settled where it stops within the text, unless the text ends
before the digits. -/
theorem strtol_append_of_lt (rest : Blob) (hfinished : ¬ Unfinished text)
    (hstop : (strtol 0 text).2 < text.length) : strtol 0 (text ++ rest) = strtol 0 text := by
  unfold Unfinished behindSign at hfinished
  unfold strtol at hstop ⊢
  simp only [not_or] at hfinished hstop ⊢
  obtain ⟨hne, hlower, hupper⟩ := hfinished
  have hblanks : (text.takeWhile isspace).length < text.length := by
    by_contra hall
    rw [drop_of_length_le (Nat.not_lt.mp hall)] at hne
    exact hne (by simp)
  have hlength : (text.drop (text.takeWhile isspace).length).length =
      text.length - (text.takeWhile isspace).length := length_drop
  rw [takeWhile_append, if_neg (Nat.ne_of_lt hblanks),
    drop_append_of_le_length (Nat.le_of_lt hblanks)]
  generalize (text.takeWhile isspace).length = blanks at *
  generalize text.drop blanks = behind at *
  have hhead : (behind ++ rest).head? = behind.head? := by
    apply List.head?_append_of_ne_nil
    rintro rfl
    exact hne drop_nil
  rw [hhead]
  generalize hsign : (if behind.head? = some 45 ∨ behind.head? = some 43 then 1 else 0) = sign at *
  have hle : sign < behind.length := by
    by_contra hall
    exact hne (drop_of_length_le (Nat.not_lt.mp hall))
  rw [drop_append_of_le_length (Nat.le_of_lt hle),
    strtolUnsigned_append_of_lt rest hne hlower hupper]
  intro number length hnumber
  rw [hnumber] at hstop
  simp only at hstop
  rw [length_drop]
  omega

/-- A text that ends before the digits goes on as a number with a digit behind it. -/
theorem strtol_unfinished (h : Unfinished text) :
    (strtol 0 (text ++ [53, 59])).2 = text.length + 1 := by
  unfold Unfinished behindSign at h
  unfold strtol
  simp only at h ⊢
  have hlength : (text.drop (text.takeWhile isspace).length).length =
      text.length - (text.takeWhile isspace).length := length_drop
  have hle : (text.takeWhile isspace).length ≤ text.length :=
    (List.takeWhile_prefix isspace).length_le
  have hblanks : (text ++ [53, 59]).takeWhile isspace = text.takeWhile isspace := by
    have hdigit : [53, 59].takeWhile isspace = [] := by decide
    rw [takeWhile_append, hdigit, append_nil]
    split_ifs with hall
    · exact ((List.takeWhile_prefix isspace).eq_of_length hall).symm
    · rfl
  rw [hblanks, drop_append_of_le_length hle]
  generalize (text.takeWhile isspace).length = blanks at *
  generalize text.drop blanks = behind at *
  match behind with
  | [] =>
    rw [length_nil] at hlength
    change blanks + 0 + 1 = text.length + 1
    omega
  | c :: behind =>
    have hhead : (c :: behind ++ [53, 59]).head? = (c :: behind).head? := rfl
    rw [hhead]
    generalize hsign : (if (c :: behind).head? = some 45 ∨ (c :: behind).head? = some 43 then 1 else 0) =
      sign at *
    have hone : sign ≤ (c :: behind).length := by
      rw [length_cons, ← hsign]
      split_ifs <;> omega
    have hdrop : ((c :: behind).drop sign).length = (c :: behind).length - sign := length_drop
    rw [drop_append_of_le_length hone]
    rcases h with h | h | h
    · rw [h] at hdrop ⊢
      rw [length_nil] at hdrop
      change blanks + sign + 1 = text.length + 1
      omega
    · rw [h] at hdrop ⊢
      simp only [length_cons, length_nil] at hdrop hlength
      change blanks + sign + 3 = text.length + 1
      omega
    · rw [h] at hdrop ⊢
      simp only [length_cons, length_nil] at hdrop hlength
      change blanks + sign + 3 = text.length + 1
      omega

/-- `strtol` takes decimal digits for octal ones behind a zero. -/
theorem strtol_decimal (hne : digits ≠ []) (hdigits : ∀ c ∈ digits, digitValue c < 10)
    (hrest : Stops rest) :
    strtol 0 (digits ++ rest) =
      (clampLong (numeral (if digits.head? = some 48 then 8 else 10)
        (digitRun (if digits.head? = some 48 then 8 else 10) digits) : Nat),
      (digitRun (if digits.head? = some 48 then 8 else 10) digits).length) := by
  match digits, hne with
  | c :: digits, _ =>
    have hc : digitValue c < 10 := hdigits c mem_cons_self
    have hhex : hexPrefixed (c :: digits) = false := by
      match digits with
      | [] => rfl
      | [_] => rfl
      | x :: d :: _ =>
        have hx : digitValue x < 10 := hdigits x (by simp)
        have hlower : x ≠ 120 := by
          rintro rfl
          exact absurd hx (by decide)
        have hupper : x ≠ 88 := by
          rintro rfl
          exact absurd hx (by decide)
        simp [hexPrefixed, hlower, hupper]
    rw [cons_append, strtol_digit 0 (by omega), ← cons_append,
      strtolUnsigned_append digits hrest]
    unfold strtolUnsigned
    simp only [hhex, Bool.false_eq_true, and_false, if_false, if_true, drop_zero]
    rw [if_neg]
    · simp
    · rw [digitRun, takeWhile_cons, if_pos]
      · exact cons_ne_nil _ _
      · split_ifs with hzero
        · rw [List.head?_cons, Option.some.injEq] at hzero
          rw [hzero]
          decide
        · exact decide_eq_true hc

section Octal

variable {digits : Blob}

theorem octal_le (digits : Blob) : numeral 8 digits ≤ numeral 10 digits := by
  induction digits with
  | nil => exact Nat.le_refl _
  | cons c digits ih =>
    have hpow : 8 ^ digits.length ≤ 10 ^ digits.length := Nat.pow_le_pow_left (by decide) _
    rw [numeral_cons, numeral_cons]
    exact Nat.add_le_add (Nat.mul_le_mul_left _ hpow) ih

/-- Octal digits denote less in base 8, unless there is one only. -/
theorem octal_lt (h : ∀ c ∈ digits, digitValue c < 8) (hlarge : 8 ≤ numeral 10 digits) :
    numeral 8 digits < numeral 10 digits := by
  induction digits with
  | nil => simp [numeral] at hlarge
  | cons c digits ih =>
    obtain ⟨hc, h⟩ := forall_mem_cons.mp h
    have hle := octal_le digits
    rw [numeral_cons] at hlarge
    rw [numeral_cons, numeral_cons]
    rcases Nat.eq_zero_or_pos (digitValue c) with hzero | hpos
    · rw [hzero, Nat.zero_mul, Nat.zero_add] at hlarge
      rw [hzero, Nat.zero_mul, Nat.zero_mul, Nat.zero_add, Nat.zero_add]
      exact ih h hlarge
    · have hlength : digits.length ≠ 0 := by
        intro hnil
        obtain rfl := length_eq_zero_iff.mp hnil
        have hnone : numeral 10 [] = 0 := rfl
        rw [length_nil, Nat.pow_zero, hnone] at hlarge
        omega
      have hpow : 8 ^ digits.length < 10 ^ digits.length := Nat.pow_lt_pow_left (by decide) hlength
      exact Nat.add_lt_add_of_lt_of_le (Nat.mul_lt_mul_of_pos_left hpow hpos) hle

/-- A number below eight has one digit behind its zeros. -/
theorem octal_of_small (hsmall : numeral 10 digits < 8) :
    (∀ c ∈ digits, digitValue c < 8) ∧ numeral 8 digits = numeral 10 digits := by
  induction digits with
  | nil => exact ⟨fun c hc => absurd hc not_mem_nil, rfl⟩
  | cons c digits ih =>
    rw [numeral_cons] at hsmall
    obtain ⟨hdigits, hvalue⟩ := ih (by omega)
    have hpow : 1 ≤ 10 ^ digits.length := Nat.one_le_pow _ _ (by decide)
    have hc : digitValue c * 1 ≤ digitValue c * 10 ^ digits.length := Nat.mul_le_mul_left _ hpow
    refine ⟨forall_mem_cons.mpr ⟨by omega, hdigits⟩, ?_⟩
    rw [numeral_cons, numeral_cons, hvalue]
    rcases Nat.eq_zero_or_pos digits.length with hnil | hmore
    · rw [hnil]
      rfl
    · have hten : 10 ^ 1 ≤ 10 ^ digits.length := Nat.pow_le_pow_right (by decide) hmore
      have hzero : digitValue c = 0 := by
        by_contra hne
        have hlarge : 1 * 10 ^ 1 ≤ digitValue c * 10 ^ digits.length :=
          Nat.mul_le_mul (Nat.pos_of_ne_zero hne) hten
        omega
      rw [hzero, Nat.zero_mul, Nat.zero_mul]

/-- Digits that stop before one that is not octal denote less in base 8 than with all of it. -/
theorem octal_run_lt (h : digitRun 8 digits ≠ digits) :
    numeral 8 (digitRun 8 digits) < numeral 10 digits ∧ 8 ≤ numeral 10 digits := by
  obtain ⟨more, hmore⟩ : digitRun 8 digits <+: digits := List.takeWhile_prefix _
  cases more with
  | nil => exact absurd ((append_nil _).symm.trans hmore) h
  | cons c more =>
    have hc : 8 ≤ digitValue c := by
      have hnot := takeWhile_append_dropWhile (p := fun c => decide (digitValue c < 8))
        (l := digits)
      have hdrop : digits.dropWhile (fun c => decide (digitValue c < 8)) = c :: more :=
        append_cancel_left (hnot.trans hmore.symm)
      have hhead := List.head?_dropWhile_not (fun c => decide (digitValue c < 8)) digits
      rw [hdrop] at hhead
      exact Nat.not_lt.mp (of_decide_eq_false hhead)
    have hle := octal_le (digitRun 8 digits)
    have hsplit : numeral 10 digits =
        numeral 10 (digitRun 8 digits) * 10 ^ (more.length + 1) +
          (digitValue c * 10 ^ more.length + numeral 10 more) := by
      nth_rewrite 1 [← hmore]
      rw [numeral, foldl_append, foldl_numeral, numeral_cons, length_cons]
      rfl
    have hfirst : numeral 10 (digitRun 8 digits) * 1 ≤
        numeral 10 (digitRun 8 digits) * 10 ^ (more.length + 1) :=
      Nat.mul_le_mul_left _ (Nat.one_le_pow _ _ (by decide))
    have hsecond : digitValue c * 1 ≤ digitValue c * 10 ^ more.length :=
      Nat.mul_le_mul_left _ (Nat.one_le_pow _ _ (by decide))
    constructor
    · omega
    · omega

/-- Decimal digits behind a zero are read as their number exactly below eight. -/
theorem octal_run_eq_iff :
    numeral 8 (digitRun 8 digits) = numeral 10 digits ↔ numeral 10 digits ≤ 7 := by
  by_cases hall : digitRun 8 digits = digits
  · have hoctal : ∀ c ∈ digits, digitValue c < 8 := by
      intro c hc
      rw [← hall] at hc
      exact of_decide_eq_true (all_eq_true.mp all_takeWhile c hc)
    rw [hall]
    constructor
    · intro heq
      by_contra hlarge
      exact absurd heq (Nat.ne_of_lt (octal_lt hoctal (by omega)))
    · intro hsmall
      exact (octal_of_small (by omega)).2
  · obtain ⟨hlt, hlarge⟩ := octal_run_lt hall
    constructor
    · intro heq
      omega
    · intro hsmall
      omega

end Octal

/-- Decimal digits are read as their number exactly without a zero in front, or below eight. -/
theorem strtol_decimal_iff (hne : digits ≠ []) (hdigits : ∀ c ∈ digits, digitValue c < 10)
    (hlt : numeral 10 digits < 2 ^ 63) :
    (strtol 0 digits).1 = numeral 10 digits ↔
      digits.head? ≠ some 48 ∨ numeral 10 digits ≤ 7 := by
  have hclamp {n : Nat} (hn : n < 2 ^ 63) : clampLong n = n := by
    rw [clampLong]
    omega
  have hread := strtol_decimal hne hdigits (show Stops [] from fun c hc => by cases hc)
  rw [append_nil] at hread
  rw [hread]
  by_cases hzero : digits.head? = some 48
  · have hle : numeral 8 (digitRun 8 digits) ≤ numeral 10 digits := by
      by_cases hall : digitRun 8 digits = digits
      · rw [hall]
        exact octal_le digits
      · exact Nat.le_of_lt (octal_run_lt hall).1
    simp only [if_pos hzero, hclamp (Nat.lt_of_le_of_lt hle hlt), Nat.cast_inj, octal_run_eq_iff]
    exact ⟨Or.inr, fun hor => hor.resolve_left fun hnot => hnot hzero⟩
  · have hall : digitRun 10 digits = digits :=
      takeWhile_eq_self_iff.mpr fun c hc => decide_eq_true (hdigits c hc)
    simp only [if_neg hzero, hall, hclamp hlt]
    exact iff_of_true trivial (Or.inl hzero)

end Drt
