import Drt.Core.Types.StringTexts
import Drt.Core.Types.StringViews
import Drt.Core.Types.Number

/-!
# Appending numbers

The eight functions `appendNumber` write the digits of a number into a local buffer, the last
digit first: those of `String` from its end on, those of `String_c` from its start on. A negative
number is negated first, and the least one of its type has no negation there.
-/

open List

namespace Drt

/-- How a digit is added to what the buffer holds. -/
inductive DigitOrder where
  | down
  | up
  deriving DecidableEq, Repr

/-- `*--buf = digit`, or `buf[len++] = digit`. -/
def DigitOrder.put : DigitOrder → UInt8 → Blob → Blob
  | down, digit, text => digit :: text
  | up, digit, text => text ++ [digit]

/-- The loop over the digits, with so much room in the buffer. -/
def writeDigits (order : DigitOrder) (base : Nat) : (room number : Nat) → Blob → Call (Nat × Blob)
  | 0, _, _ => .fault
  | room + 1, number, text =>
    let text := order.put (digitChar (number % base)) text
    if number / base = 0 then .ok (room, text) else writeDigits order base room (number / base) text

/-- The digits, and a sign. -/
def writeNumber (order : DigitOrder) (room base number : Nat) (sign : Bool) : Call Blob := do
  let (room, text) ← writeDigits order base room number []
  if sign then
    if room = 0 then .fault else .ok (order.put 45 text)
  else .ok text

/-- `if (number < 0) number = -number;`, and what the cast to the unsigned type makes of it. The
negation of the least number overflows, which is undefined. -/
def magnitude {width : Nat} (number : BitVec width) : Call Nat :=
  if number.toInt < 0 then
    if number = BitVec.intMin width then .fault else .ok (-number).toNat
  else .ok number.toNat

namespace StringViews

/-- `StrData::appendAscii`: the characters go to the octets, if there are any. A character of type
`char` is signed. -/
def appendAscii : StringViews → Blob → StringViews
  | wide w, l => wide (w ++ l.map fun ch => .ofBitVec (ch.toBitVec.signExtend 32))
  | bytes b, l => bytes (b ++ l)
  | both b _ _, l => bytes (b ++ l)

end StringViews

namespace StringData

/-- The text of a string: its octets, if there are any. -/
def text (s : StringData) : List UInt32 := s.views.hashed

/-- `i_appendAscii`. -/
def appendAscii (s : StringData) (l : Blob) : StringData := ⟨s.views.appendAscii l, none⟩

/-- The end of the `appendNumber` functions. -/
def appendDigits (s : StringData) (digits : Call Blob) : Call StringData := do
  let text ← digits
  .ok (s.appendAscii text)

/-- `appendNumber(Sint32)`. -/
def appendNumberSint32 (s : StringData) (number : Int32) (base : Nat) : Call StringData :=
  magnitude number.toBitVec >>= fun magnitude =>
    s.appendDigits (writeNumber .down 48 base magnitude (number < 0))

/-- `appendNumber(Uint32)`. -/
def appendNumberUint32 (s : StringData) (number : UInt32) (base : Nat) : Call StringData :=
  s.appendDigits (writeNumber .down 48 base number.toNat false)

/-- `appendNumber(Sint64)`. -/
def appendNumberSint64 (s : StringData) (number : Int64) (base : Nat) : Call StringData :=
  magnitude number.toBitVec >>= fun magnitude =>
    s.appendDigits (writeNumber .down 80 base magnitude (number < 0))

/-- `appendNumber(Uint64)`. -/
def appendNumberUint64 (s : StringData) (number : UInt64) (base : Nat) : Call StringData :=
  s.appendDigits (writeNumber .down 80 base number.toNat false)

end StringData

namespace Strings

variable {c : CharSize} (garbage : Nat → Nat → StrChar c)

/-- A character of type `char` as one of a string. -/
def ofChar (ch : UInt8) : StrChar c := ch.toBitVec.signExtend c.bits

/-- The end of the `appendNumber` functions. -/
def appendDigits (x : Nat) (digits : Call Blob) (s : Strings c) : Call (Strings c) := do
  let buf ← digits
  s.appendReverse garbage x (buf.map ofChar)

/-- `appendNumber(Sint32)`. -/
def appendNumberSint32 (x : Nat) (number : Int32) (base : Nat) (s : Strings c) :
    Call (Strings c) :=
  magnitude number.toBitVec >>= fun magnitude =>
    s.appendDigits garbage x (writeNumber .up 33 base magnitude (number < 0))

/-- `appendNumber(Uint32)`. -/
def appendNumberUint32 (x : Nat) (number : UInt32) (base : Nat) (s : Strings c) :
    Call (Strings c) :=
  s.appendDigits garbage x (writeNumber .up 33 base number.toNat false)

/-- `appendNumber(Sint64)`. -/
def appendNumberSint64 (x : Nat) (number : Int64) (base : Nat) (s : Strings c) :
    Call (Strings c) :=
  magnitude number.toBitVec >>= fun magnitude =>
    s.appendDigits garbage x (writeNumber .up 65 base magnitude (number < 0))

/-- `appendNumber(Uint64)`. -/
def appendNumberUint64 (x : Nat) (number : UInt64) (base : Nat) (s : Strings c) :
    Call (Strings c) :=
  s.appendDigits garbage x (writeNumber .up 65 base number.toNat false)

end Strings

/-- The digits of a number: digits of the base that denote it, and no zero before others. -/
structure CanonicalDigits (base number : Nat) (digits : Blob) : Prop where
  digit : ∀ ch ∈ digits, ∃ d < base, ch = digitChar d
  denotes : numeral base digits = number
  leading : digits.head? = some 48 → digits = [48]
  nonempty : digits ≠ []

/-- The text of a number: a sign before a negative one, and the digits. -/
def Canonical (base : Nat) (number : Int) (text : Blob) : Prop :=
  ∃ digits, CanonicalDigits base number.natAbs digits ∧
    text = if number < 0 then 45 :: digits else digits

/-- Of one number, both functions append the canonical text, and what comes back is no fault. -/
def Appending (base : Nat) (number : Int) (string : StringData → Call StringData)
    (strings : ∀ c : CharSize, (Nat → Nat → StrChar c) → Nat → Strings c → Call (Strings c)) :
    Prop :=
  ∃ text, Canonical base number text ∧
    (∀ s, ∃ s', string s = .ok s' ∧ s'.text = s.text ++ text.map UInt8.toUInt32) ∧
    ∀ c garbage (s : Strings c) x a, (Strings.machine garbage).Reachable s → s.data x = .ok a →
      ∃ s' old, strings c garbage x s = .ok s' ∧ s.text x = .ok old ∧
        s'.text x = .ok (old ++ text.map fun ch => ch.toBitVec.setWidth c.bits)

section Digits

variable {base : Nat} {order : DigitOrder}

/-- The loop writes the digits, if there is room. -/
theorem writeDigits_eq (hbase : 2 ≤ base) {fuel room number : Nat} (hnumber : number < base ^ fuel)
    (hroom : (digitsFrom base fuel number).length ≤ room) (hfuel : 0 < fuel) (text : Blob) :
    writeDigits order base room number text =
      .ok (room - (digitsFrom base fuel number).length,
        (digitsFrom base fuel number).foldl (fun text digit => order.put digit text) text) := by
  induction fuel generalizing room number text with
  | zero => exact absurd hfuel (Nat.lt_irrefl 0)
  | succ fuel ih =>
    rw [digitsFrom, length_cons] at hroom ⊢
    obtain ⟨room, rfl⟩ : ∃ r, room = r + 1 := ⟨room - 1, by omega⟩
    rw [writeDigits, Nat.add_sub_add_right, foldl_cons]
    by_cases hlast : number / base = 0
    · rw [if_pos hlast, if_pos hlast]
      rfl
    · rw [if_neg hlast] at hroom ⊢
      rw [if_neg hlast]
      have hless : number / base < base ^ fuel := by
        rw [Nat.div_lt_iff_lt_mul (by omega), ← Nat.pow_succ]
        exact hnumber
      have hfuel' : 0 < fuel := by
        by_contra hzero
        rw [Nat.eq_zero_of_not_pos hzero, Nat.pow_zero] at hless
        exact hlast (Nat.lt_one_iff.mp hless)
      exact ih hless (by omega) hfuel' _

/-- The text in the order in which the buffer holds it. -/
def DigitOrder.inOrder : DigitOrder → Blob → Blob
  | down, text => text
  | up, text => text.reverse

theorem DigitOrder.put_inOrder (order : DigitOrder) (digit : UInt8) (text : Blob) :
    order.put digit (order.inOrder text) = order.inOrder (digit :: text) := by
  cases order with
  | down => rfl
  | up => exact reverse_cons.symm

theorem DigitOrder.foldl_put (order : DigitOrder) (digits text : Blob) :
    digits.foldl (fun text digit => order.put digit text) (order.inOrder text) =
      order.inOrder (digits.reverse ++ text) := by
  induction digits generalizing text with
  | nil => rfl
  | cons digit digits ih =>
    rw [foldl_cons, order.put_inOrder, ih, reverse_cons, append_assoc]
    rfl

/-- What the functions write before they append it. -/
theorem writeNumber_eq (hbase : 2 ≤ base) {room number : Nat} (hnumber : number < 2 ^ 64)
    {sign : Bool} (hroom : (numberText base number).length + sign.toNat ≤ room) :
    writeNumber order room base number sign =
      .ok (order.inOrder (if sign then 45 :: numberText base number
        else numberText base number)) := by
  have hlength : (numberText base number).length = (digitsFrom base 64 number).length :=
    length_reverse
  rw [writeNumber, writeDigits_eq hbase (lt_pow_base hbase hnumber) (by omega) (by omega),
    Outcome.ok_bind]
  have htext : (digitsFrom base 64 number).foldl (fun text digit => order.put digit text) [] =
      order.inOrder (numberText base number) := by
    have hfold := order.foldl_put (digitsFrom base 64 number) []
    rw [append_nil] at hfold
    cases order <;> exact hfold
  rw [htext]
  dsimp only
  cases sign with
  | true =>
    rw [Bool.toNat_true] at hroom
    rw [if_pos rfl, if_neg (by omega), if_pos rfl, order.put_inOrder]
  | false => rw [if_neg Bool.false_ne_true, if_neg Bool.false_ne_true]

/-- The digits are canonical. -/
theorem canonicalDigits_numberText (hbase : 2 ≤ base) (hbase' : base ≤ 36) {number : Nat}
    (hnumber : number < 2 ^ 64) : CanonicalDigits base number (numberText base number) := by
  refine ⟨fun ch hch => ?_, numeral_numberText hbase hbase' hnumber, fun hhead => ?_,
    numberText_ne_nil base number⟩
  · have hdigits (fuel number : Nat) (hmem : ch ∈ digitsFrom base fuel number) :
        ∃ d < base, ch = digitChar d := by
      induction fuel generalizing number with
      | zero => cases hmem
      | succ fuel ih =>
        rw [digitsFrom, mem_cons] at hmem
        rcases hmem with rfl | hmem
        · exact ⟨number % base, Nat.mod_lt _ (by omega), rfl⟩
        · split_ifs at hmem
          · cases hmem
          · exact ih _ hmem
    exact hdigits 64 number (mem_reverse.mp hch)
  · rcases Nat.eq_zero_or_pos number with rfl | hpos
    · exact numberText_zero
    · obtain ⟨d, hd, hlt, hfirst⟩ := head?_numberText hbase hbase' hnumber hpos
      rw [hfirst, Option.some.injEq] at hhead
      have hvalue := congrArg digitValue hhead
      rw [digitValue_digitChar (by omega)] at hvalue
      exact absurd hvalue (Nat.ne_of_gt hd)

/-- The characters are the same ones in strings of any kind. -/
theorem ascii_numberText (hbase' : base ≤ 36) {digits : Blob} {number : Nat}
    (h : CanonicalDigits base number digits) (sign : Bool) :
    ∀ ch ∈ (if sign then 45 :: digits else digits), ch < 128 := by
  have hdigit : ∀ d < 36, digitChar d < 128 := by decide
  have hall : ∀ ch ∈ digits, ch < 128 := by
    intro ch hch
    obtain ⟨d, hd, rfl⟩ := h.digit ch hch
    exact hdigit d (by omega)
  cases sign with
  | true => exact forall_mem_cons.mpr ⟨by decide, hall⟩
  | false => exact hall

end Digits

theorem signExtend_of_lt {ch : UInt8} (h : ch < 128) (width : Nat) :
    ch.toBitVec.signExtend width = ch.toBitVec.setWidth width := by
  have hlt : ch.toBitVec.toNat < 128 := UInt8.lt_iff_toNat_lt.mp h
  refine BitVec.signExtend_eq_setWidth_of_msb_false ?_
  rw [BitVec.msb_eq_false_iff_two_mul_lt]
  omega

/-- Octets below 128 are appended to octets or to wide characters. -/
theorem StringData.text_appendAscii (s : StringData) {l : Blob} (h : ∀ ch ∈ l, ch < 128) :
    (s.appendAscii l).text = s.text ++ l.map UInt8.toUInt32 := by
  have hwide : l.map (fun ch => UInt32.ofBitVec (ch.toBitVec.signExtend 32)) =
      l.map UInt8.toUInt32 := by
    refine map_congr_left fun ch hch => ?_
    rw [signExtend_of_lt (h ch hch)]
    rfl
  cases hviews : s.views with
  | bytes b | both b w hlength =>
    simp only [StringData.text, StringData.appendAscii, hviews, StringViews.appendAscii,
      StringViews.hashed, map_append]
  | wide w =>
    simp only [StringData.text, StringData.appendAscii, hviews, StringViews.appendAscii,
      StringViews.hashed, hwide]

/-- Both functions append what they write, in the order of the text. -/
theorem appending_of_text {base : Nat} (hbase : 2 ≤ base) (hbase' : base ≤ 36) {number : Int}
    {magnitude room room' : Nat} {sign : Bool} (hsign : sign = decide (number < 0))
    (hmagnitude : magnitude = number.natAbs) (hnumber : number.natAbs < 2 ^ 64)
    (hroom : (numberText base number.natAbs).length + 1 ≤ room)
    (hroom' : (numberText base number.natAbs).length + sign.toNat ≤ room') :
    Appending base number
      (fun s => s.appendDigits (writeNumber .down room base magnitude sign))
      (fun _ garbage x s => s.appendDigits garbage x (writeNumber .up room' base magnitude sign)) := by
  have hsignle : sign.toNat ≤ 1 := by cases sign <;> decide
  have hdigits := canonicalDigits_numberText hbase hbase' hnumber
  have hascii := ascii_numberText hbase' hdigits sign
  subst hmagnitude
  refine ⟨if sign then 45 :: numberText base number.natAbs else numberText base number.natAbs,
    ⟨_, hdigits, ?_⟩, fun s => ?_, fun c garbage s x a hreach hx => ?_⟩
  · rw [hsign]
    simp only [decide_eq_true_eq]
  · beta_reduce
    rw [StringData.appendDigits, writeNumber_eq hbase hnumber (by omega), Outcome.ok_bind]
    exact ⟨_, rfl, s.text_appendAscii hascii⟩
  · beta_reduce
    rw [Strings.appendDigits, writeNumber_eq hbase hnumber hroom', Outcome.ok_bind]
    obtain ⟨s', old, hrun, hold, htext, -⟩ := Strings.text_appendReverse garbage
      (Strings.sound_of_reachable hreach) hx ((DigitOrder.up.inOrder
        (if sign then 45 :: numberText base number.natAbs
          else numberText base number.natAbs)).map Strings.ofChar)
    refine ⟨s', old, hrun, hold, ?_⟩
    rw [htext, ← map_reverse, DigitOrder.inOrder, reverse_reverse]
    congr 2
    exact map_congr_left fun ch hch => signExtend_of_lt (hascii ch hch) c.bits

/-- A negative word that has a negation is negated to its magnitude. -/
theorem magnitude_eq {width : Nat} {x : BitVec width} (h : x ≠ BitVec.intMin width) :
    magnitude x = .ok x.toInt.natAbs := by
  have hlt := x.isLt
  unfold magnitude
  rw [if_neg h, BitVec.toInt_eq_toNat_cond]
  by_cases hneg : 2 * x.toNat < 2 ^ width
  · rw [if_pos hneg, if_neg (by omega)]
    rfl
  · rw [if_neg hneg, if_pos (by omega), BitVec.toNat_neg, Nat.mod_eq_of_lt (by omega)]
    refine congrArg Outcome.ok ?_
    omega

theorem magnitude_intMin {width : Nat} (h : 0 < width) :
    magnitude (BitVec.intMin width) = .fault := by
  unfold magnitude
  have hneg : (BitVec.intMin width).toInt < 0 := by
    rw [BitVec.toInt_intMin_of_pos h]
    have hpow : (0 : Int) < 2 ^ (width - 1) := Int.pow_pos (by decide)
    omega
  rw [if_pos hneg, if_pos rfl]

theorem length_numberText_le {base : Nat} (hbase : 2 ≤ base) {number bits : Nat}
    (hnumber : number < 2 ^ (bits + 1)) (hbits : bits < 64) :
    (numberText base number).length ≤ bits + 1 := by
  have hword : number < 2 ^ 64 :=
    Nat.lt_of_lt_of_le hnumber (Nat.pow_le_pow_right (by omega) hbits)
  rw [length_numberText_le_iff hbase hword]
  exact Nat.lt_of_lt_of_le hnumber (Nat.pow_le_pow_left hbase (bits + 1))

/-- A signed number is appended by both functions exactly if it has a negation. -/
theorem appending_signed_iff {base : Nat} (hbase : 2 ≤ base) (hbase' : base ≤ 36) {width : Nat}
    (hpos : 0 < width) (hword : width ≤ 64) {number : BitVec width} {sign : Bool}
    (hsign : sign = decide (number.toInt < 0)) {room room' : Nat} (hroom : width < room)
    (hroom' : width < room') :
    Appending base number.toInt
      (fun s => magnitude number >>= fun magnitude =>
        s.appendDigits (writeNumber .down room base magnitude sign))
      (fun _ garbage x s => magnitude number >>= fun magnitude =>
        s.appendDigits garbage x (writeNumber .up room' base magnitude sign)) ↔
      number ≠ BitVec.intMin width := by
  constructor
  · rintro ⟨_, -, hstring, -⟩ rfl
    obtain ⟨s', hrun, -⟩ := hstring .zero
    rw [magnitude_intMin hpos] at hrun
    cases hrun
  · intro hmin
    have hnumber : number.toInt.natAbs < 2 ^ (width - 1 + 1) := by
      rw [Nat.sub_add_cancel hpos, BitVec.toInt_eq_toNat_cond]
      have hlt := number.isLt
      split_ifs <;> omega
    have hdigits := length_numberText_le hbase hnumber (by omega)
    have hless : number.toInt.natAbs < 2 ^ 64 := Nat.lt_of_lt_of_le hnumber
      (Nat.pow_le_pow_right (by decide) (by omega))
    have hone := Bool.toNat_le sign
    simp only [magnitude_eq hmin, Outcome.ok_bind]
    exact appending_of_text hbase hbase' hsign rfl hless (by omega) (by omega)

/-- In all bases, `String` and `String_c` append the canonical text of every unsigned number, and of
a signed one exactly if it is not the least of its type. They write only inside their buffers. -/
theorem appending_numbers_iff {base : Nat} (hbase : 2 ≤ base) (hbase' : base ≤ 36) :
    (∀ number : Int32, Appending base number.toInt
      (fun s => s.appendNumberSint32 number base)
      (fun _ garbage x s => s.appendNumberSint32 garbage x number base) ↔
        number ≠ Int32.minValue) ∧
    (∀ number : UInt32, Appending base number.toNat
      (fun s => s.appendNumberUint32 number base)
      fun _ garbage x s => s.appendNumberUint32 garbage x number base) ∧
    (∀ number : Int64, Appending base number.toInt
      (fun s => s.appendNumberSint64 number base)
      (fun _ garbage x s => s.appendNumberSint64 garbage x number base) ↔
        number ≠ Int64.minValue) ∧
    ∀ number : UInt64, Appending base number.toNat
      (fun s => s.appendNumberUint64 number base)
      fun _ garbage x s => s.appendNumberUint64 garbage x number base := by
  refine ⟨fun number => ?_, fun number => ?_, fun number => ?_, fun number => ?_⟩
  · have hmin : number ≠ Int32.minValue ↔ number.toBitVec ≠ BitVec.intMin 32 :=
      not_congr Int32.toBitVec_inj.symm
    rw [hmin]
    exact appending_signed_iff hbase hbase' (by decide) (by decide)
      (decide_eq_decide.mpr Int32.lt_iff_toInt_lt) (by decide) (by decide)
  · have hnumber : number.toNat < 2 ^ (31 + 1) := number.toNat_lt
    have hdigits := length_numberText_le hbase hnumber (by omega)
    exact appending_of_text hbase hbase' (decide_eq_false (by omega)).symm rfl
      (Nat.lt_of_lt_of_le number.toNat_lt (by omega)) (Nat.le_trans (Nat.succ_le_succ hdigits)
        (by omega)) (Nat.le_trans hdigits (Nat.le_succ 32))
  · have hmin : number ≠ Int64.minValue ↔ number.toBitVec ≠ BitVec.intMin 64 :=
      not_congr Int64.toBitVec_inj.symm
    rw [hmin]
    exact appending_signed_iff hbase hbase' (by decide) (by decide)
      (decide_eq_decide.mpr Int64.lt_iff_toInt_lt) (by decide) (by decide)
  · have hnumber : number.toNat < 2 ^ (63 + 1) := number.toNat_lt
    have hdigits := length_numberText_le hbase hnumber (by omega)
    exact appending_of_text hbase hbase' (decide_eq_false (by omega)).symm rfl number.toNat_lt
      (Nat.le_trans (Nat.succ_le_succ hdigits) (by omega))
      (Nat.le_trans hdigits (Nat.le_succ 64))

/-- The least number but one in base 2: `String_c` writes 32 characters of its buffer of 33. -/
theorem appending_numbers_iff_two : (Appending 2 (Int32.minValue + 1).toInt
      (fun s => s.appendNumberSint32 (Int32.minValue + 1) 2)
      (fun _ garbage x s => s.appendNumberSint32 garbage x (Int32.minValue + 1) 2) ↔
        Int32.minValue + 1 ≠ Int32.minValue) ∧
    writeNumber .up 33 2 2147483647 true = .ok (List.replicate 31 49 ++ [45]) :=
  ⟨(appending_numbers_iff (Nat.le_refl 2) (by decide)).1 (Int32.minValue + 1), by decide⟩

/-- The least numbers have no negation. -/
theorem not_appending_least :
    ¬ Appending 10 Int32.minValue.toInt (fun s => s.appendNumberSint32 Int32.minValue 10)
      (fun _ garbage x s => s.appendNumberSint32 garbage x Int32.minValue 10) ∧
    ¬ Appending 10 Int64.minValue.toInt (fun s => s.appendNumberSint64 Int64.minValue 10)
      (fun _ garbage x s => s.appendNumberSint64 garbage x Int64.minValue 10) := by
  constructor
  · rintro ⟨_, -, hstring, -⟩
    obtain ⟨s', hrun, -⟩ := hstring .zero
    have hfault : StringData.zero.appendNumberSint32 Int32.minValue 10 = .fault := rfl
    cases hfault.symm.trans hrun
  · rintro ⟨_, -, hstring, -⟩
    obtain ⟨s', hrun, -⟩ := hstring .zero
    have hfault : StringData.zero.appendNumberSint64 Int64.minValue 10 = .fault := rfl
    cases hfault.symm.trans hrun

end Drt
