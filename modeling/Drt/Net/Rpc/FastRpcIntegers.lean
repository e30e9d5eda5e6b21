import Drt.Lib.WordBits
import Drt.Net.Rpc.FastRpcLengths
import Drt.Net.Rpc.FastRpcResults

/-!
# Which integers of FastRPC read back

In the first version an integer is some octets of its word, and the highest bit of them is its
sign. In the second one its magnitude is written like a length, with the sign in the type octet.
-/

open List Outcome

namespace Drt

open FastRpcEncoder

open Bytes

/-- What `readInt32` returns. -/
def FastRpcDecoder.readInt32 (d : FastRpcDecoder) : Call (Int32 × FastRpcDecoder) :=
  Keeping.toOutcome Decoding.readInt32 d

namespace FastRpc

open FastRpcDecoder

/-! ### Signed octets -/

/-- `value |= value<<(sizeof(value)*8-octets)>>(sizeof(value)*8-octets)` of an `int`. -/
def signed32 (octets : Nat) (value : Int32) : Int32 :=
  let unused := Int32.ofNat (32 - octets * 8)
  value ||| (value <<< unused) >>> unused

/-- `value |= value<<(sizeof(value)*8-octets)>>(sizeof(value)*8-octets)` of a `Sint64`. -/
def signed64 (octets : Nat) (value : Int64) : Int64 :=
  let unused := Int64.ofNat (64 - octets * 8)
  value ||| (value <<< unused) >>> unused

variable {octets : Nat}

/-- The signed number in the octets of an `int`. -/
theorem toInt_signed32 (hpos : 0 < octets) (hle : octets ≤ 4) (word : Nat) :
    (signed32 octets (UInt32.ofNat (word % 256 ^ octets)).toInt32).toInt =
      (word : Int).bmod (2 ^ (8 * octets)) := by
  have hbits : (signed32 octets (UInt32.ofNat (word % 2 ^ (8 * octets))).toInt32).toBitVec =
      BitVec.ofNat 32 (word % 2 ^ (8 * octets)) |||
        (BitVec.ofNat 32 (word % 2 ^ (8 * octets)) <<< (32 - 8 * octets)).sshiftRight
          (32 - 8 * octets) := by
    interval_cases octets <;> rfl
  rw [show 256 ^ octets = 2 ^ (8 * octets) from (Nat.pow_mul 2 8 octets).symm,
    ← Int32.toInt_toBitVec, hbits]
  exact SignBits.toInt_extend (by omega) (by omega) word

/-- The signed number in the octets of a `Sint64`. -/
theorem toInt_signed64 (hpos : 0 < octets) (hle : octets ≤ 8) (word : Nat) :
    (signed64 octets (UInt64.ofNat (word % 256 ^ octets)).toInt64).toInt =
      (word : Int).bmod (2 ^ (8 * octets)) := by
  have hbits : (signed64 octets (UInt64.ofNat (word % 2 ^ (8 * octets))).toInt64).toBitVec =
      BitVec.ofNat 64 (word % 2 ^ (8 * octets)) |||
        (BitVec.ofNat 64 (word % 2 ^ (8 * octets)) <<< (64 - 8 * octets)).sshiftRight
          (64 - 8 * octets) := by
    interval_cases octets <;> rfl
  rw [show 256 ^ octets = 2 ^ (8 * octets) from (Nat.pow_mul 2 8 octets).symm,
    ← Int64.toInt_toBitVec, hbits]
  exact SignBits.toInt_extend (by omega) (by omega) word

/-! ### Reading integers -/

theorem shift_eq_iff {c code : UInt8} : c >>> 3 = code ↔ c.toNat / 8 = code.toNat := by
  rw [← UInt8.toNat_inj, UInt8.toNat_shiftRight]
  exact Iff.of_eq (congrArg (· = _) (Nat.shiftRight_eq_div_pow c.toNat 3))

theorem addOctets_word (h : octets ≤ 8) (word : Nat) :
    addOctets 0 0 (leBytes octets word) = .ofNat (word % 256 ^ octets) := by
  rw [← UInt64.toNat_inj, toNat_addOctets _ _ _ (by simp; omega), leValue_leBytes_mod,
    UInt64.toNat_ofNat']
  simp

/-- The sum of the octets of an `int` from place `i` on. -/
theorem toNat_addOctets32 (value : UInt32) (i : Nat) (octets : Blob)
    (h : i + 8 * octets.length ≤ 32) :
    (Decoding.addOctets32 value i octets).toNat =
      (value.toNat + 2 ^ i * leValue octets) % 2 ^ 32 := by
  induction octets generalizing value i with
  | nil => simp [Decoding.addOctets32, leValue, Nat.mod_eq_of_lt value.toNat_lt]
  | cons c octets ih =>
    rw [length_cons] at h
    have hshift : (c.toUInt32 <<< UInt32.ofNat i).toNat = c.toNat <<< i := by
      have hi : (UInt32.ofNat i).toNat % 32 = i := by
        rw [UInt32.toNat_ofNat_of_lt' (by simp only [UInt32.size]; omega)]
        omega
      rw [UInt32.toNat_shiftLeft, hi, UInt8.toNat_toUInt32, shiftLeft_mod c (by omega)]
    rw [Decoding.addOctets32, ih _ _ (by omega), UInt32.toNat_add, hshift, leValue,
      Nat.shiftLeft_eq, Nat.mod_add_mod]
    congr 1
    ring

theorem addOctets32_word (h : octets ≤ 4) (word : Nat) :
    Decoding.addOctets32 0 0 (leBytes octets word) = .ofNat (word % 256 ^ octets) := by
  rw [← UInt32.toNat_inj, toNat_addOctets32 _ _ _ (by simp; omega), leValue_leBytes_mod,
    UInt32.toNat_ofNat']
  simp

section Items

variable {first : UInt8} {length_add octets : Nat} (word : Nat) (behind ahead : Blob)

/-- `readInt64` of signed octets. -/
theorem readInt64_signed (hcode : first.toNat / 8 = 1) (hoctets : first.toNat % 8 = octets)
    (hpos : 0 < octets) :
    (amid length_add behind (item first octets word ++ ahead)).readInt64 =
      .ok (signed64 octets (UInt64.ofNat (word % 256 ^ octets)).toInt64,
        amid length_add (behind ++ item first octets word) ahead) := by
  have hlength := length_leBytes octets word
  have hshift : first >>> 3 = 1 := shift_eq_iff.mpr hcode
  rw [item, cons_append, readInt64, if_neg (not_at_end_amid _ _ _ _), next_amid,
    ok_bind]
  simp only [hshift, toNat_and_7, hoctets]
  rw [if_neg (by omega), if_neg (not_beyond_amid _ _ _ hlength), if_neg (by omega),
    take_amid _ _ _ hlength, ok_bind, addOctets_word (by omega), append_assoc]
  rfl

end Items

section Items

variable {first : UInt8} {length_add octets : Nat} (word : Nat) (behind ahead : Blob)

open Keeping

/-- `readInt32` of signed octets. -/
theorem readInt32_signed (hcode : first.toNat / 8 = 1) (hoctets : first.toNat % 8 = octets)
    (hpos : 0 < octets) (hle : octets ≤ 4) :
    (amid length_add behind (item first octets word ++ ahead)).readInt32 =
      .ok (signed32 octets (UInt32.ofNat (word % 256 ^ octets)).toInt32,
        amid length_add (behind ++ item first octets word) ahead) := by
  have hlength := length_leBytes octets word
  have hshift : first >>> 3 = 1 := shift_eq_iff.mpr hcode
  rw [item, cons_append, FastRpcDecoder.readInt32, Decoding.readInt32,
    Decoding.toOutcome_unlessAtEnd, if_neg (not_at_end_amid _ _ _ _), toOutcome_bind,
    Decoding.toOutcome_next, next_amid, ok_bind]
  simp only [hshift, toNat_and_7, hoctets]
  rw [if_neg (by omega), toOutcome_bind, Decoding.toOutcome_intOctets,
    if_neg (not_beyond_amid _ _ _ hlength), take_amid _ _ _ hlength, ok_bind]
  simp only [addOctets32_word hle, if_neg hpos.ne']
  rw [append_assoc]
  rfl

/-- The magnitude that `readInt32` reads, of at most four octets. -/
theorem readMagnitude32_item (hoctets : first.toNat % 8 + length_add = octets) :
    toOutcome (Decoding.readMagnitude32 first) (amid length_add (behind ++ [first])
      (leBytes octets word ++ ahead)) =
      if octets > 4 then .raise (.overflowException "rpc::int32")
      else .ok ((UInt32.ofNat (word % 256 ^ octets)).toInt32,
        amid length_add (behind ++ item first octets word) ahead) := by
  have hlength := length_leBytes octets word
  have hadd : toOutcome (Decoding.intLength first) (amid length_add (behind ++ [first])
      (leBytes octets word ++ ahead)) = .ok (octets, amid length_add (behind ++ [first])
        (leBytes octets word ++ ahead)) := by
    rw [← hoctets, ← toNat_and_7]
    rfl
  rw [Decoding.readMagnitude32, toOutcome_bind, hadd, ok_bind]
  dsimp only
  split_ifs with h
  · rfl
  · rw [toOutcome_bind, Decoding.toOutcome_intOctets, if_neg (not_beyond_amid _ _ _ hlength),
      take_amid _ _ _ hlength, ok_bind]
    simp only [addOctets32_word (by omega : octets ≤ 4)]
    rw [append_assoc]
    rfl

end Items

/-! ### The first version -/

/-- Some octets of a word give back what it is, with its sign, exactly if it is in their range. -/
theorem bmod_octets_eq_iff {bits : Nat} (hpos : 0 < octets) (hle : 8 * octets ≤ bits)
    (v : BitVec bits) : (v.toNat : Int).bmod (2 ^ (8 * octets)) = v.toInt ↔
      -2 ^ (8 * octets - 1) ≤ v.toInt ∧ v.toInt < 2 ^ (8 * octets - 1) := by
  have hbits : 8 * octets = (8 * octets - 1) + 1 := by omega
  have hword : (v.toNat : Int).bmod (2 ^ (8 * octets)) = v.toInt.bmod (2 ^ (8 * octets)) := by
    rw [BitVec.toInt_eq_toNat_bmod]
    exact (Int.bmod_bmod_of_dvd (Nat.pow_dvd_pow 2 hle)).symm
  rw [hword, hbits, SignBits.bmod_eq_self_iff]
  rfl

/-- Some octets of an `int` hold it exactly if it is in their range. -/
theorem signed32_eq_iff (hpos : 0 < octets) (hle : octets ≤ 4) (v : Int32) :
    signed32 octets (UInt32.ofNat (v.toBitVec.toNat % 256 ^ octets)).toInt32 = v ↔
      -2 ^ (8 * octets - 1) ≤ v.toInt ∧ v.toInt < 2 ^ (8 * octets - 1) := by
  rw [← Int32.toInt_inj, toInt_signed32 hpos hle]
  exact bmod_octets_eq_iff hpos (by omega) v.toBitVec

/-- Some octets of a `Sint64` hold it exactly if it is in their range. -/
theorem signed64_eq_iff (hpos : 0 < octets) (hle : octets ≤ 8) (v : Int64) :
    signed64 octets (UInt64.ofNat (v.toBitVec.toNat % 256 ^ octets)).toInt64 = v ↔
      -2 ^ (8 * octets - 1) ≤ v.toInt ∧ v.toInt < 2 ^ (8 * octets - 1) := by
  rw [← Int64.toInt_inj, toInt_signed64 hpos hle]
  exact bmod_octets_eq_iff hpos (by omega) v.toBitVec

/-- The octets of an `int` in the first version. -/
def octets32 (v : Int32) : Nat :=
  if v < 0 then 4 else if v < 128 then 1 else if v < 32768 then 2 else 4

/-- The octets of a `Sint64` in the first version, which leaves the highest one out. -/
def octets64 (v : Int64) : Nat :=
  if v < 0 then 7 else if v < 128 then 1 else if v < (1 : Int64) <<< 16 then 2
  else if v < (1 : Int64) <<< 32 then 4 else 7

/-- What `writeInt(Sint32)` appends in the first version. -/
theorem writeInt32_v1 (v : Int32) :
    ∃ first : UInt8, first.toNat / 8 = 1 ∧ first.toNat % 8 = octets32 v ∧ ∀ behind,
      ((⟨behind, 0⟩ : FastRpcEncoder).writeInt32 v).content =
        behind ++ item first (octets32 v) v.toBitVec.toNat := by
  have hlow : octets32 v - 1 < 7 + 0 ∧ octets32 v - 1 + 1 = octets32 v := by
    unfold octets32
    split_ifs <;> decide
  have htype : intType32 0 v = (0x08 ||| UInt8.ofNat (octets32 v - 1), v) := by
    simp only [intType32, Nat.lt_irrefl, if_false]
    unfold octets32
    split_ifs <;> rfl
  obtain ⟨first, hcode, hoctets, hitem⟩ :=
    appendTyped_item (show (0x08 : UInt8) &&& 7 = 0 from rfl) (Nat.zero_le 1) hlow.1
  rw [hlow.2] at hoctets hitem
  refine ⟨first, hcode, hoctets, fun behind => ?_⟩
  rw [← hitem, writeInt32, htype]

/-- What `writeInt(Sint64)` appends in the first version. -/
theorem writeInt64_v1 (v : Int64) :
    ∃ first : UInt8, first.toNat / 8 = 1 ∧ first.toNat % 8 = octets64 v ∧ ∀ behind,
      ((⟨behind, 0⟩ : FastRpcEncoder).writeInt64 v).content =
        behind ++ item first (octets64 v) v.toBitVec.toNat := by
  have hlow : octets64 v - 1 < 7 + 0 ∧ octets64 v - 1 + 1 = octets64 v := by
    unfold octets64
    split_ifs <;> decide
  have htype : intType64 0 v = (0x08 ||| UInt8.ofNat (octets64 v - 1), v) := by
    simp only [intType64, Nat.lt_irrefl, if_false]
    unfold octets64
    split_ifs <;> first | rfl | contradiction
  obtain ⟨first, hcode, hoctets, hitem⟩ :=
    appendTyped_item (show (0x08 : UInt8) &&& 7 = 0 from rfl) (Nat.zero_le 1) hlow.1
  rw [hlow.2] at hoctets hitem
  refine ⟨first, hcode, hoctets, fun behind => ?_⟩
  rw [← hitem, writeInt64, htype]

/-- An `int` always reads back in the first version. -/
theorem int32ReadsBack_v1 (v : Int32) : ReadsAs 0 (·.writeInt32 v) readInt32 v := by
  have hlo := v.le_toInt
  have hhi := v.toInt_lt
  have hneg : v < 0 ↔ v.toInt < 0 := Int32.lt_iff_toInt_lt
  have h128 : v < 128 ↔ v.toInt < 128 := Int32.lt_iff_toInt_lt
  have h32768 : v < 32768 ↔ v.toInt < 32768 := Int32.lt_iff_toInt_lt
  obtain ⟨first, hcode, hoctets, hwrite⟩ := writeInt32_v1 v
  have hrange : 0 < octets32 v ∧ octets32 v ≤ 4 := by
    unfold octets32
    split_ifs <;> decide
  rw [readsAs_iff hwrite (readInt32_signed _ · · hcode hoctets hrange.1 hrange.2),
    signed32_eq_iff hrange.1 hrange.2]
  simp only [octets32, hneg, h128, h32768]
  split_ifs <;> omega

/-- The `Sint64` values that read back in the first version: with two and with four octets the
highest bit is not kept for the sign, and there are at most seven. -/
theorem int64ReadsBack_v1_iff (w : Int64) :
    ReadsAs 0 (·.writeInt64 w) readInt64 w ↔
      -2 ^ 55 ≤ w.toInt ∧ w.toInt < 2 ^ 55 ∧ ¬ (2 ^ 15 ≤ w.toInt ∧ w.toInt < 2 ^ 16) ∧
        ¬ (2 ^ 31 ≤ w.toInt ∧ w.toInt < 2 ^ 32) := by
  have hneg : w < 0 ↔ w.toInt < 0 := Int64.lt_iff_toInt_lt
  have h128 : w < 128 ↔ w.toInt < 128 := Int64.lt_iff_toInt_lt
  have h16 : w < (1 : Int64) <<< 16 ↔ w.toInt < 2 ^ 16 := Int64.lt_iff_toInt_lt
  have h32 : w < (1 : Int64) <<< 32 ↔ w.toInt < 2 ^ 32 := Int64.lt_iff_toInt_lt
  obtain ⟨first, hcode, hoctets, hwrite⟩ := writeInt64_v1 w
  have hrange : 0 < octets64 w ∧ octets64 w ≤ 8 := by
    unfold octets64
    split_ifs <;> decide
  rw [readsAs_iff hwrite (readInt64_signed _ · · hcode hoctets hrange.1),
    signed64_eq_iff hrange.1 hrange.2]
  simp only [octets64, hneg, h128, h16, h32]
  split_ifs <;> omega

/-- Both integers read back in the first version. -/
def IntegersReadBackV1 (v : Int32) (w : Int64) : Prop :=
  ReadsAs 0 (·.writeInt32 v) readInt32 v ∧ ReadsAs 0 (·.writeInt64 w) readInt64 w

/-- Every `int` reads back, and a `Sint64` of 56 bits with none at the place of the sign. -/
theorem integersReadBackV1_iff (v : Int32) (w : Int64) :
    IntegersReadBackV1 v w ↔
      -2 ^ 55 ≤ w.toInt ∧ w.toInt < 2 ^ 55 ∧ ¬ (2 ^ 15 ≤ w.toInt ∧ w.toInt < 2 ^ 16) ∧
        ¬ (2 ^ 31 ≤ w.toInt ∧ w.toInt < 2 ^ 32) := by
  rw [IntegersReadBackV1, int64ReadsBack_v1_iff]
  exact and_iff_right (int32ReadsBack_v1 v)

/-- `40000` is written as two octets and read back as a negative number. -/
theorem not_integersReadBackV1_40000 : ¬ IntegersReadBackV1 0 40000 := fun h =>
  absurd ((int64ReadsBack_v1_iff 40000).mp h.2) (by decide)

/-! ### The second version -/

section Narrow

variable {n : Nat} (behind ahead : Blob)

open Keeping

theorem toNat_typed {type : UInt8} (htype : type &&& 7 = 0) (h : n < 2 ^ 64) :
    (type ||| UInt8.ofNat (width n - 1)).toNat = type.toNat + (width n - 1) ∧
      type.toNat % 8 = 0 ∧ width n - 1 < 8 ∧ 0 < width n := by
  have hwidth : width n - 1 < 8 ∧ 0 < width n := by
    rcases width_cases h with ⟨hw, -⟩ | ⟨hw, -⟩ | ⟨hw, -⟩ | ⟨hw, -⟩ <;> rw [hw] <;> decide
  exact ⟨(toNat_or_low htype hwidth.1).1, (toNat_or_low htype hwidth.1).2, hwidth⟩

/-- What `readInt32` makes of a number, up to its sign. -/
theorem readMagnitude32_typed {type : UInt8} (htype : type &&& 7 = 0) (h : n < 2 ^ 64) :
    toOutcome (Decoding.readMagnitude32 (type ||| UInt8.ofNat (width n - 1)))
      (amid 1 (behind ++ [type ||| UInt8.ofNat (width n - 1)]) (leBytes (width n) n ++ ahead)) =
      if 2 ^ 32 ≤ n then .raise (.overflowException "rpc::int32")
      else .ok (.ofNat n, amid 1 (behind ++ typed type n) ahead) := by
  obtain ⟨hoctet, hmod, hwidth, hpos⟩ := toNat_typed htype h
  have hwide : width n > 4 ↔ 2 ^ 32 ≤ n := by
    unfold width
    split_ifs <;> omega
  have hword : n % 256 ^ width n = n := Nat.mod_eq_of_lt (lt_width h)
  rw [readMagnitude32_item n behind ahead (by rw [hoctet]; omega), hword]
  simp only [hwide]
  rfl

theorem readInt32_38 (h : n < 2 ^ 64) :
    (amid 1 behind (typed 0x38 n ++ ahead)).readInt32 =
      if 2 ^ 32 ≤ n then .raise (.overflowException "rpc::int32")
      else .ok (.ofNat n, amid 1 (behind ++ typed 0x38 n) ahead) := by
  have hshift : (0x38 ||| UInt8.ofNat (width n - 1)) >>> 3 = 7 := typed_shift h
  rw [← readMagnitude32_typed behind ahead rfl h, typed, cons_append,
    FastRpcDecoder.readInt32, Decoding.readInt32, Decoding.toOutcome_unlessAtEnd,
    if_neg (not_at_end_amid _ _ _ _), toOutcome_bind, Decoding.toOutcome_next, next_amid,
    ok_bind]
  simp only [hshift]

/-- `readInt32` of a negative number. -/
theorem readInt32_40 (h : n < 2 ^ 64) :
    (amid 1 behind (typed 0x40 n ++ ahead)).readInt32 =
      if 2 ^ 32 ≤ n then .raise (.overflowException "rpc::int32")
      else .ok (-.ofNat n, amid 1 (behind ++ typed 0x40 n) ahead) := by
  have hshift : (0x40 ||| UInt8.ofNat (width n - 1)) >>> 3 = 8 := typed_shift h
  have hmagnitude := readMagnitude32_typed behind ahead (show (0x40 : UInt8) &&& 7 = 0 from rfl) h
  rw [typed, cons_append, FastRpcDecoder.readInt32, Decoding.readInt32,
    Decoding.toOutcome_unlessAtEnd, if_neg (not_at_end_amid _ _ _ _), toOutcome_bind,
    Decoding.toOutcome_next, next_amid, ok_bind]
  simp only [hshift]
  rw [toOutcome_bind, hmagnitude]
  split_ifs <;> rfl

end Narrow

theorem writeInt64_minValue (content : Blob) :
    (v2 content).writeInt64 Int64.minValue =
      v2 (content ++ typed 0x40 0) := by
  have htype : intType64 1 Int64.minValue = (0x40, Int64.minValue) := by decide
  have hoctets : (0x40 + UInt8.ofNat (1 - 1)) :: leBytes 1 Int64.minValue.toBitVec.toNat =
      typed 0x40 0 := by decide
  rw [writeInt64, show (v2 content).length_add = 1 from rfl, htype,
    ← hoctets]
  rfl

/-- The `int` values that read back in the second version. -/
theorem int32ReadsBack_v2_iff (v : Int32) :
    ReadsAs 1 (·.writeInt32 v) readInt32 v ↔ v ≠ Int32.minValue := by
  by_cases hv : v = Int32.minValue
  · subst hv
    rw [readsAs_iff (fun content => congrArg _ (writeInt32_minValue content))
      fun behind ahead => readInt32_40 behind ahead (by omega)]
    decide
  · refine iff_of_true ?_ hv
    obtain ⟨n, hn, rfl | ⟨hpos, rfl⟩⟩ := int32_cases hv
    · refine (readsAs_iff (fun content => congrArg _ (writeInt32_ofNat content hn))
        fun behind ahead => ?_).mpr rfl
      rw [readInt32_38 behind ahead (by omega), if_neg (by omega)]
    · refine (readsAs_iff (fun content =>
        congrArg _ (writeInt32_neg content hn hpos)) fun behind ahead => ?_).mpr rfl
      rw [readInt32_40 behind ahead (by omega), if_neg (by omega)]

/-- The `Sint64` values that read back in the second version. -/
theorem int64ReadsBack_v2_iff (w : Int64) :
    ReadsAs 1 (·.writeInt64 w) readInt64 w ↔ w ≠ Int64.minValue := by
  by_cases hw : w = Int64.minValue
  · subst hw
    rw [readsAs_iff (fun content => congrArg _ (writeInt64_minValue content))
      fun behind ahead => readInt64_40 behind ahead (by omega)]
    decide
  · refine iff_of_true ?_ hw
    obtain ⟨n, hn, rfl | ⟨hpos, rfl⟩⟩ := int64_cases hw
    · exact (readsAs_iff (fun content => congrArg _ (writeInt64_ofNat content hn))
        fun behind ahead => readInt64_38 behind ahead (by omega)).mpr rfl
    · exact (readsAs_iff (fun content =>
        congrArg _ (writeInt64_neg content hn hpos))
          fun behind ahead => readInt64_40 behind ahead (by omega)).mpr rfl

/-- A `Sint64` is read as an `int` if it is one, and is an exception otherwise. -/
def NarrowReads (w : Int64) : Prop :=
  if -2 ^ 31 ≤ w.toInt ∧ w.toInt < 2 ^ 31 then ReadsAs 1 (·.writeInt64 w) readInt32 w.toInt32
  else RaisesOn 1 (·.writeInt64 w) readInt32

section Narrow

variable {w : Int64} {type : UInt8} {n : Nat} {value : Int32}
  (hwrite : ∀ content, (FastRpcEncoder.v2 content).writeInt64 w =
    FastRpcEncoder.v2 (content ++ typed type n))
  (hread : ∀ behind ahead, (amid 1 behind (typed type n ++ ahead)).readInt32 =
    if 2 ^ 32 ≤ n then .raise (.overflowException "rpc::int32")
    else .ok (value, amid 1 (behind ++ typed type n) ahead))

include hwrite hread

/-- A magnitude of four octets or fewer is taken without a look at its sign bit. -/
theorem narrowReads_iff (hvalue : w.toInt32 = value) :
    NarrowReads w ↔ (-2 ^ 31 ≤ w.toInt ∧ w.toInt < 2 ^ 31 ↔ n < 2 ^ 32) := by
  have hcontent : ∀ behind, ((⟨behind, 1⟩ : FastRpcEncoder).writeInt64 w).content =
      behind ++ typed type n := fun behind => congrArg _ (hwrite behind)
  unfold NarrowReads
  by_cases hn : n < 2 ^ 32
  · have hok := fun behind ahead => (hread behind ahead).trans (if_neg (Nat.not_le.mpr hn))
    split_ifs with hfits
    · exact iff_of_true ((readsAs_iff hcontent hok).mpr hvalue.symm) (iff_of_true hfits hn)
    · exact iff_of_false (not_raisesOn hcontent hok) fun h => hfits (h.mpr hn)
  · have hraise := fun behind ahead => (hread behind ahead).trans (if_pos (Nat.not_lt.mp hn))
    split_ifs with hfits
    · refine iff_of_false (fun h => ?_) fun h => hn (h.mp hfits)
      obtain ⟨octets, hoctets, hresult⟩ := h [] []
      obtain rfl := append_cancel_left ((hcontent []).symm.trans hoctets)
      rw [hraise] at hresult
      cases hresult
    · refine iff_of_true (fun behind ahead => ?_) (iff_of_false hfits hn)
      exact ⟨typed type n, _, hcontent behind, hraise behind ahead⟩

end Narrow

/-- The `Sint64` values that are read rightly as an `int`. -/
theorem narrowReads_v2_iff (w : Int64) :
    NarrowReads w ↔ w ≠ Int64.minValue ∧ ¬ (2 ^ 31 ≤ w.toInt ∧ w.toInt < 2 ^ 32) ∧
      ¬ (-2 ^ 32 < w.toInt ∧ w.toInt < -2 ^ 31) := by
  by_cases hw : w = Int64.minValue
  · subst hw
    rw [narrowReads_iff writeInt64_minValue (fun behind ahead => readInt32_40 behind ahead (by omega))
      (by decide)]
    decide
  · simp only [ne_eq, hw, not_false_eq_true, true_and]
    obtain ⟨n, hn, rfl | ⟨hpos, rfl⟩⟩ := int64_cases hw
    · rw [narrowReads_iff (writeInt64_ofNat · hn)
        (fun behind ahead => readInt32_38 behind ahead (by omega)) Int64.toInt32_ofNat',
        Int64.toInt_ofNat_of_lt hn]
      omega
    · rw [narrowReads_iff (writeInt64_neg · hn hpos)
        (fun behind ahead => readInt32_40 behind ahead (by omega))
        (by rw [Int64.toInt32_neg, Int64.toInt32_ofNat']), Int64.toInt_neg_ofNat_of_le hn.le]
      omega

/-- Both integers read back in the second version, the longer one also as an `int`. -/
def IntegersReadBackV2 (v : Int32) (w : Int64) : Prop :=
  ReadsAs 1 (·.writeInt32 v) readInt32 v ∧ ReadsAs 1 (·.writeInt64 w) readInt64 w ∧ NarrowReads w

/-- The integers read back unless they are the least ones, and a `Sint64` is read as an `int` unless
its magnitude has 32 bits but it is no `int`. -/
theorem integersReadBackV2_iff (v : Int32) (w : Int64) :
    IntegersReadBackV2 v w ↔ v ≠ Int32.minValue ∧ w ≠ Int64.minValue ∧
      ¬ (2 ^ 31 ≤ w.toInt ∧ w.toInt < 2 ^ 32) ∧ ¬ (-2 ^ 32 < w.toInt ∧ w.toInt < -2 ^ 31) := by
  rw [IntegersReadBackV2, int32ReadsBack_v2_iff, int64ReadsBack_v2_iff, narrowReads_v2_iff]
  tauto

/-- The least `int` is read back as zero. -/
theorem not_integersReadBackV2_minValue : ¬ IntegersReadBackV2 Int32.minValue 0 := fun h =>
  (int32ReadsBack_v2_iff Int32.minValue).mp h.1 rfl

end FastRpc

end Drt
