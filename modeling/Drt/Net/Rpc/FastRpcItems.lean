import Drt.Net.Rpc.FastRpcDecoder
import Drt.Net.Rpc.FastRpcEncoder

/-!
# The items of FastRPC

What one write call appends, and that the read calls take exactly this. An integer
is written with its type in as many octets as `width` says; signs and lengths are
both in this form.
-/

open List Outcome

namespace Drt

open Bytes

/-- The number of octets for an integer. -/
def FastRpc.width (n : Nat) : Nat :=
  if n ≤ 0xff then 1 else if n ≤ 0xffff then 2 else if n ≤ 0xffffffff then 4 else 8

/-- An integer with a type in front. -/
def FastRpc.typed (type : UInt8) (n : Nat) : Blob :=
  (type ||| UInt8.ofNat (width n - 1)) :: leBytes (width n) n

namespace FastRpc

variable {n : Nat}

theorem width_cases (h : n < 2 ^ 64) :
    (width n = 1 ∧ n < 256 ^ 1) ∨ (width n = 2 ∧ n < 256 ^ 2) ∨ (width n = 4 ∧ n < 256 ^ 4) ∨
      (width n = 8 ∧ n < 256 ^ 8) := by
  unfold width
  split_ifs <;> omega

theorem lt_width (h : n < 2 ^ 64) : n < 256 ^ width n := by
  rcases width_cases h with ⟨hw, hn⟩ | ⟨hw, hn⟩ | ⟨hw, hn⟩ | ⟨hw, hn⟩ <;> rwa [hw]

theorem or_and_right (x y z : UInt8) : (x ||| y) &&& z = x &&& z ||| y &&& z :=
  UInt8.toBitVec_inj.mp BitVec.and_or_distrib_right

theorem typed_and_7 (type : UInt8) (htype : type &&& 7 = 0) (h : n < 2 ^ 64) :
    ((type ||| UInt8.ofNat (width n - 1)) &&& 7).toNat = width n - 1 := by
  have hdist : (type ||| UInt8.ofNat (width n - 1)) &&& 7 = UInt8.ofNat (width n - 1) &&& 7 := by
    rw [or_and_right, htype, UInt8.zero_or]
  rw [hdist]
  rcases width_cases h with ⟨hw, -⟩ | ⟨hw, -⟩ | ⟨hw, -⟩ | ⟨hw, -⟩ <;> rw [hw] <;> rfl

theorem typed_and_f8 (type : UInt8) (htype : type &&& 0xf8 = type) (h : n < 2 ^ 64) :
    (type ||| UInt8.ofNat (width n - 1)) &&& 0xf8 = type := by
  have hlow : UInt8.ofNat (width n - 1) &&& 0xf8 = 0 := by
    rcases width_cases h with ⟨hw, -⟩ | ⟨hw, -⟩ | ⟨hw, -⟩ | ⟨hw, -⟩ <;> rw [hw] <;> rfl
  rw [or_and_right, htype, hlow, UInt8.or_zero]

theorem typed_shift {type : UInt8} (h : n < 2 ^ 64) :
    (type ||| UInt8.ofNat (width n - 1)) >>> 3 = type >>> 3 := by
  have hlow : UInt8.ofNat (width n - 1) >>> 3 = 0 := by
    rcases width_cases h with ⟨hw, -⟩ | ⟨hw, -⟩ | ⟨hw, -⟩ | ⟨hw, -⟩ <;> rw [hw] <;> rfl
  rw [UInt8.shiftRight_or, hlow, UInt8.or_zero]

end FastRpc

open FastRpc

namespace FastRpcEncoder

/-- The encoder of the second version with this content. -/
def v2 (content : Blob) : FastRpcEncoder := ⟨content, 1⟩

@[simp] theorem append_v2 (content octets : Blob) :
    (v2 content).append octets = v2 (content ++ octets) := rfl

variable {type : UInt8} {k n : Nat}

theorem appendTyped_v2 (content : Blob) (htype : type &&& 7 = 0) (h : n < 2 ^ 64) :
    (v2 content).appendTyped (type ||| UInt8.ofNat (width n - 1)) n =
      v2 (content ++ typed type n) := by
  have hpos : width n - 1 + 1 = width n := by
    rcases width_cases h with ⟨hw, -⟩ | ⟨hw, -⟩ | ⟨hw, -⟩ | ⟨hw, -⟩ <;> rw [hw]
  simp only [appendTyped, append, typeOctet, v2, typed_and_7 type htype h, hpos, typed]
  simp

/-- What `writeGenLength` appends. -/
theorem writeGenLength_v2 (content : Blob) (htype : type &&& 7 = 0) (h : n < 2 ^ 32) :
    (v2 content).writeGenLength type (.ofNat n) = v2 (content ++ typed type n) := by
  rw [← appendTyped_v2 content htype (by omega)]
  have hn : (UInt64.ofNat n).toNat = n :=
    UInt64.toNat_ofNat_of_lt' (by simp only [UInt64.size]; omega)
  have hbit : UInt64.ofNat n &&& ((1 : UInt64) <<< 32) = 0 := by
    rw [← UInt64.toNat_inj, UInt64.toNat_and, hn]
    change n &&& 2 ^ 32 = 0
    rw [Nat.and_two_pow, Nat.testBit_lt_two_pow h]
    rfl
  have h64 : UInt64.ofNat n > 0xff ↔ 0xff < n := by
    rw [gt_iff_lt, UInt64.lt_iff_toNat_lt, hn]
    rfl
  have h32 : (UInt64.ofNat n).toUInt32 > 0xffff ↔ 0xffff < n := by
    rw [gt_iff_lt, UInt32.lt_iff_toNat_lt, UInt64.toNat_toUInt32, hn, Nat.mod_eq_of_lt h]
    rfl
  have hno : ∀ type : UInt8, ¬ (type &&& 7 = 7 ∧ (v2 content).length_add = 0) := by
    simp [v2]
  simp only [writeGenLength, hbit, h64, h32, hn, if_neg (hno _), ne_eq, not_true_eq_false,
    if_false]
  congr 1
  unfold width
  split_ifs <;> first | rfl | omega

/-- A `Sint64` other than the least one is a number below `2 ^ 63`, or its negative. -/
theorem int64_cases {v : Int64} (hv : v ≠ Int64.minValue) :
    ∃ n, n < 2 ^ 63 ∧ (v = .ofNat n ∨ 0 < n ∧ v = -.ofNat n) := by
  have hmin : v.toInt ≠ -2 ^ 63 := fun heq =>
    hv (Int64.toInt_inj.mp (heq.trans Int64.toInt_minValue.symm))
  have hlo := v.le_toInt
  have hhi := v.toInt_lt
  refine ⟨v.toInt.natAbs, by omega, ?_⟩
  by_cases hneg : v.toInt < 0
  · refine Or.inr ⟨by omega, Int64.toInt_inj.mp ?_⟩
    rw [Int64.toInt_neg_ofNat_of_le (by omega)]
    omega
  · refine Or.inl (Int64.toInt_inj.mp ?_)
    rw [Int64.toInt_ofNat_of_lt (by omega)]
    omega

theorem toInt_neg_ofNat32 (hn : n < 2 ^ 31) : (-Int32.ofNat n).toInt = -(n : Int) := by
  rw [Int32.toInt_neg, Int32.toInt_ofNat_of_lt hn]
  exact Int.bmod_eq_of_le (by omega) (by omega)

/-- An `int` other than the least one is a number below `2 ^ 31`, or its negative. -/
theorem int32_cases {v : Int32} (hv : v ≠ Int32.minValue) :
    ∃ n, n < 2 ^ 31 ∧ (v = .ofNat n ∨ 0 < n ∧ v = -.ofNat n) := by
  have hmin : v.toInt ≠ -2 ^ 31 := fun heq =>
    hv (Int32.toInt_inj.mp (heq.trans Int32.toInt_minValue.symm))
  have hlo := v.le_toInt
  have hhi := v.toInt_lt
  refine ⟨v.toInt.natAbs, by omega, ?_⟩
  by_cases hneg : v.toInt < 0
  · refine Or.inr ⟨by omega, Int32.toInt_inj.mp ?_⟩
    rw [toInt_neg_ofNat32 (by omega)]
    omega
  · refine Or.inl (Int32.toInt_inj.mp ?_)
    rw [Int32.toInt_ofNat_of_lt (by omega)]
    omega

theorem ofNat_le_iff64 (hn : n < 2 ^ 63) (hk : k < 2 ^ 63) :
    Int64.ofNat n ≤ Int64.ofNat k ↔ n ≤ k := by
  rw [Int64.le_iff_toInt_le, Int64.toInt_ofNat_of_lt hn, Int64.toInt_ofNat_of_lt hk]
  omega

theorem ofNat_le_iff32 (hn : n < 2 ^ 31) (hk : k < 2 ^ 31) :
    Int32.ofNat n ≤ Int32.ofNat k ↔ n ≤ k := by
  rw [Int32.le_iff_toInt_le, Int32.toInt_ofNat_of_lt hn, Int32.toInt_ofNat_of_lt hk]
  omega

/-- The type of a `Sint64`, once its sign is known. -/
theorem intType64_eq {v : Int64} (hn : n < 2 ^ 63) (htype : (if v < 0 then 0x40 else 0x38) = type)
    (hvalue : (if v < 0 then -v else v) = .ofNat n) :
    intType64 1 v = (type ||| UInt8.ofNat (width n - 1), .ofNat n) := by
  have h8 : Int64.ofNat n ≤ 0xff ↔ n ≤ 0xff := ofNat_le_iff64 (k := 0xff) hn (by omega)
  have h16 : Int64.ofNat n ≤ 0xffff ↔ n ≤ 0xffff := ofNat_le_iff64 (k := 0xffff) hn (by omega)
  have h32 : Int64.ofNat n ≤ 0xffffffff ↔ n ≤ 0xffffffff :=
    ofNat_le_iff64 (k := 0xffffffff) hn (by omega)
  simp only [intType64, htype, hvalue, h8, h16, h32, width]
  split_ifs <;> first | rfl | omega

theorem intType32_eq {v : Int32} (hn : n < 2 ^ 31) (htype : (if v < 0 then 0x40 else 0x38) = type)
    (hvalue : (if v < 0 then -v else v) = .ofNat n) :
    intType32 1 v = (type ||| UInt8.ofNat (width n - 1), .ofNat n) := by
  have h8 : Int32.ofNat n ≤ 0xff ↔ n ≤ 0xff := ofNat_le_iff32 (k := 0xff) hn (by omega)
  have h16 : Int32.ofNat n ≤ 0xffff ↔ n ≤ 0xffff := ofNat_le_iff32 (k := 0xffff) hn (by omega)
  simp only [intType32, htype, hvalue, h8, h16, width]
  split_ifs <;> first | rfl | omega

section

variable (content : Blob)
include content

/-- What `writeInt(Sint64)` appends for a value whose sign is taken off. -/
theorem writeInt64_v2 {v : Int64} (hn : n < 2 ^ 63) (hlow : type &&& 7 = 0)
    (htype : (if v < 0 then 0x40 else 0x38) = type)
    (hvalue : (if v < 0 then -v else v) = .ofNat n) :
    (v2 content).writeInt64 v = v2 (content ++ typed type n) := by
  have hnat : (Int64.ofNat n).toBitVec.toNat = n := by
    change n % 2 ^ 64 = n
    omega
  rw [writeInt64, show (v2 content).length_add = 1 from rfl, intType64_eq hn htype hvalue]
  simp only [hnat]
  exact appendTyped_v2 content hlow (by omega)

/-- What `writeInt(Sint32)` appends for a value whose sign is taken off. -/
theorem writeInt32_v2 {v : Int32} (hn : n < 2 ^ 31) (hlow : type &&& 7 = 0)
    (htype : (if v < 0 then 0x40 else 0x38) = type)
    (hvalue : (if v < 0 then -v else v) = .ofNat n) :
    (v2 content).writeInt32 v = v2 (content ++ typed type n) := by
  have hnat : (Int32.ofNat n).toBitVec.toNat = n := by
    change n % 2 ^ 32 = n
    omega
  rw [writeInt32, show (v2 content).length_add = 1 from rfl, intType32_eq hn htype hvalue]
  simp only [hnat]
  exact appendTyped_v2 content hlow (by omega)

theorem writeInt64_ofNat (hn : n < 2 ^ 63) :
    (v2 content).writeInt64 (.ofNat n) = v2 (content ++ typed 0x38 n) := by
  have hneg : ¬ Int64.ofNat n < 0 := by
    rw [Int64.lt_iff_toInt_lt, Int64.toInt_ofNat_of_lt hn]
    exact Int.not_lt.mpr (Int.natCast_nonneg n)
  exact writeInt64_v2 content hn rfl (if_neg hneg) (if_neg hneg)

theorem writeInt64_neg (hn : n < 2 ^ 63) (hpos : 0 < n) :
    (v2 content).writeInt64 (-.ofNat n) = v2 (content ++ typed 0x40 n) := by
  have hneg : -Int64.ofNat n < 0 := by
    rw [Int64.lt_iff_toInt_lt, Int64.toInt_neg_ofNat_of_le hn.le]
    change -(n : Int) < 0
    omega
  refine writeInt64_v2 content hn rfl (if_pos hneg) ?_
  rw [if_pos hneg, Int64.neg_neg]

theorem writeInt32_ofNat (hn : n < 2 ^ 31) :
    (v2 content).writeInt32 (.ofNat n) = v2 (content ++ typed 0x38 n) := by
  have hneg : ¬ Int32.ofNat n < 0 := by
    rw [Int32.lt_iff_toInt_lt, Int32.toInt_ofNat_of_lt hn]
    exact Int.not_lt.mpr (Int.natCast_nonneg n)
  exact writeInt32_v2 content hn rfl (if_neg hneg) (if_neg hneg)

theorem writeInt32_neg (hn : n < 2 ^ 31) (hpos : 0 < n) :
    (v2 content).writeInt32 (-.ofNat n) = v2 (content ++ typed 0x40 n) := by
  have hneg : -Int32.ofNat n < 0 := by
    rw [Int32.lt_iff_toInt_lt, toInt_neg_ofNat32 hn]
    change -(n : Int) < 0
    omega
  refine writeInt32_v2 content hn rfl (if_pos hneg) ?_
  rw [if_pos hneg, Int32.neg_neg]

/-- The least `int` is its own negative and stays below zero: it is taken for a number of one
octet. -/
theorem writeInt32_minValue :
    (v2 content).writeInt32 Int32.minValue = v2 (content ++ typed 0x40 0) := by
  have htype : intType32 1 Int32.minValue = (0x40, Int32.minValue) := by decide
  have hoctets : (0x40 + UInt8.ofNat (1 - 1)) :: leBytes 1 Int32.minValue.toBitVec.toNat =
      typed 0x40 0 := by decide
  rw [writeInt32, show (v2 content).length_add = 1 from rfl, htype, ← hoctets]
  rfl

end

end FastRpcEncoder

namespace FastRpcDecoder

/-- A decoder of the second version between the octets behind and the octets ahead. -/
def between (behind ahead : Blob) : FastRpcDecoder := ⟨behind ++ ahead, behind.length, 1⟩

section Primitives

variable (behind ahead : Blob)

theorem theEnd_between : (between behind ahead).theEnd = behind.length + ahead.length := by
  simp [between, theEnd]

theorem pos_between : (between behind ahead).pos = behind.length := rfl

theorem peek_between (c : UInt8) : (between behind (c :: ahead)).peek = .ok c := by
  simp [between, peek]

theorem next_between (c : UInt8) :
    (between behind (c :: ahead)).next = .ok (c, between (behind ++ [c]) ahead) := by
  simp [between, next, peek]

theorem take_between (octets : Blob) :
    (between behind (octets ++ ahead)).take octets.length =
      .ok (octets, between (behind ++ octets) ahead) := by
  simp [between, take, theEnd]

end Primitives

/-- The sum of the octets from place `i` on. -/
theorem toNat_addOctets (value : UInt64) (i : Nat) (octets : Blob)
    (h : i + 8 * octets.length ≤ 64) :
    (addOctets value i octets).toNat = (value.toNat + 2 ^ i * leValue octets) % 2 ^ 64 := by
  induction octets generalizing value i with
  | nil => simp [addOctets, leValue, Nat.mod_eq_of_lt value.toNat_lt]
  | cons c octets ih =>
    rw [length_cons] at h
    have hshift : (c.toUInt64 <<< UInt64.ofNat i).toNat = c.toNat <<< i := by
      have hi : (UInt64.ofNat i).toNat % 64 = i := by
        rw [UInt64.toNat_ofNat_of_lt' (by simp only [UInt64.size]; omega)]
        omega
      rw [UInt64.toNat_shiftLeft, hi, UInt8.toNat_toUInt64, shiftLeft_mod c (by omega)]
    rw [addOctets, ih _ _ (by omega), UInt64.toNat_add, hshift, leValue, Nat.shiftLeft_eq,
      Nat.mod_add_mod]
    congr 1
    ring

theorem addOctets_leBytes {n k : Nat} (hk : k ≤ 8) (h : n < 256 ^ k) :
    addOctets 0 0 (leBytes k n) = UInt64.ofNat n := by
  rw [← UInt64.toNat_inj, toNat_addOctets _ _ _ (by simp; omega), leValue_leBytes h,
    UInt64.toNat_ofNat']
  simp

section Items

variable (behind ahead : Blob)

variable {n : Nat}

/-- `readGenLength` behind a type octet. -/
theorem readGenLength_between (h : n < 2 ^ 64) :
    (between behind (leBytes (width n) n ++ ahead)).readGenLength (width n - 1) =
      .ok (.ofNat n, between (behind ++ leBytes (width n) n) ahead) := by
  have hw : width n - 1 + (between behind (leBytes (width n) n ++ ahead)).length_add = width n := by
    change width n - 1 + 1 = width n
    rcases width_cases h with ⟨hw, -⟩ | ⟨hw, -⟩ | ⟨hw, -⟩ | ⟨hw, -⟩ <;> rw [hw]
  have hle : ¬ width n > 8 := by
    rcases width_cases h with ⟨hw, -⟩ | ⟨hw, -⟩ | ⟨hw, -⟩ | ⟨hw, -⟩ <;> omega
  have htake := take_between behind ahead (leBytes (width n) n)
  rw [length_leBytes] at htake
  rw [readGenLength, hw, theEnd_between, pos_between, if_neg (by omega), if_neg hle, htake]
  simp [leValue_leBytes (lt_width h)]

theorem not_at_end (c : UInt8) :
    ¬ (between behind (c :: ahead)).pos ≥ (between behind (c :: ahead)).theEnd := by
  rw [theEnd_between, pos_between, length_cons]
  omega

/-- The octets of an integer after its type. -/
theorem take_leBytes (h : n < 2 ^ 64) :
    (width n - 1 + 1 = width n) ∧
      ¬ (between behind (leBytes (width n) n ++ ahead)).pos + width n >
        (between behind (leBytes (width n) n ++ ahead)).theEnd ∧
      (between behind (leBytes (width n) n ++ ahead)).take (width n) =
        .ok (leBytes (width n) n, between (behind ++ leBytes (width n) n) ahead) ∧
      addOctets 0 0 (leBytes (width n) n) = UInt64.ofNat n := by
  have htake := take_between behind ahead (leBytes (width n) n)
  rw [length_leBytes] at htake
  refine ⟨?_, ?_, htake, addOctets_leBytes ?_ (lt_width h)⟩
  · rcases width_cases h with ⟨hw, -⟩ | ⟨hw, -⟩ | ⟨hw, -⟩ | ⟨hw, -⟩ <;> rw [hw]
  · rw [theEnd_between, pos_between, length_append, length_leBytes]
    omega
  · rcases width_cases h with ⟨hw, -⟩ | ⟨hw, -⟩ | ⟨hw, -⟩ | ⟨hw, -⟩ <;> omega

theorem readInt64_38 (h : n < 2 ^ 64) :
    (between behind (typed 0x38 n ++ ahead)).readInt64 =
      .ok (.ofNat n, between (behind ++ typed 0x38 n) ahead) := by
  obtain ⟨hw, hend, htake, hadd⟩ := take_leBytes (behind ++ [0x38 ||| .ofNat (width n - 1)]) ahead h
  have hshift : (0x38 ||| UInt8.ofNat (width n - 1)) >>> 3 = 7 := typed_shift h
  rw [typed, cons_append, readInt64, if_neg (not_at_end _ _ _), next_between,
    ok_bind]
  simp only [hshift, typed_and_7 0x38 rfl h]
  rw [show ∀ b a, (between b a).length_add = 1 from fun _ _ => rfl, hw, if_neg hend, htake]
  simp [hadd]

theorem readInt64_40 (h : n < 2 ^ 64) :
    (between behind (typed 0x40 n ++ ahead)).readInt64 =
      .ok (-.ofNat n, between (behind ++ typed 0x40 n) ahead) := by
  obtain ⟨hw, hend, htake, hadd⟩ := take_leBytes (behind ++ [0x40 ||| .ofNat (width n - 1)]) ahead h
  have hshift : (0x40 ||| UInt8.ofNat (width n - 1)) >>> 3 = 8 := typed_shift h
  rw [typed, cons_append, readInt64, if_neg (not_at_end _ _ _), next_between,
    ok_bind]
  simp only [hshift, typed_and_7 0x40 rfl h]
  rw [show ∀ b a, (between b a).length_add = 1 from fun _ _ => rfl, hw, if_neg hend, htake]
  simp [hadd]

theorem readBool_between (v : Bool) :
    (between behind ((0x10 ||| v.toUInt8) :: ahead)).readBool =
      .ok (v, between (behind ++ [0x10 ||| v.toUInt8]) ahead) := by
  rw [readBool, if_neg (not_at_end _ _ _), next_between, ok_bind]
  cases v <;> rfl

/-- A string or a binary. -/
theorem readOctets_between {type : UInt8} (htype : type &&& 0xf8 = type) (hlow : type &&& 7 = 0)
    {data : Blob} (h : data.length < 2 ^ 64) :
    (between behind (typed type data.length ++ data ++ ahead)).readOctets type =
      .ok (data, between (behind ++ (typed type data.length ++ data)) ahead) := by
  have hlen : (UInt64.ofNat data.length).toNat = data.length := UInt64.toNat_ofNat_of_lt' h
  rw [append_assoc, typed, cons_append, readOctets, if_neg (not_at_end _ _ _),
    next_between, ok_bind]
  simp only [typed_and_f8 type htype h, typed_and_7 type hlow h, ne_eq, not_true_eq_false,
    if_false]
  rw [readGenLength_between _ _ h, ok_bind]
  simp only [hlen]
  rw [if_neg (by rw [theEnd_between, pos_between]; omega), take_between]
  simp

theorem readCount_between {type : UInt8} (htype : type &&& 0xf8 = type) (hlow : type &&& 7 = 0)
    (format_type : String) (h : n < 2 ^ 64) :
    (between behind (typed type n ++ ahead)).readCount type format_type =
      .ok (.ofNat n, between (behind ++ typed type n) ahead) := by
  rw [typed, cons_append, readCount, if_neg (not_at_end _ _ _), next_between,
    ok_bind]
  simp only [typed_and_f8 type htype h, typed_and_7 type hlow h, ne_eq, not_true_eq_false,
    if_false]
  rw [readGenLength_between _ _ h]
  simp

theorem readMemberName_between {name : Blob} (h : name.length ≤ 255) :
    (between behind ((UInt8.ofNat name.length :: name) ++ ahead)).readMemberName =
      .ok (.bytes name, between (behind ++ (UInt8.ofNat name.length :: name)) ahead) := by
  have hlen : (UInt8.ofNat name.length).toNat = name.length :=
    UInt8.toNat_ofNat_of_lt' (by simp only [UInt8.size]; omega)
  rw [cons_append, readMemberName, if_neg (not_at_end _ _ _), next_between,
    ok_bind]
  simp only [hlen]
  rw [if_neg (by rw [theEnd_between, pos_between]; omega), take_between]
  simp

end Items

end FastRpcDecoder

end Drt
