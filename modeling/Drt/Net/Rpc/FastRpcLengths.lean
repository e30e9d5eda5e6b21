import Drt.Net.Rpc.FastRpcItems
import Mathlib.Tactic.IntervalCases

/-!
# Which lengths of FastRPC read back

An item is a type octet and some of the octets of a word, in either version of the protocol. The
number that `readGenLength` makes of them is a remainder of the word, so a length reads back as
it was written exactly if `writeGenLength` has chosen enough octets.
-/

namespace Drt

open Bytes

namespace FastRpcDecoder

/-- A type octet and what `readGenLength` takes behind it. -/
def readTypedLength (d : FastRpcDecoder) : Call (UInt64 × FastRpcDecoder) := do
  let (type, d) ← d.next
  d.readGenLength (type &&& 7).toNat

/-- A decoder between the octets behind and the octets ahead, for either version. -/
def amid (length_add : Nat) (behind ahead : Blob) : FastRpcDecoder :=
  ⟨behind ++ ahead, behind.length, length_add⟩

end FastRpcDecoder

namespace FastRpc

open FastRpcDecoder

/-- The read call takes exactly the octets that the write call appends, with this result. -/
def ReadsAs {α : Type} (length_add : Nat) (write : FastRpcEncoder → FastRpcEncoder)
    (read : FastRpcDecoder → Call (α × FastRpcDecoder)) (result : α) : Prop :=
  ∀ behind ahead : Blob, ∃ octets,
    (write ⟨behind, length_add⟩).content = behind ++ octets ∧
      read (amid length_add behind (octets ++ ahead)) =
        .ok (result, amid length_add (behind ++ octets) ahead)

/-- The read call raises an exception on the octets that the write call appends. -/
def RaisesOn {α : Type} (length_add : Nat) (write : FastRpcEncoder → FastRpcEncoder)
    (read : FastRpcDecoder → Call (α × FastRpcDecoder)) : Prop :=
  ∀ behind ahead : Blob, ∃ octets e,
    (write ⟨behind, length_add⟩).content = behind ++ octets ∧
      read (amid length_add behind (octets ++ ahead)) = .raise e

section Reading

variable {α : Type} {length_add : Nat} {write : FastRpcEncoder → FastRpcEncoder}
  {read : FastRpcDecoder → Call (α × FastRpcDecoder)} {octets : Blob}
  (hwrite : ∀ behind, (write ⟨behind, length_add⟩).content = behind ++ octets)

include hwrite

/-- An item with a known result reads as this one only. -/
theorem readsAs_iff {value result : α}
    (hread : ∀ behind ahead, read (amid length_add behind (octets ++ ahead)) =
      .ok (value, amid length_add (behind ++ octets) ahead)) :
    ReadsAs length_add write read result ↔ value = result := by
  constructor
  · intro h
    obtain ⟨octets', hcontent, hresult⟩ := h [] []
    rw [hwrite] at hcontent
    obtain rfl : octets = octets' := List.append_cancel_left hcontent
    rw [hread] at hresult
    injection hresult with hpair
    exact (Prod.mk.inj hpair).1
  · rintro rfl behind ahead
    exact ⟨octets, hwrite behind, hread behind ahead⟩

theorem not_raisesOn {value : α}
    (hread : ∀ behind ahead, read (amid length_add behind (octets ++ ahead)) =
      .ok (value, amid length_add (behind ++ octets) ahead)) :
    ¬ RaisesOn length_add write read := by
  intro h
  obtain ⟨octets', e, hcontent, hraise⟩ := h [] []
  rw [hwrite] at hcontent
  obtain rfl : octets = octets' := List.append_cancel_left hcontent
  rw [hread] at hraise
  cases hraise

end Reading

section Octets

variable (length_add : Nat) (behind ahead : Blob)

theorem next_amid (c : UInt8) :
    (amid length_add behind (c :: ahead)).next =
      .ok (c, amid length_add (behind ++ [c]) ahead) := by
  simp [amid, next, peek]

theorem not_at_end_amid (c : UInt8) :
    ¬ (amid length_add behind (c :: ahead)).pos ≥
      (amid length_add behind (c :: ahead)).theEnd := by
  simp [amid, theEnd]

theorem take_amid {n : Nat} {octets : Blob} (h : octets.length = n) :
    (amid length_add behind (octets ++ ahead)).take n =
      .ok (octets, amid length_add (behind ++ octets) ahead) := by
  subst h
  simp [amid, take, theEnd]

theorem not_beyond_amid {n : Nat} {octets : Blob} (h : octets.length = n) :
    ¬ (amid length_add behind (octets ++ ahead)).pos + n >
      (amid length_add behind (octets ++ ahead)).theEnd := by
  simp only [amid, theEnd, List.length_append, h]
  omega

@[simp] theorem amid_length_add : (amid length_add behind ahead).length_add = length_add := rfl

end Octets

/-- A type octet and the low octets of a word. -/
def item (first : UInt8) (octets word : Nat) : Blob := first :: leBytes octets word

variable {type : UInt8} {length_add low : Nat}

theorem toNat_or_low (htype : type &&& 7 = 0) (hlow : low < 8) :
    (type ||| UInt8.ofNat low).toNat = type.toNat + low ∧ type.toNat % 8 = 0 := by
  have hmod : type.toNat % 8 = 0 := by
    rw [← Nat.and_two_pow_sub_one_eq_mod type.toNat 3]
    exact congrArg UInt8.toNat htype
  have hsplit : type.toNat = (type.toNat / 8) <<< 3 := by
    rw [Nat.shiftLeft_eq]
    omega
  refine ⟨?_, hmod⟩
  rw [UInt8.toNat_or, UInt8.toNat_ofNat_of_lt' (by simp only [UInt8.size]; omega), Nat.lor_comm]
  conv_lhs => rw [hsplit]
  rw [or_shiftLeft _ hlow]
  omega

theorem toNat_and_7 (c : UInt8) : (c &&& 7).toNat = c.toNat % 8 :=
  Nat.and_two_pow_sub_one_eq_mod c.toNat 3

/-- `if ((type&7) == 7 && length_add == 0) type--`: the first version has no eight octets. -/
theorem or_low_sub (htype : type &&& 7 = 0) (hadd : length_add ≤ 1) (hlow : low < 8) :
    (if (type ||| UInt8.ofNat low) &&& 7 = 7 ∧ length_add = 0 then (type ||| UInt8.ofNat low) - 1
      else type ||| UInt8.ofNat low) = type ||| UInt8.ofNat (min low (6 + length_add)) := by
  obtain ⟨hor, hmod⟩ := toNat_or_low htype hlow
  have hseven : (type ||| UInt8.ofNat low) &&& 7 = 7 ↔ low = 7 := by
    rw [← UInt8.toNat_inj, toNat_and_7, hor]
    change (type.toNat + low) % 8 = 7 ↔ low = 7
    omega
  simp only [hseven]
  split_ifs with h
  · obtain ⟨rfl, rfl⟩ := h
    have hsix := (toNat_or_low htype (by omega : 6 < 8)).1
    have hlt := (type ||| UInt8.ofNat 7).toNat_lt
    rw [← UInt8.toNat_inj, UInt8.toNat_sub, hor]
    change (2 ^ 8 - 1 + (type.toNat + 7)) % 2 ^ 8 = (type ||| UInt8.ofNat 6).toNat
    omega
  · rw [min_eq_left (by omega)]

/-- A type with the number of octets in its low bits. -/
theorem appendTyped_item (htype : type &&& 7 = 0) (hadd : length_add ≤ 1)
    (hlow : low < 7 + length_add) :
    ∃ first : UInt8, first.toNat / 8 = type.toNat / 8 ∧ first.toNat % 8 + length_add = low + 1 ∧
      ∀ behind word, ((⟨behind, length_add⟩ : FastRpcEncoder).appendTyped
        (type ||| UInt8.ofNat low) word).content = behind ++ item first (low + 1) word := by
  obtain ⟨hor, hmod⟩ := toNat_or_low htype (by omega : low < 8)
  have hoctets : ((type ||| UInt8.ofNat low) &&& 7).toNat = low := by
    rw [toNat_and_7, hor]
    omega
  have hlt := type.toNat_lt
  have hfirst : ((type ||| UInt8.ofNat low) + UInt8.ofNat (1 - length_add)).toNat =
      type.toNat + (low + (1 - length_add)) := by
    rw [UInt8.toNat_add, hor, UInt8.toNat_ofNat_of_lt' (by simp only [UInt8.size]; omega)]
    omega
  refine ⟨(type ||| UInt8.ofNat low) + UInt8.ofNat (1 - length_add), ?_, ?_, ?_⟩
  · rw [hfirst]
    omega
  · rw [hfirst]
    omega
  · intro behind word
    change behind ++ (_ :: leBytes (((type ||| UInt8.ofNat low) &&& 7).toNat + 1) word) = _
    rw [hoctets]
    rfl

/-- The octets of a length. The comparison with `0xffff` looks at the low 32 bits, and only bit 32
of the rest is looked at. -/
def lengthOctets (length_add : Nat) (length : UInt64) : Nat :=
  if length.toNat ≤ 0xff then 1
  else if length.toNat % 2 ^ 32 ≤ 0xffff then 2
  else if length &&& ((1 : UInt64) <<< 32) = 0 then 4
  else 7 + length_add

/-- What `writeGenLength` appends. -/
theorem writeGenLength_item (htype : type &&& 7 = 0) (hadd : length_add ≤ 1) (length : UInt64) :
    ∃ first : UInt8, first.toNat % 8 + length_add = lengthOctets length_add length ∧ ∀ behind,
      ((⟨behind, length_add⟩ : FastRpcEncoder).writeGenLength type length).content =
        behind ++ item first (lengthOctets length_add length) length.toNat := by
  have hlow : lengthOctets length_add length - 1 < 7 + length_add ∧
      lengthOctets length_add length - 1 + 1 = lengthOctets length_add length := by
    unfold lengthOctets
    split_ifs <;> omega
  obtain ⟨first, -, hfirst, hitem⟩ := appendTyped_item htype hadd hlow.1
  rw [hlow.2] at hfirst hitem
  refine ⟨first, hfirst, fun behind => ?_⟩
  rw [← hitem, FastRpcEncoder.writeGenLength]
  congr 2
  have h64 : length > 0xff ↔ ¬ length.toNat ≤ 0xff := UInt64.lt_iff_toNat_lt.trans Nat.not_le.symm
  have h32 : length.toUInt32 > 0xffff ↔ ¬ length.toNat % 2 ^ 32 ≤ 0xffff :=
    UInt32.lt_iff_toNat_lt.trans Nat.not_le.symm
  have hstep : ∀ low : Nat, low < 8 →
      lengthOctets length_add length - 1 = min low (6 + length_add) →
      (if (type ||| UInt8.ofNat low) &&& 7 = 7 ∧ length_add = 0 then (type ||| UInt8.ofNat low) - 1
        else type ||| UInt8.ofNat low) =
          type ||| UInt8.ofNat (lengthOctets length_add length - 1) := by
    intro low hlow8 hoctets
    rw [hoctets, or_low_sub htype hadd hlow8]
  simp only [h64, h32, ite_not, ne_eq]
  by_cases hshort : length.toNat ≤ 0xff
  · simp only [if_pos hshort]
    exact hstep 0 (by omega) (by rw [lengthOctets, if_pos hshort]; omega)
  · simp only [if_neg hshort]
    by_cases hlow32 : length.toNat % 2 ^ 32 ≤ 0xffff
    · simp only [if_pos hlow32]
      exact hstep 1 (by omega) (by rw [lengthOctets, if_neg hshort, if_pos hlow32]; omega)
    · simp only [if_neg hlow32]
      by_cases hbit : length &&& ((1 : UInt64) <<< 32) = 0
      · simp only [if_pos hbit]
        exact hstep 3 (by omega) (by
        rw [lengthOctets, if_neg hshort, if_neg hlow32, if_pos hbit]; omega)
      · simp only [if_neg hbit]
        exact hstep 7 (by omega) (by
        rw [lengthOctets, if_neg hshort, if_neg hlow32, if_neg hbit]; omega)

/-- `readGenLength` makes of an item the remainder of its word. -/
theorem readTypedLength_item {first : UInt8} {octets : Nat}
    (hfirst : first.toNat % 8 + length_add = octets) (hoctets : octets ≤ 8) (word : Nat)
    (behind ahead : Blob) :
    (amid length_add behind (item first octets word ++ ahead)).readTypedLength =
      .ok (.ofNat (word % 256 ^ octets),
        amid length_add (behind ++ item first octets word) ahead) := by
  have hbehind : ¬ (amid length_add (behind ++ [first]) (leBytes octets word ++ ahead)).pos >
      (amid length_add (behind ++ [first]) (leBytes octets word ++ ahead)).theEnd + octets := by
    simp only [amid, theEnd, List.length_append]
    omega
  rw [item, List.cons_append, readTypedLength, next_amid, Outcome.ok_bind]
  simp only [readGenLength, amid_length_add, toNat_and_7, hfirst]
  rw [if_neg hbehind, if_neg (by omega), take_amid _ _ _ (length_leBytes octets word),
    Outcome.ok_bind]
  simp [leValue_leBytes_mod]

/-- A word is the remainder of itself exactly if it is short enough. -/
theorem ofNat_mod_eq_iff (length : UInt64) (octets : Nat) :
    UInt64.ofNat (length.toNat % 256 ^ octets) = length ↔ length.toNat < 256 ^ octets := by
  have hle : length.toNat % 256 ^ octets ≤ length.toNat := Nat.mod_le _ _
  have hlt := length.toNat_lt
  rw [← UInt64.toNat_inj, UInt64.toNat_ofNat_of_lt' (by simp only [UInt64.size]; omega)]
  exact Nat.mod_eq_iff_lt (by positivity)

/-- A length reads back exactly if it fits the octets that are written of it. -/
theorem lengthReadsAs_iff (htype : type &&& 7 = 0) (hadd : length_add ≤ 1)
    (length result : UInt64) :
    ReadsAs length_add (·.writeGenLength type length) readTypedLength result ↔
      UInt64.ofNat (length.toNat % 256 ^ lengthOctets length_add length) = result := by
  obtain ⟨first, hfirst, hwrite⟩ := writeGenLength_item htype hadd length
  refine readsAs_iff hwrite (readTypedLength_item hfirst ?_ length.toNat)
  unfold lengthOctets
  split_ifs <;> omega

/-- The lengths for which enough octets are written. -/
theorem lt_lengthOctets_iff (hadd : length_add ≤ 1) (length : UInt64) :
    length.toNat < 256 ^ lengthOctets length_add length ↔
      length.toNat < 2 ^ 32 ∨ 0xffff < length.toNat % 2 ^ 32 ∧
        length &&& ((1 : UInt64) <<< 32) ≠ 0 ∧ (length_add = 0 → length.toNat < 2 ^ 56) := by
  have hlt := length.toNat_lt
  unfold lengthOctets
  split_ifs with hshort hlow32 hbit
  · omega
  · omega
  · simp only [hbit, ne_eq, not_true_eq_false, false_and, and_false, or_false]
    omega
  · have hword : 256 ^ (7 + length_add) = if length_add = 0 then 2 ^ 56 else 2 ^ 64 := by
      interval_cases length_add <;> rfl
    rw [hword]
    simp only [ne_eq, hbit, not_false_eq_true, true_and]
    split_ifs with hzero <;> simp only [hzero, forall_const, IsEmpty.forall_iff, and_true] <;> omega

/-- The length of an item is read back. -/
def LengthReadsBack (type : UInt8) (length_add : Nat) (length : UInt64) : Prop :=
  ReadsAs length_add (·.writeGenLength type length) readTypedLength length

/-- A length reads back exactly if it is below `2 ^ 32`, or it has bit 32 set and more than 16 of
its low 32 bits, and in the first version no bit above the seven octets. -/
theorem lengthReadsBack_iff {type : UInt8} (htype : type &&& 7 = 0) {length_add : Nat}
    (hadd : length_add ≤ 1) (length : UInt64) :
    LengthReadsBack type length_add length ↔
      length.toNat < 2 ^ 32 ∨ 0xffff < length.toNat % 2 ^ 32 ∧
        length &&& ((1 : UInt64) <<< 32) ≠ 0 ∧ (length_add = 0 → length.toNat < 2 ^ 56) := by
  rw [LengthReadsBack, lengthReadsAs_iff htype hadd, ofNat_mod_eq_iff, lt_lengthOctets_iff hadd]

/-- A length with bit 32 set, in the second version. -/
theorem lengthReadsBack_bit32 : LengthReadsBack 0x20 1 0x1_0001_0000 :=
  (lengthReadsBack_iff rfl (le_refl 1) 0x1_0001_0000).mpr (by decide)

/-- `2 ^ 32` itself is written as two octets, which are zero. -/
theorem not_lengthReadsBack_2_32 : ¬ LengthReadsBack 0x20 1 0x1_0000_0000 := by
  rw [LengthReadsBack, lengthReadsAs_iff rfl (le_refl 1)]
  decide

end FastRpc

/-! ### Method names in FastRPC

The octet in front of a method name holds the remainder of its length. What the decoder takes
for the name is as long as that octet says, and the parameters begin behind it; so behind a longer
name they begin inside of it. `writeMemberName` has a check of the length, `writeMethodName` has
none. -/

open FastRpc FastRpcDecoder

namespace FastRpcDecoder

/-- The name is taken as far as the octet of its length says. -/
theorem readMethodName_amid (length_add : Nat) (behind ahead : Blob) {len : UInt8} {octets : Blob}
    (hlen : octets.length = len.toNat) :
    readMethodName (amid length_add behind (0x68 :: len :: (octets ++ ahead))) =
      .ok (.bytes octets, amid length_add (behind ++ 0x68 :: len :: octets) ahead) := by
  have hstart : ¬ (amid length_add behind (0x68 :: len :: (octets ++ ahead))).pos >
      (amid length_add behind (0x68 :: len :: (octets ++ ahead))).theEnd + 1 := by
    simp only [amid, theEnd, List.length_append]
    omega
  have hname : ¬ (amid length_add (behind ++ [0x68] ++ [len]) (octets ++ ahead)).pos >
      (amid length_add (behind ++ [0x68] ++ [len]) (octets ++ ahead)).theEnd + len.toNat := by
    simp only [amid, theEnd, List.length_append]
    omega
  rw [readMethodName, if_neg hstart, next_amid, Outcome.ok_bind]
  simp only [ne_eq, not_true_eq_false, if_false]
  rw [next_amid, Outcome.ok_bind]
  simp only
  rw [if_neg hname, take_amid _ _ _ hlen]
  simp

end FastRpcDecoder

namespace FastRpcEncoder

/-- What is read of a method name: its octets up to the remainder of its length. -/
theorem readMethodName_written (e : FastRpcEncoder) (name : DrString) (params : Blob) :
    readMethodName ⟨(e.writeMethodName name).content ++ params, e.content.length, e.length_add⟩ =
      .ok (.bytes (name.utf8.take (name.utf8.length % 256)),
        ⟨(e.writeMethodName name).content ++ params,
          e.content.length + 2 + name.utf8.length % 256, e.length_add⟩) := by
  have hlen : (name.utf8.take (name.utf8.length % 256)).length =
      (UInt8.ofNat name.utf8.length).toNat := by
    rw [List.length_take, UInt8.toNat_ofNat']
    omega
  have hplace : (name.utf8.take (name.utf8.length % 256)).length = name.utf8.length % 256 := by
    rw [List.length_take]
    omega
  have hsplit : name.utf8 ++ params = name.utf8.take (name.utf8.length % 256) ++
      (name.utf8.drop (name.utf8.length % 256) ++ params) := by
    rw [← List.append_assoc, List.take_append_drop]
  have hcontent : (e.writeMethodName name).content ++ params = e.content ++
      0x68 :: UInt8.ofNat name.utf8.length :: (name.utf8 ++ params) := by
    simp [writeMethodName, append]
  have hread := readMethodName_amid e.length_add e.content
    (name.utf8.drop (name.utf8.length % 256) ++ params) hlen
  rw [hcontent, hsplit]
  refine hread.trans ?_
  simp only [amid, List.append_assoc, List.cons_append, List.length_append, List.length_cons,
    hplace]
  congr 3
  omega

theorem length_writeMethodName (e : FastRpcEncoder) (name : DrString) :
    (e.writeMethodName name).content.length = e.content.length + 2 + name.utf8.length := by
  simp [writeMethodName, append]
  omega

/-- A method name is read back, whatever parameters come behind it, and the decoder is left at the
first of them, exactly if the name has no more than 255 octets and no character that is lost. -/
theorem readMethodName_iff (e : FastRpcEncoder) (name : DrString) (params : Blob) :
    (∃ read, readMethodName
        ⟨(e.writeMethodName name).content ++ params, e.content.length, e.length_add⟩ =
      .ok (read, ⟨(e.writeMethodName name).content ++ params,
        (e.writeMethodName name).content.length, e.length_add⟩) ∧ read.text = name.text) ↔
      name.utf8.length ≤ 255 ∧ name.Plain := by
  have hread := readMethodName_written e name params
  rw [← DrString.text_setUtf8_utf8, length_writeMethodName]
  constructor
  · rintro ⟨read, hback, htext⟩
    obtain ⟨rfl, hdecoder⟩ := Prod.mk.inj (Outcome.ok.inj (hread.symm.trans hback))
    have hplace := congrArg FastRpcDecoder.pos hdecoder
    simp only at hplace
    have hshort : name.utf8.length % 256 = name.utf8.length := by omega
    rw [hshort, List.take_length] at htext
    exact ⟨by omega, htext⟩
  · rintro ⟨hshort, htext⟩
    rw [Nat.mod_eq_of_lt (by omega), List.take_length] at hread
    exact ⟨_, hread, htext⟩

/-- A name of 256 letters is read as an empty one, and its letters are left to be read as
parameters. -/
theorem readMethodName_long :
    readMethodName ⟨(new.writeMethodName (.bytes (List.replicate 256 97))).content ++ [], 0, 1⟩ =
        .ok (.bytes [], ⟨0x68 :: 0 :: List.replicate 256 97, 2, 1⟩) ∧
      ¬ ∃ read, readMethodName
          ⟨(new.writeMethodName (.bytes (List.replicate 256 97))).content ++ [],
            new.content.length, new.length_add⟩ =
        .ok (read, ⟨(new.writeMethodName (.bytes (List.replicate 256 97))).content ++ [],
          (new.writeMethodName (.bytes (List.replicate 256 97))).content.length, new.length_add⟩) ∧
        read.text = (DrString.bytes (List.replicate 256 97)).text := by
  have hread : readMethodName
      ⟨(new.writeMethodName (.bytes (List.replicate 256 97))).content ++ [], 0, 1⟩ =
        .ok (.bytes [], ⟨0x68 :: 0 :: List.replicate 256 97, 2, 1⟩) := by
    decide +kernel
  refine ⟨hread, ?_⟩
  rintro ⟨read, hback, htext⟩
  obtain ⟨rfl, -⟩ := Prod.mk.inj (Outcome.ok.inj (hread.symm.trans hback))
  exact absurd htext (by decide +kernel)

end FastRpcEncoder

end Drt
