import Drt.Net.Rpc.FastRpcDecoding

/-!
# FastRPC operations that have a result

Where an operation has a result, the decoder kept after it is the one that the functions of
`FastRpcDecoder` give, and where it has none, they have none for the same reason.
-/

namespace Drt

namespace Decoding

open Outcome Keeping

variable {α β : Type} (d : FastRpcDecoder)

@[simp] theorem toOutcome_unlessAtEnd (e : Exception) (x : Decoding α) :
    toOutcome (unlessAtEnd e x) d = if d.pos ≥ d.theEnd then .raise e else toOutcome x d := by
  unfold toOutcome unlessAtEnd
  split_ifs <;> rfl

@[simp] theorem toOutcome_unlessBeyond (n : Nat) (e : Exception) (x : Decoding α) :
    toOutcome (unlessBeyond n e x) d =
      if d.pos + n > d.theEnd then .raise e else toOutcome x d := by
  unfold toOutcome unlessBeyond
  split_ifs <;> rfl

@[simp] theorem toOutcome_unlessFarBeyond (n : Nat) (e : Exception) (x : Decoding α) :
    toOutcome (unlessFarBeyond n e x) d =
      if d.pos > d.theEnd + n then .raise e else toOutcome x d := by
  unfold toOutcome unlessFarBeyond
  split_ifs <;> rfl

@[simp] theorem toOutcome_next : toOutcome next d = d.next := toOutcome_lift _ d

@[simp] theorem toOutcome_take (n : Nat) : toOutcome (take n) d = d.take n :=
  toOutcome_lift _ d

@[simp] theorem toOutcome_readGenLength (n : Nat) :
    toOutcome (readGenLength n) d = d.readGenLength n := toOutcome_lift _ d

@[simp] theorem toOutcome_peek :
    toOutcome peek d = d.peek >>= fun c => .ok (c, d) := toOutcome_lift _ d

@[simp] theorem toOutcome_readType (accepted : UInt8 → Bool) (format_type : String) :
    toOutcome (readType accepted format_type) d = d.next >>= fun r =>
      if accepted r.1 then .ok r
      else .raise (.invalidFormatException format_type (FastRpcDecoder.createNumber r.1)) := by
  simp [readType]

theorem toOutcome_readBool : toOutcome readBool d = d.readBool := by
  simp [readBool, FastRpcDecoder.readBool, bind_assoc, ite_bind]

theorem toOutcome_readDouble : toOutcome readDouble d = d.readDouble := by
  simp [readDouble, FastRpcDecoder.readDouble, bind_assoc, ite_bind]

theorem toOutcome_readOctets (code : UInt8) :
    toOutcome (readOctets code) d = d.readOctets code := by
  simp [readOctets, FastRpcDecoder.readOctets, bind_assoc, ite_bind]

theorem toOutcome_readString : toOutcome readString d = d.readString := by
  unfold readString FastRpcDecoder.readString
  rw [toOutcome_bind, toOutcome_readOctets]
  rfl

theorem toOutcome_readBinary : toOutcome readBinary d = d.readBinary :=
  toOutcome_readOctets d 0x30

theorem toOutcome_intOctets (octets : Nat) (type : String) : toOutcome (intOctets octets type) d =
      if d.pos + octets > d.theEnd then .raise (.endOfDataException "char" type)
      else d.take octets := by
  rw [intOctets, toOutcome_unlessBeyond, toOutcome_take]

theorem toOutcome_readMagnitude64 (type : UInt8) : toOutcome (readMagnitude64 type) d =
      if d.pos + ((type &&& 7).toNat + d.length_add) > d.theEnd then
        .raise (.endOfDataException "char" "int64")
      else d.take ((type &&& 7).toNat + d.length_add) >>= fun r =>
        .ok ((FastRpcDecoder.addOctets 0 0 r.1).toInt64, r.2) := by
  unfold readMagnitude64
  rw [toOutcome_bind]
  change toOutcome (intOctets _ "int64" >>= _) d = _
  rw [toOutcome_bind, toOutcome_intOctets]
  split <;> rfl

theorem toOutcome_readInt64 : toOutcome readInt64 d = d.readInt64 := by
  unfold readInt64 FastRpcDecoder.readInt64
  rw [toOutcome_unlessAtEnd, toOutcome_bind, toOutcome_next]
  congr 2
  funext r
  dsimp only
  by_cases h1 : r.1 >>> 3 = 1
  · simp only [h1]
    split
    · rfl
    · rw [toOutcome_bind, toOutcome_intOctets]
      split
      · rfl
      · rename_i hend
        by_cases hzero : (r.1 &&& 7).toNat = 0
        · rw [hzero] at hend ⊢
          have hpos : r.2.pos + 0 ≤ r.2.theEnd := by omega
          rw [FastRpcDecoder.take, if_pos hpos]
          rfl
        · simp only [if_neg hzero, toOutcome_pure]
  · by_cases h7 : r.1 >>> 3 = 7
    · simp only [h7]
      exact toOutcome_readMagnitude64 r.2 r.1
    · by_cases h8 : r.1 >>> 3 = 8
      · simp only [h8]
        rw [toOutcome_bind, toOutcome_readMagnitude64]
        split
        · rfl
        · rw [bind_assoc]
          rfl
      · split
        · contradiction
        · contradiction
        · contradiction
        · grind [toOutcome_throw]

theorem toOutcome_readTime (time : RpcTime) : toOutcome (readTime time) d = d.readTime time := by
  simp [readTime, FastRpcDecoder.readTime, readTimeOctets, bind_assoc, ite_bind,
    ok_ite]

theorem toOutcome_readCount (code : UInt8) (format_type : String) :
    toOutcome (readCount code format_type) d = d.readCount code format_type := by
  simp [readCount, FastRpcDecoder.readCount, bind_assoc, ite_bind]

theorem toOutcome_readMemberName : toOutcome readMemberName d = d.readMemberName := by
  simp [readMemberName, FastRpcDecoder.readMemberName, readName]

theorem toOutcome_readMethodName : toOutcome readMethodName d = d.readMethodName := by
  simp [readMethodName, FastRpcDecoder.readMethodName, readName, bind_assoc, ite_bind]

theorem toOutcome_readMethodResponse :
    toOutcome readMethodResponse d = d.readMethodResponse >>= fun d' => .ok ((), d') := by
  simp [readMethodResponse, FastRpcDecoder.readMethodResponse, bind_assoc, ite_bind]

theorem toOutcome_readFaultResponse : toOutcome readFaultResponse d = d.readFaultResponse := by
  simp [readFaultResponse, FastRpcDecoder.readFaultResponse, toOutcome_readInt64,
    toOutcome_readString, bind_assoc, ite_bind]

/-- What `readSkip` and the loops in it do to the decoder. -/
theorem toOutcome_skip (time : RpcTime) (fuel : Nat) : (∀ d, toOutcome (readSkip time fuel) d =
      FastRpcDecoder.readSkip time fuel d >>= fun d' => .ok ((), d')) ∧
    (∀ sc d, toOutcome (skipMembers time fuel sc) d =
      FastRpcDecoder.skipMembers time fuel sc d >>= fun d' => .ok ((), d')) ∧
    ∀ ac d, toOutcome (skipElements time fuel ac) d =
      FastRpcDecoder.skipElements time fuel ac d >>= fun d' => .ok ((), d') := by
  induction fuel with
  | zero => exact ⟨fun _ => rfl, fun _ _ => rfl, fun _ _ => rfl⟩
  | succ fuel ih =>
    obtain ⟨ihskip, ihmembers, ihelements⟩ := ih
    refine ⟨?_, ?_, ?_⟩
    · intro d
      rw [readSkip, FastRpcDecoder.readSkip, toOutcome_bind, toOutcome_peek, bind_assoc, bind_assoc]
      congr 1
      funext c
      rw [ok_bind]
      dsimp only
      generalize c >>> 3 = code
      split
      · simp only [toOutcome_bind, toOutcome_readInt64, toOutcome_pure, bind_assoc, ok_bind]
      · simp only [toOutcome_bind, toOutcome_readInt64, toOutcome_pure, bind_assoc, ok_bind]
      · simp only [toOutcome_bind, toOutcome_readInt64, toOutcome_pure, bind_assoc, ok_bind]
      · simp only [toOutcome_bind, toOutcome_readBool, toOutcome_pure, bind_assoc, ok_bind]
      · simp only [toOutcome_bind, toOutcome_readDouble, toOutcome_pure, bind_assoc, ok_bind]
      · simp only [toOutcome_bind, toOutcome_readString, toOutcome_pure, bind_assoc, ok_bind]
      · simp only [toOutcome_bind, toOutcome_readTime, toOutcome_pure, bind_assoc, ok_bind]
      · simp only [toOutcome_bind, toOutcome_readBinary, toOutcome_pure, bind_assoc, ok_bind]
      · simp only [toOutcome_bind, readStructLength, toOutcome_readCount, ihmembers, bind_assoc,
          FastRpcDecoder.readStructLength]
      · simp only [toOutcome_bind, readArrayLength, toOutcome_readCount, ihelements, bind_assoc,
          FastRpcDecoder.readArrayLength]
      · simp only [toOutcome_bind, toOutcome_readMethodName, toOutcome_pure, bind_assoc, ok_bind]
      · exact toOutcome_readMethodResponse d
      · simp only [toOutcome_bind, toOutcome_readFaultResponse, toOutcome_pure, bind_assoc,
          ok_bind]
      · grind [toOutcome_throw, raise_bind]
    · intro sc d
      rw [skipMembers, FastRpcDecoder.skipMembers]
      split
      · simp only [toOutcome_bind, toOutcome_readMemberName, ihskip, ihmembers, bind_assoc,
          ok_bind]
      · rfl
    · intro ac d
      rw [skipElements, FastRpcDecoder.skipElements]
      split
      · simp only [toOutcome_bind, ihskip, ihelements, bind_assoc, ok_bind]
      · rfl

end Decoding
end Drt
