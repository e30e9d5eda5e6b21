import Drt.Net.Rpc.XmlRpcDecoding

/-!
# XML-RPC functions that have a result

Where a function has a result, the decoder kept after it is the one that the functions of
`XmlRpcDecoder` give, and where it has none, they have none for the same reason.
-/

namespace Drt

namespace XmlDecoding

open Outcome Keeping XmlRpcDecoder

variable (d : XmlRpcDecoder)

@[simp] theorem toOutcome_get : toOutcome get d = .ok (d, d) := rfl

@[simp] theorem toOutcome_modify (f : XmlRpcDecoder → XmlRpcDecoder) :
    toOutcome (modify f) d = .ok ((), f d) := rfl

@[simp] theorem toOutcome_skip (n : Nat) : toOutcome (skip n) d = .ok ((), d.skip n) := rfl

@[simp] theorem toOutcome_peek :
    toOutcome peek d = d.peek >>= fun c => .ok (c, d) := toOutcome_lift _ d

@[simp] theorem toOutcome_memcmp (octets : Blob) :
    toOutcome (memcmp octets) d = d.memcmp octets >>= fun same => .ok (same, d) :=
  toOutcome_lift _ d

@[simp] theorem toOutcome_skipWhile (p : UInt8 → Bool) (value_name : String) :
    toOutcome (skipWhile p value_name) d = d.skipWhile p value_name >>= fun d => .ok ((), d) := by
  unfold toOutcome skipWhile XmlRpcDecoder.skipWhile
  dsimp only
  split_ifs <;> rfl

@[simp] theorem toOutcome_skipBlanks :
    toOutcome skipBlanks d = d.skipBlanks >>= fun d => .ok ((), d) := toOutcome_skipWhile d _ _

@[simp] theorem toOutcome_takeName : toOutcome takeName d = d.takeName := by
  simp [takeName, XmlRpcDecoder.takeName, bind_assoc]

@[simp] theorem toOutcome_takeEnd (chr : UInt8) (value : String) :
    toOutcome (takeEnd chr value) d = d.takeEnd chr value >>= fun d => .ok ((), d) := by
  simp [takeEnd, XmlRpcDecoder.takeEnd, bind_assoc, ite_bind]

@[simp] theorem toOutcome_emptyElement (start : Nat) :
    toOutcome (emptyElement start) d = d.emptyElement start := by
  simp [emptyElement, XmlRpcDecoder.emptyElement, bind_assoc]

@[simp] theorem toOutcome_skipToCommentEnd : toOutcome skipToCommentEnd d =
    match commentEnd d.ahead with
    | some n => .ok ((), d.skip (n + 3))
    | none => .raise (.endOfDataException "char" "element") := by
  unfold toOutcome skipToCommentEnd
  cases commentEnd d.ahead with
  | some n => rfl
  | none => rfl

@[simp] theorem toOutcome_skipComment :
    toOutcome skipComment d = d.skipComment >>= fun d => .ok ((), d) := by
  simp only [skipComment, XmlRpcDecoder.skipComment, toOutcome_bind, toOutcome_skip,
    toOutcome_memcmp, bind_assoc, ok_bind]
  congr 1
  funext same
  cases same with
  | false => rfl
  | true =>
    simp only [if_true, toOutcome_bind, toOutcome_skip, ok_bind, toOutcome_skipToCommentEnd]
    cases commentEnd ((d.skip 1).skip 2).ahead with
    | some n => rfl
    | none => rfl

@[simp] theorem toOutcome_endElement : toOutcome endElement d = d.endElement := by
  simp [endElement, XmlRpcDecoder.endElement, bind_assoc]

@[simp] theorem toOutcome_startElement : toOutcome startElement d = d.startElement := by
  simp [startElement, skipSlash, XmlRpcDecoder.startElement, bind_assoc, ite_bind]

theorem toOutcome_nextElement (fuel : Nat) :
    toOutcome (nextElement fuel) d = XmlRpcDecoder.nextElement fuel d := by
  induction fuel generalizing d with
  | zero => rfl
  | succ fuel ih =>
    simp only [nextElement, XmlRpcDecoder.nextElement, toOutcome_bind, toOutcome_skipBlanks,
      toOutcome_peek, toOutcome_ite, bind_assoc, ok_bind]
    congr 1
    funext d
    congr 1
    funext c
    split
    · simp only [toOutcome_skip, ok_bind]
      congr 1
      funext d
      congr 1
      funext c
      by_cases hslash : c = 47
      · simp [hslash]
      · by_cases hbang : c = 33
        · simp [hbang, ih, bind_assoc]
        · simp [hslash, hbang]
    · rfl

@[simp] theorem toOutcome_moveToNextElement :
    toOutcome moveToNextElement d = d.moveToNextElement := by
  unfold moveToNextElement XmlRpcDecoder.moveToNextElement
  rw [toOutcome_bind, toOutcome_get, ok_bind]
  cases d.empty_el with
  | none => exact toOutcome_nextElement d _
  | some start => exact toOutcome_emptyElement d start

theorem toOutcome_nextValue (fuel : Nat) :
    toOutcome (nextValue fuel) d = XmlRpcDecoder.nextValue fuel d := by
  induction fuel generalizing d with
  | zero => rfl
  | succ fuel ih => simp [nextValue, XmlRpcDecoder.nextValue, ih]

theorem toOutcome_moveToNextValue :
    toOutcome moveToNextValue d = d.moveToNextValue := toOutcome_nextValue d _

@[simp] theorem toOutcome_requireElement (isEnd : Bool) (tag_name : String) :
    toOutcome (requireElement isEnd tag_name) d = d.moveToNextElement >>= fun r =>
      if r.1 = ⟨isEnd, ascii tag_name⟩ then .ok ((), r.2)
      else .raise (.invalidFormatException "xmlrpc" tag_name) := by
  simp [requireElement]

@[simp] theorem toOutcome_skipParamEnd :
    toOutcome skipParamEnd d = d.skipParamEnd >>= fun d => .ok ((), d) := by
  simp only [skipParamEnd, XmlRpcDecoder.skipParamEnd, toOutcome_bind, toOutcome_get,
    toOutcome_moveToNextElement, bind_assoc, ok_bind]
  congr 1
  funext r
  split <;> rfl

@[simp] theorem toOutcome_skipValueEnd :
    toOutcome skipValueEnd d = d.skipValueEnd >>= fun d => .ok ((), d) := by
  simp [skipValueEnd, XmlRpcDecoder.skipValueEnd, moveToNextElementReqEnd,
    XmlRpcDecoder.moveToNextElementReqEnd, bind_assoc, ite_bind]

theorem toOutcome_checkType (fuel : Nat) :
    toOutcome (checkType fuel) d = XmlRpcDecoder.checkType fuel d := by
  induction fuel generalizing d with
  | zero => rfl
  | succ fuel ih =>
    simp [checkType, XmlRpcDecoder.checkType, ih, ok_ite]

theorem toOutcome_readCheckType :
    toOutcome readCheckType d = d.readCheckType := toOutcome_checkType d _

theorem toOutcome_checkArrayNext : toOutcome checkArrayNext d = d.checkArrayNext := by
  simp [checkArrayNext, XmlRpcDecoder.checkArrayNext, bind_assoc]

@[simp] theorem toOutcome_structStart (save_pos : Nat) (el : XmlRpcElement) :
    toOutcome (structStart save_pos el) d = XmlRpcDecoder.structStart save_pos el d := by
  simp [structStart, XmlRpcDecoder.structStart]

theorem toOutcome_checkMember (fuel : Nat) :
    toOutcome (checkMember fuel) d = XmlRpcDecoder.checkMember fuel d := by
  induction fuel generalizing d with
  | zero => rfl
  | succ fuel ih => simp [checkMember, XmlRpcDecoder.checkMember, ih, bind_assoc]

theorem toOutcome_checkStructNext :
    toOutcome checkStructNext d = d.checkStructNext := toOutcome_checkMember d _

end XmlDecoding

end Drt
