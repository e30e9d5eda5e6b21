import Drt.Net.Rpc.XmlRpcEncoder
import Mathlib.Data.List.Infix

/-!
# Encoders of either kind

`RpcEncoder` and its write calls. Every call leaves what was written before at the
start of the content and does not change the protocol, so what a call appends depends
on the protocol alone.
-/

namespace Drt

/-- `RpcEncoder`: an object of one of the two classes. -/
inductive RpcEncoder where
  | fastRpc (e : FastRpcEncoder)
  | xmlRpc (e : XmlRpcEncoder)
  deriving DecidableEq, Repr

namespace RpcEncoder

def getContent : RpcEncoder → Blob
  | fastRpc e => e.content
  | xmlRpc e => e.content

def getMimeType : RpcEncoder → DrString
  | fastRpc _ => .bytes (ascii "application/x-frpc")
  | xmlRpc _ => .bytes (ascii "text/xml")

/-- A call that both classes have. -/
def dispatch (fast : FastRpcEncoder → FastRpcEncoder) (xml : XmlRpcEncoder → XmlRpcEncoder) :
    RpcEncoder → RpcEncoder
  | fastRpc e => fastRpc (fast e)
  | xmlRpc e => xmlRpc (xml e)

def writeHeader : RpcEncoder → RpcEncoder :=
  dispatch FastRpcEncoder.writeHeader XmlRpcEncoder.writeHeader

def writeMethodName (e : RpcEncoder) (name : DrString) : RpcEncoder :=
  e.dispatch (·.writeMethodName name) (·.writeMethodName name)

def writeMethodEnd : RpcEncoder → RpcEncoder :=
  dispatch FastRpcEncoder.writeMethodEnd XmlRpcEncoder.writeMethodEnd

def writeMethodResponse : RpcEncoder → RpcEncoder :=
  dispatch FastRpcEncoder.writeMethodResponse XmlRpcEncoder.writeMethodResponse

def writeResponseEnd : RpcEncoder → RpcEncoder :=
  dispatch FastRpcEncoder.writeResponseEnd XmlRpcEncoder.writeResponseEnd

def writeFaultResponse (e : RpcEncoder) (code : Int64) (message : DrString) : RpcEncoder :=
  e.dispatch (·.writeFaultResponse code message) (·.writeFaultResponse code message)

/-- `writeInt(Sint32)`. -/
def writeInt32 (e : RpcEncoder) (value : Int32) : RpcEncoder :=
  e.dispatch (·.writeInt32 value) (·.writeInt32 value)

/-- `writeInt(Sint64)`. -/
def writeInt64 (e : RpcEncoder) (value : Int64) : RpcEncoder :=
  e.dispatch (·.writeInt64 value) (·.writeInt64 value)

def writeBool (e : RpcEncoder) (value : Bool) : RpcEncoder :=
  e.dispatch (·.writeBool value) (·.writeBool value)

def writeDouble (format : RpcFormat) (e : RpcEncoder) (value : UInt64) : RpcEncoder :=
  e.dispatch (·.writeDouble value) (·.writeDouble format value)

def writeString (e : RpcEncoder) (str : DrString) : RpcEncoder :=
  e.dispatch (·.writeString str) (·.writeString str)

def writeBinary (e : RpcEncoder) (data : Blob) : RpcEncoder :=
  e.dispatch (·.writeBinary data) (·.writeBinary data)

def writeTime (format : RpcFormat) (e : RpcEncoder) (tvalue : Int64) : RpcEncoder :=
  e.dispatch (·.writeTime format tvalue) (·.writeTime format tvalue)

def writeArrayLength (e : RpcEncoder) (length : UInt64) : RpcEncoder :=
  e.dispatch (·.writeArrayLength length) (·.writeArrayLength length)

def writeStructLength (e : RpcEncoder) (length : UInt64) : RpcEncoder :=
  e.dispatch (·.writeStructLength length) (·.writeStructLength length)

def writeMemberName (e : RpcEncoder) (name : DrString) : Call RpcEncoder :=
  match e with
  | fastRpc e => do
    let e ← e.writeMemberName name
    .ok (fastRpc e)
  | xmlRpc e => .ok (xmlRpc (e.writeMemberName name))

def writeArrayEnd : RpcEncoder → RpcEncoder :=
  dispatch FastRpcEncoder.writeArrayEnd XmlRpcEncoder.writeArrayEnd

def writeStructEnd : RpcEncoder → RpcEncoder :=
  dispatch FastRpcEncoder.writeStructEnd XmlRpcEncoder.writeStructEnd

end RpcEncoder

namespace FastRpcEncoder

/-- Octets were appended to the content, and nothing else has changed. -/
def Extends (e e' : FastRpcEncoder) : Prop := ∃ octets, e' = e.append octets

namespace Extends

variable {e e' e'' : FastRpcEncoder}

theorem refl (e : FastRpcEncoder) : e.Extends e := ⟨[], by simp [append]⟩

theorem trans (h : e.Extends e') (h' : e'.Extends e'') : e.Extends e'' := by
  obtain ⟨octets, rfl⟩ := h
  obtain ⟨octets', rfl⟩ := h'
  exact ⟨octets ++ octets', by simp [append]⟩

theorem append (e : FastRpcEncoder) (octets : Blob) : e.Extends (e.append octets) := ⟨octets, rfl⟩

theorem writeGenLength (e : FastRpcEncoder) (type : UInt8) (length : UInt64) :
    e.Extends (e.writeGenLength type length) := append e _

theorem writeString (e : FastRpcEncoder) (str : DrString) : e.Extends (e.writeString str) :=
  (writeGenLength e _ _).trans (append _ _)

end Extends

end FastRpcEncoder

namespace XmlRpcEncoder

/-- Octets were appended to the content. -/
def Extends (e e' : XmlRpcEncoder) : Prop := ∃ octets, e'.content = e.content ++ octets

namespace Extends

variable {e e' e'' : XmlRpcEncoder}

theorem of_content (h : e'.content = e.content) : e.Extends e' := ⟨[], by simp [h]⟩

theorem trans (h : e.Extends e') (h' : e'.Extends e'') : e.Extends e'' := by
  obtain ⟨octets, h⟩ := h
  obtain ⟨octets', h'⟩ := h'
  exact ⟨octets ++ octets', by rw [h', h, List.append_assoc]⟩

theorem append (e : XmlRpcEncoder) (octets : Blob) : e.Extends (e.append octets) := ⟨octets, rfl⟩

theorem appendOutside (e : XmlRpcEncoder) (literal : String) :
    e.Extends (e.appendOutside literal) := by
  unfold XmlRpcEncoder.appendOutside
  split_ifs
  · exact append e _
  · exact of_content rfl

theorem writeLeaf (e : XmlRpcEncoder) (start : String) (text : Blob) (stop : String) :
    e.Extends (e.writeLeaf start text stop) :=
  (appendOutside e _).trans <| (append _ _).trans <| (append _ _).trans <| (append _ _).trans <|
    appendOutside _ _

theorem writeArrayLength (e : XmlRpcEncoder) (length : UInt64) :
    e.Extends (e.writeArrayLength length) :=
  (appendOutside e _).trans <| (append _ _).trans <| of_content rfl

theorem writeStructLength (e : XmlRpcEncoder) (length : UInt64) :
    e.Extends (e.writeStructLength length) :=
  (appendOutside e _).trans <| (append _ _).trans <| of_content rfl

theorem endMember (e : XmlRpcEncoder) : e.Extends e.endMember := by
  unfold XmlRpcEncoder.endMember
  split_ifs
  · exact of_content rfl
  · exact append e _

theorem closeValue (e : XmlRpcEncoder) : e.Extends e.closeValue := by
  unfold XmlRpcEncoder.closeValue
  exact (of_content rfl).trans (appendOutside _ _)

end Extends

end XmlRpcEncoder

namespace RpcEncoder

/-- The protocol: a version of FastRPC, or XML-RPC. -/
def protocol : RpcEncoder → Option Nat
  | fastRpc e => some e.length_add
  | xmlRpc _ => none

/-- Octets were appended to the content, and the protocol is the same. -/
structure Extends (e e' : RpcEncoder) : Prop where
  protocol : e'.protocol = e.protocol
  content : ∃ octets, e'.getContent = e.getContent ++ octets

namespace Extends

variable {e e' e'' : RpcEncoder}

theorem refl (e : RpcEncoder) : e.Extends e := ⟨rfl, [], by simp⟩

theorem trans (h : e.Extends e') (h' : e'.Extends e'') : e.Extends e'' := by
  obtain ⟨octets, hc⟩ := h.content
  obtain ⟨octets', hc'⟩ := h'.content
  exact ⟨h'.protocol.trans h.protocol, octets ++ octets', by rw [hc', hc, List.append_assoc]⟩

/-- A call extends an encoder as it does in either class. -/
theorem dispatch {fast : FastRpcEncoder → FastRpcEncoder} {xml : XmlRpcEncoder → XmlRpcEncoder}
    (hfast : ∀ e : FastRpcEncoder, e.Extends (fast e))
    (hxml : ∀ e : XmlRpcEncoder, e.Extends (xml e)) (e : RpcEncoder) :
    e.Extends (e.dispatch fast xml) := by
  cases e with
  | fastRpc e =>
    obtain ⟨octets, h⟩ := hfast e
    exact ⟨by simp [RpcEncoder.dispatch, RpcEncoder.protocol, h, FastRpcEncoder.append], octets,
      by simp [RpcEncoder.dispatch, getContent, h, FastRpcEncoder.append]⟩
  | xmlRpc e =>
    obtain ⟨octets, h⟩ := hxml e
    exact ⟨rfl, octets, h⟩

theorem writeHeader (e : RpcEncoder) : e.Extends e.writeHeader := by
  refine dispatch (fun e => ?_) (fun e => .append e _) e
  unfold FastRpcEncoder.writeHeader
  split_ifs <;> exact .append e _

theorem writeMethodResponse (e : RpcEncoder) : e.Extends e.writeMethodResponse :=
  dispatch (fun e => .append e _) (fun e => .append e _) e

theorem writeResponseEnd (e : RpcEncoder) : e.Extends e.writeResponseEnd :=
  dispatch .refl (fun e => .append e _) e

theorem writeFaultResponse (e : RpcEncoder) (code : Int64) (message : DrString) :
    e.Extends (e.writeFaultResponse code message) :=
  dispatch
    (fun e => (FastRpcEncoder.Extends.append e _).trans <| (FastRpcEncoder.Extends.append _ _).trans <|
      .writeString _ _)
    (fun e => (XmlRpcEncoder.Extends.append e _).trans <| (XmlRpcEncoder.Extends.append _ _).trans <|
      (XmlRpcEncoder.Extends.append _ _).trans <| (XmlRpcEncoder.Extends.append _ _).trans <|
      .append _ _) e

theorem writeInt32 (e : RpcEncoder) (value : Int32) : e.Extends (e.writeInt32 value) :=
  dispatch (fun e => .append e _) (fun e => .writeLeaf e _ _ _) e

theorem writeInt64 (e : RpcEncoder) (value : Int64) : e.Extends (e.writeInt64 value) := by
  refine dispatch (fun e => .append e _) (fun e => ?_) e
  unfold XmlRpcEncoder.writeInt64
  split_ifs <;> exact .writeLeaf e _ _ _

theorem writeBool (e : RpcEncoder) (value : Bool) : e.Extends (e.writeBool value) :=
  dispatch (fun e => .append e _) (fun e => .writeLeaf e _ _ _) e

theorem writeDouble (format : RpcFormat) (e : RpcEncoder) (value : UInt64) :
    e.Extends (e.writeDouble format value) :=
  dispatch (fun e => .append e _) (fun e => .writeLeaf e _ _ _) e

theorem writeString (e : RpcEncoder) (str : DrString) : e.Extends (e.writeString str) :=
  dispatch (fun e => .writeString e str) (fun e => .writeLeaf e _ _ _) e

theorem writeBinary (e : RpcEncoder) (data : Blob) : e.Extends (e.writeBinary data) :=
  dispatch (fun e => (FastRpcEncoder.Extends.writeGenLength e _ _).trans (.append _ _))
    (fun e => .writeLeaf e _ _ _) e

theorem writeTime (format : RpcFormat) (e : RpcEncoder) (tvalue : Int64) :
    e.Extends (e.writeTime format tvalue) :=
  dispatch (fun e => .append e _) (fun e => .writeLeaf e _ _ _) e

theorem writeArrayLength (e : RpcEncoder) (length : UInt64) :
    e.Extends (e.writeArrayLength length) :=
  dispatch (fun e => .writeGenLength e _ _) (fun e => .writeArrayLength e length) e

theorem writeStructLength (e : RpcEncoder) (length : UInt64) :
    e.Extends (e.writeStructLength length) :=
  dispatch (fun e => .writeGenLength e _ _) (fun e => .writeStructLength e length) e

theorem writeMemberName {name : DrString} (h : e.writeMemberName name = .ok e') :
    e.Extends e' := by
  cases e with
  | fastRpc e =>
    obtain ⟨e₁, hwrite, heq⟩ := Outcome.bind_eq_ok.mp h
    obtain rfl := Outcome.ok.inj heq
    unfold FastRpcEncoder.writeMemberName at hwrite
    split_ifs at hwrite
    obtain rfl := Outcome.ok.inj hwrite
    exact ⟨rfl, _, List.append_assoc _ _ _⟩
  | xmlRpc e =>
    obtain rfl := Outcome.ok.inj h
    refine ⟨rfl, ?_⟩
    exact (XmlRpcEncoder.Extends.endMember e).trans <| (XmlRpcEncoder.Extends.append _ _).trans <|
      (XmlRpcEncoder.Extends.append _ _).trans (.append _ _)

theorem writeArrayEnd (e : RpcEncoder) : e.Extends e.writeArrayEnd :=
  dispatch .refl (fun e => (XmlRpcEncoder.Extends.append e _).trans (.closeValue _)) e

theorem writeStructEnd (e : RpcEncoder) : e.Extends e.writeStructEnd :=
  dispatch .refl (fun e => (XmlRpcEncoder.Extends.endMember e).trans <|
    (XmlRpcEncoder.Extends.append _ _).trans (.closeValue _)) e

end Extends

mutual

/-- The write calls for one value. -/
inductive WritesValue (format : RpcFormat) : RpcEncoder → RpcEncoder → Prop where
  | int32 (e : RpcEncoder) (v : Int32) : WritesValue format e (e.writeInt32 v)
  | int64 (e : RpcEncoder) (v : Int64) : WritesValue format e (e.writeInt64 v)
  | bool (e : RpcEncoder) (v : Bool) : WritesValue format e (e.writeBool v)
  | double (e : RpcEncoder) (v : UInt64) : WritesValue format e (e.writeDouble format v)
  | string (e : RpcEncoder) (s : DrString) : WritesValue format e (e.writeString s)
  | binary (e : RpcEncoder) (b : Blob) : WritesValue format e (e.writeBinary b)
  | time (e : RpcEncoder) (t : Int64) : WritesValue format e (e.writeTime format t)
  | array {e e' : RpcEncoder} {n : Nat}
      (h : WritesElements format n (e.writeArrayLength (.ofNat n)) e') :
      WritesValue format e e'.writeArrayEnd
  | struct {e e' : RpcEncoder} {n : Nat}
      (h : WritesMembers format n (e.writeStructLength (.ofNat n)) e') :
      WritesValue format e e'.writeStructEnd

/-- The write calls for the elements of an array. -/
inductive WritesElements (format : RpcFormat) : Nat → RpcEncoder → RpcEncoder → Prop where
  | nil (e : RpcEncoder) : WritesElements format 0 e e
  | cons {n : Nat} {e e' e'' : RpcEncoder} (h : WritesValue format e e')
      (hrest : WritesElements format n e' e'') : WritesElements format (n + 1) e e''

/-- The write calls for the members of a struct. -/
inductive WritesMembers (format : RpcFormat) : Nat → RpcEncoder → RpcEncoder → Prop where
  | nil (e : RpcEncoder) : WritesMembers format 0 e e
  | cons {n : Nat} {e e₁ e' e'' : RpcEncoder} {name : DrString}
      (hname : e.writeMemberName name = .ok e₁) (h : WritesValue format e₁ e')
      (hrest : WritesMembers format n e' e'') : WritesMembers format (n + 1) e e''

end

mutual

theorem WritesValue.extends {format : RpcFormat} {e e' : RpcEncoder} :
    WritesValue format e e' → e.Extends e'
  | .int32 e v => .writeInt32 e v
  | .int64 e v => .writeInt64 e v
  | .bool e v => .writeBool e v
  | .double e v => .writeDouble format e v
  | .string e s => .writeString e s
  | .binary e b => .writeBinary e b
  | .time e t => .writeTime format e t
  | .array h => (Extends.writeArrayLength e _).trans (h.extends.trans (.writeArrayEnd _))
  | .struct h => (Extends.writeStructLength e _).trans (h.extends.trans (.writeStructEnd _))

theorem WritesElements.extends {format : RpcFormat} {n : Nat} {e e' : RpcEncoder} :
    WritesElements format n e e' → e.Extends e'
  | .nil e => .refl e
  | .cons h hrest => h.extends.trans hrest.extends

theorem WritesMembers.extends {format : RpcFormat} {n : Nat} {e e' : RpcEncoder} :
    WritesMembers format n e e' → e.Extends e'
  | .nil e => .refl e
  | .cons hname h hrest => (Extends.writeMemberName hname).trans (h.extends.trans hrest.extends)

end

/-- A complete response behind the content: the header and a value, or the header and a fault. -/
inductive WritesResponse (format : RpcFormat) (e : RpcEncoder) : RpcEncoder → Prop where
  | value {e' : RpcEncoder} (h : WritesValue format e.writeHeader.writeMethodResponse e') :
      WritesResponse format e e'.writeResponseEnd
  | fault (code : Int64) (message : DrString) :
      WritesResponse format e (e.writeHeader.writeFaultResponse code message)

theorem WritesResponse.extends {format : RpcFormat} {e e' : RpcEncoder}
    (h : WritesResponse format e e') : e.Extends e' := by
  cases h with
  | value h =>
    exact (Extends.writeHeader e).trans <| (Extends.writeMethodResponse _).trans <|
      h.extends.trans (.writeResponseEnd _)
  | fault code message => exact (Extends.writeHeader e).trans (.writeFaultResponse _ _ _)

/-- The octets of a header and a fault. -/
def faultOctets (e : RpcEncoder) (code : Int64) (message : DrString) : Blob :=
  match e with
  | fastRpc e => ((FastRpcEncoder.mk [] e.length_add).writeHeader.writeFaultResponse code message).content
  | xmlRpc _ => ((XmlRpcEncoder.mk [] 0 false).writeHeader.writeFaultResponse code message).content

/-- The octets of a header and a fault depend on the protocol alone. -/
theorem getContent_fault (e : RpcEncoder) (code : Int64) (message : DrString) :
    (e.writeHeader.writeFaultResponse code message).getContent =
      e.getContent ++ e.faultOctets code message := by
  cases e with
  | fastRpc e =>
    simp only [writeHeader, writeFaultResponse, dispatch, getContent, faultOctets,
      FastRpcEncoder.writeHeader]
    split_ifs <;>
      simp [FastRpcEncoder.writeFaultResponse, FastRpcEncoder.writeInt64,
        FastRpcEncoder.writeString, FastRpcEncoder.writeGenLength, FastRpcEncoder.appendTyped,
        FastRpcEncoder.append, FastRpcEncoder.typeOctet]
  | xmlRpc e =>
    simp [writeHeader, writeFaultResponse, dispatch, getContent, faultOctets,
      XmlRpcEncoder.writeHeader, XmlRpcEncoder.writeFaultResponse, XmlRpcEncoder.appendAscii,
      XmlRpcEncoder.append]

theorem faultOctets_congr {e e' : RpcEncoder} (h : e'.protocol = e.protocol) (code : Int64)
    (message : DrString) : e'.faultOctets code message = e.faultOctets code message := by
  cases e with
  | fastRpc e =>
    cases e' with
    | fastRpc e' => simp only [faultOctets, Option.some.inj h]
    | xmlRpc e' => cases h
  | xmlRpc e =>
    cases e' with
    | fastRpc e' => cases h
    | xmlRpc e' => rfl

end RpcEncoder

end Drt
