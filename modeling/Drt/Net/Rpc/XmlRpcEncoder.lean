import Drt.Core.Parse.MemBase64
import Drt.Core.Types.Number
import Drt.Net.Rpc.FastRpcEncoder

/-!
# Writing XML-RPC

`XmlRpcEncoder`. There is no stack: `value_level` counts the open containers, and
`struct_clean` says that the struct written last has no member yet. The end tag of a
member is written with the next member, or with the end of the struct.
-/

namespace Drt

/-- `replace` of every `what`, a single character, on the octets of a string. -/
def DrString.replace (s : DrString) (what : UInt8) (rep : Blob) : DrString :=
  if what ∈ s.utf8 then .bytes (s.utf8.flatMap fun c => if c = what then rep else [c]) else s

/-- The fields of `XmlRpcEncoder`. -/
structure XmlRpcEncoder where
  content : Blob
  value_level : Nat
  struct_clean : Bool
  deriving DecidableEq, Repr

namespace XmlRpcEncoder

/-- `XmlRpcEncoder()`. The constructor leaves `struct_clean` as it finds it. -/
def new (struct_clean : Bool) : XmlRpcEncoder := ⟨[], 0, struct_clean⟩

/-- `content.append`. -/
def append (e : XmlRpcEncoder) (octets : Blob) : XmlRpcEncoder :=
  { e with content := e.content ++ octets }

/-- `content.append` of a literal. -/
def appendAscii (e : XmlRpcEncoder) (literal : String) : XmlRpcEncoder := e.append (ascii literal)

def writeHeader (e : XmlRpcEncoder) : XmlRpcEncoder := e.appendAscii "<?xml version=\"1.0\"?>\n"

def writeMethodName (e : XmlRpcEncoder) (name : DrString) : XmlRpcEncoder :=
  ((e.appendAscii "<methodCall><methodName>").append name.utf8).appendAscii "</methodName><params>"

def writeMethodResponse (e : XmlRpcEncoder) : XmlRpcEncoder :=
  e.appendAscii "<methodResponse><params>"

def writeFaultResponse (e : XmlRpcEncoder) (code : Int64) (message : DrString) : XmlRpcEncoder :=
  let e := e.appendAscii
    "<methodResponse><fault><value><struct><member><name>faultCode</name><value><int>"
  let e := e.append (intText 10 code.toInt)
  let e := e.appendAscii
    "</int></value></member><member><name>faultString</name><value><string>"
  let e := e.append message.utf8
  e.appendAscii "</string></value></member></struct></value></fault></methodResponse>"

/-- `if (value_level == 0) content.append(…)`. -/
def appendOutside (e : XmlRpcEncoder) (literal : String) : XmlRpcEncoder :=
  if e.value_level = 0 then e.appendAscii literal else e

/-- What the calls for the leaves have in common: an element with this text. -/
def writeLeaf (e : XmlRpcEncoder) (start : String) (text : Blob) (stop : String) : XmlRpcEncoder :=
  let e := e.appendOutside "<param>"
  let e := ((e.appendAscii start).append text).appendAscii stop
  e.appendOutside "</param>"

/-- `writeInt(Sint32)`. -/
def writeInt32 (e : XmlRpcEncoder) (value : Int32) : XmlRpcEncoder :=
  e.writeLeaf "<value><int>" (intText 10 value.toInt) "</int></value>"

/-- `writeInt(Sint64)`. -/
def writeInt64 (e : XmlRpcEncoder) (value : Int64) : XmlRpcEncoder :=
  if value ≥ -0x7fffffff - 1 ∧ value ≤ 0x7fffffff then
    e.writeLeaf "<value><int>" (intText 10 value.toInt32.toInt) "</int></value>"
  else e.writeLeaf "<value><i8>" (intText 10 value.toInt) "</i8></value>"

def writeBool (e : XmlRpcEncoder) (value : Bool) : XmlRpcEncoder :=
  e.writeLeaf "<value><boolean>" (ascii (if value then "true" else "false")) "</boolean></value>"

/-- `writeDouble` of these bits. -/
def writeDouble (format : RpcFormat) (e : XmlRpcEncoder) (value : UInt64) : XmlRpcEncoder :=
  e.writeLeaf "<value><double>" (format.sprintf value) "</double></value>"

/-- The replacements of `writeString`. -/
def escaped (str : DrString) : DrString :=
  ((str.replace 38 (ascii "&amp;")).replace 60 (ascii "&lt;")).replace 62 (ascii "&gt;")

def writeString (e : XmlRpcEncoder) (str : DrString) : XmlRpcEncoder :=
  e.writeLeaf "<value><string>" (escaped str).utf8 "</string></value>"

def writeBinary (e : XmlRpcEncoder) (data : Blob) : XmlRpcEncoder :=
  e.writeLeaf "<value><base64>" (MemBase64.encodeBase64 data) "</base64></value>"

/-- A number for `sprintf("%0*d", width, number)`. -/
def padded (width : Nat) (number : Int32) : Blob :=
  let digits := numberText 10 number.toInt.natAbs
  if number < 0 then 45 :: (List.replicate (width - 1 - digits.length) 48 ++ digits)
  else List.replicate (width - digits.length) 48 ++ digits

/-- The text of `writeTime`. -/
def timeText (cal : Calendar) : Blob :=
  padded 4 cal.year ++ padded 2 (cal.mon + 1) ++ padded 2 (cal.mday + 1) ++ ascii "T" ++
    padded 2 cal.hour ++ ascii ":" ++ padded 2 cal.min ++ ascii ":" ++ padded 2 cal.sec ++
    ascii "+0000"

def writeTime (format : RpcFormat) (e : XmlRpcEncoder) (tvalue : Int64) : XmlRpcEncoder :=
  e.writeLeaf "<value><dateTime.iso8601>" (timeText (format.timeToUtcCalendar tvalue))
    "</dateTime.iso8601></value>"

/-- `writeArrayLength`. The length is not used. -/
def writeArrayLength (e : XmlRpcEncoder) (_length : UInt64) : XmlRpcEncoder :=
  let e := (e.appendOutside "<param>").appendAscii "<value><array><data>"
  { e with value_level := e.value_level + 1 }

/-- `writeStructLength`. The length is not used. -/
def writeStructLength (e : XmlRpcEncoder) (_length : UInt64) : XmlRpcEncoder :=
  let e := (e.appendOutside "<param>").appendAscii "<value><struct>"
  { e with struct_clean := true, value_level := e.value_level + 1 }

/-- The end of the member before, if there is one. -/
def endMember (e : XmlRpcEncoder) : XmlRpcEncoder :=
  if e.struct_clean then { e with struct_clean := false } else e.appendAscii "</member>"

def writeMemberName (e : XmlRpcEncoder) (name : DrString) : XmlRpcEncoder :=
  ((e.endMember.appendAscii "<member><name>").append name.utf8).appendAscii "</name>"

/-- `if (--value_level == 0) content.append("</param>")`. Below zero is the largest `size_t`. -/
def closeValue (e : XmlRpcEncoder) : XmlRpcEncoder :=
  let e := { e with value_level := if e.value_level = 0 then 2 ^ 64 - 1 else e.value_level - 1 }
  e.appendOutside "</param>"

def writeArrayEnd (e : XmlRpcEncoder) : XmlRpcEncoder :=
  (e.appendAscii "</data></array></value>").closeValue

def writeStructEnd (e : XmlRpcEncoder) : XmlRpcEncoder :=
  (e.endMember.appendAscii "</struct></value>").closeValue

def writeMethodEnd (e : XmlRpcEncoder) : XmlRpcEncoder := e.appendAscii "</params></methodCall>"

def writeResponseEnd (e : XmlRpcEncoder) : XmlRpcEncoder :=
  e.appendAscii "</params></methodResponse>"

end XmlRpcEncoder

mutual

/-- The nested write calls for a value. -/
def XmlRpcEncoder.write (e : XmlRpcEncoder) : RpcValue → XmlRpcEncoder
  | .int32 v => e.writeInt32 v
  | .int64 v => e.writeInt64 v
  | .bool v => e.writeBool v
  | .string s => e.writeString s
  | .binary b => e.writeBinary b
  | .array elements =>
    ((e.writeArrayLength (.ofNat elements.length)).writeElements elements).writeArrayEnd
  | .struct members =>
    ((e.writeStructLength (.ofNat members.length)).writeMembers members).writeStructEnd

/-- The write calls for the elements of an array. -/
def XmlRpcEncoder.writeElements (e : XmlRpcEncoder) : List RpcValue → XmlRpcEncoder
  | [] => e
  | element :: elements => (e.write element).writeElements elements

/-- The write calls for the members of a struct. -/
def XmlRpcEncoder.writeMembers (e : XmlRpcEncoder) : List (DrString × RpcValue) → XmlRpcEncoder
  | [] => e
  | (name, value) :: members => ((e.writeMemberName name).write value).writeMembers members

end

end Drt
