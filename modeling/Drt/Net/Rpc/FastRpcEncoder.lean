import Drt.Core.Base.Mem
import Drt.Core.Time.Time

/-!
# Writing FastRPC

`FastRpcEncoder`: each write call appends to `content`. An octet in front of an item
holds its type and the number of octets of the integer that follows. The host is
little-endian; `Mem::copyPartialLe`, on the reading side, has no other form that
compiles.
-/

namespace Drt

open Bytes

/-- The functions of `Time`, and the one of the C library, that the encoders call. -/
structure RpcFormat where
  /-- `Time::timeToUtcCalendar`. -/
  timeToUtcCalendar : Int64 → Calendar
  /-- `Time::toSeconds`. -/
  toSeconds : Int64 → Int64
  /-- `sprintf("%g")` of the bits of a `double`. -/
  sprintf : UInt64 → Blob

/-- The fields of `FastRpcEncoder`. -/
structure FastRpcEncoder where
  content : Blob
  /-- Whether the second version of the protocol is written. -/
  length_add : Nat
  deriving DecidableEq, Repr

namespace FastRpcEncoder

/-- `FastRpcEncoder()`. -/
def new : FastRpcEncoder := ⟨[], 1⟩

/-- `content.append`. -/
def append (e : FastRpcEncoder) (octets : Blob) : FastRpcEncoder :=
  { e with content := e.content ++ octets }

/-- The octet `c[0]`. -/
def typeOctet (e : FastRpcEncoder) (type : UInt8) : UInt8 := type + UInt8.ofNat (1 - e.length_add)

/-- `content.append(c, (type&7)+2)`: the type octet and the low octets of a word. -/
def appendTyped (e : FastRpcEncoder) (type : UInt8) (word : Nat) : FastRpcEncoder :=
  e.append (e.typeOctet type :: leBytes ((type &&& 7).toNat + 1) word)

def writeGenLength (e : FastRpcEncoder) (type : UInt8) (length : UInt64) : FastRpcEncoder :=
  let type :=
    if length > 0xff then
      if length.toUInt32 > 0xffff then
        if length &&& ((1 : UInt64) <<< 32) ≠ 0 then type ||| 7 else type ||| 3
      else type ||| 1
    else type ||| 0
  let type := if type &&& 7 = 7 ∧ e.length_add = 0 then type - 1 else type
  e.appendTyped type length.toNat

def writeHeader (e : FastRpcEncoder) : FastRpcEncoder :=
  if e.length_add > 0 then e.append [0xCA, 0x11, 0x02, 0x00]
  else e.append [0xCA, 0x11, 0x01, 0x00]

/-- `writeMethodName`. A `char` holds the length. -/
def writeMethodName (e : FastRpcEncoder) (name : DrString) : FastRpcEncoder :=
  (e.append [0x68, UInt8.ofNat name.utf8.length]).append name.utf8

def writeMethodEnd (e : FastRpcEncoder) : FastRpcEncoder := e

def writeMethodResponse (e : FastRpcEncoder) : FastRpcEncoder := e.append [0x70]

def writeResponseEnd (e : FastRpcEncoder) : FastRpcEncoder := e

/-- The type of `writeInt(Sint32)`, and the value after the sign is taken off. -/
def intType32 (length_add : Nat) (value : Int32) : UInt8 × Int32 :=
  if length_add > 0 then
    let type : UInt8 := if value < 0 then 0x40 else 0x38
    let value := if value < 0 then -value else value
    (if value ≤ 0xffff then if value ≤ 0xff then type ||| 0 else type ||| 1 else type ||| 3, value)
  else
    (if value < 0 then 0x0b
      else if value < 128 then 0x08 else if value < 32768 then 0x09 else 0x0b, value)

/-- `writeInt(Sint32)`. -/
def writeInt32 (e : FastRpcEncoder) (value : Int32) : FastRpcEncoder :=
  let (type, value) := intType32 e.length_add value
  e.appendTyped type value.toBitVec.toNat

/-- The type of `writeInt(Sint64)`, and the value after the sign is taken off. -/
def intType64 (length_add : Nat) (value : Int64) : UInt8 × Int64 :=
  if length_add > 0 then
    let type : UInt8 := if value < 0 then 0x40 else 0x38
    let value := if value < 0 then -value else value
    (if value ≤ 0xffff then if value ≤ 0xff then type ||| 0 else type ||| 1
      else if value ≤ 0xffffffff then type ||| 3 else type ||| 7, value)
  else
    let type : UInt8 :=
      if value < 0 then 0x0f
      else if value < 128 then 0x08
      else if value < (1 : Int64) <<< 16 then 0x09
      else if value < (1 : Int64) <<< 32 then 0x0b
      else 0x0f
    (if type &&& 7 = 7 ∧ length_add = 0 then type - 1 else type, value)

/-- `writeInt(Sint64)`. -/
def writeInt64 (e : FastRpcEncoder) (value : Int64) : FastRpcEncoder :=
  let (type, value) := intType64 e.length_add value
  e.appendTyped type value.toBitVec.toNat

def writeBool (e : FastRpcEncoder) (value : Bool) : FastRpcEncoder :=
  e.append [0x10 ||| value.toUInt8]

/-- `writeDouble` of these bits. -/
def writeDouble (e : FastRpcEncoder) (value : UInt64) : FastRpcEncoder :=
  e.append (0x18 :: leBytes 8 value.toNat)

def writeString (e : FastRpcEncoder) (str : DrString) : FastRpcEncoder :=
  (e.writeGenLength 0x20 (.ofNat str.utf8.length)).append str.utf8

def writeFaultResponse (e : FastRpcEncoder) (code : Int64) (message : DrString) : FastRpcEncoder :=
  ((e.append [0x78]).writeInt64 code).writeString message

def writeBinary (e : FastRpcEncoder) (data : Blob) : FastRpcEncoder :=
  (e.writeGenLength 0x30 (.ofNat data.length)).append data

/-- The octets of `writeTime`. -/
def timeOctets (format : RpcFormat) (tvalue : Int64) : Blob :=
  let cal := format.timeToUtcCalendar tvalue
  let tvalue := format.toSeconds tvalue
  let day := cal.mday + 1
  let year := cal.year - 1600
  let octet (v : Int32) : UInt8 := v.toInt8.toUInt8
  [0x28, 0, tvalue.toInt8.toUInt8, (tvalue >>> 8).toInt8.toUInt8, (tvalue >>> 16).toInt8.toUInt8,
    (tvalue >>> 24).toInt8.toUInt8,
    octet ((7 : Int32) + ((cal.sec &&& 0x1f) <<< 3)),
    octet (((cal.sec &&& 0x20) >>> 5) + ((cal.min &&& 0x3f) <<< 1) + ((cal.hour &&& 0x01) <<< 7)),
    octet (((cal.hour &&& 0x1e) >>> 1) + ((day &&& 0x0f) <<< 4)),
    octet (((day &&& 0x1f) >>> 4) + (((cal.mon + 1) &&& 0x0f) <<< 1) + ((year &&& 0x07) <<< 5)),
    octet ((year &&& 0x7f8) >>> 3)]

def writeTime (format : RpcFormat) (e : FastRpcEncoder) (tvalue : Int64) : FastRpcEncoder :=
  e.append (timeOctets format tvalue)

def writeArrayLength (e : FastRpcEncoder) (length : UInt64) : FastRpcEncoder :=
  e.writeGenLength 0x58 length

def writeStructLength (e : FastRpcEncoder) (length : UInt64) : FastRpcEncoder :=
  e.writeGenLength 0x50 length

def writeMemberName (e : FastRpcEncoder) (name : DrString) : Call FastRpcEncoder :=
  if name.utf8.length > 255 then .raise (.invalidFormatException "member name too long" "string")
  else .ok ((e.append [UInt8.ofNat name.utf8.length]).append name.utf8)

def writeArrayEnd (e : FastRpcEncoder) : FastRpcEncoder := e

def writeStructEnd (e : FastRpcEncoder) : FastRpcEncoder := e

end FastRpcEncoder

/-- What is written: the leaves with the overload that writes them. -/
inductive RpcValue where
  /-- An `int`, for `writeInt(Sint32)`. -/
  | int32 (v : Int32)
  /-- A `Sint64`, for `writeInt(Sint64)`. -/
  | int64 (v : Int64)
  | bool (v : Bool)
  | string (s : DrString)
  | binary (b : Blob)
  | array (elements : List RpcValue)
  | struct (members : List (DrString × RpcValue))

mutual

/-- The nested write calls for a value. -/
def FastRpcEncoder.write (e : FastRpcEncoder) : RpcValue → Call FastRpcEncoder
  | .int32 v => .ok (e.writeInt32 v)
  | .int64 v => .ok (e.writeInt64 v)
  | .bool v => .ok (e.writeBool v)
  | .string s => .ok (e.writeString s)
  | .binary b => .ok (e.writeBinary b)
  | .array elements => do
    let e ← (e.writeArrayLength (.ofNat elements.length)).writeElements elements
    .ok e.writeArrayEnd
  | .struct members => do
    let e ← (e.writeStructLength (.ofNat members.length)).writeMembers members
    .ok e.writeStructEnd

/-- The write calls for the elements of an array. -/
def FastRpcEncoder.writeElements (e : FastRpcEncoder) : List RpcValue → Call FastRpcEncoder
  | [] => .ok e
  | element :: elements => do
    let e ← e.write element
    e.writeElements elements

/-- The write calls for the members of a struct. -/
def FastRpcEncoder.writeMembers (e : FastRpcEncoder) :
    List (DrString × RpcValue) → Call FastRpcEncoder
  | [] => .ok e
  | (name, value) :: members => do
    let e ← e.writeMemberName name
    let e ← e.write value
    e.writeMembers members

end

end Drt
