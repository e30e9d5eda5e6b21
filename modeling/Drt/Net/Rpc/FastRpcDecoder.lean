import Drt.Core.Base.Mem
import Drt.Core.Struct.HashGrow
import Drt.Core.Struct.RArray

/-!
# Reading FastRPC

`FastRpcDecoder` reads from `pos`, and `RpcDecoder::readVariant` builds a `Variant`
from its calls. Some of the checks against the end stand the wrong way round
(`pos > end+n`); a read beyond the content is a fault here. The bound on loop passes
is also one on the depth of the recursion.
-/

namespace Drt

open Bytes

/-- The fields of `FastRpcDecoder`. The pointer `end` is behind the content. -/
structure FastRpcDecoder where
  content : Blob
  /-- The place of `pos` in the content. -/
  pos : Nat
  /-- Whether the header is of the second version of the protocol. -/
  length_add : Nat
  deriving DecidableEq, Repr

/-- `RpcDecoder::RpcType`. -/
inductive RpcType where
  | rtEnd
  | rtInt
  | rtBool
  | rtDouble
  | rtString
  | rtTime
  | rtBinary
  | rtStruct
  | rtArray
  | rtMethodName
  | rtMethodResponse
  | rtFaultResponse
  deriving DecidableEq, Repr

/-- The functions of `Time` that `readTime` calls. -/
structure RpcTime where
  /-- `Time::convertUtcTime(year, mon, day, hour, min, sec, zone)`. -/
  convertUtcTime : Int → Int → Int → Int → Int → Int → Int → Int64
  /-- `Time::fromSeconds`. -/
  fromSeconds : Int64 → Int64

/-- `Variant`, and the NULL that `readVariant` returns for the parts of a message. -/
inductive Variant where
  | null
  | int (v : Int64)
  | bool (v : Bool)
  /-- The bits of a `double`. -/
  | double (v : UInt64)
  | string (s : DrString)
  | time (t : Int64)
  | binary (b : Blob)
  /-- The nodes of an `RHash`, in the order of their creation. -/
  | struct (members : List (DrString × Variant))
  | array (elements : List Variant)

namespace FastRpcDecoder

/-- `end`. -/
def theEnd (d : FastRpcDecoder) : Nat := d.content.length

/-- `*pos`. -/
def peek (d : FastRpcDecoder) : Call UInt8 := .ofOption d.content[d.pos]?

/-- `*pos++`. -/
def next (d : FastRpcDecoder) : Call (UInt8 × FastRpcDecoder) := do
  let c ← d.peek
  .ok (c, { d with pos := d.pos + 1 })

/-- The octets before `pos` after `pos += n`. -/
def take (d : FastRpcDecoder) (n : Nat) : Call (Blob × FastRpcDecoder) :=
  if d.pos + n ≤ d.theEnd then .ok ((d.content.drop d.pos).take n, { d with pos := d.pos + n })
  else .fault

/-- `readGenLength`. A `size_t` has 64 bits, so the check of its range has nothing to find. -/
def readGenLength (d : FastRpcDecoder) (length_octets : Nat) : Call (UInt64 × FastRpcDecoder) :=
  let length_octets := length_octets + d.length_add
  if d.pos > d.theEnd + length_octets then .raise (.endOfDataException "char" "bool")
  else if length_octets > 8 then .fault
  else do
    let (octets, d) ← d.take length_octets
    .ok (.ofNat (leValue octets), d)

def readCheckType (d : FastRpcDecoder) : Call RpcType :=
  if d.pos ≥ d.theEnd then .ok .rtEnd
  else do
    let c ← d.peek
    match c >>> 3 with
    | 1 | 8 | 7 => .ok .rtInt
    | 2 => .ok .rtBool
    | 3 => .ok .rtDouble
    | 4 => .ok .rtString
    | 5 => .ok .rtTime
    | 6 => .ok .rtBinary
    | 10 => .ok .rtStruct
    | 11 => .ok .rtArray
    | 13 => .ok .rtMethodName
    | 14 => .ok .rtMethodResponse
    | 15 => .ok .rtFaultResponse
    | _ => .raise (.invalidFormatException "rpc::type" "unknown type")

/-- `String::createNumber` of a type octet. -/
def createNumber (type : UInt8) : String := toString type.toNat

/-- `for (i = 0; i < octets; i += 8) value += (Uint64)*pos++<<i`, from `i` on. -/
def addOctets (value : UInt64) (i : Nat) : Blob → UInt64
  | [] => value
  | c :: octets => addOctets (value + c.toUInt64 <<< UInt64.ofNat i) (i + 8) octets

/-- `readInt64`. The shift by 64 in the first case is undefined. -/
def readInt64 (d : FastRpcDecoder) : Call (Int64 × FastRpcDecoder) :=
  if d.pos ≥ d.theEnd then .raise (.endOfDataException "char" "int size")
  else do
    let (type, d) ← d.next
    match type >>> 3 with
    | 1 =>
      let octets := (type &&& 7).toNat
      if octets > 8 then .raise (.overflowException "rpc::int64")
      else if d.pos + octets > d.theEnd then .raise (.endOfDataException "char" "int64")
      else if octets = 0 then .fault
      else
        let (data, d) ← d.take octets
        let value := (addOctets 0 0 data).toInt64
        let unused := Int64.ofNat (64 - octets * 8)
        .ok (value ||| (value <<< unused) >>> unused, d)
    | 7 =>
      let octets := (type &&& 7).toNat + d.length_add
      if d.pos + octets > d.theEnd then .raise (.endOfDataException "char" "int64")
      else
        let (data, d) ← d.take octets
        .ok ((addOctets 0 0 data).toInt64, d)
    | 8 =>
      let octets := (type &&& 7).toNat + d.length_add
      if d.pos + octets > d.theEnd then .raise (.endOfDataException "char" "int64")
      else
        let (data, d) ← d.take octets
        .ok (-(addOctets 0 0 data).toInt64, d)
    | _ => .raise (.invalidFormatException "rpc::int::code" (createNumber type))

def readBool (d : FastRpcDecoder) : Call (Bool × FastRpcDecoder) :=
  if d.pos ≥ d.theEnd then .raise (.endOfDataException "char" "bool")
  else do
    let (type, d) ← d.next
    if type &&& 0xfe ≠ 0x10 then
      .raise (.invalidFormatException "rpc::bool::code" (createNumber type))
    else .ok (type &&& 1 ≠ 0, d)

def readDouble (d : FastRpcDecoder) : Call (UInt64 × FastRpcDecoder) :=
  if d.pos > d.theEnd + 9 then .raise (.endOfDataException "char" "bool")
  else do
    let (type, d) ← d.next
    if type ≠ 0x18 then
      .raise (.invalidFormatException "rpc::double::code" (createNumber type))
    else
      let (octets, d) ← d.take 8
      .ok (.ofNat (leValue octets), d)

/-- What `readString` and `readBinary` have in common: the type and the octets of an item. -/
def readOctets (d : FastRpcDecoder) (code : UInt8) : Call (Blob × FastRpcDecoder) :=
  if d.pos ≥ d.theEnd then .raise (.endOfDataException "char" "string")
  else do
    let (type, d) ← d.next
    if type &&& 0xf8 ≠ code then
      .raise (.invalidFormatException "rpc::string::code" (createNumber type))
    else
      let (str_len, d) ← d.readGenLength (type &&& 7).toNat
      if d.pos > d.theEnd + str_len.toNat then .raise (.endOfDataException "char" "string")
      else d.take str_len.toNat

def readString (d : FastRpcDecoder) : Call (DrString × FastRpcDecoder) := do
  let (octets, d) ← d.readOctets 0x20
  .ok (.setUtf8 octets, d)

def readBinary (d : FastRpcDecoder) : Call (Blob × FastRpcDecoder) := d.readOctets 0x30

def readTime (time : RpcTime) (d : FastRpcDecoder) : Call (Int64 × FastRpcDecoder) :=
  if d.pos ≥ d.theEnd then .raise (.endOfDataException "char" "time")
  else do
    let (type, d) ← d.next
    if type ≠ 0x28 then .raise (.invalidFormatException "rpc::time::code" (createNumber type))
    else if d.pos > d.theEnd + 10 then .raise (.endOfDataException "char" "string")
    else
      let (octets, d) ← d.take 10
      let p (i : Nat) : Nat := (octets.getD i 0).toNat
      let value := leValue ((octets.drop 1).take 4)
      if value = 0 then
        .ok (time.convertUtcTime (1600 + (p 9 <<< 3 ||| p 8 >>> 5 : Nat))
          (((p 8 &&& 0x1e) >>> 1 : Nat) - 1) (((p 8 &&& 1) <<< 4 ||| p 7 >>> 4 : Nat) - 1)
          ((p 7 &&& 0xf) <<< 1 ||| p 6 >>> 7 : Nat) ((p 6 &&& 0x7e) >>> 1 : Nat)
          ((p 6 &&& 1) <<< 5 ||| (p 5 &&& 0xf8) >>> 3 : Nat) (p 0 * 15 : Nat), d)
      else .ok (time.fromSeconds (.ofNat value), d)

/-- What `readStructLength` and `readArrayLength` have in common. -/
def readCount (d : FastRpcDecoder) (code : UInt8) (format_type : String) :
    Call (Int64 × FastRpcDecoder) :=
  if d.pos ≥ d.theEnd then .raise (.endOfDataException "char" "string")
  else do
    let (type, d) ← d.next
    if type &&& 0xf8 ≠ code then .raise (.invalidFormatException format_type (createNumber type))
    else
      let (length, d) ← d.readGenLength (type &&& 7).toNat
      .ok (length.toInt64, d)

def readStructLength (d : FastRpcDecoder) : Call (Int64 × FastRpcDecoder) :=
  d.readCount 0x50 "rpc::struct::code"

def readArrayLength (d : FastRpcDecoder) : Call (Int64 × FastRpcDecoder) :=
  d.readCount 0x58 "rpc::array::code"

def readMemberName (d : FastRpcDecoder) : Call (DrString × FastRpcDecoder) :=
  if d.pos ≥ d.theEnd then .raise (.endOfDataException "char" "string")
  else do
    let (len, d) ← d.next
    if d.pos > d.theEnd + len.toNat then .raise (.endOfDataException "char" "member")
    else
      let (octets, d) ← d.take len.toNat
      .ok (.bytes octets, d)

def readMethodName (d : FastRpcDecoder) : Call (DrString × FastRpcDecoder) :=
  if d.pos > d.theEnd + 1 then .raise (.endOfDataException "char" "string")
  else do
    let (type, d) ← d.next
    if type ≠ 0x68 then .raise (.invalidFormatException "rpc::method::code" (createNumber type))
    else
      let (len, d) ← d.next
      if d.pos > d.theEnd + len.toNat then .raise (.endOfDataException "char" "member")
      else
        let (octets, d) ← d.take len.toNat
        .ok (.bytes octets, d)

def readMethodResponse (d : FastRpcDecoder) : Call FastRpcDecoder :=
  if d.pos > d.theEnd + 1 then .raise (.endOfDataException "char" "string")
  else do
    let (type, d) ← d.next
    if type ≠ 0x70 then
      .raise (.invalidFormatException "rpc::methodresponse::code" (createNumber type))
    else .ok d

/-- `readFaultResponse`: the code and the message. -/
def readFaultResponse (d : FastRpcDecoder) : Call ((Int64 × DrString) × FastRpcDecoder) :=
  if d.pos > d.theEnd + 1 then .raise (.endOfDataException "char" "string")
  else do
    let (type, d) ← d.next
    if type ≠ 0x78 then
      .raise (.invalidFormatException "rpc::faultresponse::code" (createNumber type))
    else
      let (result, d) ← d.readInt64
      let (message, d) ← d.readString
      .ok ((result, message), d)

end FastRpcDecoder

/-- `createNode(member_name)->v = member_value` on an `RHash`. The node of a new name goes behind
the others. With `Hash.nodeLimit` nodes, `create_g` does not return for a new name. -/
def createMember (struc : List (DrString × Variant)) (name : DrString) (value : Variant) :
    Call (List (DrString × Variant)) :=
  if name ∈ struc.map Prod.fst then
    .ok (struc.map fun m => if m.1 = name then (name, value) else m)
  else if struc.length < Hash.nodeLimit then .ok (struc ++ [(name, value)])
  else .outOfFuel

namespace FastRpcDecoder

mutual

/-- `RpcDecoder::readVariant`. -/
def readVariant (time : RpcTime) : Nat → FastRpcDecoder → Call (Variant × FastRpcDecoder)
  | 0, _ => .outOfFuel
  | fuel + 1, d => do
    match ← d.readCheckType with
    | .rtEnd => .raise (.endOfDataException "type" "type")
    | .rtInt =>
      let (v, d) ← d.readInt64
      .ok (.int v, d)
    | .rtBool =>
      let (v, d) ← d.readBool
      .ok (.bool v, d)
    | .rtDouble =>
      let (v, d) ← d.readDouble
      .ok (.double v, d)
    | .rtString =>
      let (s, d) ← d.readString
      .ok (.string s, d)
    | .rtTime =>
      let (t, d) ← d.readTime time
      .ok (.time t, d)
    | .rtBinary =>
      let (b, d) ← d.readBinary
      .ok (.binary b, d)
    | .rtStruct =>
      let (num_members, d) ← d.readStructLength
      let (struc, d) ← readMembers time fuel num_members [] d
      .ok (.struct struc, d)
    | .rtArray =>
      let (num_members, d) ← d.readArrayLength
      let (list, d) ← readElements time fuel num_members [] d
      .ok (.array list, d)
    | .rtMethodName | .rtMethodResponse | .rtFaultResponse => .ok (.null, d)

/-- `while (checkStructNext(&num_members))`. -/
def readMembers (time : RpcTime) : Nat → Int64 → List (DrString × Variant) → FastRpcDecoder →
    Call (List (DrString × Variant) × FastRpcDecoder)
  | 0, _, _, _ => .outOfFuel
  | fuel + 1, num_members, struc, d =>
    if num_members - 1 ≥ 0 then do
      let (member_name, d) ← d.readMemberName
      let (member_value, d) ← readVariant time fuel d
      let struc ← createMember struc member_name member_value
      readMembers time fuel (num_members - 1) struc d
    else .ok (struc, d)

/-- `while (checkArrayNext(&num_members))`. -/
def readElements (time : RpcTime) : Nat → Int64 → List Variant → FastRpcDecoder →
    Call (List Variant × FastRpcDecoder)
  | 0, _, _, _ => .outOfFuel
  | fuel + 1, num_members, list, d =>
    if num_members - 1 ≥ 0 then do
      let (member_value, d) ← readVariant time fuel d
      readElements time fuel (num_members - 1) (RArray.append list member_value) d
    else .ok (list, d)

end

mutual

def readSkip (time : RpcTime) : Nat → FastRpcDecoder → Call FastRpcDecoder
  | 0, _ => .outOfFuel
  | fuel + 1, d => do
    let c ← d.peek
    match c >>> 3 with
    | 1 | 8 | 7 => do let (_, d) ← d.readInt64; .ok d
    | 2 => do let (_, d) ← d.readBool; .ok d
    | 3 => do let (_, d) ← d.readDouble; .ok d
    | 4 => do let (_, d) ← d.readString; .ok d
    | 5 => do let (_, d) ← d.readTime time; .ok d
    | 6 => do let (_, d) ← d.readBinary; .ok d
    | 10 =>
      let (sc, d) ← d.readStructLength
      skipMembers time fuel sc.toUInt64 d
    | 11 =>
      let (ac, d) ← d.readArrayLength
      skipElements time fuel ac.toUInt64 d
    | 13 => do let (_, d) ← d.readMethodName; .ok d
    | 14 => d.readMethodResponse
    | 15 => do let (_, d) ← d.readFaultResponse; .ok d
    | _ => .raise (.invalidFormatException "rpc::type" "unknown type")

/-- `while (sc--)`. -/
def skipMembers (time : RpcTime) : Nat → UInt64 → FastRpcDecoder → Call FastRpcDecoder
  | 0, _, _ => .outOfFuel
  | fuel + 1, sc, d =>
    if sc ≠ 0 then do
      let (_, d) ← d.readMemberName
      let d ← readSkip time fuel d
      skipMembers time fuel (sc - 1) d
    else .ok d

/-- `while (ac--)`. -/
def skipElements (time : RpcTime) : Nat → UInt64 → FastRpcDecoder → Call FastRpcDecoder
  | 0, _, _ => .outOfFuel
  | fuel + 1, ac, d =>
    if ac ≠ 0 then do
      let d ← readSkip time fuel d
      skipElements time fuel (ac - 1) d
    else .ok d

end

end FastRpcDecoder

end Drt
