import Drt.Lib.Keeping
import Drt.Net.Rpc.FastRpcDecoder

/-!
# FastRPC operations one after the other

An operation of `FastRpcDecoder` that raises an exception leaves `pos` behind what it has read.
Here the decoder is kept also then, so that any operations may follow.
-/

namespace Drt

open Bytes

/-- Code that works on a decoder, and the decoder after it. -/
abbrev Decoding (α : Type) : Type := Keeping FastRpcDecoder Exception α

namespace Decoding

open Keeping

variable {α β : Type}

/-- `if (pos+n > end)`, with what comes after it. -/
def unlessBeyond (n : Nat) (e : Exception) (next : Decoding α) : Decoding α := fun d =>
  if d.pos + n > d.theEnd then throw e d else next d

/-- `if (pos > end+n)`, with what comes after it. -/
def unlessFarBeyond (n : Nat) (e : Exception) (next : Decoding α) : Decoding α := fun d =>
  if d.pos > d.theEnd + n then throw e d else next d

/-- `if (pos >= end)`, with what comes after it. -/
def unlessAtEnd (e : Exception) (next : Decoding α) : Decoding α := fun d =>
  if d.pos ≥ d.theEnd then throw e d else next d

/-- `*pos++`. -/
def next : Decoding UInt8 := lift FastRpcDecoder.next

/-- `*pos`. -/
def peek : Decoding UInt8 := lift fun d => d.peek >>= fun c => .ok (c, d)

/-- The octets before `pos` after `pos += n`. -/
def take (n : Nat) : Decoding Blob := lift fun d => d.take n

def readGenLength (length_octets : Nat) : Decoding UInt64 :=
  lift fun d => d.readGenLength length_octets

/-- The type octet, of which some are refused. -/
def readType (accepted : UInt8 → Bool) (format_type : String) : Decoding UInt8 := do
  let type ← next
  if accepted type then pure type
  else throw (.invalidFormatException format_type (FastRpcDecoder.createNumber type))

/-- `length_add = (version_major >= 2)`. -/
def setLengthAdd (version_major : UInt8) : Decoding Unit := fun d =>
  (.ok (), { d with length_add := if version_major ≥ 2 then 1 else 0 })

/-- The kind of what comes behind the header, by its type octet. -/
def readFirst (first : UInt8) : Decoding Int :=
  match first >>> 3 with
  | 0xd => pure 0
  | 0xe => pure 1
  | 0xf => pure 2
  | _ => throw (.invalidFormatException "rpc::header" "unexpected first member")

def readHeader : Decoding Int :=
  unlessFarBeyond 5 (.endOfDataException "char" "bool") do
    let magic ← lift fun d => d.take 2 >>= fun r => .ok (r.1, d)
    if magic ≠ [0xca, 0x11] then
      throw (.invalidFormatException "rpc::header" "unexpected header")
    else
      let octets ← take 4
      setLengthAdd (octets.getD 2 0)
      let first ← peek
      readFirst first

def readCheckType : Decoding RpcType :=
  lift fun d => d.readCheckType >>= fun type => .ok (type, d)

/-- The octets of an integer, after a check that stands the right way. -/
def intOctets (octets : Nat) (type : String) : Decoding Blob :=
  unlessBeyond octets (.endOfDataException "char" type) (take octets)

/-- The octets behind a type octet, with `length_add`. -/
def intLength (type : UInt8) : Decoding Nat := fun d => (.ok ((type &&& 7).toNat + d.length_add), d)

/-- `for (i = 0; i < octets; i += 8) value += (Uint32)*pos++<<i`, from `i` on. -/
def addOctets32 (value : UInt32) (i : Nat) : Blob → UInt32
  | [] => value
  | c :: octets => addOctets32 (value + c.toUInt32 <<< UInt32.ofNat i) (i + 8) octets

/-- The second and the third case of `readInt32`, up to the sign. -/
def readMagnitude32 (type : UInt8) : Decoding Int32 := do
  let octets ← intLength type
  if octets > 4 then throw (.overflowException "rpc::int32")
  else
    let data ← intOctets octets "int32"
    pure (addOctets32 0 0 data).toInt32

/-- `readInt32`. The shift by 32 in the first case is undefined. -/
def readInt32 : Decoding Int32 :=
  unlessAtEnd (.endOfDataException "char" "int size") do
    let type ← next
    match type >>> 3 with
    | 1 => do
      let octets := (type &&& 7).toNat
      if octets > 4 then throw (.overflowException "rpc::int32")
      else
        let data ← intOctets octets "int32"
        if octets = 0 then fault
        else
          let value := (addOctets32 0 0 data).toInt32
          let unused := Int32.ofNat (32 - octets * 8)
          pure (value ||| (value <<< unused) >>> unused)
    | 7 => readMagnitude32 type
    | 8 => do
      let value ← readMagnitude32 type
      pure (-value)
    | _ => throw (.invalidFormatException "rpc::int::code" (FastRpcDecoder.createNumber type))

/-- The second and the third case of `readInt64`, up to the sign. -/
def readMagnitude64 (type : UInt8) : Decoding Int64 := do
  let octets ← intLength type
  let data ← intOctets octets "int64"
  pure (FastRpcDecoder.addOctets 0 0 data).toInt64

/-- `readInt64`. The shift by 64 in the first case is undefined. -/
def readInt64 : Decoding Int64 :=
  unlessAtEnd (.endOfDataException "char" "int size") do
    let type ← next
    match type >>> 3 with
    | 1 => do
      let octets := (type &&& 7).toNat
      if octets > 8 then throw (.overflowException "rpc::int64")
      else
        let data ← intOctets octets "int64"
        if octets = 0 then fault
        else
          let value := (FastRpcDecoder.addOctets 0 0 data).toInt64
          let unused := Int64.ofNat (64 - octets * 8)
          pure (value ||| (value <<< unused) >>> unused)
    | 7 => readMagnitude64 type
    | 8 => do
      let value ← readMagnitude64 type
      pure (-value)
    | _ => throw (.invalidFormatException "rpc::int::code" (FastRpcDecoder.createNumber type))

def readBool : Decoding Bool :=
  unlessAtEnd (.endOfDataException "char" "bool") do
    let type ← readType (· &&& 0xfe = 0x10) "rpc::bool::code"
    pure (type &&& 1 ≠ 0)

def readDouble : Decoding UInt64 :=
  unlessFarBeyond 9 (.endOfDataException "char" "bool") do
    let _ ← readType (· = 0x18) "rpc::double::code"
    let octets ← take 8
    pure (.ofNat (leValue octets))

/-- What `readString` and `readBinary` have in common. -/
def readOctets (code : UInt8) : Decoding Blob :=
  unlessAtEnd (.endOfDataException "char" "string") do
    let type ← readType (· &&& 0xf8 = code) "rpc::string::code"
    let str_len ← readGenLength (type &&& 7).toNat
    unlessFarBeyond str_len.toNat (.endOfDataException "char" "string") (take str_len.toNat)

def readString : Decoding DrString := do
  let octets ← readOctets 0x20
  pure (.setUtf8 octets)

def readBinary : Decoding Blob := readOctets 0x30

/-- `readTime`, after its type octet. -/
def readTimeOctets (time : RpcTime) (octets : Blob) : Int64 :=
  let p (i : Nat) : Nat := (octets.getD i 0).toNat
  let value := leValue ((octets.drop 1).take 4)
  if value = 0 then
    time.convertUtcTime (1600 + (p 9 <<< 3 ||| p 8 >>> 5 : Nat))
      (((p 8 &&& 0x1e) >>> 1 : Nat) - 1) (((p 8 &&& 1) <<< 4 ||| p 7 >>> 4 : Nat) - 1)
      ((p 7 &&& 0xf) <<< 1 ||| p 6 >>> 7 : Nat) ((p 6 &&& 0x7e) >>> 1 : Nat)
      ((p 6 &&& 1) <<< 5 ||| (p 5 &&& 0xf8) >>> 3 : Nat) (p 0 * 15 : Nat)
  else time.fromSeconds (.ofNat value)

def readTime (time : RpcTime) : Decoding Int64 :=
  unlessAtEnd (.endOfDataException "char" "time") do
    let _ ← readType (· = 0x28) "rpc::time::code"
    unlessFarBeyond 10 (.endOfDataException "char" "string") do
      let octets ← take 10
      pure (readTimeOctets time octets)

/-- What `readStructLength` and `readArrayLength` have in common. -/
def readCount (code : UInt8) (format_type : String) : Decoding Int64 :=
  unlessAtEnd (.endOfDataException "char" "string") do
    let type ← readType (· &&& 0xf8 = code) format_type
    let length ← readGenLength (type &&& 7).toNat
    pure length.toInt64

def readStructLength : Decoding Int64 := readCount 0x50 "rpc::struct::code"

def readArrayLength : Decoding Int64 := readCount 0x58 "rpc::array::code"

/-- A name behind the octet with its length. -/
def readName : Decoding DrString := do
  let len ← next
  unlessFarBeyond len.toNat (.endOfDataException "char" "member") do
    let octets ← take len.toNat
    pure (.bytes octets)

def readMemberName : Decoding DrString :=
  unlessAtEnd (.endOfDataException "char" "string") readName

def readMethodName : Decoding DrString :=
  unlessFarBeyond 1 (.endOfDataException "char" "string") do
    let _ ← readType (· = 0x68) "rpc::method::code"
    readName

def readMethodResponse : Decoding Unit :=
  unlessFarBeyond 1 (.endOfDataException "char" "string") do
    let _ ← readType (· = 0x70) "rpc::methodresponse::code"
    pure ()

/-- `readFaultResponse`: the code and the message. -/
def readFaultResponse : Decoding (Int64 × DrString) :=
  unlessFarBeyond 1 (.endOfDataException "char" "string") do
    let _ ← readType (· = 0x78) "rpc::faultresponse::code"
    let result ← readInt64
    let message ← readString
    pure (result, message)

/-- `checkArrayNext` and `checkStructNext`: the result and the count. -/
def checkNext (count : Int64) : Bool × Int64 := (count - 1 ≥ 0, count - 1)

mutual

def readSkip (time : RpcTime) : Nat → Decoding Unit
  | 0 => outOfFuel
  | fuel + 1 => do
    let c ← peek
    match c >>> 3 with
    | 1 | 8 | 7 => do let _ ← readInt64; pure ()
    | 2 => do let _ ← readBool; pure ()
    | 3 => do let _ ← readDouble; pure ()
    | 4 => do let _ ← readString; pure ()
    | 5 => do let _ ← readTime time; pure ()
    | 6 => do let _ ← readBinary; pure ()
    | 10 => do
      let sc ← readStructLength
      skipMembers time fuel sc.toUInt64
    | 11 => do
      let ac ← readArrayLength
      skipElements time fuel ac.toUInt64
    | 13 => do let _ ← readMethodName; pure ()
    | 14 => readMethodResponse
    | 15 => do let _ ← readFaultResponse; pure ()
    | _ => throw (.invalidFormatException "rpc::type" "unknown type")

/-- `while (sc--)`. -/
def skipMembers (time : RpcTime) : Nat → UInt64 → Decoding Unit
  | 0, _ => outOfFuel
  | fuel + 1, sc =>
    if sc ≠ 0 then do
      let _ ← readMemberName
      readSkip time fuel
      skipMembers time fuel (sc - 1)
    else pure ()

/-- `while (ac--)`. -/
def skipElements (time : RpcTime) : Nat → UInt64 → Decoding Unit
  | 0, _ => outOfFuel
  | fuel + 1, ac =>
    if ac ≠ 0 then do
      readSkip time fuel
      skipElements time fuel (ac - 1)
    else pure ()

end

end Decoding

end Drt
