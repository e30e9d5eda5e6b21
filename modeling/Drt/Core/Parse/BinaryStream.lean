import Drt.Core.Base.Mem

/-!
# Typed reads and writes

`BinaryWriter` turns typed values into octets and hands them to the abstract
`writeDirect`. The two concrete writers append to a blob and fill a caller's
memory area.
-/

namespace Drt

open Mem

/-- `BinaryWriter`: the content handed over so far, and the abstract `writeDirect`,
which either raises or extends that content by exactly the given octets. -/
class BinaryWriter (W : Type) where
  /-- Everything written so far. -/
  written : W → List UInt8
  /-- `writeDirect(data, size, value_name)`. -/
  writeDirect : W → List UInt8 → String → Call W
  /-- A write that returns has appended its data. -/
  written_writeDirect : ∀ {w w' : W} {data : List UInt8} {value_name : String},
    writeDirect w data value_name = .ok w' → written w' = written w ++ data

namespace BinaryWriter

variable {W : Type} [BinaryWriter W]

def writeNat8 (w : W) (value : UInt8) (value_name : String) : Call W :=
  writeDirect w [value] value_name

def writeNat16 (sex : Sex) (w : W) (value : UInt16) (value_name : String) : Call W :=
  writeDirect w (hostBytes sex 2 value.toNat) value_name

def writeNat32 (sex : Sex) (w : W) (value : UInt32) (value_name : String) : Call W :=
  writeDirect w (hostBytes sex 4 value.toNat) value_name

def writeNat64 (sex : Sex) (w : W) (value : UInt64) (value_name : String) : Call W :=
  writeDirect w (hostBytes sex 8 value.toNat) value_name

def writeLe8 (w : W) (value : UInt8) (value_name : String) : Call W :=
  writeDirect w [value] value_name

def writeLe16 (w : W) (value : UInt16) (value_name : String) : Call W :=
  writeDirect w [value.toUInt8, (value >>> 8).toUInt8] value_name

def writeLe32 (w : W) (value : UInt32) (value_name : String) : Call W :=
  writeDirect w [value.toUInt8, (value >>> 8).toUInt8, (value >>> 16).toUInt8,
    (value >>> 24).toUInt8] value_name

def writeLe64 (w : W) (value : UInt64) (value_name : String) : Call W :=
  writeDirect w [value.toUInt8, (value >>> 8).toUInt8, (value >>> 16).toUInt8,
    (value >>> 24).toUInt8, (value >>> 32).toUInt8, (value >>> 40).toUInt8,
    (value >>> 48).toUInt8, (value >>> 56).toUInt8] value_name

def writeBe8 (w : W) (value : UInt8) (value_name : String) : Call W :=
  writeDirect w [value] value_name

def writeBe16 (w : W) (value : UInt16) (value_name : String) : Call W :=
  writeDirect w [(value >>> 8).toUInt8, value.toUInt8] value_name

def writeBe32 (w : W) (value : UInt32) (value_name : String) : Call W :=
  writeDirect w [(value >>> 24).toUInt8, (value >>> 16).toUInt8, (value >>> 8).toUInt8,
    value.toUInt8] value_name

def writeBe64 (w : W) (value : UInt64) (value_name : String) : Call W :=
  writeDirect w [(value >>> 56).toUInt8, (value >>> 48).toUInt8, (value >>> 40).toUInt8,
    (value >>> 32).toUInt8, (value >>> 24).toUInt8, (value >>> 16).toUInt8,
    (value >>> 8).toUInt8, value.toUInt8] value_name

/-- The loop of both `writeVarint` bodies: `p` is the room left in front of the
octets stored so far, and a store at `b[-1]` is a fault. -/
def varintLoop (value : Nat) (p : Nat) (stored : List UInt8) : Call (List UInt8) :=
  if value / 128 = 0 then .ok stored
  else match p with
    | 0 => .fault
    | p + 1 => varintLoop (value / 128) p (UInt8.ofNat (value / 128 ||| 0x80) :: stored)

/-- `writeVarint` with a local buffer of `size` octets. -/
def varintOctets (size : Nat) (value : Nat) : Call (List UInt8) :=
  match size with
  | 0 => .fault
  | p + 1 => varintLoop value p [UInt8.ofNat (value &&& 0x7f)]

/-- `writeVarint(Uint32)`, with `Uint8 b[5]`. -/
def writeVarint32 (w : W) (value : UInt32) (value_name : String) : Call W := do
  let b ← varintOctets 5 value.toNat
  writeDirect w b value_name

/-- `writeVarint(Uint64)`, with `Uint8 b[9]`. -/
def writeVarint64 (w : W) (value : UInt64) (value_name : String) : Call W := do
  let b ← varintOctets 9 value.toNat
  writeDirect w b value_name

/-- Both `writeBytes` overloads: the data pointer comes with its size. -/
def writeBytes (w : W) (data : List UInt8) (value_name : String) : Call W :=
  writeDirect w data value_name

def writeVarBlob (w : W) (data : List UInt8) (value_name : String) : Call W := do
  let w ← writeVarint64 w (UInt64.ofNat data.length) value_name
  writeBytes w data value_name

end BinaryWriter

/-- `BinaryBlobWriter`: the blob `content` grows with every write. -/
structure BinaryBlobWriter where
  /-- The collected octets. -/
  content : List UInt8
  deriving DecidableEq, Repr

instance : BinaryWriter BinaryBlobWriter where
  written w := w.content
  writeDirect w data _ := .ok ⟨w.content ++ data⟩
  written_writeDirect h := by
    cases h
    rfl

/-- `BinaryMemWriter`: a memory area with `current_pos` inside it. The octets
before `current_pos` are the written ones; `pending` is the rest of the area. -/
structure BinaryMemWriter where
  /-- The octets from the start of the area up to `current_pos`. -/
  before : List UInt8
  /-- The octets from `current_pos` up to `end_pos`. -/
  pending : List UInt8
  deriving DecidableEq, Repr

/-- `end_pos-current_pos`. -/
def BinaryMemWriter.pendingSize (w : BinaryMemWriter) : Nat := w.pending.length

instance : BinaryWriter BinaryMemWriter where
  written w := w.before
  writeDirect w data value_name :=
    if w.pendingSize < data.length then .raise (.endOfDataException "byte" value_name)
    else .ok ⟨w.before ++ data, w.pending.drop data.length⟩
  written_writeDirect h := by
    split at h
    · cases h
    · cases h
      rfl

/-! ### Typed reads from memory

`BinaryReader` over the fixed cache of a `BinaryMemReader`. Every load through
`cache_pos` is a separate step which faults outside the buffer, so the checks
made by `needBytes` are what keeps the readers inside it. -/

/-- A `BinaryMemReader`. The buffer is cut at `cache_pos`; it ends at `cache_end`. -/
structure BinaryMemReader where
  /-- The octets before `cache_pos`, nearest first. -/
  passed : List UInt8
  /-- The octets from `cache_pos` up to `cache_end`. -/
  pending : List UInt8
  deriving DecidableEq, Repr

namespace BinaryMemReader

/-- `BinaryMemReader(data)`. -/
def ofBlob (data : List UInt8) : BinaryMemReader := ⟨[], data⟩

def isEnd (r : BinaryMemReader) : Bool := r.pending.isEmpty

/-- `BinaryMemReader::extendCache`: nothing can be added to a memory cache. -/
def extendCache (r : BinaryMemReader) (needbytes : Nat) (value_name : String) : Call Unit :=
  if r.pending.length < needbytes then .raise (.endOfDataException "byte" value_name) else .ok ()

/-- `BinaryReader::needBytes`. -/
def needBytes (r : BinaryMemReader) (needbytes : Nat) (value_name : String) : Call Unit :=
  if r.pending.length < needbytes then r.extendCache needbytes value_name else .ok ()

/-- `cache_pos += count`. -/
def advance (r : BinaryMemReader) (count : Nat) : BinaryMemReader :=
  ⟨(r.pending.take count).reverse ++ r.passed, r.pending.drop count⟩

/-- The load `cache_pos[-k]`. -/
def back (r : BinaryMemReader) (k : Nat) : Call UInt8 :=
  match k with
  | 0 => .ofOption r.pending.head?
  | k + 1 => .ofOption r.passed[k]?

/-- The copy of `count` octets from `cache_pos-count`. -/
def copyBack (r : BinaryMemReader) (count : Nat) : Call (List UInt8) :=
  if r.passed.length < count then .fault else .ok (r.passed.take count).reverse

/-- The common start of the fixed-width readers: check, then step over the octets. -/
def take (r : BinaryMemReader) (count : Nat) (value_name : String) : Call BinaryMemReader := do
  r.needBytes count value_name
  return r.advance count

def readNat8 (r : BinaryMemReader) (value_name : String) : Call (UInt8 × BinaryMemReader) := do
  let r ← r.take 1 value_name
  let b1 ← r.back 1
  return (b1, r)

def readNat16 (sex : Sex) (r : BinaryMemReader) (value_name : String) :
    Call (UInt16 × BinaryMemReader) := do
  let r ← r.take 2 value_name
  let val ← r.copyBack 2
  return (UInt16.ofNat (hostValue sex val), r)

def readNat32 (sex : Sex) (r : BinaryMemReader) (value_name : String) :
    Call (UInt32 × BinaryMemReader) := do
  let r ← r.take 4 value_name
  let val ← r.copyBack 4
  return (UInt32.ofNat (hostValue sex val), r)

def readNat64 (sex : Sex) (r : BinaryMemReader) (value_name : String) :
    Call (UInt64 × BinaryMemReader) := do
  let r ← r.take 8 value_name
  let val ← r.copyBack 8
  return (UInt64.ofNat (hostValue sex val), r)

def readLe8 (r : BinaryMemReader) (value_name : String) : Call (UInt8 × BinaryMemReader) := do
  let r ← r.take 1 value_name
  let b1 ← r.back 1
  return (b1, r)

def readLe16 (r : BinaryMemReader) (value_name : String) : Call (UInt16 × BinaryMemReader) := do
  let r ← r.take 2 value_name
  let b2 ← r.back 2
  let b1 ← r.back 1
  return (b2.toUInt16 ||| b1.toUInt16 <<< 8, r)

def readLe32 (r : BinaryMemReader) (value_name : String) : Call (UInt32 × BinaryMemReader) := do
  let r ← r.take 4 value_name
  let b4 ← r.back 4
  let b3 ← r.back 3
  let b2 ← r.back 2
  let b1 ← r.back 1
  return (b4.toUInt32 ||| b3.toUInt32 <<< 8 ||| b2.toUInt32 <<< 16 ||| b1.toUInt32 <<< 24, r)

def readLe64 (r : BinaryMemReader) (value_name : String) : Call (UInt64 × BinaryMemReader) := do
  let r ← r.take 8 value_name
  let b8 ← r.back 8
  let b7 ← r.back 7
  let b6 ← r.back 6
  let b5 ← r.back 5
  let b4 ← r.back 4
  let b3 ← r.back 3
  let b2 ← r.back 2
  let b1 ← r.back 1
  return (b8.toUInt64 ||| b7.toUInt64 <<< 8 ||| b6.toUInt64 <<< 16 ||| b5.toUInt64 <<< 24 |||
    b4.toUInt64 <<< 32 ||| b3.toUInt64 <<< 40 ||| b2.toUInt64 <<< 48 ||| b1.toUInt64 <<< 56, r)

def readBe8 (r : BinaryMemReader) (value_name : String) : Call (UInt8 × BinaryMemReader) := do
  let r ← r.take 1 value_name
  let b1 ← r.back 1
  return (b1, r)

def readBe16 (r : BinaryMemReader) (value_name : String) : Call (UInt16 × BinaryMemReader) := do
  let r ← r.take 2 value_name
  let b1 ← r.back 1
  let b2 ← r.back 2
  return (b1.toUInt16 ||| b2.toUInt16 <<< 8, r)

def readBe32 (r : BinaryMemReader) (value_name : String) : Call (UInt32 × BinaryMemReader) := do
  let r ← r.take 4 value_name
  let b1 ← r.back 1
  let b2 ← r.back 2
  let b3 ← r.back 3
  let b4 ← r.back 4
  return (b1.toUInt32 ||| b2.toUInt32 <<< 8 ||| b3.toUInt32 <<< 16 ||| b4.toUInt32 <<< 24, r)

def readBe64 (r : BinaryMemReader) (value_name : String) : Call (UInt64 × BinaryMemReader) := do
  let r ← r.take 8 value_name
  let b1 ← r.back 1
  let b2 ← r.back 2
  let b3 ← r.back 3
  let b4 ← r.back 4
  let b5 ← r.back 5
  let b6 ← r.back 6
  let b7 ← r.back 7
  let b8 ← r.back 8
  return (b1.toUInt64 ||| b2.toUInt64 <<< 8 ||| b3.toUInt64 <<< 16 ||| b4.toUInt64 <<< 24 |||
    b5.toUInt64 <<< 32 ||| b6.toUInt64 <<< 40 ||| b7.toUInt64 <<< 48 ||| b8.toUInt64 <<< 56, r)

/-- The loop of both varint readers, for a result of `width` bits. A result that
has reached `limit` is refused before the next octet is looked at. -/
def varintLoop (width limit : Nat) (value_name : String) :
    Nat → Nat → BinaryMemReader → Call (Nat × BinaryMemReader)
  | 0, _, _ => .outOfFuel
  | fuel + 1, result, r => do
    r.needBytes 1 value_name
    if limit ≤ result then .raise (.overflowException "reading varint")
    else
      let c ← r.back 0
      if c.toNat < 0x80 then return ((result * 128 + c.toNat) % 2 ^ width, r.advance 1)
      else
        let result := (result * 128 + (c.toNat &&& 0x7f)) % 2 ^ width
        varintLoop width limit value_name fuel result (r.advance 1)

/-- A pass consumes an octet, so the buffer bounds the number of passes. -/
def readVarint (width limit : Nat) (r : BinaryMemReader) (value_name : String) :
    Call (Nat × BinaryMemReader) :=
  varintLoop width limit value_name (r.pending.length + 1) 0 r

def readVarint32 (r : BinaryMemReader) (value_name : String) :
    Call (UInt32 × BinaryMemReader) := do
  let (result, r) ← r.readVarint 32 0x200000 value_name
  return (UInt32.ofNat result, r)

def readVarint64 (r : BinaryMemReader) (value_name : String) :
    Call (UInt64 × BinaryMemReader) := do
  let (result, r) ← r.readVarint 64 (0x200000 <<< 32) value_name
  return (UInt64.ofNat result, r)

/-- Both `readBytes` overloads: the result is a blob or is copied to the caller. -/
def readBytes (r : BinaryMemReader) (count : Nat) (value_name : String) :
    Call (List UInt8 × BinaryMemReader) := do
  let r ← r.take count value_name
  let data ← r.copyBack count
  return (data, r)

def readVarBlob (r : BinaryMemReader) (max_size : Nat) (value_name : String) :
    Call (List UInt8 × BinaryMemReader) := do
  let (size, r) ← r.readVarint64 value_name
  if max_size < size.toNat then .raise (.overflowException ("too long blob: " ++ value_name))
  else r.readBytes size.toNat value_name

end BinaryMemReader

end Drt
