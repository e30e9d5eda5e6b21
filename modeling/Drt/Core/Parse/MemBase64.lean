import Drt.Core.Base.Exception
import Drt.Core.Types.DrString

/-!
# Base64

`MemBase64`. The encoder reads the terminating zero of the data for the octets that
the last block lacks. The decoder writes blocks of three octets, and a write beyond
the octets the result was locked for is a fault here. Its `size` goes below zero when
the text ends inside a block, and the decoder reads on.
-/

namespace Drt

namespace MemBase64

def cb64 (v : UInt8) : UInt8 :=
  if v < 26 then v + 65
  else if v < 52 then v + 71
  else if v < 62 then v - 4
  else if v = 62 then 43 else 47

/-- `encodeB64Block` for a block with `len` octets left. -/
def encodeB64Block (a b c : UInt8) (len : Int32) : Blob :=
  [cb64 (a >>> 2), cb64 ((a &&& 0x03) <<< 4 ||| (b &&& 0xf0) >>> 4),
    if len > 1 then cb64 ((b &&& 0x0f) <<< 2 ||| (c &&& 0xc0) >>> 6) else 61,
    if len > 2 then cb64 (c &&& 0x3f) else 61]

/-- `encodeBase64`. The octets left are counted by a `size_t` and given as an `int`. -/
def encodeBase64 : Blob → Blob
  | [] => []
  | [a] => encodeB64Block a 0 0 1
  | [a, b] => encodeB64Block a b 0 2
  | a :: b :: c :: data => encodeB64Block a b c (.ofNat (data.length + 3)) ++ encodeBase64 data

/-- `cd64`: 255 for no digit, 254 for the padding and 253 for a blank. -/
def cd64 (c : UInt8) : UInt8 :=
  if c = 9 ∨ c = 10 ∨ c = 13 ∨ c = 32 then 253
  else if c = 61 then 254
  else if c = 43 then 62
  else if c = 47 then 63
  else if 48 ≤ c ∧ c ≤ 57 then c + 4
  else if 65 ≤ c ∧ c ≤ 90 then c - 65
  else if 97 ≤ c ∧ c ≤ 122 then c - 71
  else 255

def decodeBlock (bd : Blob) : Blob :=
  [bd.getD 0 0 <<< 2 ||| bd.getD 1 0 >>> 4, bd.getD 1 0 <<< 4 ||| bd.getD 2 0 >>> 2,
    (bd.getD 2 0 <<< 6) &&& 0xc0 ||| bd.getD 3 0]

/-- A block of the result behind others: three octets are written, and `dstc += i-1`. -/
def storeBlock (room : Nat) (bd out : Blob) : Call Blob :=
  if out.length + 3 > room then .fault else .ok (out ++ (decodeBlock bd).take (bd.length - 1))

/-- `InvalidFormatException("base64", String((char *)&v, 1))`. -/
def notBase64 {α : Type} (v : UInt8) : Call α :=
  .raise (.invalidFormatException "base64" (String.singleton (Char.ofNat v.toNat)))

/-- The loops of `decodeBase64` with the digits of a block and the octets of the blocks before. A
signed character below zero is no index of the table. -/
def decodeFrom (room : Nat) (size : UInt64) (bd out : Blob) : Blob → Call Blob
  | [] =>
    if size = 0 then
      if bd = [] then .ok out
      else do
        let _ ← storeBlock room bd out
        .fault
    else .fault
  | c :: text =>
    if size = 0 ∧ bd = [] then .ok out
    else do
      let (bd, out) ← if size = 0 then do
          let out ← storeBlock room bd out
          .ok ([], out)
        else .ok (bd, out)
      let size := size - 1
      if c ≥ 128 then .fault
      else if c > 122 then notBase64 c
      else if cd64 c = 255 then notBase64 255
      else if cd64 c = 254 then
        if bd = [] then .ok out else storeBlock room bd out
      else if cd64 c = 253 then decodeFrom room size bd out text
      else if bd.length = 3 then do
        let out ← storeBlock room (bd ++ [cd64 c]) out
        decodeFrom room size [] out text
      else decodeFrom room size (bd ++ [cd64 c]) out text

/-- `decodeBase64(dst, src, size)` with room for this many octets at `dst`. -/
def decodeBase64 (room : Nat) (src : Blob) (size : Nat) : Call Blob :=
  decodeFrom room (.ofNat size) [] [] src

/-- `decodeBase64(data)`. The result is locked for `size/4*3` octets. -/
def decodeBString (data : Blob) : Call Blob :=
  decodeBase64 (data.length / 4 * 3) (data ++ [0]) data.length

/-- Every block of the text has four characters, the last one too. -/
theorem length_encodeBase64 (data : Blob) :
    (encodeBase64 data).length = (data.length + 2) / 3 * 4 := by
  induction data using encodeBase64.induct with
  | case1 => rfl
  | case2 a | case3 a b => simp [encodeBase64, encodeB64Block]
  | case4 a b c data ih =>
    rw [encodeBase64, List.length_append, ih]
    simp only [encodeB64Block, List.length_cons, List.length_nil]
    omega

end MemBase64

example : MemBase64.encodeBase64 [77, 97, 110, 77] = ascii "TWFuTQ==" := by decide

example : MemBase64.decodeBase64 8 (ascii "TWFuTQ==<") 8 = .ok [77, 97, 110, 77] := by decide

end Drt
