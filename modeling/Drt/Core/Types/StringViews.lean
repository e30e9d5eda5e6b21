import Drt.Core.Types.DrString

/-!
# The representations of a string

The data of a `String` hold octets, wide characters or both. What is missing is made when it is
asked for and kept from then on. `updateHash` and `beq` take what they find, octets first.
-/

namespace Drt

/-- The valid ones of `StrData::bytes` and `StrData::wide`: `length` characters each. -/
inductive StringViews where
  | bytes (b : Blob)
  | wide (w : List UInt32)
  | both (b : Blob) (w : List UInt32) (hlength : b.length = w.length)
  deriving DecidableEq

/-- `StrData`; the hash value is `none` where the code has -1. -/
structure StringData where
  views : StringViews
  hash : Option UInt64
  deriving DecidableEq

/-- A character of a wide string as an octet: a question mark above 127. -/
def narrowChar (c : UInt32) : UInt8 := if c > 127 then 63 else c.toUInt8

/-- An octet as a wide character: a question mark above 127. -/
def widenOctet (c : UInt8) : UInt32 := if c > 127 then 63 else c.toUInt32

/-- A pass of the loops of `updateHash`. -/
def hashChar (h : UInt64) (c : UInt32) : UInt64 := (h * 19) ^^^ c.toUInt64

/-- What `updateHash` computes of characters. -/
def hashChars (l : List UInt32) : UInt64 :=
  let h := l.foldl hashChar 0
  (h ^^^ (h >>> 10) ^^^ (h >>> 20)) &&& 0x7fffffffffffffff

namespace StringViews

def length : StringViews → Nat
  | bytes b => b.length
  | wide w => w.length
  | both b _ _ => b.length

/-- The characters that `updateHash` goes through: the octets, if there are any. -/
def hashed : StringViews → List UInt32
  | bytes b => b.map UInt8.toUInt32
  | wide w => w
  | both b _ _ => b.map UInt8.toUInt32

/-- `updateByte`, and `refByte` that does the same for its result. -/
def updateByte : StringViews → StringViews
  | wide w => both (w.map narrowChar) w (List.length_map narrowChar)
  | v => v

def updateWide : StringViews → StringViews
  | bytes b => both b (b.map widenOctet) (List.length_map widenOctet).symm
  | v => v

/-- The octets after `updateByte`. -/
def octets : StringViews → Blob
  | bytes b => b
  | wide w => w.map narrowChar
  | both b _ _ => b

/-- The wide characters after `updateWide`. -/
def chars : StringViews → List UInt32
  | bytes b => b.map widenOctet
  | wide w => w
  | both _ w _ => w

end StringViews

namespace StringData

/-- `getHash`, by way of `updateHash`. -/
def getHash (s : StringData) : UInt64 × StringData :=
  match s.hash with
  | some h => (h, s)
  | none => (hashChars s.views.hashed, ⟨s.views, some (hashChars s.views.hashed)⟩)

/-- `ascii()` and `utf8()`: both are `refByte`. -/
def ascii (s : StringData) : Blob × StringData := (s.views.octets, ⟨s.views.updateByte, s.hash⟩)

/-- `wide()`. -/
def wide (s : StringData) : List UInt32 × StringData :=
  (s.views.chars, ⟨s.views.updateWide, s.hash⟩)

/-- The end of `StrData::beq`, after the hash values and the lengths: octets are compared if both
have them, else wide characters, that are made of octets alone first. -/
def compareViews : StringViews → StringViews → Bool × StringViews × StringViews
  | .wide w, .bytes b =>
    if w.length = 0 then (true, .wide w, .bytes b)
    else (w = b.map widenOctet, .wide w, (StringViews.bytes b).updateWide)
  | .bytes b, .wide w =>
    if b.length = 0 then (true, .bytes b, .wide w)
    else (b.map widenOctet = w, (StringViews.bytes b).updateWide, .wide w)
  | .wide w, v => (w = v.chars, .wide w, v)
  | v, .wide w => (v.chars = w, v, .wide w)
  | v, v' => (v.octets = v'.octets, v, v')

/-- `StrData::beq` of two different data. -/
def beq (s s' : StringData) : Bool × StringData × StringData :=
  let t := s.getHash.2
  let t' := s'.getHash.2
  if s'.getHash.1 ≠ s.getHash.1 then (false, t, t')
  else if s.views.length ≠ s'.views.length then (false, t, t')
  else
    let r := compareViews s.views s'.views
    (r.1, ⟨r.2.1, t.hash⟩, ⟨r.2.2, t'.hash⟩)

/-- The constructor from octets and a length. -/
def ofOctets (b : Blob) : StringData := ⟨.bytes b, none⟩

/-- The constructor from wide characters and a length. -/
def ofWide (w : List UInt32) : StringData := ⟨.wide w, none⟩

/-- `StrData::zero`. -/
def zero : StringData := ⟨.both [] [] rfl, none⟩

/-- `mid`; `none` is the null string. -/
def mid (s : StringData) (pos length : Nat) : Option Blob × StringData :=
  if pos > s.views.length then (none, s)
  else (some ((s.ascii.1.drop pos).take (min length (s.views.length - pos))), s.ascii.2)

/-- The loop of `find`: a zero stands behind the last octet. -/
def findLoop (am as : Blob) : (start passes : Nat) → Option Nat
  | _, 0 => none
  | start, passes + 1 =>
    if (am ++ [0])[start]? ≠ (as ++ [0]).head? then findLoop am as (start + 1) passes
    else if (am.drop start).take as.length = as then some start
    else findLoop am as (start + 1) passes

/-- `find`, on octets; `none` where the code returns -1. -/
def find (am as : Blob) (start : Nat) : Option Nat :=
  if as.length > am.length then none
  else findLoop am as start (am.length - as.length + 1 - start)

end StringData

end Drt
