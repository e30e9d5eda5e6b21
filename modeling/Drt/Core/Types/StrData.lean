import Drt.Core.Base.Exception

/-!
# The data of strings

`StrData_c` counts the strings that share it, and keeps the hash value of its characters once
it has been asked for. `changed` is to be called by whoever changes the characters.
-/

namespace Drt

/-- The sizes of the character type that `updateHash` admits. -/
inductive CharSize where
  | byte
  | two
  | four
  deriving DecidableEq, Repr

namespace CharSize

/-- The bits of a character. -/
def bits : CharSize → Nat
  | byte => 8
  | two => 16
  | four => 32

/-- The characters that make a `long`. -/
def perLong : CharSize → Nat
  | byte => 8
  | two => 4
  | four => 2

end CharSize

/-- `TC`. -/
abbrev StrChar (c : CharSize) := BitVec c.bits

/-- `StrData_c`, with the memory behind `str()`. -/
structure StrData (c : CharSize) where
  refcnt : Int
  size : Nat
  al : Int
  hash : Int
  mem : Nat → StrChar c

namespace StrData

variable {c : CharSize}

/-- `StrData_c::null`. -/
def null : StrData c := ⟨1, 0, -1, -1, fun _ => 0⟩

/-- `StrData_c::zero`. -/
def zero : StrData c := ⟨1, 0, 0, -1, fun _ => 0⟩

/-- The characters. -/
def content (s : StrData c) : List (StrChar c) := (List.range s.size).map s.mem

/-- A pass of the loop of `updateHash`. -/
def hashStep (h : BitVec 64) (ch : StrChar c) : BitVec 64 := (h * 19) ^^^ ch.setWidth 64

/-- The value that `updateHash` computes of characters. -/
def hashOf (l : List (StrChar c)) : Int :=
  let h := l.foldl hashStep 0
  ((h ^^^ (h >>> 10) ^^^ (h >>> 20)) &&& (BitVec.intMax 64)).toInt

def updateHash (s : StrData c) : StrData c := { s with hash := hashOf s.content }

def changed (s : StrData c) : StrData c := { s with hash := -1 }

/-- `roundsize`: up to the end of a `long`. -/
def roundsize (c : CharSize) (size : Nat) : Nat :=
  (size + c.perLong - 1) / c.perLong * c.perLong

/-- `pcopy`: `count` characters of `src` from `start` on are written from `at_` on. -/
def pcopy (mem : Nat → StrChar c) (at_ : Nat) (src : Nat → StrChar c) (start count : Nat) :
    Nat → StrChar c :=
  fun i => if at_ ≤ i ∧ i < at_ + count then src (start + (i - at_)) else mem i

/-- The rest of a `long` is set to zero, from a place in it on. -/
def zeroLong (mem : Nat → StrChar c) (size : Nat) : Nat → StrChar c :=
  fun i => if size ≤ i ∧ i < (size / c.perLong + 1) * c.perLong then 0 else mem i

def padzeroes (s : StrData c) : StrData c := { s with mem := zeroLong s.mem s.size }

/-- `allocDg`, of memory that holds `garbage`. The callers set the size next. -/
def allocDg (garbage : Nat → StrChar c) (al size : Nat) : StrData c :=
  ⟨0, size, al, -1, zeroLong garbage ((al - 1) / c.perLong * c.perLong)⟩

/-- The characters of the argument `s`, `size` of an operation. -/
def charsOf (l : List (StrChar c)) : Nat → StrChar c := fun i => l.getD i 0

/-- What the `append` functions do once there is room: the characters are written behind the
former ones, with a zero after them. `changed` is not called. -/
def appendMem (s : StrData c) (src : Nat → StrChar c) (count : Nat) : StrData c :=
  { s with
    size := s.size + count
    mem := Function.update (pcopy s.mem s.size src 0 count) (s.size + count) 0 }

@[simp] theorem length_content (s : StrData c) : s.content.length = s.size := by
  rw [content, List.length_map, List.length_range]

@[simp] theorem content_updateHash (s : StrData c) : s.updateHash.content = s.content := rfl

@[simp] theorem content_changed (s : StrData c) : s.changed.content = s.content := rfl

theorem hashOf_nonneg (l : List (StrChar c)) : 0 ≤ hashOf l := by
  unfold hashOf
  rw [BitVec.toInt_eq_toNat_cond]
  generalize l.foldl hashStep 0 = h
  have hle : ((h ^^^ (h >>> 10) ^^^ (h >>> 20)) &&& BitVec.intMax 64).toNat ≤
      (BitVec.intMax 64).toNat := by
    rw [BitVec.toNat_and]
    exact Nat.and_le_right
  have hmax : (BitVec.intMax 64).toNat = 2 ^ 63 - 1 := by decide
  rw [if_pos (by omega)]
  exact Int.natCast_nonneg _

theorem hashOf_ne (l : List (StrChar c)) : hashOf l ≠ -1 := by
  have hnonneg := hashOf_nonneg l
  omega

end StrData

end Drt
