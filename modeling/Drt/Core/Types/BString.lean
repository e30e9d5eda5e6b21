import Drt.Core.Types.DrString

/-!
# Byte strings

A `BString` points to the shared null data, to the shared empty data, or to data of
its own. `unlock` does not go back to the empty data where the size does not change,
so that data of its own can be empty too; `isNullEmpty` does not find it.
-/

namespace Drt

/-- What a `BString` points to. -/
inductive BString where
  /-- `StrData_c::null`. -/
  | null
  /-- `StrData_c::zero`. -/
  | zero
  /-- Allocated data. -/
  | own (octets : Blob)
  deriving DecidableEq, Repr

namespace BString

/-- The octets of the data. -/
def octets : BString → Blob
  | null => []
  | zero => []
  | own octets => octets

def getSize (b : BString) : Nat := b.octets.length

def isNull : BString → Bool
  | null => true
  | _ => false

def isNullEmpty : BString → Bool
  | own _ => false
  | _ => true

def createDgLen (octets : Blob) : BString := if octets = [] then zero else own octets

def removeLeft (b : BString) (size : Nat) : BString :=
  if size = 0 then b else createDgLen (b.octets.drop size)

/-- `unlock` of data with these octets, which had `size` octets before. -/
def unlock (size : Nat) (octets : Blob) : BString :=
  if octets.length = size then own octets else createDgLen octets

/-- `findChar`: a place is counted from the start of the octets. -/
def findChar (octets : Blob) (chr : UInt8) (start_pos : Nat) : Option Nat :=
  ((octets.drop start_pos).findIdx? (· = chr)).map (· + start_pos)

theorem findChar_behind {chr : UInt8} {behind text : Blob} (ahead : Blob) (h : chr ∉ text) :
    findChar (behind ++ (text ++ chr :: ahead)) chr behind.length =
      some (behind.length + text.length) := by
  have hnot : text.findIdx? (· = chr) = none := by
    rw [List.findIdx?_eq_none_iff]
    intro x hx
    exact decide_eq_false fun heq => h (heq ▸ hx)
  rw [findChar, List.drop_left, List.findIdx?_append, hnot]
  simp [List.findIdx?_cons, Nat.add_comm]

@[simp] theorem octets_null : null.octets = [] := rfl

@[simp] theorem octets_zero : zero.octets = [] := rfl

@[simp] theorem octets_own (octets : Blob) : (own octets).octets = octets := rfl

@[simp] theorem octets_createDgLen (octets : Blob) : (createDgLen octets).octets = octets := by
  unfold createDgLen
  split_ifs with h
  · simp [h]
  · rfl

@[simp] theorem octets_removeLeft (b : BString) (size : Nat) :
    (b.removeLeft size).octets = b.octets.drop size := by
  unfold removeLeft
  split_ifs with h
  · simp [h]
  · rw [octets_createDgLen]

@[simp] theorem octets_unlock (size : Nat) (octets : Blob) :
    (unlock size octets).octets = octets := by
  unfold unlock
  split_ifs
  · rfl
  · rw [octets_createDgLen]

theorem octets_of_isNullEmpty {b : BString} (h : b.isNullEmpty) : b.octets = [] := by
  cases b with
  | null => rfl
  | zero => rfl
  | own _ => cases h

end BString

end Drt
