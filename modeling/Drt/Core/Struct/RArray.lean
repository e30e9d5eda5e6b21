import Mathlib.Data.List.Basic
import Mathlib.Tactic.Ring

/-!
# Arrays of references

`RArray` keeps the size of its data in octets in an `unsigned len`; an element is a
pointer of eight octets. From `2 ^ 29` elements on the size is beyond the type: the
appended element makes it zero, and the array is empty.
-/

namespace Drt

namespace RArray

variable {α : Type}

/-- `len` of an array with this data. -/
def len (data : List α) : UInt32 := UInt32.ofNat (8 * data.length)

/-- `resizeInit`: `nsize` elements, the new ones `iv`. `nsize *= sizeof(SV)` is made in an
`unsigned`. -/
def resizeInit (data : List α) (nsize : UInt32) (iv : α) : List α :=
  if nsize.toNat * 8 < (len data).toNat then data.take nsize.toNat
  else data.take ((nsize * 8).toNat / 8) ++
    List.replicate (((nsize * 8).toNat - (len data).toNat) / 8) iv

/-- `append`, by way of `appendDoref`. -/
def append (data : List α) (iv : α) : List α := resizeInit data (len data / 8 + 1) iv

variable {data : List α}

theorem toNat_len (h : data.length < 2 ^ 29) : (len data).toNat = 8 * data.length := by
  rw [len, UInt32.toNat_ofNat_of_lt' (by simp only [UInt32.size]; omega)]

/-- The element count asked for by `append`, and its size as an `unsigned`. -/
theorem toNat_next (data : List α) (h : data.length < 2 ^ 29) :
    (len data / 8 + 1).toNat = data.length + 1 ∧
      ((len data / 8 + 1) * 8).toNat = (data.length + 1) * 8 % 2 ^ 32 := by
  have hcount : (len data / 8 + 1).toNat = data.length + 1 := by
    rw [UInt32.toNat_add, UInt32.toNat_div, toNat_len h]
    change (8 * data.length / 8 + 1) % 2 ^ 32 = data.length + 1
    omega
  refine ⟨hcount, ?_⟩
  rw [UInt32.toNat_mul, hcount]
  rfl

theorem append_of_lt (h : data.length + 1 < 2 ^ 29) (iv : α) : append data iv = data ++ [iv] := by
  obtain ⟨hcount, hsize⟩ := toNat_next data (by omega)
  rw [append, resizeInit, hcount, hsize, toNat_len (by omega), if_neg (by omega),
    List.take_of_length_le (by omega),
    show ((data.length + 1) * 8 % 2 ^ 32 - 8 * data.length) / 8 = 1 by omega]
  rfl

/-- The element that would make the size `2 ^ 32` makes the array empty. -/
theorem append_of_eq (h : data.length + 1 = 2 ^ 29) (iv : α) : append data iv = [] := by
  obtain ⟨hcount, hsize⟩ := toNat_next data (by omega)
  rw [append, resizeInit, hcount, hsize, toNat_len (by omega), if_neg (by omega), h]
  simp

/-- Appending one element after another. -/
def appendAll (data : List α) (els : List α) : List α := els.foldl append data

theorem appendAll_of_lt {els : List α} (h : data.length + els.length < 2 ^ 29) :
    appendAll data els = data ++ els := by
  induction els generalizing data with
  | nil => simp [appendAll]
  | cons a els ih =>
    rw [List.length_cons] at h
    have hstep : append data a = data ++ [a] := append_of_lt (by omega) a
    rw [appendAll, List.foldl_cons, hstep]
    exact (ih (by simp; omega)).trans (by simp)

/-- An array has fewer than `2 ^ 29` elements, however many are appended. -/
theorem length_appendAll_lt (h : data.length < 2 ^ 29) (els : List α) :
    (appendAll data els).length < 2 ^ 29 := by
  induction els generalizing data with
  | nil => exact h
  | cons a els ih =>
    refine ih ?_
    by_cases hlast : data.length + 1 = 2 ^ 29
    · rw [append_of_eq hlast]
      exact Nat.two_pow_pos 29
    · rw [append_of_lt (by omega), List.length_append, List.length_singleton]
      omega

end RArray

end Drt
