import Mathlib.Data.List.Basic
import Mathlib.Tactic.Ring

/-!
# Arrays of values

The elements that can be seen of an `SArray` are those that `unsigned len` counts. It
holds their size in octets, which `resizeInit` computes in a `size_t`: from `2 ^ 32`
octets on, the elements of the first ones are out of sight.
-/

namespace Drt

namespace SArray

variable {α : Type} {tsize : Nat} {data : List α}

/-- What `count` gives for `n` elements of `tsize` octets. -/
def count (tsize n : Nat) : Nat := (UInt32.ofNat (n * tsize)).toNat / tsize

/-- `append`: what can be seen of the array after it. -/
def append (tsize : Nat) (data : List α) (iv : α) : List α :=
  (data ++ [iv]).take (count tsize (data.length + 1))

/-- One `append` after another. -/
def appendAll (tsize : Nat) (data els : List α) : List α := els.foldl (append tsize) data

theorem count_of_lt {n : Nat} (htsize : 0 < tsize) (h : n * tsize < 2 ^ 32) :
    count tsize n = n := by
  rw [count, UInt32.toNat_ofNat_of_lt' (by simp only [UInt32.size]; omega)]
  exact Nat.mul_div_cancel n htsize

theorem count_mul_lt (tsize n : Nat) : count tsize n * tsize < 2 ^ 32 :=
  lt_of_le_of_lt (Nat.div_mul_le_self _ _) (UInt32.toNat_lt _)

theorem append_of_lt (htsize : 0 < tsize) (h : (data.length + 1) * tsize < 2 ^ 32) (iv : α) :
    append tsize data iv = data ++ [iv] := by
  rw [append, count_of_lt htsize h]
  exact List.take_of_length_le (by simp)

/-- Below the limit, the elements stand one behind the other. -/
theorem appendAll_of_lt (htsize : 0 < tsize) {els : List α}
    (h : (data.length + els.length) * tsize < 2 ^ 32) :
    appendAll tsize data els = data ++ els := by
  induction els generalizing data with
  | nil => simp [appendAll]
  | cons a els ih =>
    have hfirst : (data.length + 1) * tsize < 2 ^ 32 :=
      lt_of_le_of_lt (Nat.mul_le_mul_right _ (by simp)) h
    have hrest : ((data ++ [a]).length + els.length) * tsize < 2 ^ 32 := by
      convert h using 2
      simp only [List.length_append, List.length_cons, List.length_nil]
      omega
    have happend := ih hrest
    rw [appendAll] at happend ⊢
    rw [List.foldl_cons, append_of_lt htsize hfirst, happend, List.append_assoc]
    rfl

theorem length_appendAll_lt (h : data.length * tsize < 2 ^ 32) (els : List α) :
    (appendAll tsize data els).length * tsize < 2 ^ 32 := by
  induction els generalizing data with
  | nil => exact h
  | cons a els ih =>
    refine ih (lt_of_le_of_lt (Nat.mul_le_mul_right _ ?_) (count_mul_lt tsize (data.length + 1)))
    rw [append, List.length_take]
    exact Nat.min_le_left _ _

end SArray

end Drt
