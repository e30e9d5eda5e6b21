import Mathlib.Tactic.Ring

/-!
# Item counts of the containers

Lists and hashes keep the number of their items in an `unsigned`, and `count()`
returns it as a `size_t`. It is the number of items up to `2 ^ 32`.
-/

namespace Drt

/-- `count()` of a container with this many items. -/
def itemCount (length : Nat) : UInt64 := (UInt32.ofNat length).toUInt64

@[simp] theorem toNat_itemCount (length : Nat) : (itemCount length).toNat = length % 2 ^ 32 := by
  simp [itemCount]

theorem itemCount_eq_zero {length : Nat} (hlt : length < 2 ^ 32) :
    itemCount length = 0 ↔ length = 0 := by
  rw [← UInt64.toNat_inj, toNat_itemCount, Nat.mod_eq_of_lt hlt]
  rfl

theorem itemCount_inj {n k : Nat} (hn : n < 2 ^ 32) (hk : k < 2 ^ 32) :
    itemCount n = itemCount k ↔ n = k := by
  rw [← UInt64.toNat_inj, toNat_itemCount, toNat_itemCount, Nat.mod_eq_of_lt hn,
    Nat.mod_eq_of_lt hk]

end Drt
