import Drt.Core.Struct.HashGrow
import Mathlib.Data.Finmap

/-!
# Hashes as maps

What a `THash` holds is a finite map, as long as it has at most `Hash.nodeLimit` nodes.
With so many, `create_g` does not return for another key.
-/

open Finmap

namespace Drt

universe v

abbrev THash (κ ν : Type) := Finmap fun _ : κ => ν

namespace THash

variable {κ ν : Type} [DecidableEq κ] {ε : Type v}

/-- There are nodes for all keys. -/
def Fits (h : THash κ ν) : Prop := h.keys.card ≤ Hash.nodeLimit

instance (h : THash κ ν) : Decidable h.Fits := inferInstanceAs (Decidable (_ ≤ _))

/-- `operator[](k) = x`, that is `createNode(k)->v = x`. -/
def set (h : THash κ ν) (k : κ) (x : ν) : Outcome ε (THash κ ν) :=
  if k ∈ h ∨ h.keys.card < Hash.nodeLimit then .ok (h.insert k x) else .outOfFuel

variable {h : THash κ ν} {k : κ} {x : ν}

/-- A key is added when there is a node for it. -/
theorem fits_insert_iff (hfits : h.Fits) :
    Fits (h.insert k x) ↔ k ∈ h ∨ h.keys.card < Hash.nodeLimit := by
  unfold Fits at *
  by_cases hmem : k ∈ h
  · have hkeys : keys (h.insert k x) = h.keys := by
      ext k'
      rw [mem_keys, mem_insert, mem_keys]
      exact ⟨fun hk => hk.elim (fun heq => heq ▸ hmem) id, Or.inr⟩
    rw [hkeys]
    exact ⟨fun _ => .inl hmem, fun _ => hfits⟩
  · have hkeys : keys (h.insert k x) = insert k h.keys := by
      ext k'
      rw [mem_keys, mem_insert, Finset.mem_insert, mem_keys]
    have hnot : k ∉ h.keys := fun hk => hmem (mem_keys.mp hk)
    rw [hkeys, Finset.card_insert_of_notMem hnot]
    exact ⟨fun hle => .inr hle, fun hor => hor.resolve_left hmem⟩

/-- `operator[]` of a hash that fits returns exactly when it fits afterwards. -/
theorem set_eq (hfits : h.Fits) :
    (h.set k x : Outcome ε (THash κ ν)) =
      if Fits (h.insert k x) then .ok (h.insert k x) else .outOfFuel := by
  rw [set]
  exact if_congr (fits_insert_iff hfits).symm rfl rfl

theorem Fits.of_insert (hfits : Fits (h.insert k x)) : h.Fits := by
  refine le_trans (Finset.card_le_card fun k' hk' => ?_) hfits
  rw [mem_keys, mem_insert]
  exact .inr (mem_keys.mp hk')

end THash

end Drt
