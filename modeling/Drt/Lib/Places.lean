import Mathlib.Data.List.Pairwise
import Mathlib.Data.List.Perm.Lattice

/-!
# Things kept at places

Each place has a list of things, and any two things, at one place or at two, are apart in the sense
of a symmetric relation. Things are moved from place to place, divided into parts, and brought in
from outside. A place is named for each list that something may be on, so that a thing which is on
two lists would not be apart from itself.
-/

open Function

universe u v

variable {ι : Type u} {α : Type v}

/-- Any two of the things are apart. -/
structure Apart (R : α → α → Prop) (f : ι → List α) : Prop where
  within : ∀ i, (f i).Pairwise R
  across : ∀ i j, i ≠ j → ∀ x ∈ f i, ∀ y ∈ f j, R x y

namespace Apart

variable {R : α → α → Prop} {f : ι → List α} {i j : ι} {l l' rest new : List α} {x y : α}

variable [DecidableEq ι]

/-- A place gets things that are apart from all others. -/
theorem update (symm : ∀ {x y}, R x y → R y x) (h : Apart R f) (hnew : new.Pairwise R)
    (hothers : ∀ k, k ≠ i → ∀ x ∈ new, ∀ y ∈ f k, R x y) : Apart R (update f i new) := by
  constructor
  · intro k
    by_cases hk : k = i
    · rw [hk, update_self]
      exact hnew
    · rw [update_of_ne hk]
      exact h.within k
  · intro k m hkm x hx y hy
    by_cases hk : k = i
    · subst hk
      rw [update_self] at hx
      rw [update_of_ne (Ne.symm hkm)] at hy
      exact hothers m (Ne.symm hkm) x hx y hy
    · rw [update_of_ne hk] at hx
      by_cases hm : m = i
      · subst hm
        rw [update_self] at hy
        exact symm (hothers k hk y hy x hx)
      · rw [update_of_ne hm] at hy
        exact h.across k m hkm x hx y hy

theorem bring (symm : ∀ {x y}, R x y → R y x) (h : Apart R f) (hl : l.Pairwise R)
    (hothers : ∀ x ∈ l, ∀ k, ∀ y ∈ f k, R x y) (hnew : new.Perm (l ++ f i)) :
    Apart R (Function.update f i new) := by
  refine h.update symm ?_ ?_
  · rw [hnew.pairwise_iff symm, List.pairwise_append]
    exact ⟨hl, h.within i, fun x hx y hy => hothers x hx i y hy⟩
  · intro k hk x hx y hy
    rcases List.mem_append.mp (hnew.mem_iff.mp hx) with hx | hx
    · exact hothers x hx k y hy
    · exact h.across i k (Ne.symm hk) x hx y hy

theorem drop (symm : ∀ {x y}, R x y → R y x) (h : Apart R f) (hi : (f i).Perm (l ++ rest)) :
    Apart R (Function.update f i rest) := by
  refine h.update symm ?_ ?_
  · have hboth := (hi.pairwise_iff symm).mp (h.within i)
    exact (List.pairwise_append.mp hboth).2.1
  · intro k hk x hx y hy
    exact h.across i k (Ne.symm hk) x (hi.mem_iff.mpr (List.mem_append_right l hx)) y hy

/-- Things go from one place to another, and may be divided into parts on the way. -/
theorem move (symm : ∀ {x y}, R x y → R y x) (h : Apart R f) (hij : i ≠ j)
    (hi : (f i).Perm (l ++ rest)) (hl' : l'.Pairwise R)
    (hparts : ∀ y, (∀ x ∈ l, R x y) → ∀ x ∈ l', R x y) (hnew : new.Perm (l' ++ f j)) :
    Apart R (Function.update (Function.update f i rest) j new) := by
  have hboth := List.pairwise_append.mp ((hi.pairwise_iff symm).mp (h.within i))
  have hmem : ∀ x ∈ l, x ∈ f i := fun x hx => hi.mem_iff.mpr (List.mem_append_left rest hx)
  refine (h.drop symm hi).bring symm hl' ?_ ?_
  · intro x hx k y hy
    refine hparts y (fun z hz => ?_) x hx
    by_cases hk : k = i
    · subst hk
      rw [Function.update_self] at hy
      exact hboth.2.2 z hz y hy
    · rw [Function.update_of_ne hk] at hy
      exact h.across i k (Ne.symm hk) z (hmem z hz) y hy
  · rw [Function.update_of_ne (Ne.symm hij)]
    exact hnew

end Apart

/-! ### What holds of everything that is kept -/

section Forall

variable [DecidableEq ι] {P : ι → α → Prop} {f : ι → List α} {i j : ι} {new : List α}

/-- After an update it holds of the new things and of what is at the other places. -/
theorem forall_mem_update (hothers : ∀ k, k ≠ i → ∀ x ∈ f k, P k x) (hnew : ∀ x ∈ new, P i x) :
    ∀ k, ∀ x ∈ update f i new k, P k x := by
  intro k x hx
  by_cases hk : k = i
  · subst hk
    rw [update_self] at hx
    exact hnew x hx
  · rw [update_of_ne hk] at hx
    exact hothers k hk x hx

end Forall

/-! ### Values that are taken under a lock -/

section Locks

universe w x

variable {κ : Type u} {ν : Type v} {τ : Type w}

/-- A value that is locked is known to the one who has taken it, and is not there for others. -/
structure Locks (value : κ → Option ν) (taken : τ → Option (κ × ν)) : Prop where
  absent : ∀ t k v, taken t = some (k, v) → value k = none
  alone : ∀ t t' k v v', taken t = some (k, v) → taken t' = some (k, v') → t = t'

/-- The value of `k`, locked or not. -/
def Locks.Value (value : κ → Option ν) (taken : τ → Option (κ × ν)) (k : κ) (v : ν) : Prop :=
  value k = some v ∨ ∃ t, taken t = some (k, v)

namespace Locks

variable [DecidableEq κ] [DecidableEq τ] {value : κ → Option ν} {taken : τ → Option (κ × ν)}
  {k : κ} {t : τ} {v : ν}

/-- Taking a value that is there. -/
theorem take (h : Locks value taken) (hk : value k = some v) :
    Locks (update value k none) (update taken t (some (k, v))) := by
  have hfree : ∀ t' v', taken t' ≠ some (k, v') := by
    intro t' v' ht'
    rw [h.absent t' k v' ht'] at hk
    cases hk
  have hold : ∀ t' k' v', update taken t (some (k, v)) t' = some (k', v') →
      t' = t ∧ k' = k ∨ t' ≠ t ∧ k' ≠ k ∧ taken t' = some (k', v') := by
    intro t' k' v' ht'
    by_cases heq : t' = t
    · rw [heq, update_self] at ht'
      cases ht'
      exact .inl ⟨heq, rfl⟩
    · rw [update_of_ne heq] at ht'
      refine .inr ⟨heq, fun hkk => ?_, ht'⟩
      exact hfree t' v' (hkk ▸ ht')
  constructor
  · intro t' k' v' ht'
    rcases hold t' k' v' ht' with ⟨-, rfl⟩ | ⟨-, hne, ht'⟩
    · exact update_self ..
    · rw [update_of_ne hne]
      exact h.absent t' k' v' ht'
  · intro t₁ t₂ k' v₁ v₂ h₁ h₂
    rcases hold t₁ k' v₁ h₁ with ⟨rfl, hkk⟩ | ⟨-, hne, h₁⟩
    · rcases hold t₂ k' v₂ h₂ with ⟨rfl, -⟩ | ⟨-, hne, -⟩
      · rfl
      · exact absurd hkk hne
    · rcases hold t₂ k' v₂ h₂ with ⟨-, hkk⟩ | ⟨-, -, h₂⟩
      · exact absurd hkk hne
      · exact h.alone t₁ t₂ k' v₁ v₂ h₁ h₂

theorem value_of_take (hk : value k = some v) {k' : κ} {v' : ν}
    (h : Value (update value k none) (update taken t (some (k, v))) k' v') :
    Value value taken k' v' := by
  rcases h with hv | ⟨t', ht'⟩
  · by_cases heq : k' = k
    · rw [heq, update_self] at hv
      cases hv
    · rw [update_of_ne heq] at hv
      exact .inl hv
  · by_cases heq : t' = t
    · rw [heq, update_self] at ht'
      cases ht'
      exact .inl hk
    · rw [update_of_ne heq] at ht'
      exact .inr ⟨t', ht'⟩

/-- Putting back a value, the same or another one. -/
theorem put (h : Locks value taken) (ht : taken t = some (k, v)) (v' : ν) :
    Locks (update value k (some v')) (update taken t none) := by
  have hold : ∀ t' k' w, update taken t none t' = some (k', w) →
      t' ≠ t ∧ k' ≠ k ∧ taken t' = some (k', w) := by
    intro t' k' w ht'
    by_cases heq : t' = t
    · rw [heq, update_self] at ht'
      cases ht'
    · rw [update_of_ne heq] at ht'
      refine ⟨heq, fun hkk => heq ?_, ht'⟩
      exact h.alone t' t k w v (hkk ▸ ht') ht
  constructor
  · intro t' k' w ht'
    obtain ⟨-, hne, ht'⟩ := hold t' k' w ht'
    rw [update_of_ne hne]
    exact h.absent t' k' w ht'
  · intro t₁ t₂ k' v₁ v₂ h₁ h₂
    exact h.alone t₁ t₂ k' v₁ v₂ (hold t₁ k' v₁ h₁).2.2 (hold t₂ k' v₂ h₂).2.2

/-- The other values stay as they are. -/
theorem value_of_put (h : Locks value taken) (ht : taken t = some (k, v)) {v' w : ν} {k' : κ}
    (hvalue : Value (update value k (some v')) (update taken t none) k' w) :
    k' = k ∧ w = v' ∨ k' ≠ k ∧ Value value taken k' w := by
  rcases hvalue with hv | ⟨t', ht'⟩
  · by_cases heq : k' = k
    · rw [heq, update_self] at hv
      exact .inl ⟨heq, (Option.some.inj hv).symm⟩
    · rw [update_of_ne heq] at hv
      exact .inr ⟨heq, .inl hv⟩
  · by_cases heq : t' = t
    · rw [heq, update_self] at ht'
      cases ht'
    · rw [update_of_ne heq] at ht'
      refine .inr ⟨fun hkk => heq ?_, .inr ⟨t', ht'⟩⟩
      exact h.alone t' t k w v (hkk ▸ ht') ht

end Locks

end Locks
