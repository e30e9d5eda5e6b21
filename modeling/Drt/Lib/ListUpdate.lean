import Mathlib.Algebra.Order.BigOperators.Group.List
import Mathlib.Data.List.Nodup
import Mathlib.Data.List.Pairwise
import Mathlib.Tactic.Ring

/-!
# Updating one entry of a list

A system of numbered parts keeps them in a list and replaces one at a time. What
holds of every part is checked at the replaced one, and a sum over the parts
changes by the difference there.
-/

open Function

namespace List

universe u v

variable {α : Type u}

variable {l : List α} {a b : α} {β κ : Type v}

/-- What holds at the new entry and at every other one holds of the updated list. -/
theorem forall_getElem?_set {P : Nat → α → Prop} {i : Nat}
    (h : ∀ j a, j ≠ i → l[j]? = some a → P j a) (hb : P i b) :
    ∀ j a, (l.set i b)[j]? = some a → P j a := by
  intro j a hj
  by_cases hij : i = j
  · subst hij
    rw [getElem?_set_self'] at hj
    obtain ⟨_, _, rfl⟩ := Option.map_eq_some_iff.mp hj
    exact hb
  · rw [getElem?_set_ne hij] at hj
    exact h j a (Ne.symm hij) hj

/-- Two entries of a list are summands of their own. -/
theorem add_le_sum_map (f : α → Nat) {i j : Nat} (hi : l[i]? = some a) (hj : l[j]? = some b)
    (hij : i ≠ j) : f a + f b ≤ (l.map f).sum := by
  induction l generalizing i j with
  | nil => simp at hi
  | cons c l ih =>
    rw [map_cons, sum_cons]
    have hmem : ∀ (k : Nat) (d : α), l[k]? = some d → f d ≤ (l.map f).sum := by
      intro k d hk
      exact List.le_sum_of_mem (List.mem_map_of_mem (List.mem_of_getElem? hk))
    cases i with
    | zero =>
      cases j with
      | zero => exact absurd rfl hij
      | succ j =>
        obtain rfl : c = a := by simpa using hi
        have hle := hmem j b (by simpa using hj)
        omega
    | succ i =>
      cases j with
      | zero =>
        obtain rfl : c = b := by simpa using hj
        have hle := hmem i a (by simpa using hi)
        omega
      | succ j =>
        have hle := ih (i := i) (j := j) (by simpa using hi) (by simpa using hj) (by omega)
        omega

theorem sum_map_set (f : α → Nat) {i : Nat} (b : α) (h : l[i]? = some a) :
    ((l.set i b).map f).sum + f a = (l.map f).sum + f b := by
  induction l generalizing i with
  | nil => simp at h
  | cons c l ih =>
    cases i with
    | zero =>
      obtain rfl : c = a := by simpa using h
      simp only [set_cons_zero, map_cons, sum_cons]
      omega
    | succ i =>
      have htail := ih (i := i) (by simpa using h)
      simp only [set_cons_succ, map_cons, sum_cons]
      omega

/-- What the parts hold, when one of them is replaced. -/
theorem filterMap_set_perm (f : α → Option β) {i : Nat} (b : α) (h : l[i]? = some a) :
    ((f a).toList ++ (l.set i b).filterMap f).Perm ((f b).toList ++ l.filterMap f) := by
  induction l generalizing i with
  | nil => simp at h
  | cons c l ih =>
    have hcons : ∀ (d : α) (l' : List α),
        (d :: l').filterMap f = (f d).toList ++ l'.filterMap f := by
      intro d l'
      rw [filterMap_cons]
      cases f d <;> rfl
    cases i with
    | zero =>
      obtain rfl : c = a := by simpa using h
      rw [set_cons_zero, hcons, hcons]
      exact perm_append_comm_assoc _ _ _
    | succ i =>
      rw [set_cons_succ, hcons, hcons]
      have htail := ih (i := i) (by simpa using h)
      calc (f a).toList ++ ((f c).toList ++ (l.set i b).filterMap f)
          ~ (f c).toList ++ ((f a).toList ++ (l.set i b).filterMap f) :=
            perm_append_comm_assoc _ _ _
        _ ~ (f c).toList ++ ((f b).toList ++ l.filterMap f) := htail.append_left _
        _ ~ (f b).toList ++ ((f c).toList ++ l.filterMap f) := perm_append_comm_assoc _ _ _

/-- Going through the numbers of the entries is going through the entries. -/
theorem flatMap_range_getElem? (g : α → List β) (l : List α) :
    (range l.length).flatMap (fun i => (l[i]?.map g).getD []) = l.flatMap g := by
  induction l with
  | nil => rfl
  | cons a l ih =>
    rw [length_cons, range_succ_eq_map, flatMap_cons, flatMap_map, flatMap_cons, ← ih]
    rfl

/-- If a concatenation repeats nothing, no member is in two of its parts. -/
theorem eq_of_mem_of_nodup_flatMap {g : α → List β} {p q : α} {x : β} (h : (l.flatMap g).Nodup)
    (hp : p ∈ l) (hq : q ∈ l) (hxp : x ∈ g p) (hxq : x ∈ g q) : p = q := by
  by_contra hne
  have : Std.Symm (Function.onFun Disjoint g) := ⟨fun _ _ hd _ ha hb => hd hb ha⟩
  exact (nodup_flatMap.mp h).2.forall hp hq hne hxp hxq

theorem foldl_update_of_notMem [DecidableEq κ] {key : α → κ} {val : α → β} {m : κ → β} {k : κ}
    (h : k ∉ l.map key) : l.foldl (fun m a => update m (key a) (val a)) m k = m k := by
  induction l generalizing m with
  | nil => rfl
  | cons a l ih =>
    rw [map_cons, mem_cons, not_or] at h
    rw [foldl_cons, ih h.2, update_of_ne h.1]

/-- After the same updates, only a key that none of them names can still differ. -/
theorem foldl_update_congr [DecidableEq κ] {key : α → κ} {val : α → β} {m m' : κ → β} {k : κ}
    (h : k ∉ l.map key → m k = m' k) :
    l.foldl (fun m a => update m (key a) (val a)) m k =
      l.foldl (fun m a => update m (key a) (val a)) m' k := by
  induction l generalizing m m' with
  | nil => exact h not_mem_nil
  | cons a l ih =>
    rw [foldl_cons, foldl_cons]
    refine ih fun hk => ?_
    by_cases heq : k = key a
    · rw [heq, update_self, update_self]
    · rw [update_of_ne heq, update_of_ne heq]
      exact h (by simp [heq, hk])

theorem foldl_update_of_mem [DecidableEq κ] {key : α → κ} {val : α → β} {m : κ → β}
    (h : (l.map key).Nodup) (ha : a ∈ l) :
    l.foldl (fun m a => update m (key a) (val a)) m (key a) = val a := by
  induction l generalizing m with
  | nil => cases ha
  | cons b l ih =>
    rw [map_cons, nodup_cons] at h
    rw [foldl_cons]
    rcases mem_cons.mp ha with rfl | ha
    · rw [foldl_update_of_notMem h.1, update_self]
    · exact ih h.2 ha

end List
