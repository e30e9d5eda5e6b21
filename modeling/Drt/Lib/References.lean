import Mathlib.Data.Finset.Card

/-!
# Counted references

Objects live as long as they are referenced. The references are a multiset; every
object counts its own, and an object that loses the last one is gone. So the number of
live objects changes with the first and with the last reference only.
-/

universe u

namespace References

variable {α : Type u} [DecidableEq α] {refcnt : α → Nat} {refs : Multiset α} {a : α}

/-- Every object counts its references. -/
def Counted (refcnt : α → Nat) (refs : Multiset α) : Prop := ∀ a, refcnt a = refs.count a

/-- The objects that are referenced. -/
def live (refs : Multiset α) : Finset α := refs.toFinset

namespace Counted

theorem ref (h : Counted refcnt refs) (a : α) :
    Counted (Function.update refcnt a (refcnt a + 1)) (a ::ₘ refs) := by
  intro b
  by_cases hb : b = a
  · subst hb
    rw [Function.update_self, Multiset.count_cons_self, h]
  · rw [Function.update_of_ne hb, Multiset.count_cons_of_ne hb, h]

section

variable (h : Counted refcnt (a ::ₘ refs))
include h

theorem unref : Counted (Function.update refcnt a (refcnt a - 1)) refs := by
  intro b
  have hcount := h b
  by_cases hb : b = a
  · subst hb
    rw [Function.update_self, hcount, Multiset.count_cons_self, Nat.add_sub_cancel]
  · rw [Function.update_of_ne hb, hcount, Multiset.count_cons_of_ne hb]

/-- The last reference is given up exactly when no other one is left. -/
theorem last_iff : refcnt a - 1 = 0 ↔ a ∉ refs := by
  rw [h a, Multiset.count_cons_self, Nat.add_sub_cancel, Multiset.count_eq_zero]

theorem card_unref :
    (live (a ::ₘ refs)).card = (live refs).card + if refcnt a - 1 = 0 then 1 else 0 := by
  unfold live
  rw [Multiset.toFinset_cons]
  split_ifs with hlast
  · have hnot : a ∉ refs.toFinset := by
      rw [Multiset.mem_toFinset]
      exact h.last_iff.mp hlast
    exact Finset.card_insert_of_notMem hnot
  · have hmem : a ∈ refs.toFinset := by
      rw [Multiset.mem_toFinset]
      exact not_not.mp fun hnot => hlast (h.last_iff.mpr hnot)
    rw [Finset.insert_eq_of_mem hmem, Nat.add_zero]

end

end Counted

theorem card_new (h : a ∉ refs) : (live (a ::ₘ refs)).card = (live refs).card + 1 := by
  unfold live
  rw [Multiset.toFinset_cons]
  exact Finset.card_insert_of_notMem fun hmem => h (Multiset.mem_toFinset.mp hmem)

theorem live_again (h : a ∈ refs) : live (a ::ₘ refs) = live refs := by
  unfold live
  rw [Multiset.toFinset_cons]
  exact Finset.insert_eq_of_mem (Multiset.mem_toFinset.mpr h)

end References
