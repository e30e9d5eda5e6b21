import Mathlib.Data.List.Induction
import Mathlib.Data.List.Pairwise
import Mathlib.Data.Set.Basic

/-!
# Three-way comparisons

A comparison function says by its sign how two elements stand to each other. Its laws are those
of a total preorder, and the negated function has them, too. A list in which a middle part
separates what does not come after it from what does not come before it is sorted once its outer
parts are.
-/

open List

universe u

namespace Comparison

variable {α : Type u}

/-- The function is a total preorder of these elements, with the three results. -/
structure IsComparisonOn (cmp : α → α → Int) (s : Set α) : Prop where
  /-- A result is a sign. -/
  unit : ∀ a ∈ s, ∀ b ∈ s, cmp a b = -1 ∨ cmp a b = 0 ∨ cmp a b = 1
  /-- The other way round the sign is the opposite one. -/
  swap : ∀ a ∈ s, ∀ b ∈ s, cmp b a = -cmp a b
  /-- What does not come after. -/
  trans : ∀ a ∈ s, ∀ b ∈ s, ∀ c ∈ s, cmp a b ≤ 0 → cmp b c ≤ 0 → cmp a c ≤ 0

namespace IsComparisonOn

variable {cmp : α → α → Int} {s : Set α} (h : IsComparisonOn cmp s)

include h

theorem refl {a : α} (ha : a ∈ s) : cmp a a = 0 := by
  have := h.swap a ha a ha
  omega

theorem lt_of_lt_of_le {a b c : α} (ha : a ∈ s) (hb : b ∈ s) (hc : c ∈ s) (hab : cmp a b < 0)
    (hbc : cmp b c ≤ 0) : cmp a c < 0 := by
  have hba := h.swap a ha b hb
  have hca := h.swap a ha c hc
  have hac := h.trans a ha b hb c hc (by omega) hbc
  by_contra hnot
  have := h.trans b hb c hc a ha hbc (by omega)
  omega

theorem neg : IsComparisonOn (fun a b => -cmp a b) s where
  unit a ha b hb := by
    have := h.unit a ha b hb
    omega
  swap a ha b hb := by rw [h.swap a ha b hb]
  trans a ha b hb c hc hab hbc := by
    have hba := h.swap a ha b hb
    have hcb := h.swap b hb c hc
    have hca := h.swap a ha c hc
    have := h.trans c hc b hb a ha (by omega) (by omega)
    omega

/-- A function with the same results has the same laws. -/
theorem congr {cmp' : α → α → Int} (heq : ∀ a ∈ s, ∀ b ∈ s, cmp' a b = cmp a b) :
    IsComparisonOn cmp' s where
  unit a ha b hb := by
    rw [heq a ha b hb]
    exact h.unit a ha b hb
  swap a ha b hb := by
    rw [heq a ha b hb, heq b hb a ha]
    exact h.swap a ha b hb
  trans a ha b hb c hc := by
    rw [heq a ha b hb, heq b hb c hc, heq a ha c hc]
    exact h.trans a ha b hb c hc

end IsComparisonOn

section Sorted

variable {cmp : α → α → Int} {s : Set α} {p : α} {X Y Z : List α}

/-- In order, with equal elements anywhere among each other. -/
def Sorted (cmp : α → α → Int) (l : List α) : Prop := l.Pairwise fun a b => cmp a b ≤ 0

/-- Sorted parts on both sides of one that is as good as a given element. -/
theorem Sorted.join (h : IsComparisonOn cmp s) (hp : p ∈ s) (hleft : ∀ a ∈ X ++ Y, a ∈ s)
    (hright : ∀ a ∈ Y ++ Z, a ∈ s) (hX : Sorted cmp X) (hY : Sorted cmp Y) (hZ : Sorted cmp Z)
    (hlow : ∀ a ∈ X ++ Y, cmp a p ≤ 0) (hhigh : ∀ a ∈ Y ++ Z, cmp p a ≤ 0) :
    Sorted cmp (X ++ (Y ++ Z)) := by
  have hacross : ∀ a ∈ X ++ Y, ∀ b ∈ Y ++ Z, cmp a b ≤ 0 := fun a ha b hb =>
    h.trans a (hleft a ha) p hp b (hright b hb) (hlow a ha) (hhigh b hb)
  refine pairwise_append.mpr ⟨hX, pairwise_append.mpr ⟨hY, hZ, ?_⟩, ?_⟩
  · intro a ha b hb
    exact hacross a (mem_append_right X ha) b (mem_append_right Y hb)
  · intro a ha b hb
    exact hacross a (mem_append_left Y ha) b hb

end Sorted

section Ends

variable {P Q : α → Prop} {l : List α} {a : α}

/-- What two cursors from both ends of a list pass, and what they leave between them. -/
inductive Ends (P Q : α → Prop) : List α → Prop
  /-- They have passed each other. -/
  | crossed (S T : List α) (hS : ∀ a ∈ S, P a) (hT : ∀ a ∈ T, Q a) : Ends P Q (S ++ T)
  /-- They have met at one element. -/
  | met (S T : List α) (x : α) (hS : ∀ a ∈ S, P a) (hT : ∀ a ∈ T, Q a) (hx : ¬ P x)
      (hx' : ¬ Q x) : Ends P Q (S ++ x :: T)
  /-- They have stopped at two elements. -/
  | apart (S M T : List α) (x y : α) (hS : ∀ a ∈ S, P a) (hT : ∀ a ∈ T, Q a) (hx : ¬ P x)
      (hy : ¬ Q y) : Ends P Q (S ++ x :: (M ++ y :: T))

theorem Ends.cons (h : Ends P Q l) (ha : P a) : Ends P Q (a :: l) := by
  cases h with
  | crossed S T hS hT => exact .crossed (a :: S) T (forall_mem_cons.mpr ⟨ha, hS⟩) hT
  | met S T x hS hT hx hx' => exact .met (a :: S) T x (forall_mem_cons.mpr ⟨ha, hS⟩) hT hx hx'
  | apart S M T x y hS hT hx hy =>
    exact .apart (a :: S) M T x y (forall_mem_cons.mpr ⟨ha, hS⟩) hT hx hy

theorem Ends.concat (h : Ends P Q l) (ha : Q a) : Ends P Q (l ++ [a]) := by
  have hall : ∀ T : List α, (∀ a ∈ T, Q a) → ∀ b ∈ T ++ [a], Q b := fun T hT =>
    forall_mem_append.mpr ⟨hT, by simpa using ha⟩
  cases h with
  | crossed S T hS hT => simpa using Ends.crossed S (T ++ [a]) hS (hall T hT)
  | met S T x hS hT hx hx' => simpa using Ends.met S (T ++ [a]) x hS (hall T hT) hx hx'
  | apart S M T x y hS hT hx hy =>
    simpa using Ends.apart S M (T ++ [a]) x y hS (hall T hT) hx hy

/-- The cursors stop somewhere. -/
theorem ends (P Q : α → Prop) (l : List α) : Ends P Q l := by
  induction l with
  | nil => exact .crossed [] [] (by simp) (by simp)
  | cons x l ih =>
    by_cases hx : P x
    · exact ih.cons hx
    · clear ih
      -- The first cursor stays; the rest of the list is passed from its end.
      induction l using List.reverseRecOn with
      | nil =>
        by_cases hx' : Q x
        · exact .crossed [] [x] (by simp) (by simpa using hx')
        · exact .met [] [] x (by simp) (by simp) hx hx'
      | append_singleton l y ih =>
        by_cases hy : Q y
        · exact ih.concat hy
        · exact .apart [] l [] x y (by simp) (by simp) hx hy

end Ends

end Comparison

/-!
## Lexicographic comparison by a common part

A comparison of a given number of elements ends with the first that differ. Of two lists none of
which begins with the other it finds the lexicographic order; of any two it does so once the
lengths decide between lists that agree as far as the shorter one goes.
-/

universe v

namespace Comparison

open Std

variable {α : Type u} {β : Type v} {cmp : α → α → Ordering} {l m x y : List α}

/-- The sign of a result. -/
def sign : Ordering → Int
  | .lt => -1
  | .eq => 0
  | .gt => 1

@[simp] theorem sign_eq_zero {o : Ordering} : sign o = 0 ↔ o = .eq := by
  cases o <;> decide

theorem sign_nonpos {o : Ordering} : sign o ≤ 0 ↔ o.isLE := by
  cases o <;> decide

theorem sign_swap (o : Ordering) : sign o.swap = -sign o := by
  cases o <;> rfl

/-- The signs of a total preorder of what is read from elements. -/
theorem isComparisonOn_sign [TransCmp cmp] (f : β → α) (s : Set β) :
    IsComparisonOn (fun a b => sign (cmp (f a) (f b))) s where
  unit a _ b _ := by
    cases cmp (f a) (f b)
    · exact .inl rfl
    · exact .inr (.inl rfl)
    · exact .inr (.inr rfl)
  swap a _ b _ := by
    have hswap : cmp (f b) (f a) = (cmp (f a) (f b)).swap := OrientedCmp.eq_swap
    rw [hswap, sign_swap]
  trans a _ b _ c _ hab hbc := by
    rw [sign_nonpos] at hab hbc ⊢
    exact TransCmp.isLE_trans hab hbc

/-- The first difference among so many elements; `none` if one list ends before it. -/
def firstDifference (cmp : α → α → Ordering) : Nat → List α → List α → Option Ordering
  | 0, _, _ => some .eq
  | n + 1, a :: l, b :: m =>
    if cmp a b = .eq then firstDifference cmp n l m else some (cmp a b)
  | _ + 1, _, _ => none

theorem firstDifference_cons_eq {n : Nat} {a b : α} (h : cmp a b = .eq) :
    firstDifference cmp (n + 1) (a :: l) (b :: m) = firstDifference cmp n l m :=
  if_pos h

theorem firstDifference_cons_ne {n : Nat} {a b : α} (h : cmp a b ≠ .eq) :
    firstDifference cmp (n + 1) (a :: l) (b :: m) = some (cmp a b) :=
  if_neg h

/-- Among the elements of a list and those of one that begins with it there is no difference. -/
theorem firstDifference_prefix [ReflCmp cmp] (h : l <+: m) :
    firstDifference cmp l.length (l ++ x) (m ++ y) = some .eq := by
  induction l generalizing m with
  | nil => rfl
  | cons a l ih =>
    obtain ⟨m, rfl, hbegins⟩ := cons_prefix_iff.mp h
    rw [length_cons, cons_append, cons_append,
      firstDifference_cons_eq ReflCmp.compare_self]
    exact ih hbegins

/-- Lists none of which begins with the other are in the order of the first difference. -/
theorem firstDifference_apart [LawfulEqCmp cmp] (hl : ¬ l <+: m) (hm : ¬ m <+: l) :
    firstDifference cmp l.length (l ++ x) (m ++ y) = some (List.compareLex cmp l m) := by
  induction l generalizing m with
  | nil => exact absurd List.nil_prefix hl
  | cons a l ih =>
    cases m with
    | nil => exact absurd List.nil_prefix hm
    | cons b m =>
      rw [List.length_cons, List.cons_append, List.cons_append, List.compareLex_cons_cons]
      by_cases hab : cmp a b = .eq
      · obtain rfl : a = b := LawfulEqCmp.eq_of_compare hab
        rw [firstDifference_cons_eq hab, hab, Ordering.eq_then]
        apply ih
        · exact fun h => hl (List.prefix_cons_inj a |>.mpr h)
        · exact fun h => hm (List.prefix_cons_inj a |>.mpr h)
      · rw [firstDifference_cons_ne hab]
        cases h : cmp a b with
        | eq => exact absurd h hab
        | lt => rfl
        | gt => rfl

/-- Lists are in the order of the first difference before one of them ends, and in that of their
lengths if there is none. -/
theorem compareLex_eq_firstDifference (cmp : α → α → Ordering) (l m : List α) :
    ∃ o, firstDifference cmp (min l.length m.length) l m = some o ∧
      List.compareLex cmp l m = o.then (compare l.length m.length) := by
  induction l generalizing m with
  | nil =>
    refine ⟨.eq, by rw [List.length_nil, Nat.zero_min]; rfl, ?_⟩
    cases m with
    | nil => rfl
    | cons b m => exact (Nat.compare_eq_lt.mpr (Nat.succ_pos m.length)).symm
  | cons a l ih =>
    cases m with
    | nil =>
      refine ⟨.eq, by rw [List.length_nil, Nat.min_zero]; rfl, ?_⟩
      exact (Nat.compare_eq_gt.mpr (Nat.succ_pos l.length)).symm
    | cons b m =>
      rw [List.length_cons, List.length_cons, Nat.add_min_add_right, List.compareLex_cons_cons]
      by_cases hab : cmp a b = .eq
      · obtain ⟨o, ho, hlex⟩ := ih m
        refine ⟨o, (firstDifference_cons_eq hab).trans ho, ?_⟩
        have hsucc : compare (l.length + 1) (m.length + 1) = compare l.length m.length := by
          rw [Nat.compare_eq_ite_lt, Nat.compare_eq_ite_lt]
          simp only [Nat.add_lt_add_iff_right]
        rw [hab, hlex, Ordering.eq_then, hsucc]
      · refine ⟨cmp a b, firstDifference_cons_ne hab, ?_⟩
        cases h : cmp a b with
        | eq => exact absurd h hab
        | lt => rfl
        | gt => rfl

end Comparison
