import Mathlib.Data.List.Basic
import Mathlib.Data.Nat.Find

/-!
# Occurrences of one list in another

A pattern matches at a place of a text. Its occurrences are taken from the left, each one
behind the one before; some of them from the left are replaced.
-/

universe u

namespace List

variable {α : Type u} {what rep text text' text'' : List α} {n m p q : Nat}

/-- The pattern stands in the text from a place on. -/
def MatchesAt (what text : List α) (p : Nat) : Prop :=
  p + what.length ≤ text.length ∧ what <+: text.drop p

instance [DecidableEq α] (what text : List α) (p : Nat) : Decidable (MatchesAt what text p) :=
  inferInstanceAs (Decidable (_ ∧ _))

/-- The first place where the pattern matches. -/
def FirstAt (what text : List α) (p : Nat) : Prop :=
  MatchesAt what text p ∧ ∀ q < p, ¬ MatchesAt what text q

/-- The text has so many occurrences of the pattern. -/
inductive Occurs (what : List α) : Nat → List α → Prop where
  | none {text : List α} (absent : ∀ p, ¬ MatchesAt what text p) : Occurs what 0 text
  | next {n p : Nat} {text : List α} (first : FirstAt what text p)
      (behind : Occurs what n (text.drop (p + what.length))) : Occurs what (n + 1) text

/-- So many occurrences from the left are replaced. -/
inductive Replaces (what rep : List α) : Nat → List α → List α → Prop where
  | done (text : List α) : Replaces what rep 0 text text
  | next {n p : Nat} {text text' : List α} (first : FirstAt what text p)
      (behind : Replaces what rep n (text.drop (p + what.length)) text') :
      Replaces what rep (n + 1) text (text.take p ++ rep ++ text')

theorem matchesAt_iff : MatchesAt what text p ↔
    p + what.length ≤ text.length ∧ (text.drop p).take what.length = what := by
  rw [MatchesAt, prefix_iff_eq_take, eq_comm]

theorem MatchesAt.split (h : MatchesAt what text p) :
    text = text.take p ++ what ++ text.drop (p + what.length) := by
  obtain ⟨rest, hrest⟩ := h.2
  have hdrop : text.drop (p + what.length) = rest := by
    rw [← drop_drop, ← hrest, drop_left]
  rw [hdrop, append_assoc, hrest, take_append_drop]

theorem MatchesAt.append (h : MatchesAt what text p) (rest : List α) :
    MatchesAt what (text ++ rest) p := by
  refine ⟨Nat.le_trans h.1 (by simp), ?_⟩
  rw [drop_append_of_le_length (Nat.le_of_add_right_le h.1)]
  exact h.2.trans (prefix_append _ _)

theorem FirstAt.unique (h : FirstAt what text p) (h' : FirstAt what text q) : p = q := by
  by_contra hne
  rcases Nat.lt_or_gt_of_ne hne with hlt | hlt
  · exact h'.2 p hlt h.1
  · exact h.2 q hlt h'.1

theorem Occurs.unique (h : Occurs what n text) (h' : Occurs what m text) : n = m := by
  induction h generalizing m with
  | none absent =>
    cases h' with
    | none _ => rfl
    | next first _ => exact absurd first.1 (absent _)
  | next first behind ih =>
    cases h' with
    | none absent => exact absurd first.1 (absent _)
    | next first' behind' =>
      obtain rfl := first.unique first'
      rw [ih behind']

/-- The length changes with every occurrence that is replaced. -/
theorem Replaces.length (h : Replaces what rep n text text') :
    text'.length + n * what.length = text.length + n * rep.length := by
  induction h with
  | done text => rw [Nat.zero_mul, Nat.zero_mul]
  | @next n p text text' first behind ih =>
    have hbound := first.1.1
    rw [length_drop] at ih
    rw [length_append, length_append, length_take, Nat.min_eq_left (by omega), Nat.succ_mul,
      Nat.succ_mul]
    omega

end List
