import Mathlib.Tactic.Common

/-!
# Outcomes of low-level code

A run of pointer-level code returns a value, raises an exception, commits an
access its language leaves undefined, or is cut off before it is done. The four
cases are kept apart, so that "returns" and "never touches foreign memory" are
separate statements about one and the same run.
-/

universe u v

/-- The end of a run. -/
inductive Outcome (ε : Type v) (α : Type u) where
  /-- The code returned. -/
  | ok (a : α)
  /-- The code raised an exception. -/
  | raise (e : ε)
  /-- The code touched memory outside a live object, or failed an assertion. -/
  | fault
  /-- The bound on loop passes was used up first. -/
  | outOfFuel
  deriving DecidableEq, Repr

namespace Outcome

variable {ε : Type v} {α β γ : Type u}

/-- Sequencing stops at the first run that does not return. -/
protected def bind (x : Outcome ε α) (f : α → Outcome ε β) : Outcome ε β :=
  match x with
  | ok a => f a
  | raise e => raise e
  | fault => fault
  | outOfFuel => outOfFuel

instance : Monad (Outcome ε) where
  pure := ok
  bind := Outcome.bind

@[simp] theorem pure_eq (a : α) : (pure a : Outcome ε α) = ok a := rfl

@[simp] theorem ok_bind (a : α) (f : α → Outcome ε β) : (ok a >>= f) = f a := rfl

@[simp] theorem raise_bind (e : ε) (f : α → Outcome ε β) :
    ((raise e : Outcome ε α) >>= f) = raise e := rfl

@[simp] theorem fault_bind (f : α → Outcome ε β) :
    ((fault : Outcome ε α) >>= f) = fault := rfl

@[simp] theorem outOfFuel_bind (f : α → Outcome ε β) :
    ((outOfFuel : Outcome ε α) >>= f) = outOfFuel := rfl

theorem bind_eq_ok {x : Outcome ε α} {f : α → Outcome ε β} {b : β} :
    (x >>= f) = ok b ↔ ∃ a, x = ok a ∧ f a = ok b := by
  cases x <;> simp

theorem bind_assoc (x : Outcome ε α) (f : α → Outcome ε β) (g : β → Outcome ε γ) :
    ((x >>= f) >>= g) = (x >>= fun a => f a >>= g) := by
  cases x <;> rfl

theorem ite_bind {p : Prop} [Decidable p] (x y : Outcome ε α) (f : α → Outcome ε β) :
    ((if p then x else y) >>= f) = if p then x >>= f else y >>= f := by
  split <;> rfl

theorem ok_ite {p : Prop} [Decidable p] (a b : α) (c : β) :
    (ok (if p then a else b, c) : Outcome ε (α × β)) = if p then ok (a, c) else ok (b, c) := by
  split <;> rfl

/-- Read an optional cell; an absent one is a fault. -/
def ofOption : Option α → Outcome ε α
  | some a => ok a
  | none => fault

@[simp] theorem ofOption_some (a : α) : (ofOption (some a) : Outcome ε α) = ok a := rfl

@[simp] theorem ofOption_none : (ofOption none : Outcome ε α) = fault := rfl

/-- The result of a run, or another value where it does not return. -/
def getD (x : Outcome ε α) (a : α) : α :=
  match x with
  | ok a => a
  | _ => a

end Outcome

/-!
## Two runs side by side

Runs of one piece of code from two states that it cannot tell apart end in the same
way. `Alike` relates the ends of two such runs; sequencing keeps it.
-/

namespace Outcome

variable {ε ε' : Type v} {α α' β β' : Type u}

/-- Two runs that end in the same way, with related results and related exceptions. -/
inductive Alike (E : ε → ε' → Prop) (R : α → α' → Prop) : Outcome ε α → Outcome ε' α' → Prop
  | ok {a : α} {a' : α'} (h : R a a') : Alike E R (.ok a) (.ok a')
  | raise {e : ε} {e' : ε'} (h : E e e') : Alike E R (.raise e) (.raise e')
  | fault : Alike E R .fault .fault
  | outOfFuel : Alike E R .outOfFuel .outOfFuel

namespace Alike

variable {E : ε → ε' → Prop} {R : α → α' → Prop} {S : β → β' → Prop} {x : Outcome ε α}
  {x' : Outcome ε' α'}

/-- What follows alike runs is alike when it is on related results. -/
theorem bind {f : α → Outcome ε β} {f' : α' → Outcome ε' β'} (h : Alike E R x x')
    (hf : ∀ a a', R a a' → Alike E S (f a) (f' a')) : Alike E S (x >>= f) (x' >>= f') := by
  cases h with
  | ok h => exact hf _ _ h
  | raise h => exact .raise h
  | fault => exact .fault
  | outOfFuel => exact .outOfFuel

end Alike

end Outcome
