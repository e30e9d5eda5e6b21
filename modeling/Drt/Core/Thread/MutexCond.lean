import Mathlib.Tactic.Common

/-!
# Sections under a MutexCond

Shared fields are touched only between `lock` and `unlock` or `wait` of their
`MutexCond`, so such a section is one step. A thread in `wait` may go on without
a signal: `signal` and `broadcast` add no run, and a section only reports them.
-/

namespace Drt

/-- What a section does to the threads asleep on the condition. -/
inductive Notify where
  | quiet
  | signal
  | broadcast
  deriving DecidableEq, Repr

/-- How a section ends. -/
inductive Turn (α : Type) where
  /-- The lock is released and the function returns. -/
  | leave (result : α)
  /-- The thread sleeps in `wait` and then starts the loop around it again. -/
  | sleep
  deriving DecidableEq, Repr

end Drt
