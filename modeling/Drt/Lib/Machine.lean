import Mathlib.Tactic.Common

/-!
# Labelled machines

A system of threads is a set of initial states and a partial step function whose
label says which thread moves and how the environment answers. A run is a list
of labels; a guard on the steps says which runs a result is about. Everything
that holds of the states of such runs comes from the one induction made here.
-/

universe u v w x

/-- Initial states and labelled steps. -/
structure Machine (σ : Type u) (α : Type v) where
  /-- The states a run may start in. -/
  init : σ → Prop
  /-- The step a label makes, if it is enabled. -/
  step : σ → α → Option σ

namespace Machine

variable {σ : Type u} {α : Type v} {τ : Type w} {β : Type x}
variable {m : Machine σ α} {good : σ → α → Prop}

/-- A run each of whose steps satisfies `good` in the state before it. -/
inductive Run (m : Machine σ α) (good : σ → α → Prop) (s : σ) : List α → σ → Prop where
  | nil : Run m good s [] s
  | snoc {as : List α} {t u : σ} {a : α} (run : Run m good s as t) (guard : good t a)
      (step : m.step t a = some u) : Run m good s (as ++ [a]) u

/-- The states of the runs whose steps all satisfy `good`. -/
def ReachableWith (m : Machine σ α) (good : σ → α → Prop) (t : σ) : Prop :=
  ∃ s as, m.init s ∧ m.Run good s as t

/-- The states of all runs. -/
def Reachable (m : Machine σ α) (t : σ) : Prop :=
  m.ReachableWith (fun _ _ => True) t

variable {s t u : σ} {as : List α}

theorem Run.weaken {good' : σ → α → Prop} (weaker : ∀ s a, good s a → good' s a)
    (h : m.Run good s as t) : m.Run good' s as t := by
  induction h with
  | nil => exact .nil
  | snoc _ guard step ih => exact .snoc ih (weaker _ _ guard) step

theorem Run.append {bs : List α} (h : m.Run good s as t) (h' : m.Run good t bs u) :
    m.Run good s (as ++ bs) u := by
  induction h' with
  | nil => simpa using h
  | snoc _ guard step ih => simpa using Run.snoc ih guard step

theorem Run.single {a : α} (guard : good s a) (step : m.step s a = some t) : m.Run good s [a] t :=
  .snoc .nil guard step

theorem ReachableWith.init (hs : m.init s) : m.ReachableWith good s :=
  ⟨s, [], hs, .nil⟩

theorem ReachableWith.next {a : α} (h : m.ReachableWith good t) (guard : good t a)
    (step : m.step t a = some u) : m.ReachableWith good u := by
  obtain ⟨s, as, hs, run⟩ := h
  exact ⟨s, as ++ [a], hs, run.snoc guard step⟩

theorem ReachableWith.run (h : m.ReachableWith good t) (run : m.Run good t as u) :
    m.ReachableWith good u := by
  obtain ⟨s, as', hs, run'⟩ := h
  exact ⟨s, as' ++ as, hs, run'.append run⟩

theorem Run.invariant (inv : σ → Prop) (h : m.Run good s as t) (start : inv s)
    (preserved : ∀ s a t, inv s → good s a → m.step s a = some t → inv t) : inv t := by
  induction h with
  | nil => exact start
  | snoc _ guard step ih => exact preserved _ _ _ ih guard step

/-- If the good steps are steps of another machine as long as an invariant holds, so are the runs
of them. -/
theorem Run.transfer {n : Machine σ α} (inv : σ → Prop) (h : m.Run good s as t) (start : inv s)
    (preserved : ∀ s a t, inv s → good s a → m.step s a = some t → inv t)
    (same : ∀ s a t, inv s → good s a → m.step s a = some t → n.step s a = some t) :
    n.Run (fun _ _ => True) s as t := by
  induction h with
  | nil => exact .nil
  | snoc run guard step ih =>
    exact ih.snoc trivial (same _ _ _ (run.invariant inv start preserved) guard step)

theorem ReachableWith.invariant (inv : σ → Prop) (h : m.ReachableWith good t)
    (start : ∀ s, m.init s → inv s)
    (preserved : ∀ s a t, inv s → good s a → m.step s a = some t → inv t) : inv t := by
  obtain ⟨s, as, hs, run⟩ := h
  exact run.invariant inv (start s hs) preserved

theorem Reachable.invariant (inv : σ → Prop) (h : m.Reachable t) (start : ∀ s, m.init s → inv s)
    (preserved : ∀ s a t, inv s → m.step s a = some t → inv t) : inv t :=
  ReachableWith.invariant inv h start fun s a t hs _ => preserved s a t hs

/-- A projection under which every step is a run maps runs to runs. -/
theorem ReachableWith.simulation {n : Machine τ β} {f : σ → τ} (h : m.ReachableWith good t)
    (start : ∀ s, m.init s → n.init (f s))
    (preserved : ∀ s a t, m.step s a = some t → ∃ bs, n.Run (fun _ _ => True) (f s) bs (f t)) :
    n.Reachable (f t) := by
  refine h.invariant (fun s => n.Reachable (f s)) ?_ ?_
  · intro s hs
    exact ReachableWith.init (start s hs)
  · intro s a t hs _ step
    obtain ⟨bs, run⟩ := preserved s a t step
    exact ReachableWith.run hs run

/-- Execute a list of labels. -/
def execute (m : Machine σ α) (s : σ) : List α → Option σ
  | [] => some s
  | a :: as =>
    match m.step s a with
    | none => none
    | some t => m.execute t as

theorem execute_append (s : σ) (as bs : List α) :
    m.execute s (as ++ bs) = (m.execute s as).bind fun t => m.execute t bs := by
  induction as generalizing s with
  | nil => rfl
  | cons a as ih =>
    rw [List.cons_append, execute, execute]
    cases m.step s a with
    | none => rfl
    | some t => exact ih t

theorem run_of_execute (h : m.execute s as = some t) : m.Run (fun _ _ => True) s as t := by
  induction as generalizing s with
  | nil =>
    obtain rfl : s = t := by simpa [execute] using h
    exact .nil
  | cons a as ih =>
    unfold execute at h
    cases hstep : m.step s a with
    | none => simp [hstep] at h
    | some u =>
      simp only [hstep] at h
      exact (Run.single trivial hstep).append (ih h)

theorem execute_of_run (h : m.Run good s as t) : m.execute s as = some t := by
  induction h with
  | nil => rfl
  | snoc _ _ step ih =>
    rw [execute_append, ih, Option.bind_some]
    simp [execute, step]

/-- `execute` with the guard checked at every step. -/
def executeWith (m : Machine σ α) (good : σ → α → Prop) [∀ s a, Decidable (good s a)] (s : σ) :
    List α → Option σ
  | [] => some s
  | a :: as =>
    if good s a then
      match m.step s a with
      | none => none
      | some t => m.executeWith good t as
    else none

theorem run_of_executeWith [∀ s a, Decidable (good s a)] (h : m.executeWith good s as = some t) :
    m.Run good s as t := by
  induction as generalizing s with
  | nil =>
    obtain rfl : s = t := by simpa [executeWith] using h
    exact .nil
  | cons a as ih =>
    unfold executeWith at h
    by_cases guard : good s a
    · cases hstep : m.step s a with
      | none => simp [guard, hstep] at h
      | some u =>
        simp only [guard, hstep, if_true] at h
        exact (Run.single guard hstep).append (ih h)
    · simp [guard] at h

end Machine
