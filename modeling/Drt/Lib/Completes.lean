import Drt.Lib.Fuel

/-!
# Runs that end within bounds

Code over input that nobody has checked comes back or raises an exception; what it must
not do is go on for ever or leave its memory. `Completes run post` says so of a run, with
what holds of the result. The rules go through the code pass by pass.
-/

open Outcome

universe u v

namespace Outcome

variable {ε : Type v} {α β : Type u}

/-- Every large enough bound gives this exception. -/
def Raises (run : Nat → Outcome ε α) (e : ε) : Prop :=
  ∃ least, ∀ fuel, least ≤ fuel → run fuel = raise e

theorem Raises.not_returns {run : Nat → Outcome ε α} {e : ε} {a : α} (h : Raises run e) :
    ¬ Returns run a := by
  obtain ⟨least, hraise⟩ := h
  rintro ⟨least', hok⟩
  have hrun := hok (max least least') (by omega)
  rw [hraise _ (by omega)] at hrun
  cases hrun

/-- The code comes back with a result as described, or raises an exception. -/
def Completes (run : Nat → Outcome ε α) (post : α → Prop) : Prop :=
  (∃ a, Returns run a ∧ post a) ∨ ∃ e, Raises run e

namespace Completes

variable {run run' : Nat → Outcome ε α} {post post' : α → Prop} {a : α} {e : ε}

theorem of_returns (h : Returns run a) (ha : post a) : Completes run post := .inl ⟨a, h, ha⟩

theorem ok (ha : post a) : Completes (fun _ => (ok a : Outcome ε α)) post :=
  of_returns (Returns.ok a) ha

theorem raise (post : α → Prop) (e : ε) :
    Completes (fun _ => (raise e : Outcome ε α)) post :=
  .inr ⟨e, 0, fun _ _ => rfl⟩

theorem imp (h : Completes run post) (himp : ∀ a, post a → post' a) : Completes run post' := by
  obtain ⟨a, ha, hpost⟩ | ⟨e, he⟩ := h
  · exact .inl ⟨a, ha, himp a hpost⟩
  · exact .inr ⟨e, he⟩

theorem congr (h : Completes run post) (heq : ∀ fuel, run' fuel = run fuel) :
    Completes run' post := by
  obtain ⟨a, ha, hpost⟩ | ⟨e, least, he⟩ := h
  · exact .inl ⟨a, ha.congr heq, hpost⟩
  · exact .inr ⟨e, least, fun fuel hfuel => (heq fuel).trans (he fuel hfuel)⟩

/-- One pass of a loop: under one more, the run goes on as another one does. -/
theorem of_succ (h : Completes run' post) (hpass : ∀ fuel, run (fuel + 1) = run' fuel) :
    Completes run post := by
  obtain ⟨a, ha, hpost⟩ | ⟨e, least, he⟩ := h
  · exact .inl ⟨a, ha.of_succ hpass, hpost⟩
  · refine .inr ⟨e, least + 1, fun fuel hfuel => ?_⟩
    obtain ⟨fuel, rfl⟩ : ∃ n, fuel = n + 1 := ⟨fuel - 1, by omega⟩
    rw [hpass, he fuel (by omega)]

/-- What comes after a call has to end from every result of the call. -/
theorem bind {next : Nat → α → Outcome ε β} {post' : β → Prop} (h : Completes run post)
    (hnext : ∀ a, post a → Completes (fun fuel => next fuel a) post') :
    Completes (fun fuel => run fuel >>= next fuel) post' := by
  obtain ⟨a, ha, hpost⟩ | ⟨e, least, he⟩ := h
  · obtain ⟨b, hb, hpost'⟩ | ⟨e, least, he⟩ := hnext a hpost
    · exact .inl ⟨b, ha.bind hb, hpost'⟩
    · obtain ⟨least', hrun⟩ := ha
      refine .inr ⟨e, max least least', fun fuel hfuel => ?_⟩
      simp only [hrun fuel (by omega), ok_bind]
      exact he fuel (by omega)
  · refine .inr ⟨e, least, fun fuel hfuel => ?_⟩
    simp only [he fuel hfuel, raise_bind]

/-- Code that goes wrong under every large enough bound does not end well. -/
theorem not_of_fault (least : Nat) (h : ∀ fuel, least ≤ fuel → run fuel = fault) :
    ¬ Completes run post := by
  rintro (⟨a, ⟨least', ha⟩, -⟩ | ⟨e, least', he⟩)
  · have hrun := ha (max least least') (by omega)
    rw [h _ (by omega)] at hrun
    cases hrun
  · have hrun := he (max least least') (by omega)
    rw [h _ (by omega)] at hrun
    cases hrun

end Completes

/-- Every large enough bound gives this outcome, whichever it is. -/
def EndsAs (run : Nat → Outcome ε α) (x : Outcome ε α) : Prop :=
  ∃ least, ∀ fuel, least ≤ fuel → run fuel = x

namespace EndsAs

variable {run run' : Nat → Outcome ε α} {x : Outcome ε α} {a : α}

theorem returns_iff (h : EndsAs run x) : Returns run a ↔ x = ok a := by
  obtain ⟨least, hrun⟩ := h
  constructor
  · rintro ⟨least', hok⟩
    rw [← hrun (max least least') (by omega)]
    exact hok _ (by omega)
  · rintro rfl
    exact ⟨least, hrun⟩

theorem of_eq (h : ∀ fuel, run fuel = x) : EndsAs run x := ⟨0, fun fuel _ => h fuel⟩

/-- One pass of a loop: under one more, the run goes on as another one does. -/
theorem of_succ (h : EndsAs run' x) (hpass : ∀ fuel, run (fuel + 1) = run' fuel) :
    EndsAs run x := by
  obtain ⟨least, hrun⟩ := h
  refine ⟨least + 1, fun fuel hfuel => ?_⟩
  obtain ⟨fuel, rfl⟩ : ∃ n, fuel = n + 1 := ⟨fuel - 1, by omega⟩
  rw [hpass, hrun fuel (by omega)]

theorem of_succ_eq (hpass : ∀ fuel, run (fuel + 1) = x) : EndsAs run x :=
  of_succ (of_eq (fun _ => rfl) : EndsAs (fun _ => x) x) hpass

variable {next : Nat → α → Outcome ε β}

theorem of_returns {y : Outcome ε β} (h : Returns run a)
    (hnext : EndsAs (fun fuel => next fuel a) y) :
    EndsAs (fun fuel => run fuel >>= next fuel) y := by
  obtain ⟨least, hrun⟩ := h
  obtain ⟨least', hnext⟩ := hnext
  refine ⟨max least least', fun fuel hfuel => ?_⟩
  simp only [hrun fuel (by omega), ok_bind]
  exact hnext fuel (by omega)

theorem of_step (x : Outcome ε α) {y : α → Outcome ε β}
    (hnext : ∀ a, EndsAs (fun fuel => next fuel a) (y a)) :
    EndsAs (fun fuel => x >>= next fuel) (x >>= y) := by
  cases x with
  | ok a => exact hnext a
  | raise e | fault | outOfFuel => exact of_eq fun _ => rfl

theorem of_raise {e : ε} (h : EndsAs run (raise e)) :
    EndsAs (fun fuel => run fuel >>= next fuel) (raise e) := by
  obtain ⟨least, hrun⟩ := h
  refine ⟨least, fun fuel hfuel => ?_⟩
  simp only [hrun fuel hfuel, raise_bind]

theorem bind (h : EndsAs run x) (f : α → Outcome ε β) :
    EndsAs (fun fuel => run fuel >>= f) (x >>= f) := by
  obtain ⟨least, hrun⟩ := h
  refine ⟨least, fun fuel hfuel => ?_⟩
  simp only [hrun fuel hfuel]

end EndsAs

/-- Code without a bound comes back or raises an exception. -/
def Ends (x : Outcome ε α) : Prop := (∃ a, x = ok a) ∨ ∃ e, x = raise e

@[simp] theorem ends_ok (a : α) : (ok a : Outcome ε α).Ends := .inl ⟨a, rfl⟩

@[simp] theorem ends_raise (e : ε) : (raise e : Outcome ε α).Ends := .inr ⟨e, rfl⟩

@[simp] theorem not_ends_fault : ¬ (fault : Outcome ε α).Ends := by
  rintro (⟨a, ha⟩ | ⟨e, he⟩)
  · cases ha
  · cases he

@[simp] theorem not_ends_outOfFuel : ¬ (outOfFuel : Outcome ε α).Ends := by
  rintro (⟨a, ha⟩ | ⟨e, he⟩)
  · cases ha
  · cases he

/-- A sequence ends if its first part does, and what comes after each result of it. -/
theorem ends_bind_iff {x : Outcome ε α} {f : α → Outcome ε β} :
    (x >>= f).Ends ↔ x.Ends ∧ ∀ a, x = ok a → (f a).Ends := by
  cases x <;> simp

end Outcome

/-!
## Assertions about runs

`Yields run post` says that code comes back, and what holds of its result. A call is verified
with the assertion it establishes; what follows the call starts from there.
-/

namespace Outcome

variable {ε : Type v} {α β : Type u}

/-- The code comes back with a result as described. -/
def Yields (run : Nat → Outcome ε α) (post : α → Prop) : Prop := ∃ a, Returns run a ∧ post a

namespace Yields

variable {run run' : Nat → Outcome ε α} {post post' : α → Prop} {a : α}

theorem ok (ha : post a) : Yields (fun _ => (ok a : Outcome ε α)) post := ⟨a, .ok a, ha⟩

theorem of_eq {x : Outcome ε α} (h : x = Outcome.ok a) (ha : post a) : Yields (fun _ => x) post :=
  ⟨a, .of_eq fun _ => h, ha⟩

theorem imp (h : Yields run post) (himp : ∀ a, post a → post' a) : Yields run post' := by
  obtain ⟨a, ha, hpost⟩ := h
  exact ⟨a, ha, himp a hpost⟩

variable {next : Nat → α → Outcome ε β}

theorem bind {post' : β → Prop} (h : Yields run post)
    (hnext : ∀ a, post a → Yields (fun fuel => next fuel a) post') :
    Yields (fun fuel => run fuel >>= next fuel) post' := by
  obtain ⟨a, ha, hpost⟩ := h
  obtain ⟨b, hb, hpost'⟩ := hnext a hpost
  exact ⟨b, ha.bind hb, hpost'⟩

theorem bind_eq {x : Outcome ε α} {post' : β → Prop} (h : x = Outcome.ok a)
    (hnext : Yields (fun fuel => next fuel a) post') :
    Yields (fun fuel => x >>= next fuel) post' := by
  obtain ⟨b, hb, hpost'⟩ := hnext
  exact ⟨b, (Returns.of_eq fun _ => h).bind hb, hpost'⟩

theorem bind_returns {post' : β → Prop} (h : Returns run a)
    (hnext : Yields (fun fuel => next fuel a) post') :
    Yields (fun fuel => run fuel >>= next fuel) post' := by
  obtain ⟨b, hb, hpost'⟩ := hnext
  exact ⟨b, h.bind hb, hpost'⟩

theorem congr (h : Yields run post) (heq : ∀ fuel, run' fuel = run fuel) : Yields run' post := by
  obtain ⟨a, ha, hpost⟩ := h
  exact ⟨a, ha.congr heq, hpost⟩

/-- One pass of a loop: under one more, the run goes on as another one does. -/
theorem of_succ (h : Yields run' post) (hpass : ∀ fuel, run (fuel + 1) = run' fuel) :
    Yields run post := by
  obtain ⟨a, ha, hpost⟩ := h
  exact ⟨a, ha.of_succ hpass, hpost⟩

/-- What is established of the result holds of the one that comes back. -/
theorem of_returns (h : Yields run post) (hrun : Returns run a) : post a := by
  obtain ⟨b, hb, hpost⟩ := h
  exact hrun.unique hb ▸ hpost

end Yields

end Outcome
