import Drt.Lib.Outcome

/-!
# Runs under a bound

Code with loops is a family of runs, one for each bound on the passes of its loops.
`Returns run a` says that the code comes back with `a`: every large enough bound
gives this result. A call of such code is replaced by its result in what follows it.
-/

universe u v

namespace Outcome

variable {ε : Type v} {α β : Type u}

/-- Every large enough bound gives this result. -/
def Returns (run : Nat → Outcome ε α) (a : α) : Prop :=
  ∃ least, ∀ fuel, least ≤ fuel → run fuel = ok a

namespace Returns

variable {run run' : Nat → Outcome ε α} {a a' : α}

theorem ok (a : α) : Returns (fun _ => (Outcome.ok a : Outcome ε α)) a :=
  ⟨0, fun _ _ => rfl⟩

theorem of_eq (h : ∀ fuel, run fuel = Outcome.ok a) : Returns run a :=
  ⟨0, fun fuel _ => h fuel⟩

theorem congr (h : Returns run a) (heq : ∀ fuel, run' fuel = run fuel) : Returns run' a := by
  obtain ⟨least, hrun⟩ := h
  exact ⟨least, fun fuel hfuel => (heq fuel).trans (hrun fuel hfuel)⟩

theorem unique (h : Returns run a) (h' : Returns run a') : a = a' := by
  obtain ⟨least, hrun⟩ := h
  obtain ⟨least', hrun'⟩ := h'
  have heq := hrun (max least least') (by omega)
  rw [hrun' (max least least') (by omega)] at heq
  exact (Outcome.ok.inj heq).symm

/-- One pass of a loop: under one more, the run goes on as another one does. -/
theorem of_succ (h : Returns run' a) (hpass : ∀ fuel, run (fuel + 1) = run' fuel) :
    Returns run a := by
  obtain ⟨least, hrun⟩ := h
  refine ⟨least + 1, fun fuel hfuel => ?_⟩
  obtain ⟨fuel, rfl⟩ : ∃ n, fuel = n + 1 := ⟨fuel - 1, by omega⟩
  rw [hpass, hrun fuel (by omega)]

theorem succ (h : Returns run a) : Returns (fun fuel => run (fuel + 1)) a := by
  obtain ⟨least, hrun⟩ := h
  exact ⟨least, fun fuel hfuel => hrun (fuel + 1) (by omega)⟩

theorem congr_succ (h : Returns run a) (heq : ∀ fuel, run' (fuel + 1) = run (fuel + 1)) :
    Returns run' a := by
  obtain ⟨least, hrun⟩ := h
  refine ⟨least + 1, fun fuel hfuel => ?_⟩
  obtain ⟨fuel, rfl⟩ : ∃ n, fuel = n + 1 := ⟨fuel - 1, by omega⟩
  rw [heq, hrun (fuel + 1) (by omega)]

theorem of_succ_ok (hpass : ∀ fuel, run (fuel + 1) = Outcome.ok a) : Returns run a :=
  of_succ (ok a) hpass

theorem of_add (n : Nat) (h : ∀ fuel, run (fuel + n) = Outcome.ok a) : Returns run a :=
  ⟨n, fun fuel hfuel => by
    obtain ⟨k, rfl⟩ := Nat.exists_eq_add_of_le' hfuel
    exact h k⟩

variable {next : Nat → α → Outcome ε β} {b : β}

theorem bind (h : Returns run a) (hnext : Returns (fun fuel => next fuel a) b) :
    Returns (fun fuel => run fuel >>= next fuel) b := by
  obtain ⟨least, hrun⟩ := h
  obtain ⟨least', hnext⟩ := hnext
  refine ⟨max least least', fun fuel hfuel => ?_⟩
  simp only [hrun fuel (by omega), ok_bind]
  exact hnext fuel (by omega)

theorem pass {call : Nat → Outcome ε α} {run : Nat → Outcome ε β}
    (hpass : ∀ fuel, run (fuel + 1) = call fuel >>= next fuel) (hcall : Returns call a)
    (hnext : Returns (fun fuel => next fuel a) b) : Returns run b :=
  (hcall.bind hnext).of_succ hpass

theorem of_bind (h : Returns (fun fuel => run fuel >>= next fuel) b) (hrun : Returns run a) :
    Returns (fun fuel => next fuel a) b := by
  obtain ⟨least, hall⟩ := h
  obtain ⟨least', hrun⟩ := hrun
  refine ⟨max least least', fun fuel hfuel => ?_⟩
  have heq : (run fuel >>= next fuel) = Outcome.ok b := hall fuel (by omega)
  rwa [hrun fuel (by omega), ok_bind] at heq

/-- A run whose result is only wrapped returns when the whole does. -/
theorem of_map {f : α → β} (h : Returns (fun fuel => run fuel >>= fun a => Outcome.ok (f a)) b)
    (hf : ∀ a a', f a = f a' → a = a') : ∃ a, Returns run a := by
  obtain ⟨least, hall⟩ := h
  obtain ⟨a, _, ha⟩ := bind_eq_ok.mp (hall least (Nat.le_refl least))
  refine ⟨a, least, fun fuel hfuel => ?_⟩
  obtain ⟨a', hrun, ha'⟩ := bind_eq_ok.mp (hall fuel hfuel)
  have heq : f a' = f a := (Outcome.ok.inj ha').trans (Outcome.ok.inj ha).symm
  rw [hrun, hf a' a heq]

end Returns

/-- No large enough bound lets the code come back. -/
def Diverges (run : Nat → Outcome ε α) : Prop :=
  ∃ least, ∀ fuel, least ≤ fuel → ∀ a, run fuel ≠ ok a

namespace Diverges

variable {run run' : Nat → Outcome ε α} {a : α}

theorem of_ne (h : ∀ fuel a, run fuel ≠ Outcome.ok a) : Diverges run :=
  ⟨0, fun fuel _ => h fuel⟩

theorem not_returns (h : Diverges run) : ¬ Returns run a := by
  obtain ⟨least, hnot⟩ := h
  rintro ⟨least', hrun⟩
  exact hnot (max least least') (by omega) a (hrun (max least least') (by omega))

/-- One pass of a loop: under one more, the run goes on as another one does. -/
theorem of_succ (h : Diverges run') (hpass : ∀ fuel, run (fuel + 1) = run' fuel) :
    Diverges run := by
  obtain ⟨least, hnot⟩ := h
  refine ⟨least + 1, fun fuel hfuel a => ?_⟩
  obtain ⟨fuel, rfl⟩ : ∃ n, fuel = n + 1 := ⟨fuel - 1, by omega⟩
  rw [hpass]
  exact hnot fuel (by omega) a

theorem congr (h : Diverges run) (heq : ∀ fuel, run' fuel = run fuel) : Diverges run' := by
  obtain ⟨least, hnot⟩ := h
  exact ⟨least, fun fuel hfuel a => heq fuel ▸ hnot fuel hfuel a⟩

theorem congr_succ (h : Diverges run) (heq : ∀ fuel, run' (fuel + 1) = run (fuel + 1)) :
    Diverges run' := by
  obtain ⟨least, hnot⟩ := h
  refine ⟨least + 1, fun fuel hfuel a => ?_⟩
  obtain ⟨fuel, rfl⟩ : ∃ n, fuel = n + 1 := ⟨fuel - 1, by omega⟩
  rw [heq]
  exact hnot (fuel + 1) (by omega) a

theorem bind (h : Diverges run) (next : Nat → α → Outcome ε β) :
    Diverges fun fuel => run fuel >>= next fuel := by
  obtain ⟨least, hnot⟩ := h
  refine ⟨least, fun fuel hfuel b hb => ?_⟩
  obtain ⟨a, hrun, _⟩ := bind_eq_ok.mp hb
  exact hnot fuel hfuel a hrun

theorem after {next : Nat → α → Outcome ε β} (h : Returns run a)
    (hnext : Diverges fun fuel => next fuel a) : Diverges fun fuel => run fuel >>= next fuel := by
  obtain ⟨least, hrun⟩ := h
  obtain ⟨least', hnot⟩ := hnext
  refine ⟨max least least', fun fuel hfuel b => ?_⟩
  simp only [hrun fuel (by omega), ok_bind]
  exact hnot fuel (by omega) b

end Diverges

end Outcome
