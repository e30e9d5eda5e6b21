import Drt.Lib.Outcome

/-!
# Code that keeps its state after an exception

An object whose method raises an exception is still there and may be used again. Here the
state is kept whatever becomes of the call.
-/

universe u v w

/-- Code that works on a state, and the state after it. -/
def Keeping (σ : Type w) (ε : Type v) (α : Type u) : Type (max u v w) :=
  σ → Outcome ε α × σ

namespace Keeping

variable {σ : Type u} {ε : Type v} {α β : Type u} {s s' : σ} {inv : σ → Prop}

/-- One after the other, as long as there is a result. -/
protected def bind (x : Keeping σ ε α) (f : α → Keeping σ ε β) : Keeping σ ε β := fun s =>
  match x s with
  | (.ok a, s') => f a s'
  | (.raise e, s') => (.raise e, s')
  | (.fault, s') => (.fault, s')
  | (.outOfFuel, s') => (.outOfFuel, s')

instance : Monad (Keeping σ ε) where
  pure a s := (.ok a, s)
  bind := Keeping.bind

/-- An exception. -/
def throw (e : ε) : Keeping σ ε α := fun s => (.raise e, s)

/-- What is undefined. -/
def fault : Keeping σ ε α := fun s => (.fault, s)

/-- The bound on loop passes is used up. -/
def outOfFuel : Keeping σ ε α := fun s => (.outOfFuel, s)

/-- A function that leaves the state as it was when it raises an exception. -/
def lift (f : σ → Outcome ε (α × σ)) : Keeping σ ε α := fun s =>
  match f s with
  | .ok (a, s') => (.ok a, s')
  | .raise e => (.raise e, s)
  | .fault => (.fault, s)
  | .outOfFuel => (.outOfFuel, s)

/-- What is known already. -/
def ofOutcome (r : Outcome ε α) : Keeping σ ε α := fun s => (r, s)

/-- The result of code, and the state as it was before. Without a result, the code itself. -/
def look (x : Keeping σ ε α) : Keeping σ ε α := fun s =>
  match x s with
  | (.ok a, _) => (.ok a, s)
  | (.raise e, s') => (.raise e, s')
  | (.fault, s') => (.fault, s')
  | (.outOfFuel, s') => (.outOfFuel, s')

/-- The result, and the state after it if there is one. -/
def toOutcome (x : Keeping σ ε α) (s : σ) : Outcome ε (α × σ) :=
  match x s with
  | (.ok a, s') => .ok (a, s')
  | (.raise e, _) => .raise e
  | (.fault, _) => .fault
  | (.outOfFuel, _) => .outOfFuel

@[simp] theorem toOutcome_pure (a : α) (s : σ) :
    toOutcome (pure a : Keeping σ ε α) s = .ok (a, s) := rfl

@[simp] theorem toOutcome_throw (e : ε) (s : σ) :
    toOutcome (throw e : Keeping σ ε α) s = .raise e := rfl

@[simp] theorem toOutcome_lift (f : σ → Outcome ε (α × σ)) (s : σ) :
    toOutcome (lift f) s = f s := by
  unfold toOutcome lift
  cases f s with
  | ok r => rfl
  | _ => rfl

@[simp] theorem toOutcome_ofOutcome (r : Outcome ε α) (s : σ) :
    toOutcome (ofOutcome r) s = r >>= fun a => .ok (a, s) := by
  unfold toOutcome ofOutcome
  cases r with
  | ok a => rfl
  | _ => rfl

@[simp] theorem toOutcome_bind (x : Keeping σ ε α) (f : α → Keeping σ ε β) (s : σ) :
    toOutcome (x >>= f) s = toOutcome x s >>= fun r => toOutcome (f r.1) r.2 := by
  change toOutcome (Keeping.bind x f) s = _
  unfold toOutcome Keeping.bind
  rcases x s with ⟨_ | _ | _ | _, s'⟩ <;> rfl

@[simp] theorem toOutcome_ite {p : Prop} [Decidable p] (x y : Keeping σ ε α) (s : σ) :
    toOutcome (if p then x else y) s = if p then toOutcome x s else toOutcome y s := by
  split <;> rfl

variable {x y : Keeping σ ε α} {f : α → Keeping σ ε β}

theorem bind_ok {a : α} (h : x s = (.ok a, s')) : (x >>= f) s = f a s' := by
  change Keeping.bind x f s = _
  unfold Keeping.bind
  rw [h]

theorem bind_raise {e : ε} (h : x s = (.raise e, s')) : (x >>= f) s = (.raise e, s') := by
  change Keeping.bind x f s = _
  unfold Keeping.bind
  rw [h]

theorem bind_fault (h : x s = (.fault, s')) : (x >>= f) s = (.fault, s') := by
  change Keeping.bind x f s = _
  unfold Keeping.bind
  rw [h]

theorem bind_outOfFuel (h : x s = (.outOfFuel, s')) : (x >>= f) s = (.outOfFuel, s') := by
  change Keeping.bind x f s = _
  unfold Keeping.bind
  rw [h]

theorem bind_bind {γ : Type u} (x : Keeping σ ε α) (f : α → Keeping σ ε β)
    (g : β → Keeping σ ε γ) : (x >>= f) >>= g = x >>= fun a => f a >>= g := by
  funext s
  change Keeping.bind (Keeping.bind x f) g s = Keeping.bind x (fun a => Keeping.bind (f a) g) s
  unfold Keeping.bind
  rcases x s with ⟨_ | _ | _ | _, s'⟩ <;> rfl

theorem bind_congr_at (h : x s = y s') : (x >>= f) s = (y >>= f) s' := by
  change Keeping.bind x f s = Keeping.bind y f s'
  unfold Keeping.bind
  rw [h]

theorem bind_congr_ok {g : α → Keeping σ ε β} (h : ∀ a s', x s = (.ok a, s') → f a s' = g a s') :
    (x >>= f) s = (x >>= g) s := by
  change Keeping.bind x f s = Keeping.bind x g s
  unfold Keeping.bind
  rcases hx : x s with ⟨a | e | _ | _, s'⟩
  · exact h a s' hx
  · rfl
  · rfl
  · rfl

theorem look_bind (x : Keeping σ ε α) (f : α → Keeping σ ε β) (s : σ) :
    (look x >>= f) s = (x >>= fun a _ => f a s) s := by
  change Keeping.bind (look x) f s = Keeping.bind x (fun a _ => f a s) s
  unfold Keeping.bind look
  rcases x s with ⟨_ | _ | _ | _, s'⟩ <;> rfl

/-- The code gives a result or raises an exception, and the invariant holds after it. -/
def Stays (inv : σ → Prop) (x : Keeping σ ε α) (s : σ) : Prop :=
  ∃ s', inv s' ∧ ((∃ a, x s = (.ok a, s')) ∨ ∃ e, x s = (.raise e, s'))

theorem stays_pure (hinv : inv s) (a : α) : (pure a : Keeping σ ε α).Stays inv s :=
  ⟨s, hinv, .inl ⟨a, rfl⟩⟩

theorem stays_throw (hinv : inv s) (e : ε) : (throw e : Keeping σ ε α).Stays inv s :=
  ⟨s, hinv, .inr ⟨e, rfl⟩⟩

theorem not_stays_of_fault (h : (x s).1 = .fault) : ¬ x.Stays inv s := by
  rintro ⟨s', -, ⟨a, hx⟩ | ⟨e, hx⟩⟩
  · rw [hx] at h
    cases h
  · rw [hx] at h
    cases h

theorem Stays.map (h : x.Stays inv s) (g : α → β) : (x >>= fun a => pure (g a)).Stays inv s := by
  obtain ⟨s', hinv, ⟨a, hx⟩ | ⟨e, hx⟩⟩ := h
  · exact ⟨s', hinv, .inl ⟨g a, bind_ok hx⟩⟩
  · exact ⟨s', hinv, .inr ⟨e, bind_raise hx⟩⟩

theorem stays_map (g : α → β) : (x >>= fun a => pure (g a)).Stays inv s ↔ x.Stays inv s := by
  refine ⟨?_, fun h => h.map g⟩
  rintro ⟨s', hinv, h⟩
  rcases hx : x s with ⟨a | e | _ | _, t⟩
  · obtain ⟨b, h⟩ | ⟨e, h⟩ := h
    · rw [bind_ok hx] at h
      cases h
      exact ⟨s', hinv, .inl ⟨a, hx⟩⟩
    · rw [bind_ok hx] at h
      cases h
  · obtain ⟨b, h⟩ | ⟨e', h⟩ := h
    · rw [bind_raise hx] at h
      cases h
    · rw [bind_raise hx] at h
      cases h
      exact ⟨s', hinv, .inr ⟨e, hx⟩⟩
  · rw [bind_fault hx] at h
    obtain ⟨b, h⟩ | ⟨e, h⟩ := h <;> cases h
  · rw [bind_outOfFuel hx] at h
    obtain ⟨b, h⟩ | ⟨e, h⟩ := h <;> cases h

/-- The code comes to an end, and the invariant holds after it unless it did something that is
undefined. -/
def Keeps (inv : σ → Prop) (x : Keeping σ ε α) (s : σ) : Prop := (x s).1 = .fault ∨ x.Stays inv s

theorem keeps_pure (hinv : inv s) (a : α) : (pure a : Keeping σ ε α).Keeps inv s :=
  .inr (stays_pure hinv a)

theorem keeps_throw (hinv : inv s) (e : ε) : (throw e : Keeping σ ε α).Keeps inv s :=
  .inr (stays_throw hinv e)

theorem keeps_ite {c : Prop} [Decidable c] (hx : c → x.Keeps inv s) (hy : ¬ c → y.Keeps inv s) :
    (if c then x else y).Keeps inv s := by
  by_cases h : c
  · rw [if_pos h]
    exact hx h
  · rw [if_neg h]
    exact hy h

/-- Behind a result, what comes next keeps the invariant or does not. -/
theorem keeps_bind_ok {a : α} (h : x s = (.ok a, s')) :
    (x >>= f).Keeps inv s ↔ (f a).Keeps inv s' := by
  unfold Keeps Stays
  rw [bind_ok h]

theorem Keeps.bind (hx : x.Keeps inv s)
    (hf : ∀ a s', x s = (.ok a, s') → inv s' → (f a).Keeps inv s') : (x >>= f).Keeps inv s := by
  obtain hfault | ⟨s', hinv, ⟨a, hx⟩ | ⟨e, hx⟩⟩ := hx
  · refine .inl ?_
    rw [bind_fault (Prod.ext hfault rfl)]
  · exact (keeps_bind_ok hx).mpr (hf a s' hx hinv)
  · exact .inr ⟨s', hinv, .inr ⟨e, bind_raise hx⟩⟩

end Keeping
