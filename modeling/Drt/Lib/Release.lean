import Drt.Lib.Fuel
import Mathlib.Algebra.Order.BigOperators.Group.Finset

/-!
# Giving up references

Objects that hold references to each other live as long as somebody references them. An
object that loses its last reference is destroyed, and gives up those that it holds. What
dies with a reference is what is referenced by the dying only, so an unreferenced cycle
stays.
-/

open List Function

universe u v

/-- The live objects and their reference counters. -/
structure Counters (α : Type u) where
  live : Finset α
  refcnt : α → Nat

namespace Counters

variable {α : Type u} {ε : Type v} [DecidableEq α]

/-- One more reference. -/
def ref (s : Counters α) (a : α) : Counters α :=
  { s with refcnt := Function.update s.refcnt a (s.refcnt a + 1) }

/-- One more reference to each of these. -/
def refAll (s : Counters α) (refs : List α) : Counters α := refs.foldr (fun a s => s.ref a) s

/-- One reference fewer. -/
def drop (s : Counters α) (a : α) : Counters α :=
  { s with refcnt := Function.update s.refcnt a (s.refcnt a - 1) }

/-- A new object with one reference. -/
def create (s : Counters α) (a : α) : Counters α :=
  ⟨insert a s.live, Function.update s.refcnt a 1⟩

/-- An object has lost its last reference. -/
def bury (s : Counters α) (a : α) : Counters α :=
  ⟨s.live.erase a, Function.update s.refcnt a 0⟩

section

variable (s : Counters α)
include s

@[simp] theorem refcnt_ref (a b : α) :
    (s.ref a).refcnt b = s.refcnt b + if a = b then 1 else 0 := by
  by_cases h : b = a
  · subst h
    simp [ref]
  · simp [ref, h, Ne.symm h]

@[simp] theorem live_refAll (refs : List α) : (s.refAll refs).live = s.live := by
  induction refs with
  | nil => rfl
  | cons a refs ih => exact ih

@[simp] theorem refcnt_create_self (a : α) : (s.create a).refcnt a = 1 :=
  update_self ..

@[simp] theorem refcnt_drop_self (a : α) : (s.drop a).refcnt a = s.refcnt a - 1 :=
  update_self ..

@[simp] theorem refcnt_bury_self (a : α) : (s.bury a).refcnt a = 0 :=
  update_self ..

theorem refcnt_create_of_ne {a b : α} (h : b ≠ a) : (s.create a).refcnt b = s.refcnt b :=
  update_of_ne h ..

theorem refcnt_drop_of_ne {a b : α} (h : b ≠ a) : (s.drop a).refcnt b = s.refcnt b :=
  update_of_ne h ..

theorem refcnt_bury_of_ne {a b : α} (h : b ≠ a) : (s.bury a).refcnt b = s.refcnt b :=
  update_of_ne h ..

end

/-- Give up the pending references, one after the other. A destructor either returns the
references that its object holds, to be given up next, or stops the program. -/
def release (destroy : α → Outcome ε (List α)) :
    Nat → List α → Counters α → Outcome ε (Counters α)
  | _, [], s => .ok s
  | 0, _ :: _, _ => .outOfFuel
  | fuel + 1, a :: pending, s =>
    if a ∉ s.live then .fault
    else if s.refcnt a = 1 then
      destroy a >>= fun held => release destroy fuel (held ++ pending) (s.bury a)
    else release destroy fuel pending (s.drop a)

/-- Every live object counts its references: those in `refs`, and those that live objects
hold. -/
structure Counted (held : α → List α) (s : Counters α) (refs : List α) : Prop where
  count : ∀ a, s.refcnt a = refs.count a + ∑ b ∈ s.live, (held b).count a
  live_of_pos : ∀ a, 0 < s.refcnt a → a ∈ s.live
  pos_of_live : ∀ a ∈ s.live, 0 < s.refcnt a

/-- What dies when only the references in `kept` are left: nothing but dying objects
reference it. -/
inductive Dies (held : α → List α) (live : Finset α) (kept : List α) : α → Prop
  | intro {a : α} (hkept : a ∉ kept) (hheld : ∀ b ∈ live, a ∈ held b → Dies held live kept b) :
    Dies held live kept a

variable {held : α → List α} {s s' : Counters α} {refs pending kept : List α} {a b : α}

namespace Counted

theorem congr (h : Counted held s refs) {held' : α → List α}
    (heq : ∀ b ∈ s.live, held' b = held b) : Counted held' s refs := by
  refine ⟨fun a => ?_, h.live_of_pos, h.pos_of_live⟩
  rw [h.count a]
  congr 1
  exact Finset.sum_congr rfl fun b hb => by rw [heq b hb]

theorem perm (h : Counted held s refs) (hperm : refs.Perm kept) : Counted held s kept := by
  refine ⟨fun a => ?_, h.live_of_pos, h.pos_of_live⟩
  rw [h.count a, hperm.count_eq a]

theorem mem_live (h : Counted held s refs) (ha : a ∈ refs) : a ∈ s.live := by
  have hcount := h.count a
  have hpos := count_pos_iff.mpr ha
  exact h.live_of_pos a (by omega)

theorem count_held_le (held : α → List α) (hb : b ∈ s.live) (a : α) :
    (held b).count a ≤ ∑ b ∈ s.live, (held b).count a :=
  Finset.single_le_sum (f := fun b => (held b).count a) (fun _ _ => Nat.zero_le _) hb

section

variable (h : Counted held s refs)
include h

theorem refcnt_eq_zero (ha : a ∉ s.live) : s.refcnt a = 0 := by
  have hpos := mt (h.live_of_pos a) ha
  omega

/-- A live object that is not in `refs` is held by another one. -/
theorem exists_holder (ha : a ∈ s.live) (hrefs : a ∉ refs) : ∃ b ∈ s.live, a ∈ held b := by
  by_contra hnone
  have hzero : ∑ b ∈ s.live, (held b).count a = 0 :=
    Finset.sum_eq_zero fun b hb =>
      count_eq_zero.mpr fun hmem => hnone ⟨b, hb, hmem⟩
  have hcount := h.count a
  rw [hzero, count_eq_zero.mpr hrefs] at hcount
  have hpos := h.pos_of_live a ha
  omega

theorem create (ha : a ∉ s.live) (hempty : held a = []) :
    Counted held (s.create a) (a :: refs) := by
  have hzero := h.refcnt_eq_zero ha
  refine ⟨fun b => ?_, fun b hb => ?_, fun b hb => ?_⟩
  · have hcount := h.count b
    have hsum : ∑ x ∈ (s.create a).live, (held x).count b = ∑ x ∈ s.live, (held x).count b := by
      rw [Counters.create, Finset.sum_insert ha, hempty, count_nil, Nat.zero_add]
    rw [hsum]
    by_cases hba : b = a
    · subst hba
      rw [refcnt_create_self, count_cons_self]
      omega
    · rw [refcnt_create_of_ne s hba, count_cons_of_ne (Ne.symm hba)]
      exact hcount
  · by_cases hba : b = a
    · exact hba ▸ Finset.mem_insert_self b s.live
    · rw [refcnt_create_of_ne s hba] at hb
      exact Finset.mem_insert_of_mem (h.live_of_pos b hb)
  · by_cases hba : b = a
    · simp [Counters.create, hba]
    · rw [refcnt_create_of_ne s hba]
      exact h.pos_of_live b (Finset.mem_of_mem_insert_of_ne hb hba)

/-- Somebody keeps one more reference to a live object. -/
theorem ref (ha : a ∈ s.live) : Counted held (s.ref a) (a :: refs) := by
  refine ⟨fun b => ?_, fun b hb => ?_, fun b hb => ?_⟩
  · rw [refcnt_ref, h.count b, count_cons]
    simp only [Counters.ref, beq_iff_eq]
    omega
  · by_cases hba : b = a
    · exact hba ▸ ha
    · rw [refcnt_ref, if_neg (Ne.symm hba)] at hb
      exact h.live_of_pos b hb
  · have hpos := h.pos_of_live b hb
    rw [refcnt_ref]
    omega

theorem refAll (hlive : ∀ a ∈ pending, a ∈ s.live) :
    Counted held (s.refAll pending) (pending ++ refs) := by
  induction pending with
  | nil => exact h
  | cons a pending ih =>
    have hcounted := ih fun b hb => hlive b (mem_cons_of_mem a hb)
    refine hcounted.ref ?_
    rw [live_refAll]
    exact hlive a mem_cons_self

end

/-- A live object takes over references, and hands others out. -/
theorem exchange {taken given : List α} (h : Counted held s (taken ++ refs)) (hb : b ∈ s.live)
    {held' : α → List α} (hself : (taken ++ held b).Perm (held' b ++ given))
    (hother : ∀ x, x ≠ b → held' x = held x) : Counted held' s (given ++ refs) := by
  refine ⟨fun x => ?_, h.live_of_pos, h.pos_of_live⟩
  have hrest : ∑ y ∈ s.live.erase b, (held' y).count x = ∑ y ∈ s.live.erase b, (held y).count x :=
    Finset.sum_congr rfl fun y hy => by rw [hother y (Finset.ne_of_mem_erase hy)]
  have hsplit := Finset.add_sum_erase s.live (fun y => (held y).count x) hb
  have hsplit' := Finset.add_sum_erase s.live (fun y => (held' y).count x) hb
  have hcount := h.count x
  have hperm := hself.count_eq x
  simp only [count_append] at hcount hperm ⊢
  omega

section

variable (h : Counted held s (a :: refs))
include h

/-- A reference is given up that is not the last one. -/
theorem drop (hmany : s.refcnt a ≠ 1) : Counted held (s.drop a) refs := by
  have hlive := h.mem_live mem_cons_self
  refine ⟨fun b => ?_, fun b hb => ?_, fun b hb => ?_⟩
  · have hcount := h.count b
    by_cases hba : b = a
    · subst hba
      rw [count_cons_self] at hcount
      rw [refcnt_drop_self, hcount]
      simp only [Counters.drop]
      omega
    · rw [count_cons_of_ne (Ne.symm hba)] at hcount
      rw [refcnt_drop_of_ne s hba]
      exact hcount
  · by_cases hba : b = a
    · exact hba ▸ hlive
    · rw [refcnt_drop_of_ne s hba] at hb
      exact h.live_of_pos b hb
  · have hpos := h.pos_of_live b hb
    by_cases hba : b = a
    · subst hba
      rw [refcnt_drop_self]
      omega
    · rw [refcnt_drop_of_ne s hba]
      exact hpos

theorem alone (hlast : s.refcnt a = 1) : a ∉ refs ∧ ∀ b ∈ s.live, a ∉ held b := by
  have hcount := h.count a
  rw [count_cons_self] at hcount
  refine ⟨count_eq_zero.mp (by omega), fun b hb hmem => ?_⟩
  have hpos := count_pos_iff.mpr hmem
  have hle := count_held_le held hb a
  omega

/-- With the last reference the object is gone, and its own references are left to be given
up. -/
theorem bury (hlast : s.refcnt a = 1) : Counted held (s.bury a) (held a ++ refs) := by
  have hlive := h.mem_live mem_cons_self
  refine ⟨fun b => ?_, fun b hb => ?_, fun b hb => ?_⟩
  · have hcount := h.count b
    rw [← Finset.add_sum_erase _ _ hlive] at hcount
    rw [count_append]
    by_cases hba : b = a
    · subst hba
      rw [count_cons_self] at hcount
      rw [refcnt_bury_self]
      simp only [Counters.bury]
      omega
    · rw [count_cons_of_ne (Ne.symm hba)] at hcount
      rw [refcnt_bury_of_ne s hba]
      simp only [Counters.bury]
      omega
  · by_cases hba : b = a
    · simp [Counters.bury, hba] at hb
    · rw [refcnt_bury_of_ne s hba] at hb
      exact Finset.mem_erase.mpr ⟨hba, h.live_of_pos b hb⟩
  · obtain ⟨hba, hb⟩ := Finset.mem_erase.mp hb
    rw [refcnt_bury_of_ne s hba]
    exact h.pos_of_live b hb

end

/-- What has died with a reference: every reference it held is given up once. -/
theorem given_up (h : Counted held s (pending ++ refs)) (h' : Counted held s' refs)
    (hlive : s'.live ⊆ s.live) (a : α) :
    s'.refcnt a + (pending.count a + ∑ b ∈ s.live \ s'.live, (held b).count a) = s.refcnt a := by
  have hcount := h.count a
  have hcount' := h'.count a
  rw [count_append, ← Finset.sum_sdiff hlive] at hcount
  omega

end Counted

theorem Counted.dies (h : Counted held s (a :: pending ++ kept)) (hlast : s.refcnt a = 1) :
    Dies held s.live kept a := by
  obtain ⟨hrefs, hheld⟩ := h.alone hlast
  exact .intro (fun hmem => hrefs (mem_append_right pending hmem))
    fun b hb hmem => absurd hmem (hheld b hb)

theorem Dies.of_erase (ha : Dies held s.live kept a) (h : Dies held (s.live.erase a) kept b) :
    Dies held s.live kept b := by
  induction h with
  | intro hkept _ ih =>
    refine .intro hkept fun c hc hmem => ?_
    by_cases hca : c = a
    · exact hca ▸ ha
    · exact ih c (Finset.mem_erase.mpr ⟨hca, hc⟩) hmem

/-- Nothing that dies is left once all is counted without the pending references. -/
theorem Dies.not_live (h : Dies held s.live kept a) (hcounted : Counted held s' kept)
    (hlive : s'.live ⊆ s.live) : a ∉ s'.live := by
  induction h with
  | intro hkept _ ih =>
    intro hmem
    obtain ⟨b, hb, hholds⟩ := hcounted.exists_holder hmem hkept
    exact ih b (hlive hb) hholds hb

variable {destroy : α → Outcome ε (List α)}

/-- A larger bound changes nothing. -/
theorem release_mono {fuel fuel' : Nat} (hle : fuel ≤ fuel')
    (hrun : release destroy fuel pending s = .ok s') :
    release destroy fuel' pending s = .ok s' := by
  induction fuel generalizing fuel' pending s with
  | zero =>
    cases pending with
    | nil => simpa [release] using hrun
    | cons a pending => cases hrun
  | succ fuel ih =>
    cases pending with
    | nil => simpa [release] using hrun
    | cons a pending =>
      obtain ⟨fuel', rfl⟩ : ∃ n, fuel' = n + 1 := ⟨fuel' - 1, by omega⟩
      unfold release at hrun ⊢
      split at hrun
      · cases hrun
      · split at hrun
        · rw [if_neg ‹_›, if_pos ‹_›]
          obtain ⟨held, hdestroy, hrun⟩ := Outcome.bind_eq_ok.mp hrun
          rw [hdestroy, Outcome.ok_bind]
          exact ih (by omega) hrun
        · rw [if_neg ‹_›, if_neg ‹_›]
          exact ih (by omega) hrun

/-- What a release that returns has done: what is left is counted, and what is gone was
dying, and its destructor has returned. -/
theorem release_ok (hheld : ∀ a l, destroy a = .ok l → l = held a) {fuel : Nat}
    (h : Counted held s (pending ++ kept)) (hrun : release destroy fuel pending s = .ok s') :
    Counted held s' kept ∧ s'.live ⊆ s.live ∧
      ∀ b ∈ s.live, b ∉ s'.live → Dies held s.live kept b ∧ destroy b = .ok (held b) := by
  induction fuel generalizing pending s with
  | zero =>
    cases pending with
    | nil =>
      cases hrun
      exact ⟨h, Finset.Subset.refl _, fun b hb hgone => absurd hb hgone⟩
    | cons a pending => cases hrun
  | succ fuel ih =>
    cases pending with
    | nil =>
      cases hrun
      exact ⟨h, Finset.Subset.refl _, fun b hb hgone => absurd hb hgone⟩
    | cons a pending =>
      unfold release at hrun
      split at hrun
      · cases hrun
      · split at hrun
        · obtain ⟨l, hdestroy, hrun⟩ := Outcome.bind_eq_ok.mp hrun
          obtain rfl := hheld a l hdestroy
          have hcounted : Counted held (s.bury a) ((held a ++ pending) ++ kept) := by
            rw [append_assoc]
            exact h.bury ‹_›
          obtain ⟨hcounted', hlive, hgone⟩ := ih hcounted hrun
          refine ⟨hcounted', hlive.trans (Finset.erase_subset a s.live), fun b hb hnot => ?_⟩
          by_cases hba : b = a
          · subst hba
            exact ⟨h.dies ‹_›, hdestroy⟩
          · obtain ⟨hdies, hb'⟩ := hgone b (Finset.mem_erase.mpr ⟨hba, hb⟩) hnot
            exact ⟨Dies.of_erase (h.dies ‹_›) hdies, hb'⟩
        · have hcounted : Counted held (s.drop a) (pending ++ kept) := h.drop ‹_›
          exact ih (s := s.drop a) hcounted hrun

/-- The references that are still to be given up, at most. -/
def weight (held : α → List α) (s : Counters α) (pending : List α) : Nat :=
  pending.length + ∑ b ∈ s.live, (held b).length

theorem weight_bury (held : α → List α) (pending : List α) (ha : a ∈ s.live) :
    weight held (s.bury a) (held a ++ pending) + 1 = weight held s (a :: pending) := by
  unfold weight
  rw [length_append, length_cons, ← Finset.add_sum_erase _ _ ha]
  simp only [bury]
  omega

/-- A release returns if the destructors of all that dies do. -/
theorem exists_release
    (hdestroy : ∀ b ∈ s.live, Dies held s.live kept b → destroy b = .ok (held b)) {fuel : Nat}
    (h : Counted held s (pending ++ kept)) (hfuel : weight held s pending ≤ fuel) :
    ∃ s', release destroy fuel pending s = .ok s' := by
  induction fuel generalizing pending s with
  | zero =>
    cases pending with
    | nil => exact ⟨s, rfl⟩
    | cons a pending =>
      unfold weight at hfuel
      rw [length_cons] at hfuel
      omega
  | succ fuel ih =>
    cases pending with
    | nil => exact ⟨s, rfl⟩
    | cons a pending =>
      have hlive : a ∈ s.live := h.mem_live mem_cons_self
      unfold release
      rw [if_neg (not_not.mpr hlive)]
      by_cases hlast : s.refcnt a = 1
      · have hdies := h.dies hlast
        have hcounted : Counted held (s.bury a) ((held a ++ pending) ++ kept) := by
          rw [append_assoc]
          exact h.bury hlast
        rw [if_pos hlast, hdestroy a hlive hdies, Outcome.ok_bind]
        have hweight := weight_bury held pending hlive
        refine ih (fun b hb hdies' => ?_) hcounted (by omega)
        exact hdestroy b (Finset.mem_of_mem_erase hb) (hdies.of_erase hdies')
      · rw [if_neg hlast]
        have hcounted : Counted held (s.drop a) (pending ++ kept) := h.drop hlast
        refine ih (s := s.drop a) hdestroy hcounted ?_
        unfold weight at hfuel ⊢
        rw [length_cons] at hfuel
        simp only [drop]
        omega

/-- A release returns exactly if the destructors of all that dies do. -/
theorem release_returns_iff (hheld : ∀ a l, destroy a = .ok l → l = held a)
    (h : Counted held s (pending ++ kept)) :
    (∃ s', Outcome.Returns (fun fuel => release destroy fuel pending s) s') ↔
      ∀ b ∈ s.live, Dies held s.live kept b → destroy b = .ok (held b) := by
  constructor
  · rintro ⟨s', least, hrun⟩ b hb hdies
    obtain ⟨hcounted, hlive, hgone⟩ := release_ok hheld h (hrun least (Nat.le_refl least))
    exact (hgone b hb (hdies.not_live hcounted hlive)).2
  · intro hdestroy
    obtain ⟨s', hrun⟩ := exists_release hdestroy h (Nat.le_refl _)
    exact ⟨s', _, fun fuel hfuel => release_mono hfuel hrun⟩

theorem mem_live_of_release (hheld : ∀ a l, destroy a = .ok l → l = held a)
    (h : Counted held s (pending ++ kept))
    (hrun : Outcome.Returns (fun fuel => release destroy fuel pending s) s') :
    b ∈ s'.live ↔ b ∈ s.live ∧ ¬ Dies held s.live kept b := by
  obtain ⟨least, hrun⟩ := hrun
  obtain ⟨hcounted, hlive, hgone⟩ := release_ok hheld h (hrun least (Nat.le_refl least))
  constructor
  · exact fun hb => ⟨hlive hb, fun hdies => hdies.not_live hcounted hlive hb⟩
  · rintro ⟨hb, hnot⟩
    by_contra hb'
    exact hnot (hgone b hb hb').1

end Counters
