import Drt.Core.Atomic.LockpExclusion

/-!
# Waiting for a pointer lock

A thread waits for a word only under its mark, and who takes the mark away signals the
condition. Words with one condition share its signals: the signal of one may wake a
thread that waits for another, and nobody wakes the one it was meant for.
-/

open List Function Option

namespace Drt

open Lockp TagBits

/-- The word that a thread is about to lock, unlock or exchange. -/
def Lockp.Place.word : Place → Option UInt64
  | .outside => none
  | .i_lock ptr _ | .i_lockCas ptr _ _ | .lock ptr _ | .retry ptr _ _ | .lockCas ptr _ _ _
  | .mark ptr _ _ _ | .condLock ptr _ _ | .check ptr _ _ | .wait ptr _ | .waiting ptr _
  | .woken ptr _ | .condUnlock ptr _ _ | .unlock ptr _ _ | .wakeLock ptr | .wakeSignal ptr
  | .wakeUnlock ptr | .i_xchg ptr _ | .i_xchgCas ptr _ _ | .xchg ptr _ | .xchgCas ptr _ _ => some ptr

/-- The word a thread is blocked for. -/
def Lockp.Place.blocked : Place → Option UInt64
  | .waiting ptr _ => some ptr
  | _ => none

/-- The word a thread waits for under the lock of the condition, or is blocked for. -/
def Lockp.Place.parked : Place → Option UInt64
  | .wait ptr _ | .waiting ptr _ => some ptr
  | _ => none

/-- The word that a thread will lock or mark under the lock of the condition, or signal. -/
def Lockp.Place.attends : Place → Option UInt64
  | .retry ptr true _ | .lockCas ptr _ true _ | .mark ptr _ true _ | .check ptr _ _ | .woken ptr _
  | .wakeLock ptr | .wakeSignal ptr => some ptr
  | _ => none

/-- The word whose condition the thread has locked. -/
def Lockp.Place.condHeld : Place → Option UInt64
  | .retry ptr true _ | .lockCas ptr _ true _ | .mark ptr _ true _ | .check ptr _ _ | .wait ptr _
  | .condUnlock ptr _ _ | .wakeSignal ptr | .wakeUnlock ptr => some ptr
  | _ => none

namespace LockSystem

variable {memory : UInt64 → UInt64} {s t : LockSystem} {thread : Nat} {old new : Lockp.Thread}

/-- A signal wakes a thread that waits for the word it is for, if there is one. -/
def SignalsOwn (s : LockSystem) : Event → Prop
  | .signal thread (some sleeper) =>
    match s.threads[thread]? with
    | some ⟨.wakeSignal ptr, _⟩ =>
      (s.threads[sleeper]?.any fun u => u.place.blocked = some ptr) = true ∨
        (s.threads.any fun u => u.place.blocked = some ptr) = false
    | _ => True
  | _ => True

instance (s : LockSystem) (e : Event) : Decidable (s.SignalsOwn e) := by
  unfold SignalsOwn
  split
  · split
    · exact inferInstanceAs (Decidable (_ ∨ _))
    · exact isTrue trivial
  · exact isTrue trivial

/-- The mark of a waiting thread. -/
def Marked (val : UInt64) : Prop := val &&& 1 ≠ 0 ∧ val &&& 2 = 0

/-- Every thread that waits does so at a marked word, or somebody attends to it. -/
structure Attended (s : LockSystem) : Prop where
  conds : ∀ (i : Nat) u ptr, s.threads[i]? = some u → u.place.condHeld = some ptr →
    s.low_conds (accCond ptr) = some i
  attended : ∀ (i : Nat) u ptr, s.threads[i]? = some u → u.place.parked = some ptr →
    Marked (s.memory ptr) ∨
      ∃ (j : Nat) (v : Lockp.Thread), s.threads[j]? = some v ∧ v.place.attends = some ptr

/-- One thread moves, and with it perhaps a word and the condition it has locked. -/
theorem Attended.move (h : Attended s) (hget : s.threads[thread]? = some old)
    (hthreads : t.threads = s.threads.set thread new)
    (hcond : ∀ ptr, new.place.condHeld = some ptr → t.low_conds (accCond ptr) = some thread)
    (hconds : ∀ i k, i ≠ thread → s.low_conds k = some i → t.low_conds k = some i)
    (hmemory : ∀ ptr, Marked (s.memory ptr) →
      Marked (t.memory ptr) ∨ new.place.attends = some ptr)
    (hparks : ∀ ptr, new.place.parked = some ptr →
      old.place.parked = some ptr ∨ Marked (t.memory ptr))
    (hattends : ∀ ptr, old.place.attends = some ptr →
      new.place.attends = some ptr ∨ Marked (t.memory ptr)) : Attended t := by
  have hnew : t.threads[thread]? = some new := by
    rw [hthreads, List.getElem?_set_self (List.getElem?_eq_some_iff.mp hget).1]
  have hkeep : ∀ (i : Nat), i ≠ thread → t.threads[i]? = s.threads[i]? := by
    intro i hi
    rw [hthreads, List.getElem?_set_ne (Ne.symm hi)]
  -- somebody waited for this word before
  have hparked : ∀ (i : Nat) u ptr, s.threads[i]? = some u → u.place.parked = some ptr →
      Marked (t.memory ptr) ∨
        ∃ (j : Nat) (v : Lockp.Thread), t.threads[j]? = some v ∧ v.place.attends = some ptr := by
    intro i u ptr hu hptr
    rcases h.attended i u ptr hu hptr with hmarked | ⟨j, v, hv, hattend⟩
    · rcases hmemory ptr hmarked with hmarked' | hattend
      · exact .inl hmarked'
      · exact .inr ⟨thread, new, hnew, hattend⟩
    · by_cases hj : j = thread
      · subst hj
        obtain rfl : old = v := Option.some.inj (hget.symm.trans hv)
        rcases hattends ptr hattend with hattend' | hmarked
        · exact .inr ⟨j, new, hnew, hattend'⟩
        · exact .inl hmarked
      · exact .inr ⟨j, v, (hkeep j hj).trans hv, hattend⟩
  refine ⟨?_, ?_⟩
  · intro i u ptr hu hptr
    by_cases hi : i = thread
    · subst hi
      obtain rfl : new = u := Option.some.inj (hnew.symm.trans hu)
      exact hcond ptr hptr
    · rw [hkeep i hi] at hu
      exact hconds i _ hi (h.conds i u ptr hu hptr)
  · intro i u ptr hu hptr
    by_cases hi : i = thread
    · subst hi
      obtain rfl : new = u := Option.some.inj (hnew.symm.trans hu)
      rcases hparks ptr hptr with hold | hmarked
      · exact hparked i old ptr hget hold
      · exact .inl hmarked
    · rw [hkeep i hi] at hu
      exact hparked i u ptr hu hptr

/-- A step which locks no condition and unlocks none. -/
theorem Attended.stay (h : Attended s) (hget : s.threads[thread]? = some old)
    (hthreads : t.threads = s.threads.set thread new) (hlow : t.low_conds = s.low_conds)
    (hcond : ∀ ptr, new.place.condHeld = some ptr → old.place.condHeld = some ptr)
    (hmemory : ∀ ptr, Marked (s.memory ptr) →
      Marked (t.memory ptr) ∨ new.place.attends = some ptr)
    (hparks : ∀ ptr, new.place.parked = some ptr →
      old.place.parked = some ptr ∨ Marked (t.memory ptr))
    (hattends : ∀ ptr, old.place.attends = some ptr →
      new.place.attends = some ptr ∨ Marked (t.memory ptr)) : Attended t := by
  refine h.move hget hthreads ?_ ?_ hmemory hparks hattends
  · intro ptr hptr
    rw [hlow]
    exact h.conds thread old ptr hget (hcond ptr hptr)
  · intro i k _ hk
    rwa [hlow]

variable {place : Place} {newval ptr val : UInt64} {caller : Caller} {held : List UInt64}

/-- A thread goes on to a place where it attends to the same words. -/
theorem Attended.goto (h : Attended s) (hget : s.threads[thread]? = some old)
    (hcond : ∀ ptr, place.condHeld = some ptr → old.place.condHeld = some ptr)
    (hparks : ∀ ptr, place.parked = some ptr →
      old.place.parked = some ptr ∨ Marked (s.memory ptr))
    (hattends : ∀ ptr, old.place.attends = some ptr →
      place.attends = some ptr ∨ Marked (s.memory ptr)) : Attended (s.goto thread old place) :=
  h.stay hget rfl rfl hcond (fun _ => .inl) hparks hattends

/-- A thread locks the condition of a word. -/
theorem Attended.lockCond (h : Attended s) (hget : s.threads[thread]? = some old)
    (hfree : s.low_conds (accCond ptr) = none) (hcond : ∀ w, place.condHeld = some w → w = ptr)
    (hparks : place.parked = none)
    (hattends : ∀ w, old.place.attends = some w → place.attends = some w) :
    Attended ((s.setCond ptr (some thread)).goto thread old place) := by
  refine h.move hget rfl ?_ ?_ (fun _ => .inl) ?_ fun w hw => .inl (hattends w hw)
  · intro w hw
    obtain rfl := hcond w hw
    exact update_self _ _ _
  · intro i k _ hk
    have hne : k ≠ accCond ptr := by
      rintro rfl
      rw [hfree] at hk
      cases hk
    exact (update_of_ne hne _ _).trans hk
  · intro w hw
    rw [hparks] at hw
    cases hw

/-- A thread unlocks the condition it has locked. -/
theorem Attended.unlockCond (h : Attended s) (hget : s.threads[thread]? = some old)
    (hthreads : t.threads = s.threads.set thread new)
    (hlow : t.low_conds = update s.low_conds (accCond ptr) none)
    (hmemory : t.memory = s.memory) (hheld : old.place.condHeld = some ptr)
    (hcond : new.place.condHeld = none)
    (hparks : ∀ w, new.place.parked = some w → old.place.parked = some w)
    (hattends : old.place.attends = none) : Attended t := by
  refine h.move hget hthreads ?_ ?_ ?_ (fun w hw => .inl (hparks w hw)) ?_
  · intro w hw
    rw [hcond] at hw
    cases hw
  · intro i k hi hk
    have hne : k ≠ accCond ptr := by
      rintro rfl
      rw [h.conds thread old ptr hget hheld] at hk
      exact hi (Option.some.inj hk).symm
    rw [hlow, update_of_ne hne]
    exact hk
  · intro w hw
    rw [hmemory]
    exact .inl hw
  · intro w hw
    rw [hattends] at hw
    cases hw

theorem marked_write (h : ¬ Marked (s.memory ptr)) (w : UInt64) (hw : Marked (s.memory w)) :
    Marked ((s.write ptr val).memory w) := by
  have hne : w ≠ ptr := fun heq => h (heq ▸ hw)
  simp only [write, update_of_ne hne]
  exact hw

theorem not_marked_of_unlocked (h : val &&& 1 = 0) : ¬ Marked val :=
  fun hmarked => hmarked.1 h

section

variable (h : Attended s)
include h

/-- A thread takes the lock of a word; under the lock of the condition it leaves the mark. -/
theorem Attended.acquired (hget : s.threads[thread]? = some old) {cond : Bool}
    (hfree : s.memory ptr &&& 1 = 0) (hcond : cond = true → old.place.condHeld = some ptr)
    (hattends : ∀ w, old.place.attends = some w → cond = true ∧ w = ptr)
    (hmarked : cond = true → Marked newval) :
    Attended ((s.write ptr newval).acquired thread old ptr val cond caller) := by
  have hmemory : ∀ w, Marked (s.memory w) → Marked ((s.write ptr newval).memory w) :=
    marked_write (not_marked_of_unlocked hfree)
  have hleft : ∀ w, old.place.attends = some w → Marked ((s.write ptr newval).memory w) := by
    intro w hw
    obtain ⟨htrue, rfl⟩ := hattends w hw
    simp only [write, update_self]
    exact hmarked htrue
  have hquiet : ∀ w, (none : Option UInt64) = some w → False :=
    fun w hw => some_ne_none w hw.symm
  unfold LockSystem.acquired
  cases cond with
  | true =>
    refine h.stay hget rfl rfl ?_ (fun w hw => .inl (hmemory w hw)) ?_
      fun w hw => .inr (hleft w hw)
    · intro w hw
      obtain rfl := Option.some.inj hw
      exact hcond rfl
    · exact fun w hw => (hquiet w hw).elim
  | false =>
    cases caller with
    | user | xchg newval' =>
      exact h.stay hget rfl rfl (fun w hw => (hquiet w hw).elim)
        (fun w hw => .inl (hmemory w hw)) (fun w hw => (hquiet w hw).elim)
        fun w hw => .inr (hleft w hw)

theorem Attended.returned (hget : s.threads[thread]? = some ⟨.condUnlock ptr val caller, held⟩) :
    Attended ((s.setCond ptr none).returned thread ⟨.condUnlock ptr val caller, held⟩ ptr val
      caller) := by
  cases caller with
  | user | xchg newval =>
    exact h.unlockCond hget rfl rfl rfl rfl rfl (fun w hw => (some_ne_none w hw.symm).elim) rfl

theorem Attended.quiet (hget : s.threads[thread]? = some old) (hcond : place.condHeld = none)
    (hparks : place.parked = none) (hattends : old.place.attends = none) :
    Attended (s.goto thread old place) := by
  refine h.goto hget ?_ ?_ ?_
  · intro w hw
    rw [hcond] at hw
    cases hw
  · intro w hw
    rw [hparks] at hw
    cases hw
  · intro w hw
    rw [hattends] at hw
    cases hw

theorem Attended.exchange (hget : s.threads[thread]? = some old) {access : Access}
    (hfree : s.memory ptr &&& 1 = 0) (hattends : old.place.attends = none) :
    Attended (((s.write ptr newval).record access).goto thread old .outside) := by
  refine h.stay hget rfl rfl (fun _ hw => nomatch hw) ?_ (fun _ hw => nomatch hw) ?_
  · exact fun w hw => .inl (marked_write (not_marked_of_unlocked hfree) w hw)
  · intro w hw
    rw [hattends] at hw
    cases hw

/-- Who takes the mark off a word goes on to signal its condition. -/
theorem Attended.unlock {result : Option UInt64}
    (hget : s.threads[thread]? = some ⟨.unlock ptr newval result, held⟩) {access : Access} :
    Attended (((s.write ptr newval).record access).goto thread
      ⟨.unlock ptr newval result, held.erase ptr⟩
      (if s.memory ptr &&& 2 = 0 then .wakeLock ptr else .outside)) := by
  refine h.stay hget rfl rfl ?_ ?_ ?_ fun _ hw => nomatch hw
  · intro w hw
    split at hw <;> cases hw
  · intro w hw
    by_cases hwp : w = ptr
    · subst hwp
      right
      simp only [if_pos hw.2]
      rfl
    · left
      simp only [LockSystem.goto, record, write, update_of_ne hwp]
      exact hw
  · intro w hw
    split at hw <;> cases hw

/-- A step of a thread. -/
theorem Attended.advance (hx : Exclusive memory s) (hget : s.threads[thread]? = some old)
    (hstep : s.advance thread old = some t) : Attended t := by
  have hknows := hx.knows thread old hget
  obtain ⟨place, held⟩ := old
  unfold LockSystem.advance at hstep
  cases place with
  | outside | waiting ptr caller | wakeSignal ptr => cases hstep
  | i_lock ptr caller | i_xchg ptr newval | xchg ptr newval =>
    simp only at hstep
    split at hstep <;> obtain rfl := Option.some.inj hstep <;> exact h.quiet hget rfl rfl rfl
  | i_lockCas ptr val caller =>
    simp only at hstep
    split at hstep
    · rename_i hmem
      obtain rfl := Option.some.inj hstep
      have hfree : s.memory ptr &&& 1 = 0 := hmem ▸ hknows.1
      exact h.acquired hget hfree (fun hcond => nomatch hcond) (fun _ hw => nomatch hw)
        fun hcond => nomatch hcond
    · obtain rfl := Option.some.inj hstep
      exact h.quiet hget rfl rfl rfl
  | lock ptr caller =>
    obtain rfl := Option.some.inj hstep
    exact h.quiet hget rfl rfl rfl
  | retry ptr cond caller =>
    simp only at hstep
    cases cond with
    | true =>
      simp only [if_true] at hstep
      split at hstep
      · obtain rfl := Option.some.inj hstep
        exact h.goto hget (fun _ hw => hw) (fun _ hw => nomatch hw) fun _ hw => .inl hw
      · split at hstep <;> obtain rfl := Option.some.inj hstep <;>
          exact h.goto hget (fun _ hw => hw) (fun _ hw => nomatch hw) fun _ hw => .inl hw
    | false =>
      simp only [Bool.false_eq_true, if_false] at hstep
      split at hstep
      · obtain rfl := Option.some.inj hstep
        exact h.quiet hget rfl rfl rfl
      · split at hstep <;> obtain rfl := Option.some.inj hstep <;> exact h.quiet hget rfl rfl rfl
  | lockCas ptr val cond caller =>
    simp only at hstep
    split at hstep
    · rename_i hmem
      obtain rfl := Option.some.inj hstep
      have hfree : s.memory ptr &&& 1 = 0 := hmem ▸ hknows.1
      have hlast : val = lastStored memory s.log ptr := hmem ▸ (hx.word ptr).unlocked hfree
      have hplain : Untagged val := hlast ▸ (hx.word ptr).1
      refine h.acquired hget hfree ?_ ?_ ?_
      · rintro rfl
        rfl
      · intro w hw
        cases cond with
        | true => exact ⟨rfl, (Option.some.inj hw).symm⟩
        | false => cases hw
      · rintro rfl
        rw [hplain.pointer, if_pos rfl]
        exact ⟨by rw [hplain.or_low]; decide, hplain.or_high 1⟩
    · obtain rfl := Option.some.inj hstep
      cases cond with
      | true => exact h.goto hget (fun _ hw => hw) (fun _ hw => nomatch hw) fun _ hw => .inl hw
      | false => exact h.quiet hget rfl rfl rfl
  | mark ptr val cond caller =>
    obtain ⟨⟨hlocked, hmark⟩, -⟩ := hknows
    simp only at hstep
    split at hstep
    · rename_i hmem
      have hunmarked : ¬ Marked (s.memory ptr) := fun hmarked => hmark (hmem ▸ hmarked.2)
      cases cond with
      | true =>
        obtain rfl := Option.some.inj hstep
        exact h.stay hget rfl rfl (fun _ hw => hw)
          (fun w hw => .inl (marked_write hunmarked w hw)) (fun _ hw => nomatch hw)
          fun _ hw => .inl hw
      | false =>
        obtain rfl := Option.some.inj hstep
        exact h.stay hget rfl rfl (fun _ hw => nomatch hw)
          (fun w hw => .inl (marked_write hunmarked w hw)) (fun _ hw => nomatch hw)
          fun _ hw => nomatch hw
    · obtain rfl := Option.some.inj hstep
      cases cond with
      | true => exact h.goto hget (fun _ hw => hw) (fun _ hw => nomatch hw) fun _ hw => .inl hw
      | false => exact h.quiet hget rfl rfl rfl
  | condLock ptr val caller =>
    simp only at hstep
    split at hstep
    · rename_i hfree
      obtain rfl := Option.some.inj hstep
      exact h.lockCond hget hfree (fun _ hw => (Option.some.inj hw).symm) rfl
        fun _ hw => nomatch hw
    · cases hstep
  | check ptr val caller =>
    simp only at hstep
    split at hstep
    · rename_i hmem
      obtain rfl := Option.some.inj hstep
      -- the word is marked, and the thread will wait
      have hmarked : Marked (s.memory ptr) := hmem ▸ hknows.1
      refine h.goto hget (fun _ hw => hw) ?_ ?_
      · intro w hw
        obtain rfl := Option.some.inj hw
        exact .inr hmarked
      · intro w hw
        obtain rfl := Option.some.inj hw
        exact .inr hmarked
    · obtain rfl := Option.some.inj hstep
      exact h.goto hget (fun _ hw => hw) (fun _ hw => nomatch hw) fun _ hw => .inl hw
  | wait ptr caller =>
    obtain rfl := Option.some.inj hstep
    exact h.unlockCond hget rfl rfl rfl rfl rfl (fun _ hw => hw) rfl
  | woken ptr caller | wakeLock ptr =>
    simp only at hstep
    split at hstep
    · rename_i hfree
      obtain rfl := Option.some.inj hstep
      exact h.lockCond hget hfree (fun _ hw => (Option.some.inj hw).symm) rfl fun _ hw => hw
    · cases hstep
  | condUnlock ptr val caller =>
    obtain rfl := Option.some.inj hstep
    exact h.returned hget
  | unlock ptr newval result =>
    obtain rfl := Option.some.inj hstep
    exact h.unlock hget
  | wakeUnlock ptr =>
    obtain rfl := Option.some.inj hstep
    exact h.unlockCond hget rfl rfl rfl rfl rfl (fun w hw => (some_ne_none w hw.symm).elim) rfl
  | i_xchgCas ptr val newval | xchgCas ptr val newval =>
    simp only at hstep
    split at hstep
    · rename_i hmem
      obtain rfl := Option.some.inj hstep
      exact h.exchange hget (hmem ▸ hknows.1) rfl
    · obtain rfl := Option.some.inj hstep
      exact h.quiet hget rfl rfl rfl

end

theorem condHeld_of_parked (h : place.parked = some ptr) (hblocked : place.blocked ≠ some ptr) :
    place.condHeld = some ptr := by
  cases place with
  | wait ptr' caller => exact h
  | waiting ptr' caller => exact absurd h hblocked
  | _ => cases h

theorem sleepsAt_of_blocked {u : Lockp.Thread} (h : u.place.blocked = some ptr) :
    sleepsAt ptr u = true := by
  obtain ⟨place, held⟩ := u
  cases place with
  | waiting ptr' caller =>
    obtain rfl := Option.some.inj h
    exact decide_eq_true rfl
  | _ => cases h

/-- A thread has signalled: another one attends to the word now, or nobody is blocked. -/
theorem Attended.signalled (h : Attended s)
    (hget : s.threads[thread]? = some ⟨.wakeSignal ptr, held⟩)
    (hothers : (∃ (j : Nat) (v : Lockp.Thread),
        j ≠ thread ∧ s.threads[j]? = some v ∧ v.place.attends = some ptr) ∨
      ∀ u ∈ s.threads, u.place.blocked ≠ some ptr) :
    Attended (s.goto thread ⟨.wakeSignal ptr, held⟩ (.wakeUnlock ptr)) := by
  let t := s.goto thread ⟨.wakeSignal ptr, held⟩ (.wakeUnlock ptr)
  have hnew : t.threads[thread]? = some ⟨.wakeUnlock ptr, held⟩ :=
    List.getElem?_set_self (List.getElem?_eq_some_iff.mp hget).1
  have hkeep : ∀ (i : Nat), i ≠ thread → t.threads[i]? = s.threads[i]? :=
    fun i hi => List.getElem?_set_ne (Ne.symm hi)
  have hcond : s.low_conds (accCond ptr) = some thread := h.conds thread _ ptr hget rfl
  refine ⟨?_, ?_⟩
  · intro i u w hu hw
    by_cases hi : i = thread
    · subst hi
      obtain rfl := Option.some.inj (hnew.symm.trans hu)
      obtain rfl := Option.some.inj hw
      exact hcond
    · exact h.conds i u w ((hkeep i hi).symm.trans hu) hw
  · intro i u w hu hw
    have hi : i ≠ thread := by
      rintro rfl
      obtain rfl := Option.some.inj (hnew.symm.trans hu)
      cases hw
    have hold : s.threads[i]? = some u := (hkeep i hi).symm.trans hu
    rcases h.attended i u w hold hw with hmarked | ⟨j, v, hv, hattend⟩
    · exact .inl hmarked
    · right
      by_cases hj : j = thread
      · subst hj
        obtain rfl := Option.some.inj (hget.symm.trans hv)
        obtain rfl := Option.some.inj hattend
        rcases hothers with ⟨k, v', hk, hv', hattend'⟩ | hnobody
        · exact ⟨k, v', (hkeep k hk).trans hv', hattend'⟩
        · have hblocked := hnobody u (mem_of_getElem? hold)
          have hcond' := h.conds i u ptr hold (condHeld_of_parked hw hblocked)
          rw [hcond] at hcond'
          exact absurd (Option.some.inj hcond').symm hi
      · exact ⟨j, v, (hkeep j hj).trans hv, hattend⟩

theorem Attended.wake (h : Attended s)
    (hget : s.threads[thread]? = some ⟨.waiting ptr caller, held⟩) :
    Attended (s.goto thread ⟨.waiting ptr caller, held⟩ (.woken ptr caller)) :=
  h.goto hget (fun _ hw => nomatch hw) (fun _ hw => nomatch hw) fun _ hw => nomatch hw

/-- A signal that wakes a thread of its word, or finds nobody blocked for it. -/
theorem Attended.signal (h : Attended s) {sleeper : Option Nat}
    (hget : s.threads[thread]? = some ⟨.wakeSignal ptr, held⟩)
    (hown : s.SignalsOwn (.signal thread sleeper))
    (hstep : (s.goto thread ⟨.wakeSignal ptr, held⟩ (.wakeUnlock ptr)).signal ptr sleeper =
      some t) : Attended t := by
  have hkeep : ∀ (i : Nat), i ≠ thread →
      (s.goto thread ⟨.wakeSignal ptr, held⟩ (.wakeUnlock ptr)).threads[i]? = s.threads[i]? :=
    fun i hi => List.getElem?_set_ne (Ne.symm hi)
  have hnew : (s.goto thread ⟨.wakeSignal ptr, held⟩ (.wakeUnlock ptr)).threads[thread]? =
      some ⟨.wakeUnlock ptr, held⟩ :=
    List.getElem?_set_self (List.getElem?_eq_some_iff.mp hget).1
  rcases signal_cases hstep with ⟨hnone, rfl⟩ | ⟨i, ptr', caller, held', rfl, hi, -, rfl⟩
  · refine h.signalled hget (.inr ?_)
    intro u hu hblocked
    obtain ⟨j, hj⟩ := mem_iff_getElem?.mp hu
    have hjt : j ≠ thread := by
      rintro rfl
      obtain rfl := Option.some.inj (hget.symm.trans hj)
      cases hblocked
    have hany := any_eq_true.mpr
      ⟨u, mem_of_getElem? ((hkeep j hjt).trans hj), sleepsAt_of_blocked hblocked⟩
    rw [hnone] at hany
    cases hany
  · have hit : i ≠ thread := by
      rintro rfl
      cases Option.some.inj (hnew.symm.trans hi)
    have hi' : s.threads[i]? = some ⟨.waiting ptr' caller, held'⟩ := (hkeep i hit).symm.trans hi
    -- the sleeper may as well move first
    have hcomm : (s.goto thread ⟨.wakeSignal ptr, held⟩ (.wakeUnlock ptr)).goto i
        ⟨.waiting ptr' caller, held'⟩ (.woken ptr' caller) =
        (s.goto i ⟨.waiting ptr' caller, held'⟩ (.woken ptr' caller)).goto thread
          ⟨.wakeSignal ptr, held⟩ (.wakeUnlock ptr) := by
      simp only [LockSystem.goto]
      rw [set_comm _ _ (Ne.symm hit)]
    rw [hcomm]
    have hget' : (s.goto i ⟨.waiting ptr' caller, held'⟩ (.woken ptr' caller)).threads[thread]? =
        some ⟨.wakeSignal ptr, held⟩ := by
      rw [← hget]
      exact List.getElem?_set_ne hit
    have hwoken : (s.goto i ⟨.waiting ptr' caller, held'⟩ (.woken ptr' caller)).threads[i]? =
        some ⟨.woken ptr' caller, held'⟩ :=
      List.getElem?_set_self (List.getElem?_eq_some_iff.mp hi').1
    refine (h.wake hi').signalled hget' ?_
    simp only [SignalsOwn, hget] at hown
    rcases hown with hsame | hnobody
    · rw [hi'] at hsame
      have hptr : ptr' = ptr := by simpa [Place.blocked] using hsame
      exact .inl ⟨i, _, hit, hwoken, congrArg some hptr⟩
    · right
      intro u hu hblocked
      rcases mem_or_eq_of_mem_set hu with hmem | rfl
      · have hany := any_eq_false.mp hnobody u hmem
        exact hany (by simpa using hblocked)
      · cases hblocked

/-- The step lemma of the invariant. -/
theorem Attended.step (h : Attended s) (hx : Exclusive memory s) {e : Event}
    (hown : s.SignalsOwn e) (hstep : s.step e = some t) : Attended t := by
  cases e with
  | call thread call =>
    simp only [LockSystem.step] at hstep
    split at hstep
    · rename_i held hget
      obtain ⟨place, hplace, rfl⟩ := map_eq_some_iff.mp hstep
      have hquiet : place.condHeld = none ∧ place.parked = none := by
        cases call with
        | lock ptr | i_lock ptr =>
          obtain rfl := Option.some.inj hplace
          exact ⟨rfl, rfl⟩
        | unlock ptr newval | i_unlock ptr newval | xchg ptr newval | i_xchg ptr newval =>
          obtain rfl := Option.some.inj (ite_none_right_eq_some.mp hplace).2
          exact ⟨rfl, rfl⟩
      exact h.quiet hget hquiet.1 hquiet.2 rfl
    · cases hstep
  | run thread =>
    simp only [LockSystem.step] at hstep
    split at hstep
    · rename_i old hget
      exact h.advance hx hget hstep
    · cases hstep
  | signal thread sleeper =>
    simp only [LockSystem.step] at hstep
    split at hstep
    · rename_i ptr held hget
      exact h.signal hget hown hstep
    · cases hstep
  | spurious thread =>
    simp only [LockSystem.step] at hstep
    split at hstep
    · rename_i ptr caller held hget
      obtain rfl := Option.some.inj hstep
      exact h.wake hget
    · cases hstep

end LockSystem

end Drt
