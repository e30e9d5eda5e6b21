import Drt.Core.Atomic.Lockp

/-!
# What a pointer lock protects

A word is the pointer stored last, with or without tag bits; the low bit says that a
thread has it locked. Nothing but the thread that holds the lock, or an exchange that
finds the word unlocked, stores another pointer.
-/

open List Function

namespace Drt

open Lockp TagBits

/-- The pointer that an access stores in the word. -/
def Lockp.Access.stores (ptr : UInt64) : Access → Option UInt64
  | .locked _ _ => none
  | .unlocked ptr' newval => if ptr' = ptr then some newval else none
  | .exchanged ptr' _ newval => if ptr' = ptr then some newval else none

/-- The word and the pointer that an access returns. -/
def Lockp.Access.returns : Access → Option (UInt64 × UInt64)
  | .locked ptr val => some (ptr, val)
  | .unlocked _ _ => none
  | .exchanged ptr old _ => some (ptr, old)

/-- The pointer stored by the last of the accesses. -/
def Lockp.lastStored (memory : UInt64 → UInt64) (log : List Access) (ptr : UInt64) : UInt64 :=
  (log.filterMap (Access.stores ptr)).getLastD (memory ptr)

/-- Every pointer returned is the one stored last, without tag bits. -/
inductive Lockp.Faithful (memory : UInt64 → UInt64) : List Access → Prop where
  | nil : Faithful memory []
  | snoc {log : List Access} {access : Access} (h : Faithful memory log)
      (last : ∀ ptr val, access.returns = some (ptr, val) →
        val = lastStored memory log ptr ∧ Untagged val) : Faithful memory (log ++ [access])

/-- `xchg` stores a plain pointer. -/
def Lockp.Caller.Plain : Caller → Prop
  | .user => True
  | .xchg newval => Untagged newval

namespace LockSystem

variable {memory : UInt64 → UInt64} {s t : LockSystem} {thread : Nat} {old new : Lockp.Thread}

theorem lastStored_snoc (log : List Access) (access : Access) (ptr : UInt64) :
    lastStored memory (log ++ [access]) ptr =
      (access.stores ptr).getD (lastStored memory log ptr) := by
  unfold lastStored
  rw [filterMap_append]
  cases hstores : access.stores ptr with
  | none => simp [hstores]
  | some val => simp [hstores]

/-- What a thread knows at its place; `last` are the pointers stored last. -/
def Knows (last : UInt64 → UInt64) (t : Lockp.Thread) : Prop :=
  match t.place with
  | .outside | .wakeLock _ | .wakeSignal _ | .wakeUnlock _ => True
  | .i_lock _ caller | .lock _ caller | .retry _ _ caller | .wait _ caller | .waiting _ caller
  | .woken _ caller => caller.Plain
  | .i_lockCas _ val caller | .lockCas _ val _ caller => val &&& 1 = 0 ∧ caller.Plain
  | .mark _ val _ caller => (val &&& 1 ≠ 0 ∧ val &&& 2 ≠ 0) ∧ caller.Plain
  | .condLock _ val caller | .check _ val caller => (val &&& 1 ≠ 0 ∧ val &&& 2 = 0) ∧ caller.Plain
  | .condUnlock ptr val caller => (ptr ∈ t.held ∧ val = last ptr) ∧ caller.Plain
  | .unlock ptr newval old => (ptr ∈ t.held ∧ Untagged newval) ∧ ∀ val ∈ old, val = last ptr
  | .i_xchg _ newval | .xchg _ newval => Untagged newval
  | .i_xchgCas _ old newval | .xchgCas _ old newval => old &&& 1 = 0 ∧ Untagged newval

/-- A word is the pointer stored last, with the tag of its state. -/
def Word (last val : UInt64) : Prop :=
  Untagged last ∧ (val = last ∨ val = last ||| 1 ∨ val = last ||| 3)

/-- The number of holders that the low bit of a word tells. -/
def lockCount (val : UInt64) : Nat := if val &&& 1 = 0 then 0 else 1

/-- The words, the threads and the log agree. -/
structure Exclusive (memory : UInt64 → UInt64) (s : LockSystem) : Prop where
  word : ∀ ptr, Word (lastStored memory s.log ptr) (s.memory ptr)
  count : ∀ ptr, (s.threads.map fun t => t.held.count ptr).sum = lockCount (s.memory ptr)
  knows : ∀ (i : Nat) t, s.threads[i]? = some t → Knows (lastStored memory s.log) t
  faithful : Faithful memory s.log

variable {k last newval ptr val : UInt64} {place : Place}

theorem Word.unlocked (h : Word last val) (hval : val &&& 1 = 0) : val = last := by
  obtain ⟨hplain, rfl | rfl | rfl⟩ := h
  · rfl
  · rw [hplain.or_low] at hval
    cases hval
  · rw [hplain.or_low] at hval
    cases hval

theorem Word.locked (h : Word last val) (hval : val &&& 1 ≠ 0) (hmark : val &&& 2 ≠ 0) :
    val = last ||| 3 := by
  obtain ⟨hplain, rfl | rfl | rfl⟩ := h
  · exact absurd hplain.low hval
  · rw [hplain.or_high] at hmark
    exact absurd rfl hmark
  · rfl

theorem Word.pointer (h : Word last val) : val &&& ~~~3 = last := by
  obtain ⟨hplain, rfl | rfl | rfl⟩ := h
  · exact hplain.pointer
  · exact hplain.or_pointer rfl
  · exact hplain.or_pointer rfl

theorem lockCount_untagged (h : Untagged val) : lockCount val = 0 :=
  if_pos h.low

theorem lockCount_tagged (h : Untagged val) (hk : k &&& 1 ≠ 0) : lockCount (val ||| k) = 1 := by
  unfold lockCount
  rw [h.or_low, if_neg hk]

/-- What a thread knows stays true while the words it holds keep their pointers. -/
theorem Knows.frame {last last' : UInt64 → UInt64} (h : Knows last old)
    (hsame : ∀ ptr ∈ old.held, last' ptr = last ptr) : Knows last' old := by
  unfold Knows at h ⊢
  cases hplace : old.place with
  | condUnlock ptr val caller =>
    simp only [hplace] at h ⊢
    obtain ⟨⟨hmem, hval⟩, hplain⟩ := h
    exact ⟨⟨hmem, hval.trans (hsame ptr hmem).symm⟩, hplain⟩
  | unlock ptr newval old' =>
    simp only [hplace] at h ⊢
    obtain ⟨⟨hmem, hnew⟩, hold⟩ := h
    exact ⟨⟨hmem, hnew⟩, fun val hval => (hold val hval).trans (hsame ptr hmem).symm⟩
  | _ =>
    simp only [hplace] at h ⊢
    try exact h

section

variable (h : Exclusive memory s)
include h

/-- One thread moves, and with it perhaps a word and the log. -/
theorem Exclusive.move (hget : s.threads[thread]? = some old)
    (hthreads : t.threads = s.threads.set thread new)
    (hword : ∀ ptr, Word (lastStored memory t.log ptr) (t.memory ptr))
    (hcount : ∀ ptr, new.held.count ptr + lockCount (s.memory ptr) =
      old.held.count ptr + lockCount (t.memory ptr)) (hknows : Knows (lastStored memory t.log) new)
    (hother : ∀ (i : Nat) u, i ≠ thread → s.threads[i]? = some u → ∀ ptr ∈ u.held,
      lastStored memory t.log ptr = lastStored memory s.log ptr)
    (hfaithful : Faithful memory t.log) :
    Exclusive memory t := by
  refine ⟨hword, ?_, ?_, hfaithful⟩
  · intro ptr
    rw [hthreads]
    have hsum := sum_map_set (fun t : Lockp.Thread => t.held.count ptr) new hget
    have hs := h.count ptr
    have hptr := hcount ptr
    omega
  · rw [hthreads]
    refine forall_getElem?_set ?_ hknows
    intro i u hi hu
    exact (h.knows i u hu).frame (hother i u hi hu)

theorem Exclusive.goto (hget : s.threads[thread]? = some old)
    (hthreads : t.threads = s.threads.set thread new) (hmemory : t.memory = s.memory)
    (hlog : t.log = s.log) (hheld : new.held = old.held)
    (hknows : Knows (lastStored memory s.log) new) : Exclusive memory t := by
  refine h.move hget hthreads ?_ ?_ ?_ ?_ ?_
  · rw [hlog, hmemory]
    exact h.word
  · intro ptr
    rw [hmemory, hheld]
  · rw [hlog]
    exact hknows
  · intro i u _ _ ptr _
    rw [hlog]
  · rw [hlog]
    exact h.faithful

theorem Exclusive.lockCount_held (hget : s.threads[thread]? = some old) (hheld : ptr ∈ old.held) :
    lockCount (s.memory ptr) = 1 ∧ old.held.count ptr = 1 := by
  have hpos := count_pos_iff.mpr hheld
  have hle : old.held.count ptr ≤ (s.threads.map fun t => t.held.count ptr).sum :=
    le_sum_of_mem (mem_map_of_mem (f := fun t : Lockp.Thread => t.held.count ptr)
      (mem_of_getElem? hget))
  rw [h.count ptr] at hle
  have hone : lockCount (s.memory ptr) ≤ 1 := by
    unfold lockCount
    split <;> omega
  omega

theorem Exclusive.not_held (hget : s.threads[thread]? = some old) (hheld : ptr ∈ old.held) {i : Nat}
    {u : Lockp.Thread} (hi : i ≠ thread) (hu : s.threads[i]? = some u) : ptr ∉ u.held := by
  intro hmem
  have hsum := add_le_sum_map (fun t : Lockp.Thread => t.held.count ptr) hu hget hi
  rw [h.count ptr] at hsum
  have hpos := count_pos_iff.mpr hmem
  obtain ⟨hcount, hold⟩ := h.lockCount_held hget hheld
  omega

end

theorem lastStored_locked (memory : UInt64 → UInt64) (log : List Access) (ptr val : UInt64) :
    lastStored memory (log ++ [.locked ptr val]) = lastStored memory log := by
  funext w
  rw [lastStored_snoc]
  rfl

section

variable (h : Exclusive memory s)
include h

theorem Exclusive.faithful_locked (hval : val = lastStored memory s.log ptr) :
    Faithful memory (s.log ++ [.locked ptr val]) := by
  refine h.faithful.snoc ?_
  intro w v hreturns
  obtain ⟨rfl, rfl⟩ := Prod.mk.inj (Option.some.inj hreturns)
  exact ⟨hval, hval ▸ (h.word ptr).1⟩

/-- A thread takes the lock of a word that is unlocked. -/
theorem Exclusive.acquired (hget : s.threads[thread]? = some old) (hval : val &&& 1 = 0)
    (hmem : s.memory ptr = val) (hk : k = 1 ∨ k = 3) (cond : Bool) {caller : Caller}
    (hcaller : caller.Plain) :
    Exclusive memory ((s.write ptr (val ||| k)).acquired thread old ptr val cond caller) := by
  have hlast : val = lastStored memory s.log ptr := by
    rw [← hmem]
    exact (h.word ptr).unlocked (hmem ▸ hval)
  have hplain : Untagged val := hlast ▸ (h.word ptr).1
  have hbit : k &&& 1 ≠ 0 := by
    rcases hk with rfl | rfl <;> decide
  have hword : ∀ w, Word (lastStored memory s.log w) ((s.write ptr (val ||| k)).memory w) := by
    intro w
    by_cases hw : w = ptr
    · subst hw
      simp only [write, update_self, ← hlast]
      refine ⟨hplain, .inr ?_⟩
      rcases hk with rfl | rfl
      · exact .inl rfl
      · exact .inr rfl
    · simp only [write, update_of_ne hw]
      exact h.word w
  have hcount : ∀ w, (ptr :: old.held).count w + lockCount (s.memory w) =
      old.held.count w + lockCount ((s.write ptr (val ||| k)).memory w) := by
    intro w
    by_cases hw : w = ptr
    · subst hw
      rw [count_cons_self, hmem, lockCount_untagged hplain]
      simp only [write, update_self, lockCount_tagged hplain hbit]
    · rw [count_cons_of_ne (Ne.symm hw)]
      simp only [write, update_of_ne hw]
  unfold LockSystem.acquired
  cases cond with
  | true =>
    refine h.move hget rfl hword hcount ?_ (fun _ _ _ _ _ _ => rfl) h.faithful
    exact ⟨⟨mem_cons_self, hlast⟩, hcaller⟩
  | false =>
    cases caller with
    | user =>
      have hlog := lastStored_locked memory s.log ptr val
      refine h.move hget rfl ?_ hcount trivial ?_ (h.faithful_locked hlast)
      · intro w
        exact (congrFun hlog w).symm ▸ hword w
      · intro i u _ _ w _
        exact congrFun hlog w
    | xchg newval =>
      refine h.move hget rfl hword hcount ?_ (fun _ _ _ _ _ _ => rfl) h.faithful
      refine ⟨⟨mem_cons_self, hcaller⟩, ?_⟩
      rintro _ ⟨⟩
      exact hlast

/-- `lock` returns after it has unlocked the condition. -/
theorem Exclusive.returned (hget : s.threads[thread]? = some old) (hheld : ptr ∈ old.held)
    (hval : val = lastStored memory s.log ptr) {caller : Caller} (hcaller : caller.Plain) :
    Exclusive memory ((s.setCond ptr none).returned thread old ptr val caller) := by
  cases caller with
  | user =>
    have hlog := lastStored_locked memory s.log ptr val
    refine h.move hget rfl ?_ (fun _ => rfl) trivial ?_ (h.faithful_locked hval)
    · intro w
      exact (congrFun hlog w).symm ▸ h.word w
    · intro i u _ _ w _
      exact congrFun hlog w
  | xchg newval =>
    refine h.goto hget rfl rfl rfl rfl ⟨⟨hheld, hcaller⟩, ?_⟩
    rintro _ ⟨⟩
    exact hval

/-- A waiting thread is marked. -/
theorem Exclusive.mark (hget : s.threads[thread]? = some old) (hval : val &&& 1 ≠ 0)
    (hmark : val &&& 2 ≠ 0) (hmem : s.memory ptr = val)
    (hknows : (val - 2) &&& 1 ≠ 0 → (val - 2) &&& 2 = 0 →
      Knows (lastStored memory s.log) { old with place }) :
    Exclusive memory ((s.write ptr (val - 2)).goto thread old place) := by
  obtain ⟨hplain, -⟩ := h.word ptr
  have hlocked : val = lastStored memory s.log ptr ||| 3 := by
    rw [← hmem]
    exact (h.word ptr).locked (hmem ▸ hval) (hmem ▸ hmark)
  have hnew : val - 2 = lastStored memory s.log ptr ||| 1 := by
    rw [hlocked, hplain.or_three_sub]
  refine h.move hget rfl ?_ ?_ (hknows ?_ ?_) (fun _ _ _ _ _ _ => rfl) h.faithful
  · intro w
    by_cases hw : w = ptr
    · subst hw
      simp only [LockSystem.goto, write, update_self, hnew]
      exact ⟨hplain, .inr (.inl rfl)⟩
    · simp only [LockSystem.goto, write, update_of_ne hw]
      exact h.word w
  · intro w
    by_cases hw : w = ptr
    · subst hw
      have hbefore : lockCount val = 1 := by
        rw [hlocked]
        exact lockCount_tagged hplain (by decide)
      have hafter : lockCount (val - 2) = 1 := by
        rw [hnew]
        exact lockCount_tagged hplain (by decide)
      simp only [LockSystem.goto, write, update_self, hmem, hbefore, hafter]
    · simp only [LockSystem.goto, write, update_of_ne hw]
  · rw [hnew, hplain.or_low]
    decide
  · rw [hnew, hplain.or_high]
    decide

end

theorem lastStored_store {log : List Access} {access : Access}
    (hstores : ∀ w, access.stores w = if ptr = w then some newval else none) :
    lastStored memory (log ++ [access]) =
      update (lastStored memory log) ptr newval := by
  funext w
  rw [lastStored_snoc, hstores]
  by_cases hw : ptr = w
  · subst hw
    rw [if_pos rfl, update_self]
    rfl
  · rw [if_neg hw, update_of_ne (Ne.symm hw)]
    rfl

section

variable (h : Exclusive memory s)
include h

/-- A pointer is stored, by the holder of the word or in an unlocked one. -/
theorem Exclusive.store (hget : s.threads[thread]? = some old) {access : Access}
    {held : List UInt64} (hnew : Untagged newval)
    (hstores : ∀ w, access.stores w = if ptr = w then some newval else none)
    (hreturns : ∀ w v, access.returns = some (w, v) → w = ptr ∧ v = lastStored memory s.log ptr)
    (hcount : ∀ w, held.count w + (if w = ptr then lockCount (s.memory w) else 0) =
      old.held.count w) (hother : ∀ (i : Nat) u, i ≠ thread → s.threads[i]? = some u → ptr ∉ u.held)
    (hknows : Knows (lastStored memory (s.log ++ [access])) ⟨place, held⟩) :
    Exclusive memory
      (((s.write ptr newval).record access).goto thread { old with held } place) := by
  have hlog : lastStored memory (s.log ++ [access]) =
      update (lastStored memory s.log) ptr newval := lastStored_store hstores
  refine h.move hget rfl ?_ ?_ hknows ?_ ?_
  · intro w
    simp only [LockSystem.goto, write, record, hlog]
    by_cases hw : w = ptr
    · subst hw
      rw [update_self, update_self]
      exact ⟨hnew, .inl rfl⟩
    · rw [update_of_ne hw, update_of_ne hw]
      exact h.word w
  · intro w
    have hw' := hcount w
    simp only [LockSystem.goto, write, record]
    by_cases hw : w = ptr
    · subst hw
      rw [if_pos rfl] at hw'
      rw [update_self, lockCount_untagged hnew]
      omega
    · rw [if_neg hw] at hw'
      rw [update_of_ne hw]
      omega
  · intro i u hi hu w hw
    have hne : w ≠ ptr := fun heq => hother i u hi hu (heq ▸ hw)
    simp only [LockSystem.goto, write, record, hlog]
    rw [update_of_ne hne]
  · refine h.faithful.snoc ?_
    intro w v hv
    obtain ⟨rfl, rfl⟩ := hreturns w v hv
    exact ⟨rfl, (h.word _).1⟩

/-- A pointer is stored by the thread that holds the word. -/
theorem Exclusive.unlock (hget : s.threads[thread]? = some old) {result : Option UInt64}
    (hheld : ptr ∈ old.held) (hnew : Untagged newval)
    (hresult : ∀ val ∈ result, val = lastStored memory s.log ptr)
    (hknows : ∀ last, Knows last ⟨place, old.held.erase ptr⟩) :
    Exclusive memory (((s.write ptr newval).record (released ptr newval result)).goto thread
      { old with held := old.held.erase ptr } place) := by
  obtain ⟨hlocked, hone⟩ := h.lockCount_held hget hheld
  refine h.store hget hnew ?_ ?_ ?_ (fun i u => h.not_held hget hheld) (hknows _)
  · intro w
    cases result <;> rfl
  · intro w v hreturns
    cases result with
    | none => cases hreturns
    | some val =>
      obtain ⟨rfl, rfl⟩ := Prod.mk.inj (Option.some.inj hreturns)
      exact ⟨rfl, hresult _ rfl⟩
  · intro w
    by_cases hw : w = ptr
    · subst hw
      rw [if_pos rfl, count_erase_self, hlocked, hone]
    · rw [if_neg hw, count_erase_of_ne hw]
      rfl

/-- A pointer is exchanged in a word that is unlocked. -/
theorem Exclusive.exchange (hget : s.threads[thread]? = some old) (hval : val &&& 1 = 0)
    (hnew : Untagged newval) (hmem : s.memory ptr = val) :
    Exclusive memory (((s.write ptr newval).record (.exchanged ptr val newval)).goto thread old
      .outside) := by
  have hunlocked : s.memory ptr &&& 1 = 0 := hmem ▸ hval
  have hfree : lockCount (s.memory ptr) = 0 := if_pos hunlocked
  refine h.store hget hnew (fun _ => rfl) ?_ ?_ ?_ trivial
  · intro w v hreturns
    obtain ⟨rfl, rfl⟩ := Prod.mk.inj (Option.some.inj hreturns)
    exact ⟨rfl, hmem ▸ (h.word ptr).unlocked hunlocked⟩
  · intro w
    by_cases hw : w = ptr
    · subst hw
      rw [if_pos rfl, hfree]
      rfl
    · rw [if_neg hw]
      rfl
  · intro i u _ hu hmem
    have hcount := (h.lockCount_held hu hmem).1
    omega

/-- A step of a thread. -/
theorem Exclusive.advance (hget : s.threads[thread]? = some old)
    (hstep : s.advance thread old = some t) : Exclusive memory t := by
  have hknows := h.knows thread old hget
  obtain ⟨place, held⟩ := old
  unfold LockSystem.advance at hstep
  cases place with
  | outside | waiting ptr caller | wakeSignal ptr => cases hstep
  | i_lock ptr caller | i_xchg ptr newval | xchg ptr newval =>
    simp only at hstep
    split at hstep
    · obtain rfl := Option.some.inj hstep
      exact h.goto hget rfl rfl rfl rfl hknows
    · rename_i hfree
      obtain rfl := Option.some.inj hstep
      exact h.goto hget rfl rfl rfl rfl ⟨not_not.mp hfree, hknows⟩
  | i_lockCas ptr val caller =>
    simp only at hstep
    split at hstep
    · rename_i hmem
      obtain rfl := Option.some.inj hstep
      exact h.acquired hget hknows.1 hmem (.inr rfl) false hknows.2
    · obtain rfl := Option.some.inj hstep
      exact h.goto hget rfl rfl rfl rfl hknows.2
  | lock ptr caller =>
    obtain rfl := Option.some.inj hstep
    refine h.goto hget rfl rfl rfl rfl ⟨?_, hknows⟩
    rw [UInt64.and_assoc]
    exact UInt64.and_zero
  | retry ptr cond caller =>
    simp only at hstep
    split at hstep
    · rename_i hfree
      obtain rfl := Option.some.inj hstep
      exact h.goto hget rfl rfl rfl rfl ⟨hfree, hknows⟩
    · rename_i hlocked
      split at hstep
      · rename_i hmark
        obtain rfl := Option.some.inj hstep
        exact h.goto hget rfl rfl rfl rfl ⟨⟨hlocked, hmark⟩, hknows⟩
      · rename_i hmark
        split at hstep
        · obtain rfl := Option.some.inj hstep
          exact h.goto hget rfl rfl rfl rfl ⟨⟨hlocked, not_not.mp hmark⟩, hknows⟩
        · obtain rfl := Option.some.inj hstep
          exact h.goto hget rfl rfl rfl rfl ⟨⟨hlocked, not_not.mp hmark⟩, hknows⟩
  | lockCas ptr val cond caller =>
    simp only at hstep
    split at hstep
    · rename_i hmem
      obtain rfl := Option.some.inj hstep
      have hlast : val = lastStored memory s.log ptr := by
        rw [← hmem]
        exact (h.word ptr).unlocked (hmem ▸ hknows.1)
      have hplain : Untagged val := hlast ▸ (h.word ptr).1
      rw [hplain.pointer]
      refine h.acquired hget hknows.1 hmem ?_ cond hknows.2
      cases cond <;> simp
    · obtain rfl := Option.some.inj hstep
      exact h.goto hget rfl rfl rfl rfl hknows.2
  | mark ptr val cond caller =>
    obtain ⟨⟨hlocked, hmark⟩, hplain⟩ := hknows
    simp only at hstep
    split at hstep
    · rename_i hmem
      split at hstep
      · obtain rfl := Option.some.inj hstep
        exact h.mark hget hlocked hmark hmem fun h₁ h₂ => ⟨⟨h₁, h₂⟩, hplain⟩
      · obtain rfl := Option.some.inj hstep
        exact h.mark hget hlocked hmark hmem fun h₁ h₂ => ⟨⟨h₁, h₂⟩, hplain⟩
    · obtain rfl := Option.some.inj hstep
      exact h.goto hget rfl rfl rfl rfl hplain
  | condLock ptr val caller | woken ptr caller =>
    simp only at hstep
    split at hstep
    · obtain rfl := Option.some.inj hstep
      exact h.goto hget rfl rfl rfl rfl hknows
    · cases hstep
  | check ptr val caller =>
    simp only at hstep
    split at hstep <;> obtain rfl := Option.some.inj hstep
    · exact h.goto hget rfl rfl rfl rfl hknows.2
    · exact h.goto hget rfl rfl rfl rfl hknows.2
  | wait ptr caller =>
    obtain rfl := Option.some.inj hstep
    exact h.goto hget rfl rfl rfl rfl hknows
  | condUnlock ptr val caller =>
    obtain ⟨⟨hheld, hval⟩, hplain⟩ := hknows
    obtain rfl := Option.some.inj hstep
    exact h.returned hget hheld hval hplain
  | unlock ptr newval result =>
    obtain ⟨⟨hheld, hnew⟩, hresult⟩ := hknows
    obtain rfl := Option.some.inj hstep
    refine h.unlock hget hheld hnew hresult fun last => ?_
    split <;> trivial
  | wakeLock ptr =>
    simp only at hstep
    split at hstep
    · obtain rfl := Option.some.inj hstep
      exact h.goto hget rfl rfl rfl rfl trivial
    · cases hstep
  | wakeUnlock ptr =>
    obtain rfl := Option.some.inj hstep
    exact h.goto hget rfl rfl rfl rfl trivial
  | i_xchgCas ptr val newval | xchgCas ptr val newval =>
    simp only at hstep
    split at hstep
    · rename_i hmem
      obtain rfl := Option.some.inj hstep
      exact h.exchange hget hknows.1 hknows.2 hmem
    · obtain rfl := Option.some.inj hstep
      exact h.goto hget rfl rfl rfl rfl hknows.2

end

/-- A signal moves a thread out of `wait` and does nothing else. -/
theorem signal_cases {sleeper : Option Nat} (h : s.signal ptr sleeper = some t) :
    (s.threads.any (sleepsAt ptr) = false ∧ t = s) ∨
      ∃ (i : Nat) (ptr' : UInt64) (caller : Caller) (held : List UInt64),
        sleeper = some i ∧ s.threads[i]? = some ⟨.waiting ptr' caller, held⟩ ∧
        accCond ptr' = accCond ptr ∧
        t = s.goto i ⟨.waiting ptr' caller, held⟩ (.woken ptr' caller) := by
  unfold signal at h
  cases sleeper with
  | none =>
    simp only at h
    split at h
    · cases h
    · rename_i hnone
      exact .inl ⟨Bool.eq_false_iff.mpr hnone, (Option.some.inj h).symm⟩
  | some i =>
    simp only at h
    split at h
    · rename_i ptr' caller held hget
      split at h
      · rename_i hcond
        exact .inr ⟨i, ptr', caller, held, rfl, hget, hcond, (Option.some.inj h).symm⟩
      · cases h
    · cases h

theorem Exclusive.signal (h : Exclusive memory s) {sleeper : Option Nat}
    (hstep : s.signal ptr sleeper = some t) : Exclusive memory t := by
  rcases signal_cases hstep with ⟨-, rfl⟩ | ⟨i, ptr', caller, held, -, hget, -, rfl⟩
  · exact h
  · have hplain := h.knows i _ hget
    exact h.goto hget rfl rfl rfl rfl hplain

/-- The step lemma of the invariant. -/
theorem Exclusive.step (h : Exclusive memory s) {e : Event} (hstep : s.step e = some t) :
    Exclusive memory t := by
  cases e with
  | call thread call =>
    simp only [LockSystem.step] at hstep
    split at hstep
    · rename_i held hget
      obtain ⟨place, hplace, rfl⟩ := Option.map_eq_some_iff.mp hstep
      refine h.goto hget rfl rfl rfl rfl ?_
      cases call with
      | lock ptr | i_lock ptr =>
        obtain rfl := Option.some.inj hplace
        trivial
      | unlock ptr newval | i_unlock ptr newval =>
        obtain ⟨hcall, hplace⟩ := Option.ite_none_right_eq_some.mp hplace
        obtain rfl := Option.some.inj hplace
        exact ⟨hcall, fun _ hval => nomatch hval⟩
      | xchg ptr newval | i_xchg ptr newval =>
        obtain ⟨hcall, hplace⟩ := Option.ite_none_right_eq_some.mp hplace
        obtain rfl := Option.some.inj hplace
        exact hcall
    · cases hstep
  | run thread =>
    simp only [LockSystem.step] at hstep
    split at hstep
    · rename_i old hget
      exact h.advance hget hstep
    · cases hstep
  | signal thread sleeper =>
    simp only [LockSystem.step] at hstep
    split at hstep
    · rename_i ptr held hget
      have hnext : Exclusive memory
          (s.goto thread ⟨.wakeSignal ptr, held⟩ (.wakeUnlock ptr)) :=
        h.goto hget rfl rfl rfl rfl trivial
      exact hnext.signal hstep
    · cases hstep
  | spurious thread =>
    simp only [LockSystem.step] at hstep
    split at hstep
    · rename_i ptr caller held hget
      have hplain := h.knows thread _ hget
      obtain rfl := Option.some.inj hstep
      exact h.goto hget rfl rfl rfl rfl hplain
    · cases hstep

theorem exclusive_start (hplain : ∀ ptr, Untagged (memory ptr)) (threads : Nat) :
    Exclusive memory (start memory threads) := by
  refine ⟨fun ptr => ⟨hplain ptr, .inl rfl⟩, ?_, ?_, .nil⟩
  · intro ptr
    simp [start, lockCount_untagged (hplain ptr)]
  · intro i t hget
    have hmem := mem_of_getElem? hget
    rw [eq_of_mem_replicate hmem]
    trivial

theorem Exclusive.reachable (h : (machine memory).Reachable s) : Exclusive memory s := by
  refine h.invariant (Exclusive memory) ?_ fun _ _ _ hs hstep => hs.step hstep
  rintro s ⟨hplain, threads, rfl⟩
  exact exclusive_start hplain threads

end LockSystem

end Drt
