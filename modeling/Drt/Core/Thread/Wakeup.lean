import Drt.Core.Thread.Thread

/-!
# Waking a message thread

`msg_setWaiting` reads `add_msg` and then sets `waiting_for_msg`; a sender pushes and
then reads the flag. A sender that does both between the two accesses finds the flag
unset and leaves, and the receiver goes to sleep on a list that is not empty. In
every other order someone is left who will wake the receiver.
-/

open Function

namespace Drt

open MessageThread

/-- The thread holds `sync_mutex`. -/
def PushPc.locked : PushPc → Bool
  | .unset | .notify | .unlock => true
  | _ => false

/-- The thread has cleared the flag and not signalled yet. -/
def PushPc.cleared : PushPc → Bool
  | .lock | .unset | .notify => true
  | _ => false

/-- The thread has pushed and may still signal. -/
def PushPc.waking : PushPc → Bool
  | .check | .clear | .lock | .unset | .notify => true
  | _ => false

/-- The receiver holds `sync_mutex`. -/
def Frame.locked : Frame → Bool
  | .sleep _ (.check _) | .sleep _ (.set _) | .sleep _ .enter | .sleep _ (.unlock _)
  | .sleep _ .unlockSelect => true
  | _ => false

/-- The receiver has found `add_msg` empty and has not set the flag yet. -/
def Frame.window : Frame → Option Method
  | .sleep _ (.set method) => some method
  | _ => none

/-- The receiver has set the flag and is going to block, or blocked. -/
def Frame.armed : Frame → Option Method
  | .sleep _ .enter | .sleep _ .condWait => some .cond
  | .sleep _ .unlockSelect | .sleep _ .select => some .select
  | _ => none

/-- The way of waiting which the receiver has chosen. -/
def Frame.method : Frame → Option Method
  | .sleep _ (.check method) => some method
  | frame => frame.window <|> frame.armed

theorem Frame.method_of_stage {f : Frame} {method : Method}
    (hstage : f.window = some method ∨ f.armed = some method) : f.method = some method := by
  unfold Frame.window Frame.armed at hstage
  unfold Frame.method Frame.window Frame.armed
  rcases hstage with hstage | hstage <;> split at hstage <;> simp_all

namespace MessageThread

/-- Some thread is at a place of this kind. -/
def Someone (s : MessageThread) (p : PushPc → Bool) : Prop :=
  ∃ k pc, s.push k = some pc ∧ p pc = true

/-- The receiver is blocked in its wait, and nothing has been signalled to it. -/
def Blocked (s : MessageThread) : Prop :=
  (∃ call, s.frame = .sleep call .condWait) ∨
    (∃ call, s.frame = .sleep call .select) ∧ s.pipe = some 0

/-- This thread is going to signal. -/
def AboutToWake (s : MessageThread) (k : Nat) : Prop :=
  s.push k = some .check ∧ s.waiting_for_msg = true ∨ s.push k = some .clear ∨
    ∃ pc, s.push k = some pc ∧ pc.cleared = true

/-- The receiver sleeps on messages, and nobody is going to wake it. -/
def LostWakeup (s : MessageThread) : Prop :=
  s.Blocked ∧ s.add_msg ≠ none ∧ ∀ k, ¬ s.AboutToWake k

/-- After a push, a thread does not find the flag unset between the receiver's read of
`add_msg` and its store of the flag, unless another thread, or an octet in the pipe, is
still going to wake the receiver. -/
def NoRace (s : MessageThread) (e : ThreadEvent) : Prop :=
  ∀ k method, e = .push k → s.push k = some .check → s.waiting_for_msg = false →
    s.add_msg ≠ none → s.frame.window = some method →
      (∃ j pc, j ≠ k ∧ s.push j = some pc ∧ pc.waking = true) ∨
        method = .select ∧ s.pipe ≠ some 0

/-- Who holds the mutex, and who is left to wake the receiver. -/
structure Guarded (s : MessageThread) : Prop where
  mutex_push : ∀ k pc, s.push k = some pc → pc.locked = true → s.sync_mutex = some k
  mutex_frame : s.frame.locked = true → s.sync_mutex = some 0
  /-- The receiver posts nothing itself while it waits. -/
  still : s.frame.locked = true ∨ s.frame.method ≠ none → s.push 0 = none
  method : ∀ method, s.frame.method = some method → s.method = method
  /-- Messages that came after the receiver looked are being announced. -/
  announced : ∀ method, s.frame.window = some method ∨ s.frame.armed = some method →
    s.add_msg ≠ none → s.Someone PushPc.waking ∨ method = .select ∧ s.pipe ≠ some 0
  /-- Whoever cleared the flag is going to signal. -/
  flagged : ∀ method, s.frame.armed = some method → s.waiting_for_msg = false →
    s.Someone PushPc.cleared ∨ method = .select ∧ s.pipe ≠ some 0

variable {s t : MessageThread} {k : Nat} {pc : PushPc} {bit : Nat → UInt64}

/-- A thread that goes on leaves the others where they are. -/
theorem Someone.setPush {p : PushPc → Bool} {new : Option PushPc} (h : s.Someone p)
    (hpush : t.push = update s.push k new)
    (hkeep : ∀ pc, s.push k = some pc → p pc = true → ∃ pc', new = some pc' ∧ p pc' = true) :
    t.Someone p := by
  obtain ⟨j, pc, hj, hp⟩ := h
  by_cases hjk : j = k
  · subst hjk
    obtain ⟨pc', rfl, hp'⟩ := hkeep pc hj hp
    exact ⟨j, pc', by simp [hpush], hp'⟩
  · exact ⟨j, pc, by simp [hpush, hjk, hj], hp⟩

theorem someone_self {p : PushPc → Bool} {push : Nat → Option PushPc}
    (hpush : t.push = update push k (some pc)) (hp : p pc = true) : t.Someone p :=
  ⟨k, pc, by simp [hpush], hp⟩

theorem guarded_start (message : MsgId → Message) (method : Method) :
    Guarded (start message method) := by
  constructor <;> simp [start, Frame.locked, Frame.method, Frame.window, Frame.armed]

/-- The receiver is not about to block: only the mutex of the senders matters. -/
theorem guarded_of_away
    (hmutex : ∀ k pc, s.push k = some pc → pc.locked = true → s.sync_mutex = some k)
    (hlocked : s.frame.locked = false) (hmethod : s.frame.method = none) : Guarded s := by
  have hstage : s.frame.window = none ∧ s.frame.armed = none := by
    unfold Frame.method at hmethod
    split at hmethod
    · simp at hmethod
    · simpa using hmethod
  refine ⟨hmutex, ?_, ?_, ?_, ?_, ?_⟩ <;> simp [hlocked, hmethod, hstage.1, hstage.2]

section

variable (h : Guarded s)
include h

theorem Guarded.quit (hpush : t.push = s.push) (hmutex : t.sync_mutex = s.sync_mutex)
    (hlocked : t.frame.locked = false) (hmethod : t.frame.method = none) : Guarded t := by
  refine guarded_of_away ?_ hlocked hmethod
  rw [hpush, hmutex]
  exact h.mutex_push

/-- A thread goes on in `addMessage_lr`, without a signal. If it takes the mutex or gives it back,
nobody else has it. -/
theorem Guarded.advance {new : Option PushPc} (hpush : t.push = update s.push k new)
    (hmutex : t.sync_mutex = s.sync_mutex ∨ s.frame.locked = false ∧
      ∀ j pc, j ≠ k → s.push j = some pc → pc.locked = false)
    (hframe : t.frame = s.frame) (hmethod : t.method = s.method) (hpipe : t.pipe = s.pipe)
    (hk : s.frame.locked = true ∨ s.frame.method ≠ none → k ≠ 0)
    (hlocked : ∀ pc, new = some pc → pc.locked = true → t.sync_mutex = some k)
    (hadd : t.add_msg ≠ none → s.add_msg ≠ none ∨ t.Someone PushPc.waking)
    (hwaking : ∀ pc, s.push k = some pc → pc.waking = true →
      (∃ pc', new = some pc' ∧ pc'.waking = true) ∨
        ∀ method, s.frame.window = some method ∨ s.frame.armed = some method →
          t.add_msg ≠ none → t.Someone PushPc.waking ∨ method = .select ∧ s.pipe ≠ some 0)
    (hflag : t.waiting_for_msg = false → s.waiting_for_msg = false ∨ t.Someone PushPc.cleared)
    (hcleared : ∀ pc, s.push k = some pc → pc.cleared = true →
      ∃ pc', new = some pc' ∧ pc'.cleared = true) : Guarded t := by
  refine ⟨?_, ?_, ?_, ?_, ?_, ?_⟩
  · intro j pc hj hp
    by_cases hjk : j = k
    · subst hjk
      exact hlocked pc (by simpa [hpush] using hj) hp
    · have hj : s.push j = some pc := by simpa [hpush, hjk] using hj
      rcases hmutex with hmutex | ⟨-, hothers⟩
      · rw [hmutex]
        exact h.mutex_push j pc hj hp
      · simp [hothers j pc hjk hj] at hp
  · rw [hframe]
    intro hlocked
    rcases hmutex with hmutex | ⟨haway, -⟩
    · rw [hmutex]
      exact h.mutex_frame hlocked
    · simp [haway] at hlocked
  · rw [hframe]
    intro hcond
    have hne := hk hcond
    rw [hpush, update_of_ne (Ne.symm hne)]
    exact h.still hcond
  · rw [hframe, hmethod]
    exact h.method
  · rw [hframe, hpipe]
    intro method hstage hne
    rcases hadd hne with hne' | hsome
    · rcases h.announced method hstage hne' with ⟨j, pc, hj, hp⟩ | hright
      · by_cases hjk : j = k
        · subst hjk
          rcases hwaking pc hj hp with ⟨pc', rfl, hp'⟩ | hother
          · exact .inl (someone_self hpush hp')
          · exact hother method hstage hne
        · exact .inl ⟨j, pc, by simp [hpush, hjk, hj], hp⟩
      · exact .inr hright
    · exact .inl hsome
  · rw [hframe, hpipe]
    intro method harmed hfalse
    rcases hflag hfalse with hfalse | hsome
    · rcases h.flagged method harmed hfalse with hsome | hright
      · exact .inl (hsome.setPush hpush hcleared)
      · exact .inr hright
    · exact .inl hsome

/-- Nobody is left to announce what one thread finds unset, outside of the race. -/
theorem Guarded.others_wake (good : NoRace s (.push k)) (hk : s.push k = some .check)
    (hfalse : s.waiting_for_msg = false) (hadd : s.add_msg ≠ none) (method : Method)
    (hstage : s.frame.window = some method ∨ s.frame.armed = some method) :
    (∃ j pc, j ≠ k ∧ s.push j = some pc ∧ pc.waking = true) ∨
      method = .select ∧ s.pipe ≠ some 0 := by
  rcases hstage with hwindow | harmed
  · exact good k method rfl hk hfalse hadd hwindow
  · rcases h.flagged method harmed hfalse with ⟨j, pc, hj, hp⟩ | hright
    · refine .inl ⟨j, pc, ?_, hj, ?_⟩
      · rintro rfl
        obtain rfl : PushPc.check = pc := by simpa [hk] using hj
        simp [PushPc.cleared] at hp
      · cases pc <;> simp_all [PushPc.cleared, PushPc.waking]
    · exact .inr hright

/-- The receiver holds the mutex or has chosen how to wait: it is not posting. -/
theorem Guarded.not_receiver (hk : s.push k = some pc) :
    s.frame.locked = true ∨ s.frame.method ≠ none → k ≠ 0 := by
  rintro hcond rfl
  rw [h.still hcond] at hk
  simp at hk

/-- A thread that holds the mutex finds the receiver blocked or away from its wait. -/
theorem Guarded.frame_of_locked (hk : s.push k = some pc) (hp : pc.locked = true) :
    s.frame.locked = false := by
  by_contra hlocked
  have hlocked : s.frame.locked = true := by simpa using hlocked
  have hmutex := h.mutex_push k pc hk hp
  rw [h.mutex_frame hlocked] at hmutex
  exact h.not_receiver hk (.inl hlocked) (Option.some.inj hmutex).symm

/-- The signal reaches a receiver that waits for it. -/
theorem Guarded.notify (hk : s.push k = some .notify)
    (hpush : t.push = update s.push k (some .unlock))
    (hmutex : t.sync_mutex = s.sync_mutex) (hmethod : t.method = s.method)
    (hframe : t.frame = s.frame ∧ (s.frame.method = some .select → t.pipe ≠ some 0) ∧
        s.frame.method ≠ some .cond ∨
      t.frame.locked = false ∧ t.frame.method = none) : Guarded t := by
  have hlocked := h.frame_of_locked hk rfl
  have hpush' : ∀ j pc, t.push j = some pc → pc.locked = true → t.sync_mutex = some j := by
    intro j pc hj hp
    rw [hmutex]
    by_cases hjk : j = k
    · subst hjk
      exact h.mutex_push j .notify hk rfl
    · exact h.mutex_push j pc (by simpa [hpush, hjk] using hj) hp
  rcases hframe with ⟨hframe, hpipe, hcond⟩ | ⟨hlocked', hmethod'⟩
  · have hstage : ∀ method, s.frame.window = some method ∨ s.frame.armed = some method →
        method = .select ∧ t.pipe ≠ some 0 := by
      intro method hstage
      have hsame := Frame.method_of_stage hstage
      cases method with
      | cond => exact absurd hsame hcond
      | select => exact ⟨rfl, hpipe hsame⟩
    refine ⟨hpush', ?_, ?_, ?_, ?_, ?_⟩
    · simp [hframe, hlocked]
    · rw [hframe]
      intro hsome
      have hne := h.not_receiver hk hsome
      rw [hpush, update_of_ne (Ne.symm hne)]
      exact h.still hsome
    · rw [hframe, hmethod]
      exact h.method
    · rw [hframe]
      exact fun method hs _ => .inr (hstage method hs)
    · rw [hframe]
      exact fun method hs _ => .inr (hstage method (.inr hs))
  · exact guarded_of_away hpush' hlocked' hmethod'

/-- Every step of `addMessage_lr` outside of the race keeps someone to wake the receiver. -/
theorem Guarded.pushStep (good : NoRace s (.push k)) (hstep : s.pushStep k = some t) :
    Guarded t := by
  unfold MessageThread.pushStep at hstep
  cases hk : s.push k with
  | none => simp [hk] at hstep
  | some pc =>
    have hne := h.not_receiver hk
    simp only [hk] at hstep
    cases pc with
    | read msg | link msg n =>
      obtain rfl := Option.some.inj hstep
      refine h.advance (k := k) rfl (.inl rfl) rfl rfl rfl hne ?_ .inl ?_ .inl ?_ <;>
        simp [hk, PushPc.locked, PushPc.waking, PushPc.cleared]
    | swap msg n =>
      dsimp only at hstep
      split at hstep
      · obtain rfl := Option.some.inj hstep
        refine h.advance (k := k) rfl (.inl rfl) rfl rfl rfl hne ?_ ?_ ?_ .inl ?_
        · simp [PushPc.locked]
        · exact fun _ => .inr (someone_self rfl rfl)
        · simp [hk, PushPc.waking]
        · simp [hk, PushPc.cleared]
      · obtain rfl := Option.some.inj hstep
        refine h.advance (k := k) rfl (.inl rfl) rfl rfl rfl hne ?_ .inl ?_ .inl ?_ <;>
          simp [hk, PushPc.locked, PushPc.waking, PushPc.cleared]
    | check =>
      obtain rfl := Option.some.inj hstep
      cases hflag : s.waiting_for_msg with
      | true =>
        refine h.advance (k := k) rfl (.inl rfl) rfl rfl rfl hne ?_ .inl ?_ .inl ?_
        · simp [PushPc.locked]
        · exact fun _ _ _ => .inl ⟨.clear, by simp, rfl⟩
        · simp [hk, PushPc.cleared]
      | false =>
        refine h.advance (k := k) rfl (.inl rfl) rfl rfl rfl hne ?_ .inl ?_ .inl ?_
        · simp
        · -- the thread leaves: another one is going to wake the receiver
          intro _ _ _
          right
          intro method hstage hadd
          rcases h.others_wake good hk hflag hadd method hstage with ⟨j, pc, hjk, hj, hp⟩ | hright
          · exact .inl ⟨j, pc, by simp [setPush, hjk, hj], hp⟩
          · exact .inr hright
        · simp [hk, PushPc.cleared]
    | clear =>
      obtain rfl := Option.some.inj hstep
      refine h.advance (k := k) rfl (.inl rfl) rfl rfl rfl hne ?_ .inl ?_ ?_ ?_
      · simp [PushPc.locked]
      · exact fun _ _ _ => .inl ⟨.lock, rfl, rfl⟩
      · exact fun _ => .inr (someone_self rfl rfl)
      · simp [hk, PushPc.cleared]
    | lock =>
      dsimp only at hstep
      split at hstep
      · rename_i hfree
        obtain rfl := Option.some.inj hstep
        have hothers : ∀ j pc, j ≠ k → s.push j = some pc → pc.locked = false := by
          intro j pc _ hj
          by_contra hp
          have := h.mutex_push j pc hj (by simpa using hp)
          simp [hfree] at this
        have hframe : s.frame.locked = false := by
          by_contra hlocked
          have := h.mutex_frame (by simpa using hlocked)
          simp [hfree] at this
        refine h.advance (k := k) rfl (.inr ⟨hframe, hothers⟩) rfl rfl rfl hne ?_ .inl ?_ .inl ?_
        · exact fun _ _ _ => rfl
        · exact fun _ _ _ => .inl ⟨.unset, rfl, rfl⟩
        · exact fun _ _ _ => ⟨.unset, rfl, rfl⟩
      · simp at hstep
    | unset =>
      obtain rfl := Option.some.inj hstep
      refine h.advance (k := k) rfl (.inl rfl) rfl rfl rfl hne ?_ .inl ?_ ?_ ?_
      · exact fun _ _ _ => h.mutex_push k .unset hk rfl
      · exact fun _ _ _ => .inl ⟨.notify, rfl, rfl⟩
      · exact fun _ => .inr (someone_self rfl rfl)
      · exact fun _ _ _ => ⟨.notify, rfl, rfl⟩
    | notify =>
      cases hmethod : s.method with
      | select =>
        simp only [hmethod, Option.some.injEq] at hstep
        subst hstep
        refine h.notify hk rfl rfl rfl (.inl ⟨rfl, ?_, ?_⟩)
        · intro _
          simp only [setPush, writePipe]
          cases s.pipe with
          | none => simp
          | some n =>
            simp only [Option.map_some, pipeCapacity, ne_eq, Option.some.injEq]
            omega
        · intro hcond
          have := h.method .cond hcond
          rw [hmethod] at this
          simp at this
      | cond =>
        simp only [hmethod, Option.some.injEq] at hstep
        subst hstep
        unfold condSignal
        split
        · exact h.notify hk rfl rfl rfl (.inr ⟨rfl, rfl⟩)
        · rename_i hwait
          refine h.notify hk rfl rfl rfl (.inl ⟨rfl, ?_, ?_⟩)
          · intro hselect
            have := h.method .select hselect
            rw [hmethod] at this
            simp at this
          · -- of the places on the condition only the wait itself is without the mutex
            intro hcond
            have hlocked := h.frame_of_locked hk rfl
            cases hframe : s.frame with
            | sleep call pc =>
              cases pc <;> simp_all [Frame.method, Frame.window, Frame.armed, Frame.locked]
            | idle | loop call | reverse call msg o | eval call msg =>
              simp [hframe, Frame.method, Frame.window, Frame.armed] at hcond
    | unlock =>
      obtain rfl := Option.some.inj hstep
      have hmutex := h.mutex_push k .unlock hk rfl
      have hframe := h.frame_of_locked hk rfl
      have hothers : ∀ j pc, j ≠ k → s.push j = some pc → pc.locked = false := by
        intro j pc hjk hj
        by_contra hp
        have := h.mutex_push j pc hj (by simpa using hp)
        rw [hmutex] at this
        exact hjk (Option.some.inj this).symm
      refine h.advance (k := k) rfl (.inr ⟨hframe, hothers⟩) rfl rfl rfl hne ?_ .inl ?_ .inl ?_ <;>
        simp [hk, PushPc.waking, PushPc.cleared]

/-- Posting a message starts away from the mutex and the flag. -/
theorem Guarded.send {msg : MsgId} {body : Message}
    (hk : s.frame.locked = true ∨ s.frame.method ≠ none → k ≠ 0)
    (hstep : s.send k msg body = some t) : Guarded t := by
  unfold MessageThread.send at hstep
  split at hstep
  · rename_i hcond
    obtain rfl := Option.some.inj hstep
    refine h.advance (k := k) rfl (.inl rfl) rfl rfl rfl hk ?_ .inl ?_ .inl ?_ <;>
      simp [hcond.1, PushPc.locked]
  · simp at hstep

end

/-- The receiver returns from a call, or to the loop around `threadSleep`. -/
theorem leave_fields (s : MessageThread) : s.leave.push = s.push ∧
    s.leave.sync_mutex = s.sync_mutex ∧ s.leave.frame.locked = false ∧
      s.leave.frame.method = none := by
  unfold leave
  split <;> exact ⟨rfl, rfl, rfl, rfl⟩

theorem wake_fields (s : MessageThread) (call : Receive) (got_message : Bool) :
    (s.wake call got_message).push = s.push ∧
      (s.wake call got_message).sync_mutex = s.sync_mutex ∧
      (s.wake call got_message).frame.locked = false ∧
      (s.wake call got_message).frame.method = none := by
  unfold wake
  split
  · exact leave_fields s
  · exact ⟨rfl, rfl, rfl, rfl⟩

theorem guarded_postFromSleep {answer : Answer} {call : Receive} {pc : SleepPc} (h : Guarded s)
    (hlocked : (Frame.sleep call pc).locked = false) (hmethod : (Frame.sleep call pc).method = none)
    (hstep : s.postFromSleep answer call pc = some t) : Guarded t := by
  have hgoto : Guarded { s with frame := .sleep call pc } := h.quit rfl rfl hlocked hmethod
  have hk : ({ s with frame := .sleep call pc } : MessageThread).frame.locked = true ∨
      ({ s with frame := .sleep call pc } : MessageThread).frame.method ≠ none → 0 ≠ 0 := by
    simp [hlocked, hmethod]
  unfold postFromSleep at hstep
  cases answer with
  | post msg body => exact hgoto.send hk hstep
  | quiet | expired | interrupted =>
    obtain rfl := Option.some.inj hstep
    exact hgoto

theorem Guarded.takeMutex (h : Guarded s) (hfree : s.sync_mutex = none) (hpush0 : s.push 0 = none)
    (hpush : t.push = s.push) (hmutex : t.sync_mutex = some 0)
    (hmethod : ∀ method, t.frame.method = some method → t.method = method)
    (hwindow : t.frame.window = none) (harmed : t.frame.armed = none) : Guarded t := by
  refine ⟨?_, fun _ => hmutex, ?_, hmethod, ?_, ?_⟩
  · rw [hpush]
    intro j pc hj hp
    have := h.mutex_push j pc hj hp
    simp [hfree] at this
  · rw [hpush]
    exact fun _ => hpush0
  · simp [hwindow, harmed]
  · simp [harmed]

theorem Guarded.mutex_push_of_locked (h : Guarded s) (hlocked : s.frame.locked = true) :
    ∀ k pc, s.push k = some pc → pc.locked = true → none = some k := by
  intro k pc hk hp
  have hmutex := h.mutex_push k pc hk hp
  rw [h.mutex_frame hlocked] at hmutex
  obtain rfl : 0 = k := Option.some.inj hmutex
  rw [h.still (.inl hlocked)] at hk
  simp at hk

/-- The receiver goes on with its wait. -/
theorem guarded_of_waiting {method : Method} (hpush0 : s.push 0 = none)
    (hmethod : t.frame.method = some method) (hsame : t.method = method) (hpush : t.push = s.push)
    (hlocked : t.frame.locked = true → t.sync_mutex = some 0)
    (hmutex : ∀ k pc, s.push k = some pc → pc.locked = true → t.sync_mutex = some k)
    (hannounced : t.add_msg ≠ none →
      s.Someone PushPc.waking ∨ method = .select ∧ t.pipe ≠ some 0)
    (hflagged : t.frame.armed = some method → t.waiting_for_msg = false →
      s.Someone PushPc.cleared ∨ method = .select ∧ t.pipe ≠ some 0) : Guarded t := by
  have hsomeone : ∀ p, s.Someone p → t.Someone p := by
    rintro p ⟨k, pc, hk, hp⟩
    exact ⟨k, pc, hpush ▸ hk, hp⟩
  refine ⟨hpush ▸ hmutex, hlocked, fun _ => hpush ▸ hpush0, ?_, ?_, ?_⟩
  · intro method' heq
    obtain rfl := Option.some.inj (hmethod.symm.trans heq)
    exact hsame
  · intro method' hstage hadd
    obtain rfl := Option.some.inj (hmethod.symm.trans (Frame.method_of_stage hstage))
    exact (hannounced hadd).imp_left (hsomeone _)
  · intro method' harmed hfalse
    obtain rfl := Option.some.inj (hmethod.symm.trans (Frame.method_of_stage (.inr harmed)))
    exact (hflagged harmed hfalse).imp_left (hsomeone _)

/-- Every step of `threadSleep` keeps someone to wake the receiver. -/
theorem Guarded.sleepStep {answer : Answer} {call : Receive} {pc : SleepPc} (h : Guarded s)
    (hframe : s.frame = .sleep call pc) (hpush0 : s.push 0 = none)
    (hstep : s.sleepStep answer call pc = some t) : Guarded t := by
  unfold MessageThread.sleepStep at hstep
  dsimp only at hstep
  cases pc with
  | prechecks left =>
    cases left with
    | nil =>
      dsimp only at hstep
      split at hstep <;> obtain rfl := Option.some.inj hstep <;> exact h.quit rfl rfl rfl rfl
    | cons node left =>
      dsimp only at hstep
      split at hstep
      · exact guarded_postFromSleep h rfl rfl hstep
      · obtain rfl := Option.some.inj hstep
        exact h.quit rfl rfl rfl rfl
  | lock method =>
    dsimp only at hstep
    split at hstep
    · rename_i hfree
      obtain rfl := Option.some.inj hstep
      refine h.takeMutex hfree hpush0 rfl rfl ?_ rfl rfl
      intro method' heq
      exact Option.some.inj heq
    · simp at hstep
  | check method =>
    have hlocked : s.frame.locked = true := by rw [hframe]; rfl
    have hsame := h.method method (by rw [hframe]; rfl)
    dsimp only at hstep
    split at hstep
    · rename_i hempty
      obtain rfl := Option.some.inj hstep
      exact guarded_of_waiting hpush0 rfl hsame rfl (fun _ => h.mutex_frame hlocked) h.mutex_push
        (absurd hempty) (by simp [Frame.armed])
    · obtain rfl := Option.some.inj hstep
      refine ⟨h.mutex_push, fun _ => h.mutex_frame hlocked, fun _ => hpush0, ?_, ?_, ?_⟩ <;>
        simp [Frame.method, Frame.window, Frame.armed]
  | set method =>
    have hlocked : s.frame.locked = true := by rw [hframe]; rfl
    have hsame := h.method method (by rw [hframe]; rfl)
    have hannounced := h.announced method (.inl (by rw [hframe]; rfl))
    cases method with
    | cond =>
      obtain rfl := Option.some.inj hstep
      exact guarded_of_waiting hpush0 rfl hsame rfl (fun _ => h.mutex_frame hlocked) h.mutex_push hannounced
        (by simp)
    | select =>
      obtain rfl := Option.some.inj hstep
      exact guarded_of_waiting hpush0 rfl hsame rfl (fun _ => h.mutex_frame hlocked) h.mutex_push hannounced
        (by simp)
  | enter =>
    -- the mutex is given up together with the start of the wait
    have hmutex := h.mutex_push_of_locked (by rw [hframe]; rfl)
    have hsame := h.method .cond (by rw [hframe]; rfl)
    have hannounced := h.announced .cond (.inr (by rw [hframe]; rfl))
    have hflagged := h.flagged .cond (by rw [hframe]; rfl)
    obtain rfl := Option.some.inj hstep
    exact guarded_of_waiting hpush0 rfl hsame rfl (by simp [Frame.locked]) hmutex hannounced fun _ => hflagged
  | unlockSelect =>
    have hmutex := h.mutex_push_of_locked (by rw [hframe]; rfl)
    have hsame := h.method .select (by rw [hframe]; rfl)
    have hannounced := h.announced .select (.inr (by rw [hframe]; rfl))
    have hflagged := h.flagged .select (by rw [hframe]; rfl)
    obtain rfl := Option.some.inj hstep
    exact guarded_of_waiting hpush0 rfl hsame rfl (by simp [Frame.locked]) hmutex hannounced fun _ => hflagged
  | condWait =>
    cases answer with
    | quiet => simp at hstep
    | post msg body => simp at hstep
    | interrupted =>
      obtain rfl := Option.some.inj hstep
      exact h.quit rfl rfl rfl rfl
    | expired =>
      dsimp only at hstep
      split at hstep
      · obtain rfl := Option.some.inj hstep
        exact h.quit rfl rfl rfl rfl
      · simp at hstep
  | relock got_message =>
    dsimp only at hstep
    split at hstep
    · rename_i hfree
      obtain rfl := Option.some.inj hstep
      refine h.takeMutex hfree hpush0 rfl rfl ?_ rfl rfl
      simp [Frame.method, Frame.window, Frame.armed]
    · simp at hstep
  | unlock got_message =>
    obtain rfl := Option.some.inj hstep
    have hmutex := h.mutex_push_of_locked (by rw [hframe]; rfl)
    obtain ⟨hpush, hsync, hlocked, hmethod⟩ := wake_fields { s with sync_mutex := none } call got_message
    refine guarded_of_away ?_ hlocked hmethod
    rw [hpush, hsync]
    exact hmutex
  | select =>
    cases answer with
    | quiet | post msg body =>
      obtain rfl := Option.some.inj hstep
      exact h.quit rfl rfl rfl rfl
    | interrupted | expired =>
      dsimp only at hstep
      split at hstep
      · obtain rfl := Option.some.inj hstep
        exact h.quit rfl rfl rfl rfl
      · simp at hstep
  | unset got_message readable | drain got_message =>
    dsimp only at hstep
    split at hstep <;> obtain rfl := Option.some.inj hstep <;> exact h.quit rfl rfl rfl rfl
  | notifs got_message left =>
    cases left with
    | nil =>
      obtain rfl := Option.some.inj hstep
      obtain ⟨hpush, hsync, hlocked, hmethod⟩ := wake_fields s call got_message
      exact h.quit hpush hsync hlocked hmethod
    | cons node left => exact guarded_postFromSleep h rfl rfl hstep

/-- Outside of `threadSleep` the receiver does not wait. -/
theorem loopStep_fields (bit : Nat → UInt64) (s : MessageThread) (call : Receive) :
    (s.loopStep bit call).push = s.push ∧ (s.loopStep bit call).sync_mutex = s.sync_mutex ∧
      (s.loopStep bit call).frame.locked = false ∧ (s.loopStep bit call).frame.method = none := by
  have hhandle (u : MessageThread) (msg : MsgId) : (u.handle bit call msg).push = u.push ∧
      (u.handle bit call msg).sync_mutex = u.sync_mutex ∧
      (u.handle bit call msg).frame.locked = false ∧
      (u.handle bit call msg).frame.method = none := by
    unfold handle
    cases call with
    | processMessages wait_answer =>
      split
      · dsimp only
        split <;> exact ⟨rfl, rfl, rfl, rfl⟩
      · exact ⟨rfl, rfl, rfl, rfl⟩
    | waitAnyMessageTimeout timeout_ns =>
      split
      · exact ⟨rfl, rfl, rfl, rfl⟩
      · exact leave_fields u
    | processOneMessage =>
      split
      · exact leave_fields (u.markSerial bit (u.message msg).serial)
      · exact ⟨rfl, rfl, rfl, rfl⟩
  obtain ⟨-, heq⟩ | ⟨msg, -, heq⟩ | ⟨msg, -, -, -, heq⟩ | ⟨-, -, heq⟩ := loopStep_cases bit s call
  · rw [heq]
    exact leave_fields s
  · rw [heq]
    exact hhandle (s.take msg) msg
  · rw [heq]
    exact ⟨rfl, rfl, rfl, rfl⟩
  · rw [heq]
    exact ⟨rfl, rfl, rfl, rfl⟩

theorem evaluated_fields (s : MessageThread) (call : Receive) (msg : MsgId) :
    (s.evaluated call msg).push = s.push ∧ (s.evaluated call msg).sync_mutex = s.sync_mutex ∧
      (s.evaluated call msg).frame.locked = false ∧
      (s.evaluated call msg).frame.method = none := by
  unfold evaluated
  dsimp only
  split
  · split
    · exact leave_fields { s with
        message := update s.message msg { s.message msg with answered := true } }
    · exact leave_fields s
  · split <;> exact ⟨rfl, rfl, rfl, rfl⟩

/-- Every step outside of the race keeps someone to wake the receiver. -/
theorem Guarded.step {e : ThreadEvent} (h : Guarded s) (good : NoRace s e)
    (hstep : s.step bit e = some t) : Guarded t := by
  have away (houtside : s.outside) : s.frame.locked = false ∧ s.frame.method = none := by
    unfold outside at houtside
    split at houtside
    · rename_i hframe
      rw [hframe]
      exact ⟨rfl, rfl⟩
    · rename_i hframe
      rw [hframe]
      exact ⟨rfl, rfl⟩
    · simp at houtside
  cases e with
  | send thread msg body =>
    simp only [MessageThread.step] at hstep
    split at hstep
    · rename_i hcond
      refine h.send ?_ hstep
      rintro hstage rfl
      have houtside : s.outside := by simpa using hcond
      obtain ⟨hlocked, hmethod⟩ := away houtside
      simp [hlocked, hmethod] at hstage
    · simp at hstep
  | push thread => exact h.pushStep good hstep
  | call call =>
    simp only [MessageThread.step] at hstep
    split at hstep
    · obtain rfl := Option.some.inj hstep
      unfold enter
      split <;> exact h.quit rfl rfl rfl rfl
    · simp at hstep
  | registerSocket socket | unregisterSocket fd =>
    simp only [MessageThread.step] at hstep
    split at hstep
    · rename_i hcond
      obtain rfl := Option.some.inj hstep
      obtain ⟨hlocked, hmethod⟩ := away hcond.2
      exact h.quit rfl rfl hlocked hmethod
    · simp at hstep
  | receive answer =>
    simp only [MessageThread.step] at hstep
    split at hstep
    · rename_i hpush0
      unfold receiveStep at hstep
      cases hframe : s.frame with
      | idle => simp [hframe] at hstep
      | loop call =>
        simp only [hframe, Option.some.injEq] at hstep
        subst hstep
        obtain ⟨hpush, hsync, hlocked, hmethod⟩ := loopStep_fields bit s call
        exact h.quit hpush hsync hlocked hmethod
      | reverse call msg o =>
        simp only [hframe, Option.some.injEq] at hstep
        subst hstep
        unfold reverseStep
        split <;> exact h.quit rfl rfl rfl rfl
      | eval call msg =>
        simp only [hframe, Option.some.injEq] at hstep
        subst hstep
        obtain ⟨hpush, hsync, hlocked, hmethod⟩ := evaluated_fields s call msg
        exact h.quit hpush hsync hlocked hmethod
      | sleep call pc =>
        simp only [hframe] at hstep
        exact h.sleepStep hframe hpush0 hstep
    · simp at hstep

theorem Guarded.reachable (h : (machine bit).ReachableWith NoRace s) : Guarded s := by
  refine h.invariant Guarded ?_ fun _ _ _ hs good => hs.step good
  rintro s ⟨message, method, rfl⟩
  exact guarded_start message method

/-- A blocked receiver with messages has someone who is going to wake it. -/
theorem Guarded.not_lost (h : Guarded s) : ¬ s.LostWakeup := by
  rintro ⟨hblocked, hadd, hnobody⟩
  have hstage : ∃ method, s.frame.armed = some method ∧
      (method = .select ∧ s.pipe ≠ some 0 → False) := by
    rcases hblocked with ⟨call, hframe⟩ | ⟨⟨call, hframe⟩, hpipe⟩
    · exact ⟨.cond, by rw [hframe]; rfl, by simp⟩
    · exact ⟨.select, by rw [hframe]; rfl, by simp [hpipe]⟩
  obtain ⟨method, harmed, hpipe⟩ := hstage
  rcases h.announced method (.inr harmed) hadd with ⟨k, pc, hk, hp⟩ | hright
  · have hnot := hnobody k
    unfold AboutToWake at hnot
    rw [hk] at hnot
    cases pc with
    | check =>
      -- the flag has been cleared by another thread, which is going to signal
      have hfalse : s.waiting_for_msg = false := by simpa [PushPc.cleared] using hnot
      rcases h.flagged method harmed hfalse with ⟨j, pc', hj, hp'⟩ | hright
      · exact hnobody j (.inr (.inr ⟨pc', hj, hp'⟩))
      · exact hpipe hright
    | read msg | link msg n | swap msg n | unlock => simp [PushPc.waking] at hp
    | clear => simp at hnot
    | lock | unset | notify => simp [PushPc.cleared] at hnot
  · exact hpipe hright

/-- In every run without the race, no wake-up is lost. -/
theorem no_lostWakeup_of_noRace (bit : Nat → UInt64) (s : MessageThread)
    (h : (machine bit).ReachableWith NoRace s) : ¬ s.LostWakeup :=
  (Guarded.reachable h).not_lost

/-- A message is pushed while the receiver is blocked; its sender is about to wake it. -/
theorem no_lostWakeup_of_noRace_blocked :
    ∃ s, (machine fun _ => 0).ReachableWith NoRace s ∧ s.Blocked ∧ s.add_msg = some 10 ∧
      ¬ s.LostWakeup := by
  let events : List ThreadEvent := [.call (.waitAnyMessageTimeout (-1)), .receive .quiet,
    .receive .quiet, .receive .quiet, .receive .quiet, .receive .quiet, .receive .quiet,
    .send 1 10 {}, .push 1, .push 1, .push 1]
  let good : MessageThread → ThreadEvent → Prop := fun s e =>
    e = .receive .quiet ∨ s.frame.window = none
  let m := machine fun _ => 0
  let s₀ := start (fun _ => {}) .cond
  let s := (m.executeWith good s₀ events).get (by decide)
  have run : m.Run good s₀ events s := Machine.run_of_executeWith (Option.some_get _).symm
  have weaker : ∀ s e, good s e → NoRace s e := by
    rintro s e hgood k method rfl - - - hwindow
    rcases hgood with hgood | hgood
    · simp at hgood
    · simp [hgood] at hwindow
  have hs : m.ReachableWith NoRace s := ⟨s₀, events, ⟨_, _, rfl⟩, run.weaken weaker⟩
  exact ⟨s, hs, .inl ⟨_, rfl⟩, by decide, no_lostWakeup_of_noRace _ s hs⟩

/-- The first race of a run loses a wake-up: the receiver blocks in its next two steps. -/
theorem lost_of_race {e : ThreadEvent} (h : (machine bit).ReachableWith NoRace s)
    (race : ¬ NoRace s e) (hstep : s.step bit e = some t) :
    ∃ u, (machine bit).Run (fun _ _ => True) t [.receive .quiet, .receive .quiet] u ∧
      u.LostWakeup := by
  have hguarded := Guarded.reachable h
  unfold NoRace at race
  push Not at race
  obtain ⟨k, method, rfl, hk, hfalse, hadd, hwindow, halone, hpipe⟩ := race
  obtain ⟨call, hframe⟩ : ∃ call, s.frame = .sleep call (.set method) := by
    unfold Frame.window at hwindow
    split at hwindow
    · rename_i call method' hframe
      obtain rfl : method' = method := Option.some.inj hwindow
      exact ⟨call, hframe⟩
    · simp at hwindow
  have hpush0 : s.push 0 = none := hguarded.still (.inl (by rw [hframe]; rfl))
  have hk0 : k ≠ 0 := by
    rintro rfl
    rw [hpush0] at hk
    simp at hk
  obtain rfl : s.setPush k none = t := by
    have := hstep
    simpa [step, pushStep, hk, hfalse] using this
  have ht0 : (s.setPush k none).push 0 = none := by
    simp [setPush, update_of_ne (Ne.symm hk0), hpush0]
  have hnobody : ∀ j pc, (s.setPush k none).push j = some pc → pc.waking = false := by
    intro j pc hj
    by_cases hjk : j = k
    · subst hjk
      simp [setPush] at hj
    · simpa using halone j pc hjk (by simpa [setPush, hjk] using hj)
  have hlost (u : MessageThread) (hpush : u.push = (s.setPush k none).push)
      (hadd' : u.add_msg = s.add_msg) (hblocked : u.Blocked) : u.LostWakeup := by
    refine ⟨hblocked, by rwa [hadd'], fun j hj => ?_⟩
    have hnot : ∀ pc, u.push j = some pc → pc.waking = false := by
      rw [hpush]
      exact hnobody j
    rcases hj with ⟨hj, -⟩ | hj | ⟨pc, hj, hp⟩
    · simpa [PushPc.waking] using hnot _ hj
    · simpa [PushPc.waking] using hnot _ hj
    · have := hnot pc hj
      cases pc <;> simp_all [PushPc.waking, PushPc.cleared]
  have hquiet (u u' : MessageThread) (pc : SleepPc) (hidle : u.push 0 = none)
      (hsleep : u.frame = .sleep call pc) (hnext : u.sleepStep .quiet call pc = some u') :
      (machine bit).step u (.receive .quiet) = some u' := by
    simp only [machine, step, hidle, if_true, receiveStep, hsleep, hnext]
  cases method with
  | cond =>
    let u₁ : MessageThread := { s.setPush k none with
      waiting_for_msg := true, frame := .sleep call .enter }
    let u₂ : MessageThread := { u₁ with sync_mutex := none, frame := .sleep call .condWait }
    have h₁ := hquiet (s.setPush k none) u₁ (.set .cond) ht0 hframe rfl
    have h₂ := hquiet u₁ u₂ .enter ht0 rfl rfl
    exact ⟨u₂, (Machine.Run.single trivial h₁).append (.single trivial h₂),
      hlost u₂ rfl rfl (.inl ⟨call, rfl⟩)⟩
  | select =>
    let u₁ : MessageThread := { s.setPush k none with
      waiting_for_msg := true, frame := .sleep call .unlockSelect }
    let u₂ : MessageThread := { u₁ with sync_mutex := none, frame := .sleep call .select }
    have h₁ := hquiet (s.setPush k none) u₁ (.set .select) ht0 hframe rfl
    have h₂ := hquiet u₁ u₂ .unlockSelect ht0 rfl rfl
    exact ⟨u₂, (Machine.Run.single trivial h₁).append (.single trivial h₂),
      hlost u₂ rfl rfl (.inr ⟨⟨call, rfl⟩, hpipe rfl⟩)⟩

/-- The sender has pushed and is about to read the flag. -/
theorem lost_of_race_pushed :
    ∃ s t u, (machine fun _ => 0).ReachableWith NoRace s ∧ ¬ NoRace s (.push 1) ∧
      s.step (fun _ => 0) (.push 1) = some t ∧ (machine fun _ => 0).Run (fun _ _ => True) t
        [.receive .quiet, .receive .quiet] u ∧ u.LostWakeup := by
  let events : List ThreadEvent := [.call (.waitAnyMessageTimeout (-1)), .receive .quiet,
    .receive .quiet, .receive .quiet, .receive .quiet, .send 1 10 {}, .push 1, .push 1, .push 1]
  let good : MessageThread → ThreadEvent → Prop := fun s e =>
    s.frame.window = none ∨ e = .send 1 10 {} ∨ e = .push 1 ∧ s.add_msg = none
  let m := machine fun _ => 0
  let s₀ := start (fun _ => {}) .cond
  let s := (m.executeWith good s₀ events).get (by decide)
  have run : m.Run good s₀ events s := Machine.run_of_executeWith (Option.some_get _).symm
  have weaker : ∀ s e, good s e → NoRace s e := by
    rintro s e hgood k method rfl - - hadd hwindow
    rcases hgood with hnone | hsend | ⟨-, hempty⟩
    · simp [hnone] at hwindow
    · cases hsend
    · exact absurd hempty hadd
  have hs : m.ReachableWith NoRace s := ⟨s₀, events, ⟨_, _, rfl⟩, run.weaken weaker⟩
  have race : ¬ NoRace s (.push 1) := by
    intro hno
    rcases hno 1 .cond rfl rfl rfl (by decide) rfl with ⟨j, pc, hj, hpc, -⟩ | ⟨hselect, -⟩
    · have hpush : ∀ f : Nat → Option PushPc, ∀ pc, update f 1 pc j = f j :=
        fun f pc => update_of_ne hj pc f
      change update (update (update (update
        (fun _ => none) 1 _) 1 _) 1 _) 1 _ j = _ at hpc
      simp only [hpush] at hpc
      cases hpc
    · cases hselect
  let t := (s.step (fun _ => 0) (.push 1)).get (by decide)
  have hstep : s.step (fun _ => 0) (.push 1) = some t := (Option.some_get _).symm
  obtain ⟨u, hu⟩ := lost_of_race hs race hstep
  exact ⟨s, t, u, hs, race, hstep, hu⟩

/-- A sender pushes and finds the flag unset while the receiver is about to set it. -/
theorem lostWakeup_raced :
    ¬ ∀ (bit : Nat → UInt64) (s : MessageThread), (machine bit).Reachable s →
      ¬ s.LostWakeup := by
  intro h
  let events : List ThreadEvent := [.call (.waitAnyMessageTimeout (-1)), .receive .quiet,
    .receive .quiet, .receive .quiet, .receive .quiet, .send 1 10 {}, .push 1, .push 1, .push 1,
    .push 1, .receive .quiet, .receive .quiet]
  let m := machine fun _ => 0
  let s₀ := start (fun _ => {}) .cond
  let s := (m.execute s₀ events).get (by decide)
  have hs : m.Reachable s :=
    ⟨s₀, events, ⟨_, _, rfl⟩, Machine.run_of_execute (Option.some_get _).symm⟩
  have hidle : ∀ k, s.push k = none := by
    intro k
    by_cases hk : k = 1
    · subst hk
      rfl
    · have hpush : ∀ f : Nat → Option PushPc, ∀ pc, update f 1 pc k = f k :=
        fun f pc => update_of_ne hk pc f
      change update (update (update (update (update
        (fun _ => none) 1 _) 1 _) 1 _) 1 _) 1 _ k = none
      simp only [hpush]
  refine h _ s hs ⟨.inl ⟨_, rfl⟩, by decide, fun k hk => ?_⟩
  rcases hk with ⟨hk, -⟩ | hk | ⟨pc, hk, -⟩ <;> simp [hidle k] at hk

end MessageThread

end Drt
