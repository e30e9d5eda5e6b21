import Drt.Core.Thread.Thread

/-!
# The serials that answers are waited for by

`createMessageSerial` hands out serials, and `processMessages` waits for the answer with one of
them. Answers are recorded in words of bits. Clearing a bit shifts an `unsigned long`, setting
and testing one shift an `int`, which serves only the lower bits of a word.
-/

open List Function

namespace Drt

open MessageThread

/-- The value of `1UL<<k`. -/
def longBit (k : Nat) : UInt64 := ⟨1#64 <<< k⟩

/-- A bit of a word. -/
def bitAt (word : UInt64) (k : Nat) : Bool := word.toBitVec.getLsbD k

/-- The test of a bit. -/
theorem and_longBit_ne_zero {k : Nat} (hk : k < 64) (word : UInt64) :
    word &&& longBit k ≠ 0 ↔ bitAt word k = true := by
  have hand : (word &&& longBit k).toBitVec =
      if word.toBitVec.getLsbD k then BitVec.twoPow 64 k else 0#64 := by
    rw [UInt64.toBitVec_and, longBit, ← BitVec.twoPow_eq, BitVec.and_twoPow]
  have hpow : BitVec.twoPow 64 k ≠ 0#64 := by
    intro hzero
    have hbit := congrArg (fun w => w.getLsbD k) hzero
    simp [hk] at hbit
  rw [ne_eq, ← UInt64.toBitVec_inj, hand, bitAt]
  by_cases hbit : word.toBitVec.getLsbD k = true
  · rw [if_pos hbit]
    exact ⟨fun _ => hbit, fun _ => hpow⟩
  · rw [if_neg hbit]
    exact ⟨fun hne => absurd rfl hne, fun h => absurd h hbit⟩

theorem bitAt_or {j k : Nat} (hk : k < 64) (word : UInt64) :
    bitAt (word ||| longBit j) k = (bitAt word k || decide (j = k)) := by
  rw [bitAt, UInt64.toBitVec_or, BitVec.getLsbD_or, longBit, ← BitVec.twoPow_eq,
    BitVec.getLsbD_twoPow, bitAt]
  by_cases hj : j = k
  · subst hj
    simp [hk]
  · simp [hj]

theorem bitAt_clear {j k : Nat} (hk : k < 64) (word : UInt64) :
    bitAt (word &&& ~~~longBit j) k = (bitAt word k && decide (j ≠ k)) := by
  rw [bitAt, UInt64.toBitVec_and, UInt64.toBitVec_not, BitVec.getLsbD_and, BitVec.getLsbD_not,
    longBit, ← BitVec.twoPow_eq, BitVec.getLsbD_twoPow, bitAt]
  by_cases hj : j = k
  · subst hj
    simp [hk]
  · simp [hj, hk]

/-- The call that a frame is in. -/
def Frame.calls : Frame → List Receive
  | .idle => []
  | .loop call => [call]
  | .reverse call _ _ => [call]
  | .eval call _ => [call]
  | .sleep call _ => [call]

namespace MessageThread

/-- The calls in progress, innermost first. -/
def calls (s : MessageThread) : List Receive := s.frame.calls ++ s.suspended.map Prod.fst

/-- The serial that a pass of the loop records: that of the answer which it takes off the queue. -/
def takenBy (bit : Nat → UInt64) (s : MessageThread) (call : Receive) : Option Nat :=
  if s.isAnswered bit call then none
  else
    match s.cur_msg with
    | none => none
    | some msg =>
      if (s.message msg).answered then
        match call with
        | .processMessages _ =>
          if (s.message msg).serial ≠ noSerial then some (s.message msg).serial else none
        | _ => some (s.message msg).serial
      else none

/-- The serial that a step records. -/
def taken (bit : Nat → UInt64) (s : MessageThread) : ThreadEvent → Option Nat
  | .receive _ =>
    match s.frame with
    | .loop call => s.takenBy bit call
    | _ => none
  | _ => none

/-- A step that records no answer, and is in no call that was not in progress. -/
structure SameSerials (s t : MessageThread) : Prop where
  pend : t.serial_pend = s.serial_pend
  calls : ∀ c ∈ t.calls, c ∈ s.calls

namespace SameSerials

variable {s t : MessageThread} {call : Receive} {msg : MsgId} {k : Nat}

theorem of_frame (hpend : t.serial_pend = s.serial_pend) (hframe : t.frame.calls = s.frame.calls)
    (hsuspended : t.suspended = s.suspended) : SameSerials s t := by
  refine ⟨hpend, fun c hc => ?_⟩
  rwa [MessageThread.calls, hframe, hsuspended] at hc

theorem trans {u : MessageThread} (h : SameSerials s t) (h' : SameSerials t u) :
    SameSerials s u :=
  ⟨h'.pend.trans h.pend, fun c hc => h.calls c (h'.calls c hc)⟩

theorem leave (s : MessageThread) : SameSerials s s.leave := by
  unfold MessageThread.leave
  cases hsuspended : s.suspended with
  | nil =>
    exact ⟨rfl, fun c hc => absurd hc not_mem_nil⟩
  | cons p rest =>
    refine ⟨rfl, fun c hc => ?_⟩
    rw [MessageThread.calls, hsuspended]
    exact mem_append_right _ hc

theorem send {body : Message} (hsend : s.send k msg body = some t) : SameSerials s t := by
  unfold MessageThread.send at hsend
  split_ifs at hsend
  obtain rfl := Option.some.inj hsend
  exact of_frame rfl rfl rfl

/-- A step of a push. -/
theorem pushStep (hstep : s.pushStep k = some t) : SameSerials s t := by
  have hsignal : SameSerials s (s.condSignal.setPush k (some .unlock)) := by
    unfold MessageThread.condSignal
    split
    · rename_i hframe
      exact of_frame rfl (by rw [hframe]; rfl) rfl
    · exact of_frame rfl rfl rfl
  unfold MessageThread.pushStep at hstep
  cases hk : s.push k with
  | none => simp [hk] at hstep
  | some pc =>
    simp only [hk] at hstep
    cases pc with
    | swap msg n =>
      dsimp only at hstep
      split at hstep <;> obtain rfl := Option.some.inj hstep <;> exact of_frame rfl rfl rfl
    | lock =>
      dsimp only at hstep
      split_ifs at hstep
      obtain rfl := Option.some.inj hstep
      exact of_frame rfl rfl rfl
    | notify =>
      cases hmethod : s.method with
      | cond =>
        simp only [hmethod] at hstep
        obtain rfl := Option.some.inj hstep
        exact hsignal
      | select =>
        simp only [hmethod] at hstep
        obtain rfl := Option.some.inj hstep
        exact of_frame rfl rfl rfl
    | _ =>
      obtain rfl := Option.some.inj hstep
      exact of_frame rfl rfl rfl

section Sleeping

variable {pc pc' : SleepPc} {answer : Answer}

theorem goto (hframe : s.frame = .sleep call pc) (hpend : t.serial_pend = s.serial_pend)
    (hframe' : t.frame = .sleep call pc') (hsuspended : t.suspended = s.suspended) :
    SameSerials s t :=
  of_frame hpend (by rw [hframe, hframe']; rfl) hsuspended

theorem wake (hcall : s.frame.calls = [call]) (got_message : Bool) :
    SameSerials s (s.wake call got_message) := by
  unfold MessageThread.wake
  split
  · exact leave s
  · exact of_frame rfl hcall.symm rfl

theorem postFromSleep (hframe : s.frame = .sleep call pc)
    (hstep : s.postFromSleep answer call pc' = some t) : SameSerials s t := by
  have hgoto : SameSerials s { s with frame := .sleep call pc' } := goto hframe rfl rfl rfl
  unfold MessageThread.postFromSleep at hstep
  cases answer with
  | post msg body => exact hgoto.trans (send hstep)
  | _ =>
    obtain rfl := Option.some.inj hstep
    exact hgoto

/-- A step of `threadSleep`. -/
theorem sleepStep (hframe : s.frame = .sleep call pc)
    (hstep : s.sleepStep answer call pc = some t) : SameSerials s t := by
  have hcalls : s.frame.calls = [call] := by
    rw [hframe]
    rfl
  unfold MessageThread.sleepStep at hstep
  dsimp only at hstep
  cases pc with
  | prechecks left =>
    cases left with
    | nil =>
      dsimp only at hstep
      split at hstep <;> obtain rfl := Option.some.inj hstep <;> exact goto hframe rfl rfl rfl
    | cons node left =>
      dsimp only at hstep
      split at hstep
      · exact postFromSleep hframe hstep
      · obtain rfl := Option.some.inj hstep
        exact goto hframe rfl rfl rfl
  | notifs got_message left =>
    cases left with
    | nil =>
      obtain rfl := Option.some.inj hstep
      exact wake hcalls got_message
    | cons node left => exact postFromSleep hframe hstep
  | unlock got_message =>
    obtain rfl := Option.some.inj hstep
    have hunlock : SameSerials s { s with sync_mutex := none } := of_frame rfl rfl rfl
    exact hunlock.trans (wake (s := { s with sync_mutex := none }) hcalls got_message)
  | set method =>
    cases method <;> obtain rfl := Option.some.inj hstep <;> exact goto hframe rfl rfl rfl
  | enter | unlockSelect =>
    obtain rfl := Option.some.inj hstep
    exact goto hframe rfl rfl rfl
  | condWait =>
    cases answer with
    | quiet => cases hstep
    | post msg body => cases hstep
    | interrupted =>
      obtain rfl := Option.some.inj hstep
      exact goto hframe rfl rfl rfl
    | expired =>
      dsimp only at hstep
      split_ifs at hstep
      obtain rfl := Option.some.inj hstep
      exact goto hframe rfl rfl rfl
  | select =>
    cases answer with
    | quiet | post msg body =>
      obtain rfl := Option.some.inj hstep
      exact goto hframe rfl rfl rfl
    | interrupted | expired =>
      dsimp only at hstep
      split_ifs at hstep
      obtain rfl := Option.some.inj hstep
      exact goto hframe rfl rfl rfl
  | _ =>
    dsimp only at hstep
    split_ifs at hstep <;> obtain rfl := Option.some.inj hstep <;> exact goto hframe rfl rfl rfl

end Sleeping

theorem evaluated (hcall : s.frame.calls = [call]) (msg : MsgId) :
    SameSerials s (s.evaluated call msg) := by
  unfold MessageThread.evaluated
  cases call with
  | processOneMessage =>
    dsimp only
    split_ifs
    · have hmarked : SameSerials s { s with
          message := update s.message msg { s.message msg with answered := true } } :=
        of_frame rfl rfl rfl
      exact hmarked.trans (leave _)
    · exact leave s
  | _ =>
    dsimp only
    split_ifs <;> exact of_frame rfl hcall.symm rfl

theorem reverseStep {o : Option MsgId} (hframe : s.frame = .reverse call msg o) :
    SameSerials s (s.reverseStep call msg o) := by
  have hcalls : s.frame.calls = [call] := by
    rw [hframe]
    rfl
  unfold MessageThread.reverseStep
  split <;> exact of_frame rfl hcalls.symm rfl

end SameSerials

variable {s t : MessageThread}

/-- The receiver is in no other call after a pass of the loop, and records what it takes. -/
theorem loopStep_serials (bit : Nat → UInt64) {call : Receive} (hframe : s.frame = .loop call) :
    SameSerials ((s.takenBy bit call).elim s (s.markSerial bit)) (s.loopStep bit call) := by
  have hcalls : s.frame.calls = [call] := by
    rw [hframe]
    rfl
  unfold takenBy
  by_cases hanswered : s.isAnswered bit call = true
  · rw [if_pos hanswered, loopStep, if_pos hanswered]
    exact .leave s
  · rw [if_neg hanswered, loopStep, if_neg hanswered]
    cases hcur : s.cur_msg with
    | none =>
      dsimp only
      cases hadd : s.add_msg with
      | none | some msg => exact .of_frame rfl hcalls.symm rfl
    | some msg =>
      dsimp only
      unfold handle
      have hmessage : (s.take msg).message msg = s.message msg := rfl
      rw [hmessage]
      by_cases hanswer : (s.message msg).answered = true
      · rw [if_pos hanswer, if_pos hanswer]
        cases call with
        | processMessages wait_answer =>
          dsimp only
          split_ifs
          · exact .of_frame rfl hcalls.symm rfl
          · exact .of_frame rfl hcalls.symm rfl
        | waitAnyMessageTimeout timeout_ns => exact .of_frame rfl hcalls.symm rfl
        | processOneMessage =>
          have hmarked : SameSerials (s.markSerial bit (s.message msg).serial)
              ((s.take msg).markSerial bit (s.message msg).serial) := .of_frame rfl rfl rfl
          exact hmarked.trans (.leave _)
      · rw [if_neg hanswer, if_neg hanswer]
        cases call with
        | waitAnyMessageTimeout timeout_ns =>
          have htake : SameSerials s (s.take msg) := .of_frame rfl rfl rfl
          exact htake.trans (.leave _)
        | _ => exact .of_frame rfl hcalls.symm rfl

/-- What a step of the receiver does to the records of answers and to the calls in progress. -/
theorem receiveStep_serials {bit : Nat → UInt64} {answer : Answer}
    (hstep : s.receiveStep bit answer = some t) :
    SameSerials ((s.taken bit (.receive answer)).elim s (s.markSerial bit)) t := by
  unfold receiveStep at hstep
  unfold taken
  cases hframe : s.frame with
  | idle => simp [hframe] at hstep
  | loop call =>
    simp only [hframe, Option.some.injEq] at hstep
    subst hstep
    exact loopStep_serials bit hframe
  | reverse call msg o =>
    simp only [hframe, Option.some.injEq] at hstep
    subst hstep
    exact .reverseStep hframe
  | eval call msg =>
    simp only [hframe, Option.some.injEq] at hstep
    subst hstep
    have hcalls : s.frame.calls = [call] := by
      rw [hframe]
      rfl
    have heval : SameSerials s (s.evaluated call msg) := .evaluated hcalls msg
    exact heval
  | sleep call pc =>
    simp only [hframe] at hstep
    exact .sleepStep hframe hstep

/-- What a step does to them. -/
theorem step_serials {bit : Nat → UInt64} {e : ThreadEvent} (hstep : s.step bit e = some t) :
    t.serial_pend = ((s.taken bit e).elim s (s.markSerial bit)).serial_pend ∧
      ∀ c ∈ t.calls, c ∈ s.calls ∨ e = .call c := by
  have hsame : SameSerials s t → t.serial_pend = s.serial_pend ∧
      ∀ c ∈ t.calls, c ∈ s.calls ∨ e = .call c := fun h => ⟨h.pend, fun c hc => .inl (h.calls c hc)⟩
  cases e with
  | send thread msg body =>
    simp only [step] at hstep
    split_ifs at hstep
    exact hsame (.send hstep)
  | push thread => exact hsame (.pushStep hstep)
  | call call =>
    simp only [step] at hstep
    split_ifs at hstep
    obtain rfl := Option.some.inj hstep
    refine ⟨?_, fun c hc => ?_⟩
    · unfold enter
      split <;> rfl
    · unfold enter at hc
      split at hc
      · rename_i call' msg hframe
        rcases mem_cons.mp hc with rfl | hc
        · exact .inr rfl
        · left
          rw [calls, hframe]
          exact hc
      · rcases mem_cons.mp hc with rfl | hc
        · exact .inr rfl
        · exact .inl (mem_append_right _ hc)
  | registerSocket socket | unregisterSocket fd =>
    simp only [step] at hstep
    split_ifs at hstep
    obtain rfl := Option.some.inj hstep
    exact hsame (.of_frame rfl rfl rfl)
  | receive answer =>
    simp only [step] at hstep
    split_ifs at hstep
    have hreceive := receiveStep_serials hstep
    refine ⟨hreceive.pend, fun c hc => .inl ?_⟩
    have hmem := hreceive.calls c hc
    cases htaken : s.taken bit (.receive answer) with
    | none => rwa [htaken] at hmem
    | some serial =>
      rw [htaken] at hmem
      exact hmem

end MessageThread

/-- A message thread with its `serial_level`, and, what is not in its memory, the serials whose
answers have come off the queue. -/
structure SerialThread where
  thread : MessageThread
  serial_level : Nat
  answered : List Nat

/-- A step of a thread, or the receiver takes a serial. -/
inductive SerialEvent where
  | thread (e : ThreadEvent)
  /-- With what a new word of `serial_pend` holds. -/
  | createMessageSerial (garbage : UInt64)
  deriving DecidableEq, Repr

namespace SerialThread

variable {bit : Nat → UInt64} {s t : SerialThread}

/-- `createMessageSerial`; the serial is the former `serial_level`. The first serial of a word makes
`serial_pend` longer by this word. -/
def createMessageSerial (s : SerialThread) (garbage : UInt64) : SerialThread :=
  let serial := s.serial_level
  let word := if serial % 64 = 0 then garbage else s.thread.serial_pend (serial / 64)
  { s with
    thread := { s.thread with
      serial_pend := Function.update s.thread.serial_pend (serial / 64)
        (word &&& ~~~longBit (serial % 64)) }
    serial_level := (serial + 1) % 2 ^ 32 }

/-- One step. The receiver takes serials where it may start calls. -/
def step (bit : Nat → UInt64) (s : SerialThread) : SerialEvent → Option SerialThread
  | .thread e => (s.thread.step bit e).map fun t =>
    { s with thread := t, answered := (s.thread.taken bit e).toList ++ s.answered }
  | .createMessageSerial garbage =>
    if s.thread.push 0 = none ∧ s.thread.outside then some (s.createMessageSerial garbage)
    else none

/-- All interleavings. -/
def machine (bit : Nat → UInt64) : Machine SerialThread SerialEvent where
  init s := ∃ message method, s = ⟨.start message method, 0, []⟩
  step := step bit

/-- A serial that has been handed out, and whose bit an `int` has below its sign. -/
def usable (serial_level serial : Nat) : Bool := decide (serial < serial_level ∧ serial % 64 < 31)

/-- What `processMessages` is called with: a usable serial, or no serial at all. -/
def awaits (serial_level : Nat) : ThreadEvent → Bool
  | .call (.processMessages wait_answer) =>
    decide (wait_answer < 0) || usable serial_level wait_answer.toNat
  | _ => true

/-- Serials are handed out as long as an `int` has them, and the serials that are waited for, or
whose answers are taken, are usable. -/
def used (bit : Nat → UInt64) (s : SerialThread) : SerialEvent → Bool
  | .thread e =>
    (s.thread.taken bit e).all (usable s.serial_level) && awaits s.serial_level e
  | .createMessageSerial _ => decide (s.serial_level < 2 ^ 31)

/-- At the start of its loop, where it returns from, `processMessages` finds that it is done
exactly if the answer with its serial has come. -/
def Exact (bit : Nat → UInt64) (s : SerialThread) : Prop :=
  ∀ serial : Nat, s.thread.frame = .loop (.processMessages serial) →
    (s.thread.isAnswered bit (.processMessages serial) = true ↔ serial ∈ s.answered)

/-- A call waits for a usable serial, or for none. -/
def Waits (serial_level : Nat) (call : Receive) : Prop :=
  ∀ wait_answer, call = .processMessages wait_answer → 0 ≤ wait_answer →
    usable serial_level wait_answer.toNat = true

/-- The invariant: the bits of usable serials say whose answers have come. -/
structure Inv (s : SerialThread) : Prop where
  handed : ∀ serial ∈ s.answered, serial < s.serial_level
  waits : ∀ call ∈ s.thread.calls, Waits s.serial_level call
  bits : ∀ serial, usable s.serial_level serial = true →
    (bitAt (s.thread.serial_pend (serial / 64)) (serial % 64) = true ↔ serial ∈ s.answered)

variable {serial serial_level : Nat}

theorem usable_iff : usable serial_level serial = true ↔ serial < serial_level ∧ serial % 64 < 31 :=
  decide_eq_true_iff

theorem usable_succ (h : usable serial_level serial = true) :
    usable (serial_level + 1) serial = true := by
  rw [usable_iff] at h ⊢
  exact ⟨Nat.lt_succ_of_lt h.1, h.2⟩

/-- A new serial has no answer yet, and the others keep theirs. -/
theorem Inv.create (h : s.Inv) (hlevel : s.serial_level < 2 ^ 31) (garbage : UInt64) :
    (s.createMessageSerial garbage).Inv := by
  have hnext : (s.serial_level + 1) % 2 ^ 32 = s.serial_level + 1 := Nat.mod_eq_of_lt (by omega)
  refine ⟨?_, ?_, ?_⟩
  · intro serial hserial
    change serial < (s.serial_level + 1) % 2 ^ 32
    rw [hnext]
    exact Nat.lt_succ_of_lt (h.handed serial hserial)
  · intro call hcall wait_answer hwaits hpos
    change usable ((s.serial_level + 1) % 2 ^ 32) wait_answer.toNat = true
    rw [hnext]
    exact usable_succ (h.waits call hcall wait_answer hwaits hpos)
  · intro serial hserial
    change usable ((s.serial_level + 1) % 2 ^ 32) serial = true at hserial
    rw [hnext, usable_iff] at hserial
    obtain ⟨hlt, hlow⟩ := hserial
    unfold SerialThread.createMessageSerial
    dsimp only
    by_cases hnew : serial = s.serial_level
    · subst hnew
      rw [update_self, bitAt_clear (by omega)]
      simp only [ne_eq, not_true_eq_false, decide_false, Bool.and_false, Bool.false_eq_true,
        false_iff]
      exact fun hmem => Nat.lt_irrefl _ (h.handed _ hmem)
    · have hold := h.bits serial (usable_iff.mpr ⟨by omega, hlow⟩)
      by_cases hword : serial / 64 = s.serial_level / 64
      · have hinside : s.serial_level % 64 ≠ 0 := by omega
        have happart : s.serial_level % 64 ≠ serial % 64 := by omega
        rw [hword, update_self, bitAt_clear (by omega), if_neg hinside, ← hword,
          decide_eq_true happart, Bool.and_true]
        exact hold
      · rw [update_of_ne hword]
        exact hold

section

variable (hbit : ∀ k < 31, bit k = longBit k)
include hbit

/-- An answer sets the bit of its serial and no other usable one. -/
theorem Inv.mark (h : s.Inv) (husable : usable s.serial_level serial = true) :
    Inv { s with
      thread := s.thread.markSerial bit serial
      answered := serial :: s.answered } := by
  obtain ⟨hlt, hlow⟩ := usable_iff.mp husable
  refine ⟨?_, h.waits, ?_⟩
  · intro serial' hmem
    rcases mem_cons.mp hmem with rfl | hmem
    · exact hlt
    · exact h.handed serial' hmem
  · intro serial' husable'
    obtain ⟨-, hlow'⟩ := usable_iff.mp husable'
    have hold := h.bits serial' husable'
    unfold markSerial
    dsimp only
    rw [mem_cons, ← hold, hbit _ hlow]
    by_cases hword : serial' / 64 = serial / 64
    · have hsame : serial % 64 = serial' % 64 ↔ serial' = serial := by omega
      rw [hword, update_self, bitAt_or (by omega), Bool.or_eq_true, decide_eq_true_iff,
        hsame, or_comm]
    · have happart : serial' ≠ serial := by
        rintro rfl
        exact hword rfl
      rw [update_of_ne hword, or_iff_right happart]

/-- A step of which all serials are usable keeps the invariant. -/
theorem Inv.step (h : s.Inv) {e : SerialEvent} (hused : s.used bit e = true)
    (hstep : s.step bit e = some t) : t.Inv := by
  cases e with
  | createMessageSerial garbage =>
    simp only [SerialThread.step] at hstep
    split_ifs at hstep
    obtain rfl := Option.some.inj hstep
    exact h.create (of_decide_eq_true hused) garbage
  | thread e =>
    obtain ⟨u, hu, rfl⟩ := Option.map_eq_some_iff.mp hstep
    obtain ⟨hpend, hcalls⟩ := step_serials hu
    rw [used, Bool.and_eq_true] at hused
    obtain ⟨htaken, hcall⟩ := hused
    have hmarked : Inv { s with
        thread := (s.thread.taken bit e).elim s.thread (s.thread.markSerial bit)
        answered := (s.thread.taken bit e).toList ++ s.answered } := by
      cases hserial : s.thread.taken bit e with
      | none => exact h
      | some serial =>
        rw [hserial] at htaken
        exact h.mark hbit htaken
    refine ⟨hmarked.handed, ?_, ?_⟩
    · intro call hmem
      rcases hcalls call hmem with hold | rfl
      · exact h.waits call hold
      · rintro wait_answer rfl hpos
        rw [awaits, Bool.or_eq_true, decide_eq_true_iff] at hcall
        exact hcall.resolve_left (Int.not_lt.mpr hpos)
    · intro serial husable
      rw [hpend]
      exact hmarked.bits serial husable

/-- So `processMessages` waits for no other answer. -/
theorem Inv.exact (h : s.Inv) : s.Exact bit := by
  intro serial hframe
  have hmem : Receive.processMessages serial ∈ s.thread.calls := by
    rw [calls, hframe]
    exact mem_cons_self
  have husable := h.waits _ hmem serial rfl (Int.natCast_nonneg serial)
  rw [Int.toNat_natCast] at husable
  obtain ⟨-, hlow⟩ := usable_iff.mp husable
  have hanswered : s.thread.isAnswered bit (.processMessages serial) =
      (decide (0 ≤ (serial : Int)) &&
        decide (s.thread.serial_pend (serial / 64) &&& bit (serial % 64) ≠ 0)) := rfl
  rw [hanswered, Bool.and_eq_true, decide_eq_true_iff, decide_eq_true_iff, hbit _ hlow,
    and_longBit_ne_zero (by omega), h.bits serial husable]
  exact and_iff_right (Int.natCast_nonneg serial)

end

/-- In every run whose serials are all usable, `processMessages` returns exactly when the answer it
waits for has come. -/
theorem exact_of_used (hbit : ∀ k < 31, bit k = longBit k)
    (h : (machine bit).ReachableWith (fun s e => s.used bit e = true) s) : s.Exact bit := by
  have hinv : s.Inv := by
    refine h.invariant Inv ?_ ?_
    · rintro s ⟨message, method, rfl⟩
      refine ⟨?_, ?_, ?_⟩
      · intro serial hmem
        cases hmem
      · intro call hmem
        cases hmem
      · intro serial husable
        exact absurd (usable_iff.mp husable).1 (Nat.not_lt_zero serial)
    · intro s e t hs hused hstep
      exact hs.step hbit hused hstep
  exact hinv.exact hbit

/-- The value of `1<<k` where an `int` is shifted by `k` modulo its width, and its sign is extended
to a `long`. -/
def intBit (k : Nat) : UInt64 := if k % 32 = 31 then 0xFFFFFFFF80000000 else longBit (k % 32)

/-- Serials are handed out, then one is waited for while this answer comes. -/
def exchange (handed wait_answer answer : Nat) : List SerialEvent :=
  List.replicate handed (.createMessageSerial 0) ++
  [.call (.processMessages wait_answer), .send 1 10 { answered := true, serial := answer },
    .push 1, .push 1, .push 1, .push 1, .receive .quiet, .receive .quiet, .receive .quiet].map
    SerialEvent.thread

/-- The start of the runs below. -/
def fresh : SerialThread := ⟨.start (fun _ => {}) .cond, 0, []⟩

/-- Three serials are handed out, and the last one is waited for. The answer for the first one does
not end the wait; then the right one comes, and that for the second is still outstanding. -/
theorem exact_of_used_outstanding :
    ∃ s t, (machine intBit).ReachableWith (fun s e => s.used intBit e = true) s ∧
      s.thread.frame = .loop (.processMessages 2) ∧ s.answered = [0] ∧
      s.thread.isAnswered intBit (.processMessages 2) = false ∧
      (machine intBit).ReachableWith (fun s e => s.used intBit e = true) t ∧
      t.thread.frame = .loop (.processMessages 2) ∧ t.answered = [2, 0] ∧
      t.thread.isAnswered intBit (.processMessages 2) = true := by
  let m := machine intBit
  let used := fun (s : SerialThread) e => s.used intBit e = true
  let answer : List ThreadEvent := .send 1 11 { answered := true, serial := 2 } ::
    List.replicate 4 (.push 1) ++ List.replicate 3 (.receive .quiet)
  let events : List SerialEvent := answer.map .thread
  let s := (m.executeWith used fresh (exchange 3 2 0)).get (by decide)
  let t := (m.executeWith used fresh (exchange 3 2 0 ++ events)).get (by decide)
  have hs : m.ReachableWith used s :=
    ⟨fresh, exchange 3 2 0, ⟨_, _, rfl⟩, Machine.run_of_executeWith (Option.some_get _).symm⟩
  have ht : m.ReachableWith used t :=
    ⟨fresh, _, ⟨_, _, rfl⟩, Machine.run_of_executeWith (Option.some_get _).symm⟩
  have hbit : ∀ k < 31, intBit k = longBit k := by decide
  have hframe : s.thread.frame = .loop (.processMessages (2 : Nat)) := by decide
  have hframe' : t.thread.frame = .loop (.processMessages (2 : Nat)) := by decide
  refine ⟨s, t, hs, hframe, by decide, ?_, ht, hframe', by decide, ?_⟩
  · exact Bool.eq_false_iff.mpr fun h => absurd ((exact_of_used hbit hs 2 hframe).mp h) (by decide)
  · exact (exact_of_used hbit ht 2 hframe').mpr (by decide)

/-- The answer with the serial 0 ends the wait for the one with the serial 32. -/
theorem not_exact_aliased :
    ¬ ∀ s, (machine intBit).Reachable s → s.Exact intBit := by
  intro h
  let m := machine intBit
  let s := (m.execute fresh (exchange 33 32 0)).get (by decide)
  have hs : m.Reachable s :=
    ⟨fresh, exchange 33 32 0, ⟨_, _, rfl⟩, Machine.run_of_execute (Option.some_get _).symm⟩
  have hframe : s.thread.frame = .loop (.processMessages (32 : Nat)) := by decide
  have hdone : s.thread.isAnswered intBit (.processMessages (32 : Nat)) = true := by
    decide
  have hmissing : 32 ∉ s.answered := by decide
  exact hmissing ((h s hs 32 hframe).mp hdone)

end SerialThread

end Drt
