import Drt.Core.Thread.Thread

/-!
# The lists of a message thread

A message belongs to the thread that posts it until its push takes effect, and to the
receiver afterwards, so no two threads ever write the same link. As long as every
batch the receiver takes has one message, the messages pushed are those delivered,
then `cur_msg`, the batch in hand and `add_msg` read from its end.
-/

open List Function

namespace Drt

/-- The message a thread has not pushed yet. -/
def PushPc.held : PushPc → Option MsgId
  | .read msg => some msg
  | .link msg _ => some msg
  | .swap msg _ => some msg
  | _ => none

/-- The batch in hand, when it is a single message. -/
def Frame.batch : Frame → List MsgId
  | .reverse _ msg _ => [msg]
  | _ => []

namespace MessageThread

/-- The message a thread is about to push. -/
def held (s : MessageThread) (thread : Nat) : Option MsgId := (s.push thread).bind PushPc.held

/-- A message with the thread that posted it. -/
def tagged (s : MessageThread) (msg : MsgId) : Nat × MsgId := ((s.owner msg).getD 0, msg)

/-- The messages pushed and not delivered, oldest first: `cur`, the batch in hand, and
`added` from its end. -/
def inTransit (s : MessageThread) (cur added : List MsgId) : List MsgId :=
  cur ++ s.frame.batch ++ added.reverse

/-- The lists of the queue, its senders and its history fit together. -/
structure Queued (s : MessageThread) (cur added : List MsgId) : Prop where
  curChain : Chain s.next s.cur_msg cur
  addedChain : Chain s.next s.add_msg added
  /-- A batch in hand is a single message, and `cur_msg` is used up. -/
  batch : ∀ call msg o, s.frame = .reverse call msg o → s.next msg = none ∧ o = none ∧ cur = []
  order : s.pushed = s.delivered ++ (s.inTransit cur added).map s.tagged
  owned : ∀ m ∈ s.inTransit cur added, s.owner m ≠ none
  apart : (s.inTransit cur added).Nodup
  held : ∀ k m, s.held k = some m → s.owner m = some k ∧ m ∉ s.inTransit cur added
  linked : ∀ k m n, s.push k = some (.swap m n) → s.next m = n
  sent : ∀ k, s.sent.filter (·.1 = k) =
    s.pushed.filter (·.1 = k) ++ (s.held k).toList.map (Prod.mk k)

/-- The receiver is not in the reversing loop. -/
def Calm (s : MessageThread) : Prop := s.frame.batch = []

variable {s t : MessageThread} {added cur : List MsgId} {m msg : MsgId} {k : Nat} {answer : Answer}
  {call : Receive} {pc : SleepPc}

theorem Calm.not_reverse (h : s.Calm) (call : Receive) (msg : MsgId) (o : Option MsgId) :
    s.frame ≠ .reverse call msg o := by
  intro heq
  simp [Calm, heq, Frame.batch] at h

/-- Steps on anything but the lists, the messages not yet pushed and the history. -/
theorem Queued.congr (h : Queued s cur added) (hnext : t.next = s.next)
    (hlists : t.cur_msg = s.cur_msg ∧ t.add_msg = s.add_msg)
    (hframe : t.frame = s.frame ∨ s.Calm ∧ t.Calm)
    (hhistory : t.owner = s.owner ∧ t.sent = s.sent ∧ t.pushed = s.pushed ∧
      t.delivered = s.delivered) (hheld : t.held = s.held)
    (hlinked : ∀ k m n, t.push k = some (.swap m n) → s.next m = n) : Queued t cur added := by
  obtain ⟨hcur, hadd⟩ := hlists
  obtain ⟨howner, hsent, hpushed, hdelivered⟩ := hhistory
  have hbatch : t.frame.batch = s.frame.batch := by
    rcases hframe with hframe | ⟨hs, ht⟩
    · rw [hframe]
    · rw [show s.frame.batch = [] from hs, show t.frame.batch = [] from ht]
  have htransit : t.inTransit cur added = s.inTransit cur added := by
    rw [inTransit, inTransit, hbatch]
  have htagged : t.tagged = s.tagged := by
    funext m
    rw [tagged, tagged, howner]
  refine ⟨?_, ?_, ?_, ?_, ?_, ?_, ?_, ?_, ?_⟩
  · rw [hnext, hcur]
    exact h.curChain
  · rw [hnext, hadd]
    exact h.addedChain
  · intro call msg o heq
    rw [hnext]
    rcases hframe with hframe | ⟨_, ht⟩
    · exact h.batch call msg o (hframe ▸ heq)
    · exact absurd heq (ht.not_reverse call msg o)
  · rw [hpushed, hdelivered, htransit, htagged]
    exact h.order
  · rw [htransit, howner]
    exact h.owned
  · rw [htransit]
    exact h.apart
  · rw [hheld, howner, htransit]
    exact h.held
  · rw [hnext]
    exact hlinked
  · rw [hsent, hpushed, hheld]
    exact h.sent

/-- The receiver goes on to another place outside of the reversing loop. -/
theorem Queued.goto (h : Queued s cur added) (hs : s.Calm) (ht : t.Calm)
    (hmessage : t.next = s.next) (hpush : t.push = s.push)
    (hlists : t.cur_msg = s.cur_msg ∧ t.add_msg = s.add_msg)
    (hhistory : t.owner = s.owner ∧ t.sent = s.sent ∧ t.pushed = s.pushed ∧
      t.delivered = s.delivered) : Queued t cur added := by
  refine h.congr hmessage hlists (.inr ⟨hs, ht⟩) hhistory ?_ ?_
  · funext k
    rw [MessageThread.held, MessageThread.held, hpush]
  · rw [hpush]
    exact h.linked

theorem queued_start (message : MsgId → Message) (method : Method) :
    Queued (start message method) [] [] := by
  refine ⟨rfl, rfl, ?_, rfl, ?_, nodup_nil, ?_, ?_, ?_⟩ <;>
    simp [start, inTransit, Frame.batch, MessageThread.held]

/-- A message that nobody has posted is in no list and in no thread's hands. -/
theorem Queued.fresh (h : Queued s cur added) (hmsg : s.owner msg = none) :
    msg ∉ s.inTransit cur added ∧ ∀ k, s.held k ≠ some msg := by
  constructor
  · intro hmem
    exact h.owned msg hmem hmsg
  · intro k hk
    have := (h.held k msg hk).1
    rw [hmsg] at this
    simp at this

theorem Queued.mem_cur (hm : m ∈ cur) : m ∈ s.inTransit cur added := by
  simp [inTransit, hm]

theorem Queued.mem_added (hm : m ∈ added) : m ∈ s.inTransit cur added := by
  simp [inTransit, hm]

section

variable (h : Queued s cur added)
include h

/-- Writing the fields of a message outside of the lists. -/
theorem Queued.update_next {next' : MsgId → Option MsgId} (hmsg : msg ∉ s.inTransit cur added)
    (hnext : ∀ m, m ≠ msg → next' m = s.next m) :
    Chain next' s.cur_msg cur ∧ Chain next' s.add_msg added ∧
      ∀ call m o, s.frame = .reverse call m o → next' m = none ∧ o = none ∧ cur = [] := by
  refine ⟨h.curChain.congr ?_, h.addedChain.congr ?_, ?_⟩
  · intro m hm
    exact hnext m fun heq => hmsg (heq ▸ Queued.mem_cur hm)
  · intro m hm
    exact hnext m fun heq => hmsg (heq ▸ Queued.mem_added hm)
  · intro call m o hframe
    have hm : m ∈ s.inTransit cur added := by simp [inTransit, hframe, Frame.batch]
    rw [hnext m fun heq => hmsg (heq ▸ hm)]
    exact h.batch call m o hframe

/-- A thread starts to post a message of its own. -/
theorem Queued.send {body : Message} (hstep : s.send k msg body = some t) : Queued t cur added := by
  unfold MessageThread.send at hstep
  split at hstep
  · rename_i hcond
    obtain ⟨hpush, howner⟩ := hcond
    obtain ⟨hmsg, hfree⟩ := h.fresh howner
    obtain rfl := Option.some.inj hstep
    have hnext : ∀ m, m ≠ msg → (update s.message msg body m).next = s.next m := by
      intro m hm
      simp [next, hm]
    obtain ⟨hcur, hadd, hbatch⟩ := h.update_next hmsg hnext
    refine ⟨hcur, hadd, hbatch, ?_, ?_, h.apart, ?_, ?_, ?_⟩
    · -- the new owner is not one of a message in transit
      refine h.order.trans ?_
      congr 1
      refine map_congr_left fun m hm => ?_
      have hne : m ≠ msg := fun heq => hmsg (heq ▸ hm)
      simp [tagged, hne]
    · intro m hm
      have hne : m ≠ msg := fun heq => hmsg (heq ▸ hm)
      simpa [hne] using h.owned m hm
    · intro j m hj
      by_cases hjk : j = k
      · subst hjk
        obtain rfl : msg = m := by simpa [MessageThread.held, PushPc.held] using hj
        exact ⟨by simp, hmsg⟩
      · have hj' : s.held j = some m := by simpa [MessageThread.held, hjk] using hj
        have hne : m ≠ msg := fun heq => hfree j (heq ▸ hj')
        simpa [hne, inTransit] using h.held j m hj'
    · intro j m n hj
      by_cases hjk : j = k
      · subst hjk
        simp at hj
      · have hj' : s.push j = some (.swap m n) := by simpa [hjk] using hj
        have hheld : s.held j = some m := by simp [MessageThread.held, hj', PushPc.held]
        have hne : m ≠ msg := fun heq => hfree j (heq ▸ hheld)
        exact (hnext m hne).trans (h.linked j m n hj')
    · intro j
      simp only [filter_append, h.sent j]
      by_cases hjk : j = k
      · subst hjk
        have hnone : s.held j = none := by simp [MessageThread.held, hpush]
        rw [hnone]
        simp [MessageThread.held, PushPc.held]
      · have hkj : k ≠ j := fun heq => hjk heq.symm
        simp [MessageThread.held, hjk, hkj]
  · simp at hstep

/-- A thread goes on in `addMessage_lr` and touches neither lists nor history. -/
theorem Queued.advance {pc : Option PushPc} (hpush : t.push = update s.push k pc)
    (hnext : t.next = s.next) (hlists : t.cur_msg = s.cur_msg ∧ t.add_msg = s.add_msg)
    (hframe : t.frame = s.frame ∨ s.Calm ∧ t.Calm)
    (hhistory : t.owner = s.owner ∧ t.sent = s.sent ∧ t.pushed = s.pushed ∧
      t.delivered = s.delivered) (hheld : pc.bind PushPc.held = s.held k)
    (hpc : ∀ m n, pc ≠ some (.swap m n)) : Queued t cur added := by
  refine h.congr hnext hlists hframe hhistory ?_ ?_
  · funext j
    by_cases hjk : j = k
    · subst hjk
      simp [MessageThread.held, hpush, hheld]
    · simp [MessageThread.held, hpush, hjk]
  · intro j m n hj
    by_cases hjk : j = k
    · subst hjk
      exact absurd (by simpa [hpush] using hj) (hpc m n)
    · exact h.linked j m n (by simpa [hpush, hjk] using hj)

/-- A thread links its message to what it read as the top of `add_msg`. -/
theorem Queued.link {n : Option MsgId} (hk : s.push k = some (.link msg n)) :
    Queued ((s.setNext msg n).setPush k (some (.swap msg n))) cur added := by
  have hheld : s.held k = some msg := by simp [MessageThread.held, hk, PushPc.held]
  obtain ⟨howner, hmsg⟩ := h.held k msg hheld
  have hnext : ∀ m, m ≠ msg → (s.setNext msg n).next m = s.next m := by
    intro m hm
    simp [setNext, next, hm]
  obtain ⟨hcur, hadd, hbatch⟩ := h.update_next hmsg hnext
  have hheld' : ((s.setNext msg n).setPush k (some (.swap msg n))).held = s.held := by
    funext j
    by_cases hjk : j = k
    · subst hjk
      simp [MessageThread.held, setPush, hk, PushPc.held]
    · simp [MessageThread.held, setPush, setNext, hjk]
  refine ⟨hcur, hadd, hbatch, h.order, h.owned, h.apart, ?_, ?_, ?_⟩
  · rw [hheld']
    exact h.held
  · intro j m n' hj
    by_cases hjk : j = k
    · subst hjk
      obtain ⟨rfl, rfl⟩ : msg = m ∧ n = n' := by simpa [setPush] using hj
      simp [setPush, setNext, next]
    · have hj' : s.push j = some (.swap m n') := by simpa [setPush, setNext, hjk] using hj
      have hne : m ≠ msg := by
        rintro rfl
        have hjheld : s.held j = some m := by simp [MessageThread.held, hj', PushPc.held]
        have := (h.held j m hjheld).1
        rw [howner] at this
        exact hjk (Option.some.inj this).symm
      exact (hnext m hne).trans (h.linked j m n' hj')
  · rw [hheld']
    exact h.sent

/-- A push takes effect: the message is the new top of `add_msg`. -/
theorem Queued.push {n : Option MsgId} (hk : s.push k = some (.swap msg n)) (hn : s.add_msg = n) :
    Queued ({ s with add_msg := some msg, pushed := s.pushed ++ [(k, msg)] }.setPush k
      (some .check)) cur (msg :: added) := by
  have hheld : s.held k = some msg := by simp [MessageThread.held, hk, PushPc.held]
  obtain ⟨howner, hmsg⟩ := h.held k msg hheld
  have htransit : s.inTransit cur (msg :: added) = s.inTransit cur added ++ [msg] := by
    simp [inTransit]
  have hothers : ∀ j, j ≠ k → s.held j ≠ some msg := by
    intro j hjk hj
    have := (h.held j msg hj).1
    rw [howner] at this
    exact hjk (Option.some.inj this).symm
  have hadd : Chain s.next (some msg) (msg :: added) := by
    refine h.addedChain.push ?_
    rw [hn]
    exact h.linked k msg n hk
  refine ⟨h.curChain, hadd, h.batch, ?_, ?_, ?_, ?_, ?_, ?_⟩
  · change s.pushed ++ [(k, msg)] = s.delivered ++ (s.inTransit cur (msg :: added)).map s.tagged
    rw [htransit, map_append, ← append_assoc, ← h.order]
    simp [tagged, howner]
  · intro m hm
    change m ∈ s.inTransit cur (msg :: added) at hm
    rw [htransit] at hm
    rcases mem_append.mp hm with hm | hm
    · exact h.owned m hm
    · obtain rfl : m = msg := by simpa using hm
      change s.owner m ≠ none
      simp [howner]
  · change (s.inTransit cur (msg :: added)).Nodup
    rw [htransit, nodup_append]
    exact ⟨h.apart, by simp, fun a ha b hb hab =>
      hmsg (by rw [← mem_singleton.mp hb, ← hab]; exact ha)⟩
  · intro j m hj
    by_cases hjk : j = k
    · subst hjk
      simp [MessageThread.held, setPush, PushPc.held] at hj
    · have hj' : s.held j = some m := by simpa [MessageThread.held, setPush, hjk] using hj
      refine ⟨(h.held j m hj').1, ?_⟩
      change m ∉ s.inTransit cur (msg :: added)
      rw [htransit]
      intro hm
      rcases mem_append.mp hm with hm | hm
      · exact (h.held j m hj').2 hm
      · obtain rfl : m = msg := by simpa using hm
        exact hothers j hjk hj'
  · intro j m n' hj
    by_cases hjk : j = k
    · subst hjk
      simp [setPush] at hj
    · exact h.linked j m n' (by simpa [setPush, hjk] using hj)
  · intro j
    have hsent := h.sent j
    change s.sent.filter (·.1 = j) = (s.pushed ++ [(k, msg)]).filter (·.1 = j) ++ _
    rw [filter_append]
    by_cases hjk : j = k
    · subst hjk
      rw [hheld] at hsent
      simpa [MessageThread.held, setPush, PushPc.held] using hsent
    · have hkj : k ≠ j := fun heq => hjk heq.symm
      simpa [MessageThread.held, setPush, hjk, hkj] using hsent

/-- Every step of `addMessage_lr` keeps the order. -/
theorem Queued.pushStep (hstep : s.pushStep k = some t) : ∃ added', Queued t cur added' := by
  unfold MessageThread.pushStep at hstep
  cases hk : s.push k with
  | none => simp [hk] at hstep
  | some pc =>
    simp only [hk] at hstep
    have hheld : s.held k = pc.held := by simp [MessageThread.held, hk]
    cases pc with
    | read msg | clear | unset | unlock =>
      obtain rfl := Option.some.inj hstep
      exact ⟨added, h.advance rfl rfl ⟨rfl, rfl⟩ (.inl rfl) ⟨rfl, rfl, rfl, rfl⟩ hheld.symm
        (by simp)⟩
    | link msg n =>
      obtain rfl := Option.some.inj hstep
      exact ⟨added, h.link hk⟩
    | swap msg n =>
      dsimp only at hstep
      split at hstep
      · rename_i hn
        obtain rfl := Option.some.inj hstep
        exact ⟨msg :: added, h.push hk hn⟩
      · obtain rfl := Option.some.inj hstep
        exact ⟨added, h.advance rfl rfl ⟨rfl, rfl⟩ (.inl rfl) ⟨rfl, rfl, rfl, rfl⟩ hheld.symm
          (by simp)⟩
    | check =>
      obtain rfl := Option.some.inj hstep
      refine ⟨added, h.advance rfl rfl ⟨rfl, rfl⟩ (.inl rfl) ⟨rfl, rfl, rfl, rfl⟩ ?_ ?_⟩
      · rw [hheld]
        split <;> rfl
      · intro m n
        split <;> simp
    | lock =>
      dsimp only at hstep
      split at hstep
      · obtain rfl := Option.some.inj hstep
        exact ⟨added, h.advance rfl rfl ⟨rfl, rfl⟩ (.inl rfl) ⟨rfl, rfl, rfl, rfl⟩ hheld.symm
          (by simp)⟩
      · simp at hstep
    | notify =>
      cases hmethod : s.method with
      | select =>
        simp only [hmethod, Option.some.injEq] at hstep
        subst hstep
        exact ⟨added, h.advance rfl rfl ⟨rfl, rfl⟩ (.inl rfl) ⟨rfl, rfl, rfl, rfl⟩ hheld.symm
          (by simp)⟩
      | cond =>
        simp only [hmethod, Option.some.injEq] at hstep
        subst hstep
        refine ⟨added, ?_⟩
        unfold condSignal
        split
        · rename_i hframe
          exact h.advance rfl rfl ⟨rfl, rfl⟩ (.inr ⟨by simp [Calm, hframe, Frame.batch], rfl⟩)
            ⟨rfl, rfl, rfl, rfl⟩ hheld.symm (by simp)
        · exact h.advance rfl rfl ⟨rfl, rfl⟩ (.inl rfl) ⟨rfl, rfl, rfl, rfl⟩ hheld.symm (by simp)

end

/-- What the steps of `threadSleep`, and the ends of calls, leave alone. -/
structure SameQueue (s t : MessageThread) : Prop where
  next : t.next = s.next
  push : t.push = s.push
  lists : t.cur_msg = s.cur_msg ∧ t.add_msg = s.add_msg
  history : t.owner = s.owner ∧ t.sent = s.sent ∧ t.pushed = s.pushed ∧ t.delivered = s.delivered
  calm : t.Calm

theorem Queued.same (h : Queued s cur added) (hs : s.Calm) (ht : SameQueue s t) :
    Queued t cur added :=
  h.goto hs ht.calm ht.next ht.push ht.lists ht.history

theorem sameQueue_leave (s : MessageThread) : SameQueue s s.leave := by
  unfold leave
  split <;> exact ⟨rfl, rfl, ⟨rfl, rfl⟩, ⟨rfl, rfl, rfl, rfl⟩, rfl⟩

theorem sameQueue_wake (s : MessageThread) (call : Receive) (got_message : Bool) :
    SameQueue s (s.wake call got_message) := by
  unfold wake
  split
  · exact sameQueue_leave s
  · exact ⟨rfl, rfl, ⟨rfl, rfl⟩, ⟨rfl, rfl, rfl, rfl⟩, rfl⟩

theorem sameQueue_enter (s : MessageThread) (call : Receive) : SameQueue s (s.enter call) := by
  unfold enter
  split <;> exact ⟨rfl, rfl, ⟨rfl, rfl⟩, ⟨rfl, rfl, rfl, rfl⟩, rfl⟩

/-- A step of `threadSleep` on the shared variables of the wait. -/
theorem sameQueue_goto (s : MessageThread) (call : Receive) (pc : SleepPc)
    (waiting : Bool) (method : Method) (mutex : Option Nat) (pipe : Option Nat) :
    SameQueue s { s with
      waiting_for_msg := waiting
      method := method
      sync_mutex := mutex
      pipe := pipe
      frame := .sleep call pc } :=
  ⟨rfl, rfl, ⟨rfl, rfl⟩, ⟨rfl, rfl, rfl, rfl⟩, rfl⟩

theorem Queued.postFromSleep (h : Queued s cur added) (hs : s.Calm)
    (hstep : s.postFromSleep answer call pc = some t) : Queued t cur added := by
  have hgoto : Queued { s with frame := .sleep call pc } cur added :=
    h.same hs (sameQueue_goto ..)
  unfold MessageThread.postFromSleep at hstep
  cases answer with
  | post msg body => exact hgoto.send hstep
  | quiet | expired | interrupted =>
    obtain rfl := Option.some.inj hstep
    exact hgoto

/-- A step of `threadSleep` posts a message for a socket or leaves the queue alone. -/
theorem sleepStep_cases (hstep : s.sleepStep answer call pc = some t) :
    (∃ pc', s.postFromSleep answer call pc' = some t) ∨ SameQueue s t := by
  unfold sleepStep at hstep
  dsimp only at hstep
  cases pc with
  | prechecks left =>
    cases left with
    | nil =>
      right
      dsimp only at hstep
      split at hstep <;> obtain rfl := Option.some.inj hstep <;>
        exact sameQueue_goto ..
    | cons node left =>
      dsimp only at hstep
      split at hstep
      · exact .inl ⟨_, hstep⟩
      · right
        obtain rfl := Option.some.inj hstep
        exact sameQueue_goto ..
  | notifs got_message left =>
    cases left with
    | nil =>
      right
      obtain rfl := Option.some.inj hstep
      exact sameQueue_wake s call got_message
    | cons node left => exact .inl ⟨_, hstep⟩
  | unlock got_message =>
    right
    obtain rfl := Option.some.inj hstep
    obtain ⟨hnext, hpush, hlists, hhistory, hcalm⟩ :=
      sameQueue_wake { s with sync_mutex := none } call got_message
    exact ⟨hnext, hpush, hlists, hhistory, hcalm⟩
  | set method =>
    right
    cases method <;> obtain rfl := Option.some.inj hstep <;>
      exact sameQueue_goto ..
  | enter | unlockSelect =>
    right
    obtain rfl := Option.some.inj hstep
    exact sameQueue_goto ..
  | lock method | relock got_message =>
    right
    dsimp only at hstep
    split at hstep
    · obtain rfl := Option.some.inj hstep
      exact sameQueue_goto ..
    · simp at hstep
  | check method | unset got_message readable | drain got_message =>
    right
    dsimp only at hstep
    split at hstep <;> obtain rfl := Option.some.inj hstep <;>
      exact sameQueue_goto ..
  | condWait =>
    right
    cases answer with
    | quiet => simp at hstep
    | post msg body => simp at hstep
    | interrupted =>
      obtain rfl := Option.some.inj hstep
      exact sameQueue_goto ..
    | expired =>
      dsimp only at hstep
      split at hstep
      · obtain rfl := Option.some.inj hstep
        exact sameQueue_goto ..
      · simp at hstep
  | select =>
    right
    cases answer with
    | quiet | post msg body =>
      obtain rfl := Option.some.inj hstep
      exact sameQueue_goto ..
    | interrupted | expired =>
      dsimp only at hstep
      split at hstep
      · obtain rfl := Option.some.inj hstep
        exact sameQueue_goto ..
      · simp at hstep

theorem Queued.sleepStep (h : Queued s cur added) (hs : s.Calm)
    (hstep : s.sleepStep answer call pc = some t) : Queued t cur added := by
  rcases sleepStep_cases hstep with ⟨pc', hpost⟩ | hsame
  · exact h.postFromSleep hs hpost
  · exact h.same hs hsame

/-- Marking an answer and going on leaves the queue alone. -/
theorem sameQueue_handle (bit : Nat → UInt64) (s : MessageThread) (call : Receive) (msg : MsgId) :
    SameQueue s (s.handle bit call msg) := by
  have hmark (serial : Nat) : SameQueue s (s.markSerial bit serial).leave := by
    obtain ⟨hnext, hpush, hlists, hhistory, hcalm⟩ := sameQueue_leave (s.markSerial bit serial)
    exact ⟨hnext, hpush, hlists, hhistory, hcalm⟩
  unfold handle
  split
  · cases call with
    | processMessages wait_answer =>
      dsimp only
      split <;> exact ⟨rfl, rfl, ⟨rfl, rfl⟩, ⟨rfl, rfl, rfl, rfl⟩, rfl⟩
    | waitAnyMessageTimeout timeout_ns =>
      exact ⟨rfl, rfl, ⟨rfl, rfl⟩, ⟨rfl, rfl, rfl, rfl⟩, rfl⟩
    | processOneMessage => exact hmark _
  · cases call with
    | processMessages wait_answer | processOneMessage =>
      exact ⟨rfl, rfl, ⟨rfl, rfl⟩, ⟨rfl, rfl, rfl, rfl⟩, rfl⟩
    | waitAnyMessageTimeout timeout_ns => exact sameQueue_leave s

/-- Setting the type of a message leaves the links alone. -/
theorem sameQueue_evaluated (s : MessageThread) (call : Receive) (msg : MsgId) :
    SameQueue s (s.evaluated call msg) := by
  have hnext : (fun m => (update s.message msg
      { s.message msg with answered := true } m).next) = s.next := by
    funext m
    by_cases hm : m = msg
    · subst hm
      simp [next]
    · simp [next, hm]
  have hmark : SameQueue s { s with
      message := update s.message msg { s.message msg with answered := true }
      frame := .loop call } := ⟨hnext, rfl, ⟨rfl, rfl⟩, ⟨rfl, rfl, rfl, rfl⟩, rfl⟩
  have hleave : SameQueue s { s with
      message := update s.message msg { s.message msg with answered := true } }.leave := by
    obtain ⟨hnext', hpush, hlists, hhistory, hcalm⟩ := sameQueue_leave { s with
      message := update s.message msg { s.message msg with answered := true } }
    exact ⟨hnext'.trans hnext, hpush, hlists, hhistory, hcalm⟩
  have hstay : SameQueue s { s with frame := .loop call } :=
    ⟨rfl, rfl, ⟨rfl, rfl⟩, ⟨rfl, rfl, rfl, rfl⟩, rfl⟩
  unfold evaluated
  cases call with
  | processMessages wait_answer | waitAnyMessageTimeout timeout_ns =>
    split
    · exact hmark
    · exact hstay
  | processOneMessage =>
    split
    · exact hleave
    · exact sameQueue_leave s

/-- The first message of `cur_msg` is taken off and delivered. -/
theorem Queued.deliver {rest : List MsgId} (h : Queued s (msg :: rest) added) (hs : s.Calm) :
    Queued (s.take msg) rest added := by
  have htransit : s.inTransit (msg :: rest) added = msg :: s.inTransit rest added := by
    simp [inTransit]
  have hapart := h.apart
  rw [htransit, nodup_cons] at hapart
  obtain ⟨hmsg, hnodup⟩ := hapart
  have hother : ∀ m ∈ s.inTransit rest added,
      update s.owner msg none m = s.owner m := by
    intro m hm
    have hne : m ≠ msg := fun heq => hmsg (heq ▸ hm)
    simp [hne]
  refine ⟨h.curChain.2, h.addedChain, ?_, ?_, ?_, hnodup, ?_, h.linked, h.sent⟩
  · intro call m o heq
    exact absurd heq (hs.not_reverse call m o)
  · have horder := h.order
    rw [htransit, map_cons] at horder
    refine horder.trans ?_
    have htagged : (s.inTransit rest added).map (s.take msg).tagged =
        (s.inTransit rest added).map s.tagged := by
      refine map_congr_left fun m hm => ?_
      simp only [tagged, take, hother m hm]
    change _ = (s.delivered ++ [s.tagged msg]) ++
      (s.inTransit rest added).map (s.take msg).tagged
    rw [htagged, append_assoc, singleton_append]
  · intro m hm
    change update s.owner msg none m ≠ none
    rw [hother m hm]
    exact h.owned m (by rw [htransit]; exact mem_cons_of_mem _ hm)
  · intro k m hk
    obtain ⟨howner, hnot⟩ := h.held k m hk
    rw [htransit, mem_cons, not_or] at hnot
    refine ⟨?_, hnot.2⟩
    change update s.owner msg none m = some k
    rw [update_of_ne hnot.1, howner]

/-- The top of `add_msg`, when the step is the one that takes the whole list. -/
def batchTaken (bit : Nat → UInt64) (s : MessageThread) : ThreadEvent → Option MsgId
  | .receive _ =>
    match s.frame with
    | .loop call => if s.isAnswered bit call ∨ s.cur_msg ≠ none then none else s.add_msg
    | _ => none
  | _ => none

/-- When the receiver takes `add_msg`, there is at most one message on it. -/
def SingleBatch (bit : Nat → UInt64) (s : MessageThread) (e : ThreadEvent) : Prop :=
  (s.batchTaken bit e).bind s.next = none

instance (bit : Nat → UInt64) (s : MessageThread) (e : ThreadEvent) :
    Decidable (SingleBatch bit s e) :=
  inferInstanceAs (Decidable (_ = none))

theorem Queued.loopStep {bit : Nat → UInt64} (h : Queued s cur added)
    (hframe : s.frame = .loop call) (good : SingleBatch bit s (.receive answer)) :
    ∃ cur' added', Queued (s.loopStep bit call) cur' added' := by
  have hs : s.Calm := by simp [Calm, hframe, Frame.batch]
  obtain ⟨-, heq⟩ | ⟨msg, hcur, heq⟩ | ⟨msg, hanswered, hcur, hadd, heq⟩ | ⟨-, -, heq⟩ :=
    loopStep_cases bit s call
  · rw [heq]
    exact ⟨cur, added, h.same hs (sameQueue_leave s)⟩
  · rw [heq]
    have hchain := h.curChain
    rw [hcur] at hchain
    obtain ⟨rest, rfl, hrest⟩ := Chain.some_iff.mp hchain
    exact ⟨rest, added, (h.deliver hs).same hs (sameQueue_handle bit _ call msg)⟩
  · rw [heq]
    have hnil : cur = [] := by simpa [hcur] using h.curChain
    have hnext : s.next msg = none := by
      simpa [SingleBatch, batchTaken, hframe, hanswered, hcur, hadd] using good
    have hchain := h.addedChain
    rw [hadd] at hchain
    obtain ⟨rest, rfl, hrest⟩ := Chain.some_iff.mp hchain
    rw [hnext, Chain.none_iff] at hrest
    subst hrest
    subst hnil
    -- the one message moves from `add_msg` to the hand of the receiver
    have htransit : s.inTransit [] [msg] = [msg] := by
      simp [inTransit, show s.frame.batch = [] from hs]
    have horder := h.order
    have howned := h.owned
    have hheld := h.held
    rw [htransit] at horder howned hheld
    refine ⟨[], [], hcur, rfl, ?_, horder, howned, by simp [inTransit, Frame.batch], hheld,
      h.linked, h.sent⟩
    intro call' msg' o' hframe'
    obtain ⟨-, rfl, rfl⟩ : call = call' ∧ msg = msg' ∧ none = o' := by simpa using hframe'
    exact ⟨hnext, rfl, rfl⟩
  · rw [heq]
    exact ⟨cur, added, h.same hs (sameQueue_goto ..)⟩

/-- With a single message in hand the reversing loop ends at once. -/
theorem Queued.reverseStep {o : Option MsgId} (h : Queued s cur added)
    (hframe : s.frame = .reverse call msg o) : Queued (s.reverseStep call msg o) [msg] added := by
  obtain ⟨hnext, rfl, rfl⟩ := h.batch call msg o hframe
  have hsame : (s.setNext msg none).next = s.next := by
    funext m
    by_cases hm : m = msg
    · subst hm
      simp [setNext, next, ← hnext]
    · simp [setNext, next, hm]
  have htransit : s.inTransit [] added = msg :: added.reverse := by
    simp [inTransit, hframe, Frame.batch]
  have horder := h.order
  have howned := h.owned
  have hapart := h.apart
  have hheld := h.held
  rw [htransit] at horder howned hapart hheld
  unfold MessageThread.reverseStep
  rw [hnext]
  refine ⟨?_, ?_, ?_, horder, howned, hapart, hheld, ?_, h.sent⟩
  · change Chain (s.setNext msg none).next (some msg) [msg]
    rw [hsame]
    exact ⟨rfl, by rw [hnext]; exact rfl⟩
  · change Chain (s.setNext msg none).next s.add_msg added
    rw [hsame]
    exact h.addedChain
  · intro call' msg' o' heq
    simp at heq
  · intro k m n hk
    change (s.setNext msg none).next m = n
    rw [hsame]
    exact h.linked k m n hk

/-- Every step that takes at most one message at a time keeps the order. -/
theorem Queued.step {bit : Nat → UInt64} {e : ThreadEvent} (h : Queued s cur added)
    (good : SingleBatch bit s e) (hstep : s.step bit e = some t) :
    ∃ cur' added', Queued t cur' added' := by
  have calm_of_outside (houtside : s.outside) : s.Calm := by
    unfold outside at houtside
    unfold Calm
    split at houtside <;> simp_all [Frame.batch]
  cases e with
  | send thread msg body =>
    simp only [MessageThread.step] at hstep
    split at hstep
    · exact ⟨cur, added, h.send hstep⟩
    · simp at hstep
  | push thread =>
    obtain ⟨added', h'⟩ := h.pushStep hstep
    exact ⟨cur, added', h'⟩
  | call call =>
    simp only [MessageThread.step] at hstep
    split at hstep
    · rename_i hcond
      obtain rfl := Option.some.inj hstep
      exact ⟨cur, added, h.same (calm_of_outside hcond.2) (sameQueue_enter s call)⟩
    · simp at hstep
  | registerSocket socket | unregisterSocket fd =>
    simp only [MessageThread.step] at hstep
    split at hstep
    · rename_i hcond
      obtain rfl := Option.some.inj hstep
      have hcalm := calm_of_outside hcond.2
      exact ⟨cur, added, h.same hcalm ⟨rfl, rfl, ⟨rfl, rfl⟩, ⟨rfl, rfl, rfl, rfl⟩, hcalm⟩⟩
    · simp at hstep
  | receive answer =>
    simp only [MessageThread.step] at hstep
    split at hstep
    · unfold receiveStep at hstep
      cases hframe : s.frame with
      | idle => simp [hframe] at hstep
      | loop call =>
        simp only [hframe, Option.some.injEq] at hstep
        subst hstep
        exact h.loopStep hframe good
      | reverse call msg o =>
        simp only [hframe, Option.some.injEq] at hstep
        subst hstep
        exact ⟨[msg], added, h.reverseStep hframe⟩
      | eval call msg =>
        simp only [hframe, Option.some.injEq] at hstep
        subst hstep
        have hcalm : s.Calm := by simp [Calm, hframe, Frame.batch]
        exact ⟨cur, added, h.same hcalm (sameQueue_evaluated s call msg)⟩
      | sleep call pc =>
        simp only [hframe] at hstep
        have hcalm : s.Calm := by simp [Calm, hframe, Frame.batch]
        exact ⟨cur, added, h.sleepStep hcalm hstep⟩
    · simp at hstep

end MessageThread

/-! ### Order of message delivery

The reversing loop never advances `o`: it unlinks every message it passes, and only
the last one, the oldest of the batch, becomes `cur_msg`. So delivery is in order and
without loss in every run in which each batch has one message. -/

namespace MessageThread

theorem Queued.reachable {bit : Nat → UInt64} {s : MessageThread}
    (h : (machine bit).ReachableWith (SingleBatch bit) s) : ∃ cur added, Queued s cur added := by
  refine h.invariant (fun s => ∃ cur added, Queued s cur added) ?_ ?_
  · rintro s ⟨message, method, rfl⟩
    exact ⟨[], [], queued_start message method⟩
  · rintro s e t ⟨cur, added, hs⟩ good hstep
    exact hs.step good hstep

end MessageThread

end Drt
