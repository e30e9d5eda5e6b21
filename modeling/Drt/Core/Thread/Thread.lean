import Drt.Lib.Chain
import Drt.Lib.Machine
import Mathlib.Tactic.Ring

/-!
# Message threads

One `Thread` that receives messages, with its `MsgSync_unix`, and any number of
threads that post to it. `add_msg` is a lock-free stack linked through the
messages themselves; the receiver takes it whole, reverses it and works through
it as `cur_msg`. Every access to a shared variable is a step of its own, in the
order of the source; memory is sequentially consistent.
-/

namespace Drt

/-- The address of a message. -/
abbrev MsgId := Nat

/-- The fields of `Message` which the queue works with. -/
structure Message where
  next : Option MsgId := none
  /-- `type & ANSWERED`. -/
  answered : Bool := false
  /-- `type & SYNCED`. -/
  synced : Bool := false
  serial : Nat := 0
  deriving DecidableEq, Repr

/-- How `threadSleep` waits: the values of `method`. -/
inductive Method where
  /-- 0, on the condition variable. -/
  | cond
  /-- 1, in `select`. -/
  | select
  deriving DecidableEq, Repr

/-- Where a thread is in `addMessage_lr`, from `retry` to the end of `threadWake`. -/
inductive PushPc where
  /-- Before `n = add_msg`. -/
  | read (msg : MsgId)
  /-- Before `msg->next = n`. -/
  | link (msg : MsgId) (n : Option MsgId)
  /-- Before `cmpxchg`. -/
  | swap (msg : MsgId) (n : Option MsgId)
  /-- Before the test of `waiting_for_msg`. -/
  | check
  /-- Before `waiting_for_msg = false`. -/
  | clear
  /-- Before `pthread_mutex_lock`. -/
  | lock
  /-- Before `msg_unsetWaiting`. -/
  | unset
  /-- Before the switch on `method`. -/
  | notify
  /-- Before `pthread_mutex_unlock`. -/
  | unlock
  deriving DecidableEq, Repr

/-- A registered socket. -/
structure Socket where
  fd : Nat
  read : Bool
  write : Bool
  except : Bool
  /-- A precheck is given. -/
  precheck : Bool
  deriving DecidableEq, Repr

/-- The call that works through the queue. -/
inductive Receive where
  | processMessages (wait_answer : Int)
  | waitAnyMessageTimeout (timeout_ns : Int)
  | processOneMessage
  deriving DecidableEq, Repr

/-- The argument of `threadSleep` in each of the calls. -/
def Receive.timeout : Receive → Int
  | .waitAnyMessageTimeout timeout_ns => timeout_ns
  | .processMessages _ => -1
  | .processOneMessage => -1

/-- Where the receiver is in `threadSleep`. -/
inductive SleepPc where
  /-- In the loop over the sockets, with those left. -/
  | prechecks (left : List Socket)
  /-- Before `pthread_mutex_lock`. -/
  | lock (method : Method)
  /-- After `method = …`, before `msg_setWaiting` reads `add_msg`. -/
  | check (method : Method)
  /-- In `msg_setWaiting`, before `waiting_for_msg = true`. -/
  | set (method : Method)
  /-- Before `pthread_cond_wait`. -/
  | enter
  /-- Blocked in `pthread_cond_wait`. -/
  | condWait
  /-- Out of the wait, before it has the mutex again. -/
  | relock (got_message : Bool)
  /-- Before the last `pthread_mutex_unlock`. -/
  | unlock (got_message : Bool)
  /-- Before the `pthread_mutex_unlock` in front of `select`. -/
  | unlockSelect
  /-- In `select`. -/
  | select
  /-- Before `msg_unsetWaiting`. -/
  | unset (got_message readable : Bool)
  /-- In the loop that reads the pipe. -/
  | drain (got_message : Bool)
  /-- In the last loop over the sockets, with those left. -/
  | notifs (got_message : Bool) (left : List Socket)
  deriving DecidableEq, Repr

/-- Where the receiver is in its innermost call. -/
inductive Frame where
  /-- In no call. -/
  | idle
  /-- At the start of the loop. -/
  | loop (call : Receive)
  /-- In the reversing loop, with its variables. -/
  | reverse (call : Receive) (msg : MsgId) (o : Option MsgId)
  /-- In `msg->eval()`. -/
  | eval (call : Receive) (msg : MsgId)
  /-- In `threadSleep`. -/
  | sleep (call : Receive) (pc : SleepPc)
  deriving DecidableEq, Repr

/-- The receiving thread and its senders. Thread 0 is the receiver itself, which may
post to itself. -/
structure MessageThread where
  message : MsgId → Message
  add_msg : Option MsgId
  cur_msg : Option MsgId
  serial_pend : Nat → UInt64
  waiting_for_msg : Bool
  method : Method
  /-- The thread that holds `sync_mutex`. -/
  sync_mutex : Option Nat
  /-- The octets in the pipe, once it is created. -/
  pipe : Option Nat
  socket_list : List Socket
  /-- What each thread does in `addMessage_lr`. -/
  push : Nat → Option PushPc
  frame : Frame
  /-- The calls around the innermost one, each in `msg->eval()`. -/
  suspended : List (Receive × MsgId)
  /-- Who posted a message that is not delivered yet. -/
  owner : MsgId → Option Nat
  /-- The messages in the order of the calls of `addMessage_lr`, with the threads. -/
  sent : List (Nat × MsgId)
  /-- The messages in the order in which the pushes took effect. -/
  pushed : List (Nat × MsgId)
  /-- The messages in the order in which the receiver took them. -/
  delivered : List (Nat × MsgId)

/-- What the world answers a step of the receiver. -/
inductive Answer where
  | quiet
  /-- A socket wants this message to be posted. -/
  | post (msg : MsgId) (body : Message)
  /-- The timeout has passed. -/
  | expired
  /-- A wake-up without a signal, or a signal caught in `select`. -/
  | interrupted
  deriving DecidableEq, Repr

/-- Which thread moves. -/
inductive ThreadEvent where
  /-- A thread calls `addMessage_lr` with a message of its own. -/
  | send (thread : Nat) (msg : MsgId) (body : Message)
  /-- The next step of that call. -/
  | push (thread : Nat)
  | call (call : Receive)
  | registerSocket (socket : Socket)
  | unregisterSocket (fd : Nat)
  /-- The next step of the receiver's innermost call. -/
  | receive (answer : Answer)
  deriving DecidableEq, Repr

/-- The number of octets a pipe takes. -/
def pipeCapacity : Nat := 65536

namespace MessageThread

/-- `Thread()` and `MsgSync_unix(thread)`; `method` is not initialised. -/
def start (message : MsgId → Message) (method : Method) : MessageThread where
  message := message
  add_msg := none
  cur_msg := none
  serial_pend := fun _ => 0
  waiting_for_msg := false
  method := method
  sync_mutex := none
  pipe := none
  socket_list := []
  push := fun _ => none
  frame := .idle
  suspended := []
  owner := fun _ => none
  sent := []
  pushed := []
  delivered := []

/-- The link of a message. -/
def next (s : MessageThread) (msg : MsgId) : Option MsgId := (s.message msg).next

/-- `msg->next = n`. -/
def setNext (s : MessageThread) (msg : MsgId) (n : Option MsgId) : MessageThread :=
  { s with message := Function.update s.message msg { s.message msg with next := n } }

/-- The place of a thread in `addMessage_lr` is now this. -/
def setPush (s : MessageThread) (thread : Nat) (pc : Option PushPc) : MessageThread :=
  { s with push := Function.update s.push thread pc }

/-- The caller hands over a message it owns and enters `addMessage_lr`. -/
def send (s : MessageThread) (thread : Nat) (msg : MsgId) (body : Message) :
    Option MessageThread :=
  if s.push thread = none ∧ s.owner msg = none then
    some { s with
      message := Function.update s.message msg body
      push := Function.update s.push thread (some (.read msg))
      owner := Function.update s.owner msg (some thread)
      sent := s.sent ++ [(thread, msg)] }
  else none

/-- `write(pipe_fd[1], &thread, 1)`; the pipe is not blocking. -/
def writePipe (s : MessageThread) : MessageThread :=
  { s with pipe := s.pipe.map fun n => min (n + 1) pipeCapacity }

/-- `pthread_cond_signal`: only the receiver waits for the condition. -/
def condSignal (s : MessageThread) : MessageThread :=
  match s.frame with
  | .sleep call .condWait => { s with frame := .sleep call (.relock true) }
  | _ => s

/-- The next step of `addMessage_lr` in a thread. -/
def pushStep (s : MessageThread) (thread : Nat) : Option MessageThread :=
  match s.push thread with
  | none => none
  | some (.read msg) => some (s.setPush thread (some (.link msg s.add_msg)))
  | some (.link msg n) => some ((s.setNext msg n).setPush thread (some (.swap msg n)))
  | some (.swap msg n) =>
    if s.add_msg = n then
      let s := { s with add_msg := some msg, pushed := s.pushed ++ [(thread, msg)] }
      some (s.setPush thread (some .check))
    else some (s.setPush thread (some (.read msg)))
  | some .check => some (s.setPush thread (if s.waiting_for_msg then some .clear else none))
  | some .clear => some ({ s with waiting_for_msg := false }.setPush thread (some .lock))
  | some .lock =>
    if s.sync_mutex = none then
      some ({ s with sync_mutex := some thread }.setPush thread (some .unset))
    else none
  | some .unset => some ({ s with waiting_for_msg := false }.setPush thread (some .notify))
  | some .notify =>
    match s.method with
    | .cond => some (s.condSignal.setPush thread (some .unlock))
    | .select => some (s.writePipe.setPush thread (some .unlock))
  | some .unlock => some ({ s with sync_mutex := none }.setPush thread none)

/-- The receiver may start a call, or post: it is outside of the queue's code. -/
def outside (s : MessageThread) : Bool :=
  match s.frame with
  | .idle => true
  | .eval _ _ => true
  | _ => false

/-- A call inside of the present one, if there is one. -/
def enter (s : MessageThread) (call : Receive) : MessageThread :=
  match s.frame with
  | .eval call' msg => { s with frame := .loop call, suspended := (call', msg) :: s.suspended }
  | _ => { s with frame := .loop call }

/-- The innermost call returned. -/
def leave (s : MessageThread) : MessageThread :=
  match s.suspended with
  | [] => { s with frame := .idle }
  | (call, msg) :: rest => { s with frame := .eval call msg, suspended := rest }

/-- `threadSleep` returned to the loop around it. -/
def wake (s : MessageThread) (call : Receive) (got_message : Bool) : MessageThread :=
  match call, got_message with
  | .waitAnyMessageTimeout _, false => s.leave
  | _, _ => { s with frame := .loop call }

/-- The receiver posts a message from inside `threadSleep` and then goes on at `pc`. -/
def postFromSleep (s : MessageThread) (answer : Answer) (call : Receive) (pc : SleepPc) :
    Option MessageThread :=
  match answer with
  | .post msg body => { s with frame := .sleep call pc }.send 0 msg body
  | _ => some { s with frame := .sleep call pc }

/-- `highest < 0`: no registered socket has a mode to wait for. -/
def noFd (sockets : List Socket) : Bool :=
  sockets.all fun socket => !socket.read && !socket.write && !socket.except

/-- The next step of `threadSleep`. -/
def sleepStep (s : MessageThread) (answer : Answer) (call : Receive) (pc : SleepPc) :
    Option MessageThread :=
  let goto (s : MessageThread) (pc : SleepPc) : Option MessageThread :=
    some { s with frame := .sleep call pc }
  match pc with
  | .prechecks (node :: left) =>
    if node.precheck then s.postFromSleep answer call (.prechecks left)
    else goto s (.prechecks left)
  | .prechecks [] =>
    if noFd s.socket_list then goto s (.lock .cond)
    else goto { s with pipe := some (s.pipe.getD 0) } (.lock .select)
  | .lock method =>
    if s.sync_mutex = none then
      goto { s with sync_mutex := some 0, method := method } (.check method)
    else none
  | .check method =>
    if s.add_msg = none then goto s (.set method) else goto s (.unlock true)
  | .set .cond => goto { s with waiting_for_msg := true } .enter
  | .set .select => goto { s with waiting_for_msg := true } .unlockSelect
  | .enter => goto { s with sync_mutex := none } .condWait
  | .condWait =>
    match answer with
    | .expired => if 0 ≤ call.timeout then goto s (.relock false) else none
    | .interrupted => goto s (.relock true)
    | _ => none
  | .relock got_message =>
    if s.sync_mutex = none then goto { s with sync_mutex := some 0 } (.unlock got_message)
    else none
  | .unlock got_message => some ({ s with sync_mutex := none }.wake call got_message)
  | .unlockSelect => goto { s with sync_mutex := none } .select
  | .select =>
    match answer with
    | .expired =>
      if 0 ≤ call.timeout ∧ s.pipe = some 0 then goto s (.unset false false) else none
    | .interrupted => if 0 ≤ call.timeout then goto s (.unset true true) else none
    | _ => goto s (.unset true (s.pipe ≠ some 0))
  | .unset got_message readable =>
    if readable then goto { s with waiting_for_msg := false } (.drain got_message)
    else goto { s with waiting_for_msg := false } (.notifs got_message s.socket_list)
  | .drain got_message =>
    let count := min 256 (s.pipe.getD 0)
    let s := { s with pipe := s.pipe.map fun n => n - count }
    if count = 256 then goto s (.drain got_message)
    else goto s (.notifs got_message s.socket_list)
  | .notifs got_message (_ :: left) => s.postFromSleep answer call (.notifs got_message left)
  | .notifs got_message [] => some (s.wake call got_message)

/-- `serial_pend[serial/LONG_BIT] |= 1<<(serial%LONG_BIT)`, with the given value of
the shift. -/
def markSerial (bit : Nat → UInt64) (s : MessageThread) (serial : Nat) : MessageThread :=
  { s with serial_pend :=
      Function.update s.serial_pend (serial / 64) (s.serial_pend (serial / 64) ||| bit (serial % 64)) }

/-- The serial of a message nobody waits for. -/
def noSerial : Nat := 2 ^ 56 - 1

/-- The first message of `cur_msg` is handled. -/
def handle (bit : Nat → UInt64) (s : MessageThread) (call : Receive) (msg : MsgId) :
    MessageThread :=
  if (s.message msg).answered then
    match call with
    | .processMessages _ =>
      let s := if (s.message msg).serial ≠ noSerial then s.markSerial bit (s.message msg).serial
        else s
      { s with frame := .loop call }
    | .waitAnyMessageTimeout _ =>
      { s.markSerial bit (s.message msg).serial with frame := .loop call }
    | .processOneMessage => (s.markSerial bit (s.message msg).serial).leave
  else
    match call with
    | .waitAnyMessageTimeout _ => s.leave
    | _ => { s with frame := .eval call msg }

/-- `msg->eval()` returned. A synced message is marked and posted back to its creator:
when that is this thread, as one more message of its own. -/
def evaluated (s : MessageThread) (call : Receive) (msg : MsgId) : MessageThread :=
  let s :=
    if (s.message msg).synced then
      { s with message := Function.update s.message msg { s.message msg with answered := true } }
    else s
  match call with
  | .processOneMessage => s.leave
  | _ => { s with frame := .loop call }

/-- `processMessages` stops here: the answer it waits for has come. -/
def isAnswered (bit : Nat → UInt64) (s : MessageThread) : Receive → Bool
  | .processMessages wait_answer =>
    0 ≤ wait_answer &&
      s.serial_pend (wait_answer.toNat / 64) &&& bit (wait_answer.toNat % 64) ≠ 0
  | _ => false

/-- The first message of `cur_msg` is taken off. -/
def take (s : MessageThread) (msg : MsgId) : MessageThread :=
  { s with
    cur_msg := s.next msg
    owner := Function.update s.owner msg none
    delivered := s.delivered ++ [((s.owner msg).getD 0, msg)] }

/-- The start of the loop: a message of `cur_msg`, or the whole of `add_msg`, or sleep. -/
def loopStep (bit : Nat → UInt64) (s : MessageThread) (call : Receive) : MessageThread :=
  if s.isAnswered bit call then s.leave
  else
    match s.cur_msg with
    | some msg => (s.take msg).handle bit call msg
    | none =>
      match s.add_msg with
      | some msg => { s with add_msg := none, frame := .reverse call msg none }
      | none => { s with frame := .sleep call (.prechecks s.socket_list) }

/-- Every way a pass of the loop can go. -/
theorem loopStep_cases (bit : Nat → UInt64) (s : MessageThread) (call : Receive) :
    (s.isAnswered bit call = true ∧ s.loopStep bit call = s.leave) ∨
    (∃ msg, s.cur_msg = some msg ∧ s.loopStep bit call = (s.take msg).handle bit call msg) ∨
    (∃ msg, s.isAnswered bit call = false ∧ s.cur_msg = none ∧ s.add_msg = some msg ∧
      s.loopStep bit call = { s with add_msg := none, frame := .reverse call msg none }) ∨
    (s.cur_msg = none ∧ s.add_msg = none ∧
      s.loopStep bit call = { s with frame := .sleep call (.prechecks s.socket_list) }) := by
  have hloop : s.loopStep bit call = if s.isAnswered bit call then s.leave else
      match s.cur_msg with
      | some msg => (s.take msg).handle bit call msg
      | none =>
        match s.add_msg with
        | some msg => { s with add_msg := none, frame := .reverse call msg none }
        | none => { s with frame := .sleep call (.prechecks s.socket_list) } := rfl
  by_cases hanswered : s.isAnswered bit call = true
  · exact .inl ⟨hanswered, by rw [hloop, if_pos hanswered]⟩
  · rw [if_neg hanswered] at hloop
    have hfalse : s.isAnswered bit call = false := by simpa using hanswered
    rcases hcur : s.cur_msg with _ | msg
    · rcases hadd : s.add_msg with _ | msg
      · exact .inr (.inr (.inr ⟨rfl, rfl, by rw [hloop]; split <;> simp_all⟩))
      · exact .inr (.inr (.inl ⟨msg, hfalse, rfl, rfl, by rw [hloop]; split <;> simp_all⟩))
    · exact .inr (.inl ⟨msg, rfl, by rw [hloop]; split <;> simp_all⟩)

/-- A pass of the reversing loop. -/
def reverseStep (s : MessageThread) (call : Receive) (msg : MsgId) (o : Option MsgId) :
    MessageThread :=
  match s.next msg with
  | none => { s.setNext msg o with cur_msg := some msg, frame := .loop call }
  | some n => { s.setNext msg o with frame := .reverse call n o }

/-- The next step of the receiver's innermost call. -/
def receiveStep (bit : Nat → UInt64) (s : MessageThread) (answer : Answer) :
    Option MessageThread :=
  match s.frame with
  | .idle => none
  | .loop call => some (s.loopStep bit call)
  | .reverse call msg o => some (s.reverseStep call msg o)
  | .eval call msg => some (s.evaluated call msg)
  | .sleep call pc => s.sleepStep answer call pc

/-- One step of one thread. The receiver does nothing else while it is posting. -/
def step (bit : Nat → UInt64) (s : MessageThread) : ThreadEvent → Option MessageThread
  | .send thread msg body =>
    if thread ≠ 0 ∨ s.outside then s.send thread msg body else none
  | .push thread => s.pushStep thread
  | .call call =>
    if s.push 0 = none ∧ s.outside then some (s.enter call) else none
  | .registerSocket socket =>
    if s.push 0 = none ∧ s.outside then some { s with socket_list := s.socket_list ++ [socket] }
    else none
  | .unregisterSocket fd =>
    if s.push 0 = none ∧ s.outside then
      some { s with socket_list := s.socket_list.eraseP fun socket => socket.fd = fd }
    else none
  | .receive answer => if s.push 0 = none then s.receiveStep bit answer else none

/-- All interleavings of the receiver and its senders. `bit k` is the value of
`1<<k` as the receiver's compiler has it. -/
def machine (bit : Nat → UInt64) : Machine MessageThread ThreadEvent where
  init s := ∃ message method, s = start message method
  step := step bit

end MessageThread

end Drt
