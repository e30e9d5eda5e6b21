import Drt.Core.Base.Exception
import Drt.Core.Struct.ItemCount
import Drt.Core.Thread.MutexCond
import Drt.Lib.Machine
import Mathlib.Data.Finset.Sort

/-!
# The worker pool

`WorkerPoolManager` and its `WorkerPoolThread`s. Work reaches a worker in two
ways: as a message which the manager sends under the lock and the worker receives
outside it, or from `pending_work`, taken by the worker under the lock. A message
sent to a worker is in its queue from then on.
-/

namespace Drt

/-- `WorkerPoolThread::WorkMessage`: its `work`, which is NULL in a call to exit. -/
abbrev WorkMessage (Work : Type) := Option Work

/-- Where a thread is in `run`; the first four are the receives of `checkNextWork`. -/
inductive WorkerPc (Work : Type) where
  /-- Before the receive without the lock. -/
  | check
  /-- Before the locked block with `pending_work`. -/
  | checkPending
  /-- In the receive with `worker_timeout_ns`. -/
  | idle
  /-- Before the locked block after the timeout. -/
  | timedOut
  /-- At `out` with this message. -/
  | out (wmsg : WorkMessage Work)
  /-- In `runWork`. -/
  | running (msg : WorkMessage Work)
  /-- Before `addResult`. -/
  | adding (msg : WorkMessage Work)
  | exited
  deriving DecidableEq, Repr

/-- A worker thread and its message queue. -/
structure WorkerPoolThread (Work : Type) where
  pc : WorkerPc Work
  queue : List (WorkMessage Work)
  deriving DecidableEq, Repr

/-- The fields of `WorkerPoolManager` and the threads. A `WorkerPoolThread *` is the
place of its thread in `threads`. -/
structure WorkerPool (Work : Type) where
  max_workers : Int32
  is_waiting : Bool
  exit_workers : List Nat
  free_workers : Finset Nat
  all_workers : Finset Nat
  pending_work : List (WorkMessage Work)
  result_msg : List (WorkMessage Work)
  threads : List (WorkerPoolThread Work)
  deriving DecidableEq

namespace WorkerPool

variable {Work : Type}

/-- `WorkerPoolManager()`. -/
def create : WorkerPool Work where
  max_workers := 1
  is_waiting := false
  exit_workers := []
  free_workers := ∅
  all_workers := ∅
  pending_work := []
  result_msg := []
  threads := []

/-- `setMaxWorkers`: the field is an `int`. -/
def setMaxWorkers (m : WorkerPool Work) (max_count : UInt32) : WorkerPool Work :=
  { m with max_workers := max_count.toInt32 }

def addResult (m : WorkerPool Work) (worker : Nat) (msg : WorkMessage Work) :
    WorkerPool Work × Notify :=
  ({ m with
      result_msg := m.result_msg ++ [msg]
      free_workers := insert worker m.free_workers },
    if m.is_waiting then .signal else .quiet)

/-- `createWorkerThread` and its two registrations. The exiting threads are joined;
they have left the pool for good, so this does not wait for another section. -/
def createWorker (m : WorkerPool Work) : WorkerPool Work :=
  { m with
    threads := m.threads ++ [⟨.check, []⟩]
    all_workers := insert m.threads.length m.all_workers
    free_workers := insert m.threads.length m.free_workers
    exit_workers := [] }

/-- The loop of `addWork`. -/
def createWorkers : Nat → WorkerPool Work → Call (WorkerPool Work)
  | 0, _ => .outOfFuel
  | fuel + 1, m =>
    if itemCount m.free_workers.card < itemCount m.pending_work.length ∧
        itemCount m.all_workers.card < m.max_workers.toUInt32.toUInt64 then
      createWorkers fuel m.createWorker
    else .ok m

/-- `worker->addMessage(msg)`. -/
def sendMessage (m : WorkerPool Work) (worker : Nat) (msg : WorkMessage Work) : WorkerPool Work :=
  match m.threads[worker]? with
  | some t => { m with threads := m.threads.set worker { t with queue := t.queue ++ [msg] } }
  | none => m

/-- `free_workers.iterFirst()->k`. The order of the hash depends on addresses: any
member can come first, and `order` names it. -/
def iterFirst (order : Nat) (workers : Finset Nat) : Option Nat :=
  if order ∈ workers then some order else (workers.sort (· ≤ ·)).head?

/-- `addWork`. Each pass of the loop starts a worker, so the pending work bounds it. -/
def addWork (m : WorkerPool Work) (work : Work) (order : Nat) : Call (WorkerPool Work) := do
  let m := { m with pending_work := m.pending_work ++ [some work] }
  let m ← m.createWorkers (m.pending_work.length + 1)
  if itemCount m.free_workers.card > 0 then
    match iterFirst order m.free_workers, m.pending_work with
    | some worker, msg :: rest =>
      return { m with
        free_workers := m.free_workers.erase worker
        pending_work := rest }.sendMessage worker msg
    | _, _ => .fault
  else return m

def checkWorkResult (m : WorkerPool Work) : Call (WorkerPool Work × Option Work) :=
  if itemCount m.result_msg.length ≠ 0 then
    match m.result_msg with
    | [] => .fault
    | msg :: rest => .ok ({ m with result_msg := rest }, msg)
  else .ok (m, none)

/-- One pass of the loop of `waitWorkResult`; a result of `none` is NULL. -/
def waitWorkResult (m : WorkerPool Work) : Call (WorkerPool Work × Turn (Option Work)) :=
  if itemCount m.result_msg.length ≠ 0 then
    match m.result_msg with
    | [] => .fault
    | msg :: rest => .ok ({ m with result_msg := rest }, .leave msg)
  else if itemCount m.pending_work.length = 0 ∧
      itemCount m.free_workers.card = itemCount m.all_workers.card then
    .ok (m, .leave none)
  else .ok ({ m with is_waiting := true }, .sleep)

/-- `workerExiting`, with its assertion. -/
def workerExiting (m : WorkerPool Work) (worker : Nat) : Call (WorkerPool Work × Notify) :=
  if worker ∈ m.all_workers then
    .ok ({ m with
        free_workers := m.free_workers.erase worker
        all_workers := m.all_workers.erase worker
        exit_workers := m.exit_workers ++ [worker] },
      if m.is_waiting then .signal else .quiet)
  else .fault

/-- The thread is now this one. -/
def setThread (m : WorkerPool Work) (worker : Nat) (t : WorkerPoolThread Work) :
    WorkerPool Work :=
  { m with threads := m.threads.set worker t }

/-- `workerExiting` and the return from `run`. -/
def exit (m : WorkerPool Work) (worker : Nat) (t : WorkerPoolThread Work) :
    Call (WorkerPool Work) := do
  let (m, _) ← m.workerExiting worker
  return m.setThread worker { t with pc := .exited }

/-- The next step of a thread. -/
def thread (m : WorkerPool Work) (worker : Nat) (t : WorkerPoolThread Work) :
    Call (WorkerPool Work) :=
  match t.pc, t.queue with
  | .check, msg :: rest => return m.setThread worker ⟨.out msg, rest⟩
  | .check, [] => return m.setThread worker ⟨.checkPending, []⟩
  | .checkPending, msg :: rest => return m.setThread worker ⟨.out msg, rest⟩
  | .checkPending, [] =>
    if m.max_workers < 0 then m.exit worker t
    else if itemCount m.pending_work.length > 0 then
      match m.pending_work with
      | [] => .fault
      | wmsg :: rest =>
        return { m with
          pending_work := rest
          free_workers := m.free_workers.erase worker }.setThread worker ⟨.out wmsg, []⟩
    else
      return { m with free_workers := insert worker m.free_workers }.setThread worker ⟨.idle, []⟩
  | .idle, msg :: rest => return m.setThread worker ⟨.out msg, rest⟩
  | .idle, [] => return m.setThread worker ⟨.timedOut, []⟩
  | .timedOut, msg :: rest => return m.setThread worker ⟨.out msg, rest⟩
  | .timedOut, [] => m.exit worker t
  | .out (some work), queue => return m.setThread worker ⟨.running (some work), queue⟩
  | .out none, _ => m.exit worker t
  | .running msg, queue => return m.setThread worker ⟨.adding msg, queue⟩
  | .adding msg, queue =>
    let (m, _) := m.addResult worker msg
    return m.setThread worker ⟨.check, queue⟩
  | .exited, _ => return m

end WorkerPool

/-- A pool with its users: any number of threads that add work, and one that waits. -/
structure PoolSystem (Work : Type) where
  pool : WorkerPool Work
  /-- The waiting user is in the `wait` of `waitWorkResult`. -/
  asleep : Bool
  /-- The work passed to `addWork` so far. -/
  submitted : List Work
  /-- The work returned to the users so far. -/
  returned : List Work
  /-- What was submitted and returned by each time `waitWorkResult` returned NULL. -/
  nulls : List (List Work × List Work)
  /-- An assertion failed, or an empty list was read from. -/
  crashed : Bool

namespace PoolSystem

variable {Work : Type}

def start : PoolSystem Work where
  pool := .create
  asleep := false
  submitted := []
  returned := []
  nulls := []
  crashed := false

/-- Which thread moves. -/
inductive Event (Work : Type) where
  | addWork (work : Work) (order : Nat)
  | checkWorkResult
  | waitWorkResult
  | wakeWaiting
  | thread (worker : Nat)
  | setMaxWorkers (max_count : UInt32)
  deriving DecidableEq, Repr

/-- Go on after a section, unless it failed. -/
def settle {α : Type} (s : PoolSystem Work) (r : Call α) (f : α → PoolSystem Work) :
    PoolSystem Work :=
  match r with
  | .ok a => f a
  | _ => { s with crashed := true }

/-- The waiting user came to the end of a pass. -/
def waitTurn (s : PoolSystem Work) (r : WorkerPool Work × Turn (Option Work)) :
    PoolSystem Work :=
  match r with
  | (pool, .leave (some work)) =>
    { s with pool := pool, asleep := false, returned := s.returned ++ [work] }
  | (pool, .leave none) =>
    { s with pool := pool, asleep := false, nulls := s.nulls ++ [(s.submitted, s.returned)] }
  | (pool, .sleep) => { s with pool := pool, asleep := true }

/-- One step of one thread. `max_workers` is kept at 1 or more. -/
def step (s : PoolSystem Work) : Event Work → Option (PoolSystem Work)
  | .addWork work order =>
    some (s.settle (s.pool.addWork work order) fun pool =>
      { s with pool := pool, submitted := s.submitted ++ [work] })
  | .checkWorkResult =>
    some (s.settle s.pool.checkWorkResult fun (pool, work) =>
      { s with pool := pool, returned := s.returned ++ work.toList })
  | .waitWorkResult =>
    if s.asleep then none else some (s.settle s.pool.waitWorkResult s.waitTurn)
  | .wakeWaiting =>
    if s.asleep then
      some (s.settle { s.pool with is_waiting := false }.waitWorkResult s.waitTurn)
    else none
  | .thread worker =>
    match s.pool.threads[worker]? with
    | none => none
    | some t => some (s.settle (s.pool.thread worker t) fun pool => { s with pool := pool })
  | .setMaxWorkers max_count =>
    if 1 ≤ max_count.toInt32 then some { s with pool := s.pool.setMaxWorkers max_count }
    else none

/-- All runs of a pool before it is destroyed. -/
def machine (Work : Type) : Machine (PoolSystem Work) (Event Work) where
  init s := s = start
  step := step

end PoolSystem

end Drt
