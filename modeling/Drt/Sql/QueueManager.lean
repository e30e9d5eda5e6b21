import Drt.Core.Struct.ItemCount
import Drt.Core.Thread.MutexCond
import Drt.Core.Types.DrString
import Drt.Lib.Machine
import Mathlib.Data.List.AList

/-!
# The work queue of sqldump_filt

The main thread passes lines to `QueueManager` and takes their results back in
line order; worker threads fetch lines, process them outside the lock and park
the results. All shared fields are touched under `access_lock`, so the code
between two lock operations is one step.
-/

namespace Drt

/-- The fields of `QueueManager` which the queue works with. -/
structure QueueManager where
  /-- The number of threads in the list. -/
  all_workers : Nat
  waiting_data : List Blob
  processed_data : AList fun _ : Int => Blob
  proc_counter : Int
  return_counter : Int
  num_free_workers : UInt32
  max_workers : UInt32
  max_pending : UInt32
  is_waiting : Bool

namespace QueueManager

/-- `QueueManager()`. -/
def create : QueueManager where
  all_workers := 0
  waiting_data := []
  processed_data := ∅
  proc_counter := 0
  return_counter := 0
  num_free_workers := 0
  max_workers := 1
  max_pending := 2
  is_waiting := false

def setNumWorkers (q : QueueManager) (max_count : UInt32) : QueueManager :=
  { q with max_workers := max_count }

def setNumPending (q : QueueManager) (max_count : UInt32) : QueueManager :=
  { q with max_pending := max_count }

/-- One pass of the loop of `getNextWork`; `data` is the caller's variable. -/
def getNextWork (q : QueueManager) (data : Blob) :
    QueueManager × Notify × Turn (Int × Blob) :=
  if q.max_workers = 0 then (q, .quiet, .leave (-1, data))
  else
    match q.waiting_data with
    | n :: rest =>
      ({ q with
          waiting_data := rest
          proc_counter := q.proc_counter + 1
          num_free_workers := q.num_free_workers - 1 },
        .signal, .leave (q.proc_counter, n))
    | [] => (q, .quiet, .sleep)

def putProcessedData (q : QueueManager) (id : Int) (data : Blob) : QueueManager × Notify :=
  ({ q with
      processed_data := q.processed_data.insert id data
      num_free_workers := q.num_free_workers + 1 },
    if q.is_waiting ∧ id = q.return_counter then .broadcast else .quiet)

/-- The bounded-buffer test at the end of `putNextWork`. The difference is taken
in `size_t`, so it wraps when there are more free workers than data. -/
def popData (q : QueueManager) : Bool :=
  itemCount q.waiting_data.length + itemCount q.processed_data.entries.length -
      q.num_free_workers.toUInt64 > q.max_pending.toUInt64 ||
    (q.processed_data.lookup q.return_counter).isSome

/-- `putNextWork`; the first result says that a worker thread was started. -/
def putNextWork (q : QueueManager) (data : Blob) : QueueManager × Notify × Bool × Bool :=
  let q := { q with waiting_data := q.waiting_data ++ [data] }
  if q.num_free_workers.toUInt64 < itemCount q.waiting_data.length then
    if itemCount q.all_workers < q.max_workers.toUInt64 then
      let q := { q with
        all_workers := q.all_workers + 1
        num_free_workers := q.num_free_workers + 1 }
      (q, .quiet, true, q.popData)
    else (q, .quiet, false, q.popData)
  else (q, .signal, false, q.popData)

/-- One pass of the loop of `waitProcessedData`; a result of `none` is Null. -/
def waitProcessedData (q : QueueManager) : QueueManager × Turn (Option Blob) :=
  match q.processed_data.lookup q.return_counter with
  | some data =>
    ({ q with
        processed_data := q.processed_data.erase q.return_counter
        return_counter := q.return_counter + 1 },
      .leave (some data))
  | none =>
    if q.return_counter = q.proc_counter then (q, .leave none)
    else ({ q with is_waiting := true }, .sleep)

end QueueManager

/-- Where a thread is in `runWorker`. -/
inductive Worker where
  /-- Before the lock in `getNextWork`, with its variable `data`. -/
  | getting (data : Blob)
  /-- In the `wait` of `getNextWork`. -/
  | asleep (data : Blob)
  /-- In `processOneData(id+1, data)`. -/
  | processing (id : Int) (data : Blob)
  /-- Before the lock in `putProcessedData`. -/
  | putting (id : Int) (data : Blob)
  /-- The thread is over: no work is left to ask for, or `processOneData` raised. -/
  | gone
  deriving DecidableEq, Repr

/-- The queue with the threads around it. -/
structure QueueSystem where
  queue : QueueManager
  workers : List Worker
  /-- The number of callers in the `wait` of `waitProcessedData`. -/
  waiting : Nat
  /-- The lines passed to `putNextWork` so far. -/
  submitted : List Blob
  /-- The non-null blobs returned by `waitProcessedData` so far. -/
  returned : List Blob

namespace QueueSystem

/-- Nothing is submitted, and no worker is running. -/
def start (max_workers max_pending : UInt32) : QueueSystem where
  queue := (QueueManager.create.setNumWorkers max_workers).setNumPending max_pending
  workers := []
  waiting := 0
  submitted := []
  returned := []

/-- A caller runs `putNextWork`. -/
def putNextWork (s : QueueSystem) (data : Blob) : QueueSystem × Bool :=
  let (queue, _, started, pop_data) := s.queue.putNextWork data
  ({ s with
      queue := queue
      workers := if started then s.workers ++ [.getting []] else s.workers
      submitted := s.submitted ++ [data] },
    pop_data)

/-- A caller runs a pass of the loop of `waitProcessedData`. -/
def waitProcessedData (s : QueueSystem) : QueueSystem × Turn (Option Blob) :=
  match s.queue.waitProcessedData with
  | (queue, .leave data) =>
    ({ s with queue := queue, returned := s.returned ++ data.toList }, .leave data)
  | (queue, .sleep) => ({ s with queue := queue, waiting := s.waiting + 1 }, .sleep)

/-- A caller asleep in `waitProcessedData` goes on with the next pass. -/
def wakeWaiting (s : QueueSystem) : Option (QueueSystem × Turn (Option Blob)) :=
  match s.waiting with
  | 0 => none
  | waiting + 1 =>
    some { s with
      waiting := waiting
      queue := { s.queue with is_waiting := false } }.waitProcessedData

/-- The next step of worker `w`. A raised exception ends its thread. -/
def worker (processOneData : Int → Blob → Option Blob) (s : QueueSystem) (w : Nat) :
    Option QueueSystem :=
  match s.workers[w]? with
  | some (.getting data) =>
    match s.queue.getNextWork data with
    | (queue, _, .leave (id, data)) =>
      some { s with
        queue := queue
        workers := s.workers.set w (if 0 ≤ id then .processing id data else .gone) }
    | (queue, _, .sleep) => some { s with queue := queue, workers := s.workers.set w (.asleep data) }
  | some (.asleep data) => some { s with workers := s.workers.set w (.getting data) }
  | some (.processing id data) =>
    match processOneData (id + 1) data with
    | some output => some { s with workers := s.workers.set w (.putting id output) }
    | none => some { s with workers := s.workers.set w .gone }
  | some (.putting id data) =>
    let (queue, _) := s.queue.putProcessedData id data
    some { s with queue := queue, workers := s.workers.set w (.getting data) }
  | some .gone => none
  | none => none

/-- Which thread moves. -/
inductive Event where
  | worker (w : Nat)
  | putNextWork (data : Blob)
  | waitProcessedData
  | wakeWaiting
  deriving DecidableEq, Repr

/-- Any number of callers and workers, in any order. -/
def machine (processOneData : Int → Blob → Option Blob) : Machine QueueSystem Event where
  init s := ∃ max_workers max_pending, s = start max_workers max_pending
  step s
    | .worker w => s.worker processOneData w
    | .putNextWork data => some (s.putNextWork data).1
    | .waitProcessedData => some s.waitProcessedData.1
    | .wakeWaiting => s.wakeWaiting.map Prod.fst

end QueueSystem

/-! ### Order of the processed lines

`proc_counter` numbers the lines in the order in which they are fetched, and the
queue is first in, first out, so the number of a line is its place in the input.
Every blob a worker or the parking map holds under a number is the result of the
line in that place, and `return_counter` takes them in turn. -/

namespace QueueSystem

variable {processOneData : Int → Blob → Option Blob}

/-- What `processOneData` makes of the lines, in input order. -/
def results (processOneData : Int → Blob → Option Blob) (lines : List Blob) :
    List (Option Blob) :=
  lines.mapIdx fun i line => processOneData (i + 1) line

/-- The result of the line with number `id` is `output`. -/
def IsResult (processOneData : Int → Blob → Option Blob) (lines : List Blob) (id : Int)
    (output : Blob) : Prop :=
  ∃ i : Nat, id = i ∧ (results processOneData lines)[i]? = some (some output)

@[simp] theorem length_results (lines : List Blob) :
    (results processOneData lines).length = lines.length := by
  simp [results]

@[simp] theorem results_append (lines : List Blob) (line : Blob) :
    results processOneData (lines ++ [line]) =
      results processOneData lines ++ [processOneData (lines.length + 1) line] := by
  simp [results, List.mapIdx_append]

variable {lines : List Blob} {x : Worker} {s t : QueueSystem}

theorem getElem?_results {i : Nat} {line : Blob} (h : lines[i]? = some line) :
    (results processOneData lines)[i]? = some (processOneData (i + 1) line) := by
  simp [results, h]

theorem IsResult.append {id : Int} {output : Blob} (line : Blob)
    (h : IsResult processOneData lines id output) :
    IsResult processOneData (lines ++ [line]) id output := by
  obtain ⟨i, hid, hi⟩ := h
  have hlt := (List.getElem?_eq_some_iff.mp hi).1
  refine ⟨i, hid, ?_⟩
  rw [results_append, List.getElem?_append_left hlt]
  exact hi

/-- A worker holds a fetched line, or the result of one, under its own number. -/
def Holds (processOneData : Int → Blob → Option Blob) (lines : List Blob) (proc_counter : Int) :
    Worker → Prop
  | .processing id data => ∃ i : Nat, id = i ∧ id < proc_counter ∧ lines[i]? = some data
  | .putting id output => id < proc_counter ∧ IsResult processOneData lines id output
  | _ => True

theorem Holds.append {n : Int} (line : Blob) (h : Holds processOneData lines n x) :
    Holds processOneData (lines ++ [line]) n x := by
  cases x with
  | processing id data =>
    obtain ⟨i, hid, hlt, hi⟩ := h
    have hi' := (List.getElem?_eq_some_iff.mp hi).1
    exact ⟨i, hid, hlt, by rw [List.getElem?_append_left hi', hi]⟩
  | putting id output => exact ⟨h.1, h.2.append line⟩
  | getting data | asleep data | gone => trivial

theorem Holds.mono {n n' : Int} (hn : n ≤ n') (h : Holds processOneData lines n x) :
    Holds processOneData lines n' x := by
  cases x with
  | processing id data =>
    obtain ⟨i, hid, hlt, hi⟩ := h
    exact ⟨i, hid, by omega, hi⟩
  | putting id output =>
    obtain ⟨hlt, hres⟩ := h
    exact ⟨by omega, hres⟩
  | getting data | asleep data | gone => trivial

/-- The counters, the queue, the workers and the parking map agree on the place
of every line. -/
structure Ordered (processOneData : Int → Blob → Option Blob) (s : QueueSystem) : Prop where
  /-- The fetched lines are the first ones, and `proc_counter` is their number. -/
  fetched : ∃ taken, s.submitted = taken ++ s.queue.waiting_data ∧
    s.queue.proc_counter = (taken.length : Int)
  held : ∀ x ∈ s.workers, Holds processOneData s.submitted s.queue.proc_counter x
  parked : ∀ id output, s.queue.processed_data.lookup id = some output →
    id < s.queue.proc_counter ∧ IsResult processOneData s.submitted id output
  /-- `return_counter` counts the returned blobs. -/
  counted : s.queue.return_counter = (s.returned.length : Int)
  returned : ∀ (i : Nat) output, s.returned[i]? = some output →
    IsResult processOneData s.submitted (i : Int) output
  behind : s.queue.return_counter ≤ s.queue.proc_counter

/-- Storing one worker's new state keeps what is known of the others. -/
theorem held_set {n n' : Int} {workers : List Worker} {w : Nat} (hn : n ≤ n')
    (h : ∀ y ∈ workers, Holds processOneData lines n y) (hx : Holds processOneData lines n' x) :
    ∀ y ∈ workers.set w x, Holds processOneData lines n' y := by
  intro y hy
  rcases List.mem_or_eq_of_mem_set hy with hy | rfl
  · exact (h y hy).mono hn
  · exact hx

/-- A queue whose line numbers and parking map are as before, seen by other threads. -/
theorem Ordered.congr (h : Ordered processOneData s)
    (hq : t.queue.waiting_data = s.queue.waiting_data ∧
      t.queue.processed_data = s.queue.processed_data ∧
      t.queue.proc_counter = s.queue.proc_counter ∧
      t.queue.return_counter = s.queue.return_counter) (hs : t.submitted = s.submitted)
    (hr : t.returned = s.returned)
    (hw : ∀ x ∈ t.workers, Holds processOneData s.submitted s.queue.proc_counter x) :
    Ordered processOneData t := by
  obtain ⟨hwait, hproc, hpc, hrc⟩ := hq
  constructor
  · rw [hs, hwait, hpc]
    exact h.fetched
  · rw [hs, hpc]
    exact hw
  · rw [hs, hproc, hpc]
    exact h.parked
  · rw [hrc, hr]
    exact h.counted
  · rw [hs, hr]
    exact h.returned
  · rw [hrc, hpc]
    exact h.behind

theorem ordered_start (max_workers max_pending : UInt32) :
    Ordered processOneData (start max_workers max_pending) := by
  refine ⟨⟨[], rfl, rfl⟩, ?_, ?_, rfl, ?_, Int.le_refl _⟩
  · intro x hx
    cases hx
  · intro id output h
    simp [start, QueueManager.create, QueueManager.setNumWorkers,
      QueueManager.setNumPending] at h
  · intro i output h
    simp [start] at h

/-- What `putNextWork` changes besides the bookkeeping of threads. -/
theorem putNextWork_fields (q : QueueManager) (data : Blob) :
    (q.putNextWork data).1.waiting_data = q.waiting_data ++ [data] ∧
      (q.putNextWork data).1.processed_data = q.processed_data ∧
      (q.putNextWork data).1.proc_counter = q.proc_counter ∧
      (q.putNextWork data).1.return_counter = q.return_counter := by
  unfold QueueManager.putNextWork
  dsimp only
  split
  · split <;> exact ⟨rfl, rfl, rfl, rfl⟩
  · exact ⟨rfl, rfl, rfl, rfl⟩

theorem Ordered.putNextWork (h : Ordered processOneData s) (data : Blob) :
    Ordered processOneData (s.putNextWork data).1 := by
  obtain ⟨hwait, hproc, hpc, hrc⟩ := putNextWork_fields s.queue data
  obtain ⟨taken, hdone, hlen⟩ := h.fetched
  have hqueue : (s.putNextWork data).1.queue = (s.queue.putNextWork data).1 := rfl
  refine ⟨⟨taken, ?_, ?_⟩, ?_, ?_, ?_, ?_, ?_⟩
  · rw [hqueue, hwait, ← List.append_assoc, ← hdone]
    rfl
  · rw [hqueue, hpc, hlen]
  · rw [hqueue, hpc]
    intro x hx
    by_cases hx' : x ∈ s.workers
    · exact (h.held x hx').append data
    · -- only a thread that is just started is new
      have hnew : x = .getting [] := by
        simp only [QueueSystem.putNextWork] at hx
        split at hx
        · simpa [hx'] using hx
        · exact absurd hx hx'
      rw [hnew]
      trivial
  · rw [hqueue, hproc, hpc]
    intro id output hid
    obtain ⟨hlt, hres⟩ := h.parked id output hid
    exact ⟨hlt, hres.append data⟩
  · rw [hqueue, hrc]
    exact h.counted
  · intro i output hi
    exact (h.returned i output hi).append data
  · rw [hqueue, hrc, hpc]
    exact h.behind

/-- Every way a pass of `waitProcessedData` can go. -/
theorem waitProcessedData_cases (s : QueueSystem) :
    (∃ data, s.queue.processed_data.lookup s.queue.return_counter = some data ∧
      s.waitProcessedData = ({ s with
        queue := { s.queue with
          processed_data := s.queue.processed_data.erase s.queue.return_counter
          return_counter := s.queue.return_counter + 1 }
        returned := s.returned ++ [data] }, .leave (some data))) ∨
    (s.queue.processed_data.lookup s.queue.return_counter = none ∧
      s.queue.return_counter = s.queue.proc_counter ∧
      s.waitProcessedData = (s, .leave none)) ∨
    (s.queue.processed_data.lookup s.queue.return_counter = none ∧
      s.queue.return_counter ≠ s.queue.proc_counter ∧
      s.waitProcessedData = ({ s with
        queue := { s.queue with is_waiting := true }, waiting := s.waiting + 1 }, .sleep)) := by
  unfold QueueSystem.waitProcessedData QueueManager.waitProcessedData
  cases hlook : s.queue.processed_data.lookup s.queue.return_counter with
  | some data => exact .inl ⟨data, rfl, rfl⟩
  | none =>
    by_cases heq : s.queue.return_counter = s.queue.proc_counter
    · exact .inr (.inl ⟨rfl, heq, by simp [heq]⟩)
    · exact .inr (.inr ⟨rfl, heq, by simp [heq]⟩)

/-- The blob taken from the parking map is the one whose turn it is. -/
theorem Ordered.waitProcessedData (h : Ordered processOneData s) :
    Ordered processOneData s.waitProcessedData.1 := by
  obtain ⟨data, hlook, heq⟩ | ⟨_, _, heq⟩ | ⟨_, _, heq⟩ := waitProcessedData_cases s
  · rw [heq]
    obtain ⟨hlt, hres⟩ := h.parked _ _ hlook
    refine ⟨h.fetched, h.held, ?_, ?_, ?_, ?_⟩
    · intro id output hid
      by_cases hsame : id = s.queue.return_counter
      · subst hsame
        simp at hid
      · exact h.parked id output (by simpa [AList.lookup_erase_ne hsame] using hid)
    · simp [h.counted]
    · intro i output hi
      simp only [List.getElem?_append] at hi
      split at hi
      · exact h.returned i output hi
      · have hi' : i = s.returned.length := by
          have := (List.getElem?_eq_some_iff.mp hi).1
          simp only [List.length_singleton] at this
          omega
        subst hi'
        obtain rfl : data = output := by simpa using hi
        rw [← h.counted]
        exact hres
    · exact Int.add_one_le_iff.mpr hlt
  · rw [heq]
    exact h
  · rw [heq]
    exact h.congr ⟨rfl, rfl, rfl, rfl⟩ rfl rfl h.held

theorem Ordered.wakeWaiting {turn : Turn (Option Blob)} (h : Ordered processOneData s)
    (hstep : s.wakeWaiting = some (t, turn)) : Ordered processOneData t := by
  unfold QueueSystem.wakeWaiting at hstep
  cases hw : s.waiting with
  | zero => simp [hw] at hstep
  | succ waiting =>
    simp only [hw, Option.some.injEq] at hstep
    have hs : Ordered processOneData { s with
        waiting := waiting, queue := { s.queue with is_waiting := false } } :=
      h.congr ⟨rfl, rfl, rfl, rfl⟩ rfl rfl h.held
    simpa [hstep] using hs.waitProcessedData

/-- Every step of a worker, by the place in `runWorker` it starts from. -/
theorem worker_cases {w : Nat} (h : s.worker processOneData w = some t) :
    (∃ data, s.workers[w]? = some (.getting data) ∧
      t = { s with workers := s.workers.set w .gone }) ∨
    (∃ data n rest, s.workers[w]? = some (.getting data) ∧ s.queue.waiting_data = n :: rest ∧
      t = { s with
        queue := { s.queue with
          waiting_data := rest
          proc_counter := s.queue.proc_counter + 1
          num_free_workers := s.queue.num_free_workers - 1 }
        workers := s.workers.set w
          (if 0 ≤ s.queue.proc_counter then .processing s.queue.proc_counter n else .gone) }) ∨
    (∃ data, s.workers[w]? = some (.getting data) ∧ s.queue.waiting_data = [] ∧
      t = { s with workers := s.workers.set w (.asleep data) }) ∨
    (∃ data, s.workers[w]? = some (.asleep data) ∧
      t = { s with workers := s.workers.set w (.getting data) }) ∨
    (∃ id data output, s.workers[w]? = some (.processing id data) ∧
      processOneData (id + 1) data = some output ∧
      t = { s with workers := s.workers.set w (.putting id output) }) ∨
    (∃ id data, s.workers[w]? = some (.processing id data) ∧
      processOneData (id + 1) data = none ∧
      t = { s with workers := s.workers.set w .gone }) ∨
    (∃ id data, s.workers[w]? = some (.putting id data) ∧
      t = { s with
        queue := { s.queue with
          processed_data := s.queue.processed_data.insert id data
          num_free_workers := s.queue.num_free_workers + 1 }
        workers := s.workers.set w (.getting data) }) := by
  unfold QueueSystem.worker at h
  cases hw : s.workers[w]? with
  | none => simp [hw] at h
  | some x =>
    simp only [hw] at h
    cases x with
    | getting data =>
      unfold QueueManager.getNextWork at h
      by_cases hmax : s.queue.max_workers = 0
      · simp only [hmax, if_true] at h
        exact .inl ⟨data, rfl, by simpa using h.symm⟩
      · cases hq : s.queue.waiting_data with
        | cons n rest =>
          simp only [hmax, if_false, hq, Option.some.injEq] at h
          exact .inr (.inl ⟨data, n, rest, rfl, rfl, h.symm⟩)
        | nil =>
          simp only [hmax, if_false, hq, Option.some.injEq] at h
          exact .inr (.inr (.inl ⟨data, rfl, rfl, h.symm⟩))
    | asleep data => exact .inr (.inr (.inr (.inl ⟨data, rfl, by simpa using h.symm⟩)))
    | processing id data =>
      cases hp : processOneData (id + 1) data with
      | some output =>
        simp only [hp, Option.some.injEq] at h
        exact .inr (.inr (.inr (.inr (.inl ⟨id, data, output, rfl, hp, h.symm⟩))))
      | none =>
        simp only [hp, Option.some.injEq] at h
        exact .inr (.inr (.inr (.inr (.inr (.inl ⟨id, data, rfl, hp, h.symm⟩)))))
    | putting id data =>
      simp only [QueueManager.putProcessedData, Option.some.injEq] at h
      exact .inr (.inr (.inr (.inr (.inr (.inr ⟨id, data, rfl, h.symm⟩)))))
    | gone => simp at h

theorem Ordered.worker {w : Nat} (h : Ordered processOneData s)
    (hstep : s.worker processOneData w = some t) : Ordered processOneData t := by
  obtain ⟨data, hw, rfl⟩ | ⟨data, n, rest, hw, hq, rfl⟩ | ⟨data, hw, hq, rfl⟩ | ⟨data, hw, rfl⟩ |
    ⟨id, data, output, hw, hp, rfl⟩ | ⟨id, data, hw, hp, rfl⟩ | ⟨id, data, hw, rfl⟩ :=
    worker_cases hstep
  · exact h.congr ⟨rfl, rfl, rfl, rfl⟩ rfl rfl (held_set (Int.le_refl _) h.held trivial)
  · -- the fetched line is the first of those not yet fetched
    obtain ⟨taken, hdone, hlen⟩ := h.fetched
    have hnew : s.queue.proc_counter ≤ s.queue.proc_counter + 1 := by omega
    refine ⟨⟨taken ++ [n], ?_, ?_⟩, held_set hnew h.held ?_, ?_, h.counted, h.returned, ?_⟩
    · simpa [hq] using hdone
    · simp [hlen]
    · have hpos : 0 ≤ s.queue.proc_counter := by omega
      rw [if_pos hpos]
      refine ⟨taken.length, hlen, Int.lt_succ _, ?_⟩
      rw [hdone, hq]
      simp
    · intro id output hid
      obtain ⟨hlt, hres⟩ := h.parked id output hid
      exact ⟨Int.lt_of_lt_of_le hlt hnew, hres⟩
    · exact Int.le_trans h.behind hnew
  · exact h.congr ⟨rfl, rfl, rfl, rfl⟩ rfl rfl (held_set (Int.le_refl _) h.held trivial)
  · exact h.congr ⟨rfl, rfl, rfl, rfl⟩ rfl rfl (held_set (Int.le_refl _) h.held trivial)
  · obtain ⟨i, hid, hlt, hi⟩ := h.held _ (List.mem_of_getElem? hw)
    refine h.congr ⟨rfl, rfl, rfl, rfl⟩ rfl rfl (held_set (Int.le_refl _) h.held ⟨hlt, i, hid, ?_⟩)
    rw [getElem?_results hi, ← hid, hp]
  · exact h.congr ⟨rfl, rfl, rfl, rfl⟩ rfl rfl (held_set (Int.le_refl _) h.held trivial)
  · obtain ⟨hlt, hres⟩ := h.held _ (List.mem_of_getElem? hw)
    refine ⟨h.fetched, held_set (Int.le_refl _) h.held trivial, ?_, h.counted, h.returned, h.behind⟩
    intro id' output hid'
    by_cases hsame : id' = id
    · subst hsame
      obtain rfl : data = output := by simpa using hid'
      exact ⟨hlt, hres⟩
    · exact h.parked id' output (by simpa [AList.lookup_insert_ne hsame] using hid')

/-- Every step keeps the lines in their places. -/
theorem Ordered.step {e : Event} (h : Ordered processOneData s)
    (hstep : (machine processOneData).step s e = some t) : Ordered processOneData t := by
  cases e with
  | worker w => exact h.worker hstep
  | putNextWork data =>
    obtain rfl : (s.putNextWork data).1 = t := by simpa [machine] using hstep
    exact h.putNextWork data
  | waitProcessedData =>
    obtain rfl : s.waitProcessedData.1 = t := by simpa [machine] using hstep
    exact h.waitProcessedData
  | wakeWaiting =>
    obtain ⟨⟨t', turn⟩, hwake, rfl⟩ : ∃ r, s.wakeWaiting = some r ∧ r.1 = t := by
      simpa [machine] using hstep
    exact h.wakeWaiting hwake

theorem Ordered.reachable (h : (machine processOneData).Reachable s) :
    Ordered processOneData s := by
  refine h.invariant (Ordered processOneData) ?_ fun _ _ _ hs => hs.step
  rintro s ⟨max_workers, max_pending, rfl⟩
  exact ordered_start max_workers max_pending

theorem Ordered.isPrefix (hs : Ordered processOneData s) :
    s.returned.map some <+: results processOneData s.submitted := by
  rw [List.prefix_iff_getElem?]
  intro i hi
  have hlen : i < s.returned.length := by simpa using hi
  obtain ⟨j, hj, hres⟩ := hs.returned i s.returned[i] (List.getElem?_eq_getElem hlen)
  obtain rfl : i = j := by exact_mod_cast hj
  simpa using hres

/-- At every moment the returned blobs are the results of the first lines, in
input order. -/
theorem returned_prefix (processOneData : Int → Blob → Option Blob) (s : QueueSystem)
    (h : (machine processOneData).Reachable s) :
    s.returned.map some <+: results processOneData s.submitted := by
  exact (Ordered.reachable h).isPrefix

/-- Two lines that two workers finish in the other order, while the caller waits for the first. -/
theorem returned_prefix_swapped :
    ∃ s, (machine fun n line => some (line ++ [UInt8.ofNat n.toNat])).Reachable s ∧
      s.returned = [[65, 1], [66, 2]] ∧
      s.returned.map some <+:
        results (fun n line => some (line ++ [UInt8.ofNat n.toNat])) s.submitted := by
  let m := machine fun n line => some (line ++ [UInt8.ofNat n.toNat])
  let events : List Event := [.putNextWork [65], .putNextWork [66], .worker 0, .worker 1,
    .worker 1, .worker 1, .waitProcessedData, .worker 0, .worker 0, .wakeWaiting,
    .waitProcessedData]
  let s := (m.execute (start 2 5) events).get (by decide)
  have hs : m.Reachable s :=
    ⟨start 2 5, events, ⟨2, 5, rfl⟩, Machine.run_of_execute (Option.some_get _).symm⟩
  exact ⟨s, hs, by decide, returned_prefix _ s hs⟩

end QueueSystem

end Drt
