import Drt.Sql.QueueManager

/-!
# The main loop of sqldump_filt

`processExtract` reads the lines of the input, takes a result whenever the queue
asks for it, and drains the queue at the end of the input. It stops at the first
Null, and `waitProcessedData` returns Null as soon as every fetched line has been
returned: lines still in `waiting_data` do not count.
-/

open Option

namespace Drt

/-- Where the main thread is in `processExtract`. -/
inductive MainPc where
  /-- Before `tryReadLine`. -/
  | reading
  /-- Before the `waitProcessedData` that `putNextWork` asked for. -/
  | popping
  | popAsleep
  /-- Before `waitProcessedData` in the loop after the end of the input. -/
  | draining
  | drainAsleep
  | finished
  deriving DecidableEq, Repr

/-- The program: its main thread, the queue and the workers. -/
structure SqlDumpFilt where
  system : QueueSystem
  pc : MainPc
  /-- The lines not yet read from the standard input. -/
  input : List Blob
  /-- What has been written to the standard output. -/
  written : List UInt8

namespace SqlDumpFilt

/-- Which thread moves. -/
inductive Event where
  | main
  | worker (w : Nat)
  deriving DecidableEq, Repr

def start (max_workers max_pending : UInt32) (input : List Blob) : SqlDumpFilt where
  system := .start max_workers max_pending
  pc := .reading
  input := input
  written := []

/-- `fwrite` of the result of `waitProcessedData`; Null has no octets. -/
def write (s : SqlDumpFilt) (data : Option Blob) : SqlDumpFilt :=
  { s with written := s.written ++ data.getD [] }

/-- `waitProcessedData` in the reading loop came to the end of a pass. -/
def popTurn (s : SqlDumpFilt) (r : QueueSystem × Turn (Option Blob)) : SqlDumpFilt :=
  match r with
  | (system, .leave data) => { s with system := system, pc := .reading }.write data
  | (system, .sleep) => { s with system := system, pc := .popAsleep }

/-- `waitProcessedData` in the draining loop came to the end of a pass. -/
def drainTurn (s : SqlDumpFilt) (r : QueueSystem × Turn (Option Blob)) : SqlDumpFilt :=
  match r with
  | (system, .leave (some data)) => { s with system := system, pc := .draining }.write (some data)
  | (system, .leave none) => { s with system := system, pc := .finished }
  | (system, .sleep) => { s with system := system, pc := .drainAsleep }

/-- The next step of the main thread. -/
def mainStep (s : SqlDumpFilt) : Option SqlDumpFilt :=
  match s.pc with
  | .reading =>
    match s.input with
    | [] => some { s with pc := .draining }
    | line :: rest =>
      let (system, pop_data) := s.system.putNextWork line
      some { s with
        system := system
        pc := if pop_data then .popping else .reading
        input := rest }
  | .popping => some (s.popTurn s.system.waitProcessedData)
  | .popAsleep => s.system.wakeWaiting.map s.popTurn
  | .draining => some (s.drainTurn s.system.waitProcessedData)
  | .drainAsleep => s.system.wakeWaiting.map s.drainTurn
  | .finished => none

/-- The main thread and the workers, in any order. -/
def machine (processOneData : Int → Blob → Option Blob) (input : List Blob) :
    Machine SqlDumpFilt Event where
  init s := ∃ max_workers max_pending, s = start max_workers max_pending input
  step s
    | .main => s.mainStep
    | .worker w => (s.system.worker processOneData w).map fun system => { s with system := system }

/-- The output is the concatenation of the results of all lines. -/
def Complete (processOneData : Int → Blob → Option Blob) (input : List Blob)
    (written : List UInt8) : Prop :=
  ∃ outputs : List Blob, QueueSystem.results processOneData input = outputs.map some ∧
    written = outputs.flatten

/-- When the main thread looks for the end of the output, no line is still unfetched. -/
def AllFetched (s : SqlDumpFilt) (e : Event) : Prop :=
  e = .main → s.pc = .draining ∨ s.pc = .drainAsleep →
    s.system.queue.return_counter = s.system.queue.proc_counter → s.system.queue.waiting_data = []

instance (s : SqlDumpFilt) (e : Event) : Decidable (AllFetched s e) := by
  unfold AllFetched
  infer_instance

variable {processOneData : Int → Blob → Option Blob} {input : List Blob}

/-- The blobs a pass of `waitProcessedData` hands out. -/
def outputs : Turn (Option Blob) → List Blob
  | .leave data => data.toList
  | .sleep => []

theorem popTurn_fields (s : SqlDumpFilt) (r : QueueSystem × Turn (Option Blob)) :
    (s.popTurn r).system = r.1 ∧ (s.popTurn r).input = s.input ∧
      (s.popTurn r).written = s.written ++ (outputs r.2).flatten ∧
      ((s.popTurn r).pc = .reading ∨ (s.popTurn r).pc = .popAsleep) := by
  obtain ⟨system, turn⟩ := r
  cases turn with
  | leave data => cases data <;> exact ⟨rfl, rfl, by simp [popTurn, write, outputs], .inl rfl⟩
  | sleep => exact ⟨rfl, rfl, by simp [popTurn, outputs], .inr rfl⟩

theorem drainTurn_fields (s : SqlDumpFilt) (r : QueueSystem × Turn (Option Blob)) :
    (s.drainTurn r).system = r.1 ∧ (s.drainTurn r).input = s.input ∧
      (s.drainTurn r).written = s.written ++ (outputs r.2).flatten := by
  obtain ⟨system, turn⟩ := r
  cases turn with
  | leave data => cases data <;> exact ⟨rfl, rfl, by simp [drainTurn, write, outputs]⟩
  | sleep => exact ⟨rfl, rfl, by simp [drainTurn, outputs]⟩

variable {s t : SqlDumpFilt} {good : SqlDumpFilt → Event → Prop} {q q' : QueueSystem}
  {r : QueueSystem × Turn (Option Blob)}

/-- A step of the program is a step of the queue with its threads, or none. -/
theorem step_system {e : Event} (h : (machine processOneData input).step s e = some t) :
    t.system = s.system ∨
      ∃ e', (QueueSystem.machine processOneData).step s.system e' = some t.system := by
  cases e with
  | worker w =>
    obtain ⟨system, hw, rfl⟩ := map_eq_some_iff.mp h
    exact .inr ⟨.worker w, hw⟩
  | main =>
    change s.mainStep = some t at h
    unfold mainStep at h
    cases hpc : s.pc with
    | reading =>
      cases hin : s.input with
      | nil =>
        simp only [hpc, hin, Option.some.injEq] at h
        exact .inl (by rw [← h])
      | cons line rest =>
        simp only [hpc, hin, Option.some.injEq] at h
        exact .inr ⟨.putNextWork line, by rw [← h]; rfl⟩
    | popping =>
      simp only [hpc, Option.some.injEq] at h
      exact .inr ⟨.waitProcessedData, by rw [← h, (popTurn_fields _ _).1]; rfl⟩
    | draining =>
      simp only [hpc, Option.some.injEq] at h
      exact .inr ⟨.waitProcessedData, by rw [← h, (drainTurn_fields _ _).1]; rfl⟩
    | popAsleep =>
      simp only [hpc] at h
      obtain ⟨r, hr, rfl⟩ := map_eq_some_iff.mp h
      exact .inr ⟨.wakeWaiting, by simp [QueueSystem.machine, hr, (popTurn_fields _ _).1]⟩
    | drainAsleep =>
      simp only [hpc] at h
      obtain ⟨r, hr, rfl⟩ := map_eq_some_iff.mp h
      exact .inr ⟨.wakeWaiting, by simp [QueueSystem.machine, hr, (drainTurn_fields _ _).1]⟩
    | finished => simp [hpc] at h

/-- The program drives the queue only in ways its callers and workers may. -/
theorem reachable_system (h : (machine processOneData input).ReachableWith good s) :
    (QueueSystem.machine processOneData).Reachable s.system := by
  refine h.simulation ?_ ?_
  · rintro s ⟨max_workers, max_pending, rfl⟩
    exact ⟨max_workers, max_pending, rfl⟩
  · intro s e t hstep
    rcases step_system hstep with heq | ⟨e', hstep'⟩
    · exact ⟨[], by rw [heq]; exact .nil⟩
    · exact ⟨[e'], .single trivial hstep'⟩

theorem waitProcessedData_outputs (q : QueueSystem) :
    q.waitProcessedData.1.submitted = q.submitted ∧
      q.waitProcessedData.1.returned = q.returned ++ outputs q.waitProcessedData.2 := by
  obtain ⟨data, _, heq⟩ | ⟨_, _, heq⟩ | ⟨_, _, heq⟩ := q.waitProcessedData_cases
  · rw [heq]
    exact ⟨rfl, rfl⟩
  · rw [heq]
    exact ⟨rfl, by simp [outputs]⟩
  · rw [heq]
    exact ⟨rfl, by simp [outputs]⟩

theorem wakeWaiting_outputs (h : q.wakeWaiting = some r) :
    r.1.submitted = q.submitted ∧ r.1.returned = q.returned ++ outputs r.2 := by
  unfold QueueSystem.wakeWaiting at h
  cases hw : q.waiting with
  | zero => simp [hw] at h
  | succ waiting =>
    simp only [hw, Option.some.injEq] at h
    rw [← h]
    exact waitProcessedData_outputs _

theorem worker_history {w : Nat} (h : q.worker processOneData w = some q') :
    q'.submitted = q.submitted ∧ q'.returned = q.returned := by
  obtain ⟨_, _, rfl⟩ | ⟨_, _, _, _, _, rfl⟩ | ⟨_, _, _, rfl⟩ | ⟨_, _, rfl⟩ | ⟨_, _, _, _, _, rfl⟩ |
    ⟨_, _, _, _, rfl⟩ | ⟨_, _, _, rfl⟩ := QueueSystem.worker_cases h <;> exact ⟨rfl, rfl⟩

/-- The lines are submitted as they are read, and what the queue returned is what
has been written. -/
structure Piped (input : List Blob) (s : SqlDumpFilt) : Prop where
  read : input = s.system.submitted ++ s.input
  written : s.written = s.system.returned.flatten
  drained : s.pc = .draining ∨ s.pc = .drainAsleep ∨ s.pc = .finished → s.input = []

theorem Piped.popTurn (h : Piped input s) (hr : r.1.submitted = s.system.submitted ∧
      r.1.returned = s.system.returned ++ outputs r.2) : Piped input (s.popTurn r) := by
  obtain ⟨hsystem, hinput, hwritten, hpc⟩ := popTurn_fields s r
  refine ⟨?_, ?_, ?_⟩
  · rw [hsystem, hinput, hr.1, ← h.read]
  · rw [hsystem, hwritten, hr.2, h.written, List.flatten_append]
  · rcases hpc with hpc | hpc <;> simp [hpc]

theorem Piped.drainTurn (h : Piped input s) (hin : s.input = [])
    (hr : r.1.submitted = s.system.submitted ∧
      r.1.returned = s.system.returned ++ outputs r.2) : Piped input (s.drainTurn r) := by
  obtain ⟨hsystem, hinput, hwritten⟩ := drainTurn_fields s r
  refine ⟨?_, ?_, ?_⟩
  · rw [hsystem, hinput, hr.1, ← h.read]
  · rw [hsystem, hwritten, hr.2, h.written, List.flatten_append]
  · intro _
    rw [hinput, hin]

/-- A step of the program keeps input, queue and output joined. -/
theorem Piped.step {e : Event} (h : Piped input s)
    (hstep : (machine processOneData input).step s e = some t) : Piped input t := by
  cases e with
  | worker w =>
    obtain ⟨system, hw, rfl⟩ := map_eq_some_iff.mp hstep
    obtain ⟨hsub, hret⟩ := worker_history hw
    exact ⟨by rw [h.read, ← hsub], by rw [h.written, ← hret], h.drained⟩
  | main =>
    change s.mainStep = some t at hstep
    unfold mainStep at hstep
    cases hpc : s.pc with
    | reading =>
      cases hin : s.input with
      | nil =>
        simp only [hpc, hin, Option.some.injEq] at hstep
        rw [← hstep]
        exact ⟨by rw [h.read, hin], h.written, fun _ => rfl⟩
      | cons line rest =>
        simp only [hpc, hin, Option.some.injEq] at hstep
        rw [← hstep]
        refine ⟨?_, h.written, ?_⟩
        · rw [h.read, hin]
          simp [QueueSystem.putNextWork]
        · intro hpc'
          dsimp only at hpc'
          split at hpc' <;> simp at hpc'
    | popping =>
      simp only [hpc, Option.some.injEq] at hstep
      rw [← hstep]
      exact h.popTurn (waitProcessedData_outputs s.system)
    | draining =>
      simp only [hpc, Option.some.injEq] at hstep
      rw [← hstep]
      exact h.drainTurn (h.drained (.inl hpc)) (waitProcessedData_outputs s.system)
    | popAsleep =>
      simp only [hpc] at hstep
      obtain ⟨r, hr, rfl⟩ := map_eq_some_iff.mp hstep
      exact h.popTurn (wakeWaiting_outputs hr)
    | drainAsleep =>
      simp only [hpc] at hstep
      obtain ⟨r, hr, rfl⟩ := map_eq_some_iff.mp hstep
      exact h.drainTurn (h.drained (.inr (.inl hpc))) (wakeWaiting_outputs hr)
    | finished => simp [hpc] at hstep

theorem Piped.reachable (h : (machine processOneData input).ReachableWith good s) :
    Piped input s := by
  refine h.invariant (Piped input) ?_ fun _ _ _ hs _ => hs.step
  rintro s ⟨max_workers, max_pending, rfl⟩
  exact ⟨rfl, rfl, by simp [start]⟩

/-- Nothing is left in the queue. -/
def Emptied (q : QueueManager) : Prop :=
  q.waiting_data = [] ∧ q.return_counter = q.proc_counter

theorem Emptied.worker {w : Nat} (h : Emptied q.queue)
    (hstep : q.worker processOneData w = some q') :
    Emptied q'.queue := by
  obtain ⟨_, _, rfl⟩ | ⟨_, _, _, _, hq, rfl⟩ | ⟨_, _, _, rfl⟩ | ⟨_, _, rfl⟩ |
    ⟨_, _, _, _, _, rfl⟩ | ⟨_, _, _, _, rfl⟩ | ⟨_, _, _, rfl⟩ := QueueSystem.worker_cases hstep
  case inr.inl => simp [h.1] at hq
  all_goals exact h

/-- The draining loop stops at a pass that finds `return_counter` at `proc_counter`. -/
theorem drainTurn_finished (h : (s.drainTurn q.waitProcessedData).pc = .finished) :
    q.queue.return_counter = q.queue.proc_counter ∧
      (s.drainTurn q.waitProcessedData).system.queue = q.queue := by
  obtain ⟨data, _, heq⟩ | ⟨_, hcount, heq⟩ | ⟨_, _, heq⟩ := q.waitProcessedData_cases
  · rw [heq] at h
    simp [drainTurn, write] at h
  · rw [heq]
    exact ⟨hcount, rfl⟩
  · rw [heq] at h
    simp [drainTurn] at h

/-- A run in which the end is looked for only when all lines are fetched empties the
queue before it finishes. -/
theorem emptied_step {e : Event} (h : s.pc = .finished → Emptied s.system.queue)
    (good : AllFetched s e) (hstep : (machine processOneData input).step s e = some t) :
    t.pc = .finished → Emptied t.system.queue := by
  intro hfin
  cases e with
  | worker w =>
    obtain ⟨system, hw, rfl⟩ := map_eq_some_iff.mp hstep
    exact (h hfin).worker hw
  | main =>
    change s.mainStep = some t at hstep
    unfold mainStep at hstep
    cases hpc : s.pc with
    | reading =>
      cases hin : s.input with
      | nil =>
        simp only [hpc, hin, Option.some.injEq] at hstep
        simp [← hstep] at hfin
      | cons line rest =>
        simp only [hpc, hin, Option.some.injEq] at hstep
        rw [← hstep] at hfin
        dsimp only at hfin
        split at hfin <;> simp at hfin
    | popping =>
      simp only [hpc, Option.some.injEq] at hstep
      rw [← hstep] at hfin
      rcases (popTurn_fields s s.system.waitProcessedData).2.2.2 with hpc' | hpc' <;>
        simp [hpc'] at hfin
    | popAsleep =>
      simp only [hpc] at hstep
      obtain ⟨r, hr, rfl⟩ := map_eq_some_iff.mp hstep
      rcases (popTurn_fields s r).2.2.2 with hpc' | hpc' <;> simp [hpc'] at hfin
    | draining =>
      simp only [hpc, Option.some.injEq] at hstep
      rw [← hstep] at hfin ⊢
      obtain ⟨hcount, hq⟩ := drainTurn_finished hfin
      rw [hq]
      exact ⟨good rfl (.inl hpc) hcount, hcount⟩
    | drainAsleep =>
      simp only [hpc] at hstep
      obtain ⟨r, hr, rfl⟩ := map_eq_some_iff.mp hstep
      unfold QueueSystem.wakeWaiting at hr
      cases hw : s.system.waiting with
      | zero => simp [hw] at hr
      | succ waiting =>
        simp only [hw, Option.some.injEq] at hr
        rw [← hr] at hfin ⊢
        obtain ⟨hcount, hq⟩ := drainTurn_finished hfin
        rw [hq]
        exact ⟨good rfl (.inr hpc) hcount, hcount⟩
    | finished => simp [hpc] at hstep

/-- When the returned blobs are as many as the lines, they are all the results. -/
theorem results_eq_of_emptied (h : (QueueSystem.machine processOneData).Reachable q)
    (hq : Emptied q.queue) :
    QueueSystem.results processOneData q.submitted = q.returned.map some := by
  have hord := QueueSystem.Ordered.reachable h
  obtain ⟨taken, htaken, hlen⟩ := hord.fetched
  have hcount := hord.counted
  have hpre := hord.isPrefix
  have hlength : (q.returned.map some).length =
      (QueueSystem.results processOneData q.submitted).length := by
    simp only [List.length_map, QueueSystem.length_results, htaken, hq.1, List.append_nil]
    have := hq.2
    omega
  exact (hpre.eq_of_length hlength).symm

/-- In every run that looks for the end of the output only when all lines are
fetched, the finished program has written the results of all lines. -/
theorem complete_of_allFetched (processOneData : Int → Blob → Option Blob) (input : List Blob)
    (s : SqlDumpFilt) (h : (machine processOneData input).ReachableWith AllFetched s)
    (hfin : s.pc = .finished) : Complete processOneData input s.written := by
  have hempty : s.pc = .finished → Emptied s.system.queue := by
    refine h.invariant (fun s => s.pc = .finished → Emptied s.system.queue) ?_
      fun _ _ _ hs good => emptied_step hs good
    rintro s ⟨max_workers, max_pending, rfl⟩ hpc
    simp [start] at hpc
  have hpiped := Piped.reachable h
  have hinput : input = s.system.submitted := by
    rw [hpiped.read, hpiped.drained (.inr (.inr hfin)), List.append_nil]
  refine ⟨s.system.returned, ?_, hpiped.written⟩
  rw [hinput]
  exact results_eq_of_emptied (reachable_system h) (hempty hfin)

/-- A run in which two workers take the lines and finish them in the other order. -/
theorem complete_of_allFetched_swapped :
    ∃ s, (machine (fun n line => some (line ++ [UInt8.ofNat n.toNat]))
        [[65], [66]]).ReachableWith AllFetched s ∧
      s.pc = .finished ∧ s.written = [65, 1, 66, 2] ∧
      Complete (fun n line => some (line ++ [UInt8.ofNat n.toNat])) [[65], [66]] s.written := by
  let m := machine (fun n line => some (line ++ [UInt8.ofNat n.toNat])) [[65], [66]]
  let events : List Event := [.main, .main, .main, .worker 0, .worker 1, .worker 1, .worker 1,
    .main, .worker 0, .worker 0, .main, .main, .main]
  let s₀ := start 2 5 [[65], [66]]
  let s := (m.executeWith AllFetched s₀ events).get (by decide)
  have hs : m.ReachableWith AllFetched s :=
    ⟨s₀, events, ⟨2, 5, rfl⟩, Machine.run_of_executeWith (some_get _).symm⟩
  have hfin : s.pc = .finished := by decide
  exact ⟨s, hs, hfin, by decide, complete_of_allFetched _ _ s hs hfin⟩

/-- The only line is still unfetched when the main thread looks for the end: the
program finishes and has written nothing. -/
theorem not_complete_unscheduled :
    ¬ ∀ (processOneData : Int → Blob → Option Blob) (input : List Blob) (s : SqlDumpFilt),
      (machine processOneData input).Reachable s → s.pc = .finished →
        Complete processOneData input s.written := by
  intro h
  let events : List Event := [.main, .main, .main]
  let m := machine (fun _ line => some line) [[65]]
  let s := (m.execute (start 1 2 [[65]]) events).get (by decide)
  have hs : m.Reachable s :=
    ⟨start 1 2 [[65]], events, ⟨1, 2, rfl⟩, Machine.run_of_execute (some_get _).symm⟩
  obtain ⟨outputs, hresults, hwritten⟩ := h _ _ s hs (by decide)
  obtain rfl : outputs = [[65]] := by
    have : outputs.map some = [some [65]] := hresults.symm
    cases outputs with
    | nil => simp at this
    | cons a rest => simpa using this
  have hnone : s.written = [] := by decide
  rw [hnone] at hwritten
  simp at hwritten

/-- Whenever the end is looked for too early, the program finishes with fewer blobs
than lines. -/
theorem missing_of_not_allFetched (h : (machine processOneData input).ReachableWith good s)
    (bad : ¬ AllFetched s .main) (hstep : (machine processOneData input).step s .main = some t) :
    t.pc = .finished ∧ t.system.returned.length < input.length := by
  have hord := QueueSystem.Ordered.reachable (reachable_system h)
  have hpiped := Piped.reachable h
  unfold AllFetched at bad
  push Not at bad
  obtain ⟨-, hpc, hcount, hwait⟩ := bad
  have hlength : s.system.returned.length < input.length := by
    obtain ⟨taken, htaken, hlen⟩ := hord.fetched
    have hcounted := hord.counted
    have hpos := List.length_pos_of_ne_nil hwait
    rw [hpiped.read, htaken]
    simp only [List.length_append]
    omega
  -- nothing is parked under a number that has not been given out
  have pass (q : QueueSystem) (hr : q.returned = s.system.returned)
      (hp : q.queue.processed_data = s.system.queue.processed_data)
      (hrc : q.queue.return_counter = s.system.queue.return_counter)
      (hpc : q.queue.proc_counter = s.system.queue.proc_counter) :
      (s.drainTurn q.waitProcessedData).pc = .finished ∧
        (s.drainTurn q.waitProcessedData).system.returned.length < input.length := by
    obtain ⟨data, hlook, heq⟩ | ⟨_, _, heq⟩ | ⟨_, hne, _⟩ := q.waitProcessedData_cases
    · rw [hp, hrc] at hlook
      have := (hord.parked _ _ hlook).1
      omega
    · rw [heq]
      exact ⟨rfl, by rw [← hr] at hlength; exact hlength⟩
    · rw [hrc, hpc] at hne
      exact absurd hcount hne
  change s.mainStep = some t at hstep
  unfold mainStep at hstep
  rcases hpc with hpc | hpc
  · simp only [hpc, Option.some.injEq] at hstep
    rw [← hstep]
    exact pass s.system rfl rfl rfl rfl
  · simp only [hpc] at hstep
    obtain ⟨r, hr, rfl⟩ := map_eq_some_iff.mp hstep
    unfold QueueSystem.wakeWaiting at hr
    cases hw : s.system.waiting with
    | zero => simp [hw] at hr
    | succ waiting =>
      simp only [hw, Option.some.injEq] at hr
      rw [← hr]
      exact pass _ rfl rfl rfl rfl

/-- The end is looked for before the worker has fetched the only line. -/
theorem missing_of_not_allFetched_unscheduled :
    ∃ s t : SqlDumpFilt, (machine (fun _ line => some line) [[65]]).Reachable s ∧
      ¬ AllFetched s .main ∧ t.pc = .finished ∧ t.system.returned.length < 1 := by
  let events : List Event := [.main, .main]
  let m := machine (fun _ line => some line) [[65]]
  let s := (m.execute (start 1 2 [[65]]) events).get (by decide)
  have hs : m.Reachable s :=
    ⟨start 1 2 [[65]], events, ⟨1, 2, rfl⟩, Machine.run_of_execute (some_get _).symm⟩
  let t := (m.step s .main).get (by decide)
  have hstep : m.step s .main = some t := (some_get _).symm
  have bad : ¬ AllFetched s .main := by decide
  obtain ⟨hpc, hmissing⟩ := missing_of_not_allFetched hs bad hstep
  exact ⟨s, t, hs, bad, hpc, hmissing⟩

end SqlDumpFilt

end Drt
