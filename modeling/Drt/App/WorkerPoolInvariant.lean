import Drt.App.WorkerPool
import Drt.Lib.ListUpdate

/-!
# Workers, their queues and the free list

A worker between two jobs is free exactly as long as its queue is empty: the
manager takes it off `free_workers` in the section that sends it a message, and
it takes itself off when it takes pending work or leaves. So no worker is ever
sent a second message, and none leaves with one.
-/

open List

namespace Drt

variable {Work : Type}

/-- The work items in a list of messages. -/
def workItems (l : List (WorkMessage Work)) : List Work := l.flatMap Option.toList

@[simp] theorem workItems_nil : workItems ([] : List (WorkMessage Work)) = [] := rfl

@[simp] theorem workItems_cons (msg : WorkMessage Work) (l : List (WorkMessage Work)) :
    workItems (msg :: l) = msg.toList ++ workItems l := rfl

@[simp] theorem workItems_append (l l' : List (WorkMessage Work)) :
    workItems (l ++ l') = workItems l ++ workItems l' := by
  simp [workItems]

/-- The item a thread is running, from taking its message to handing in the result. -/
def WorkerPc.hand : WorkerPc Work → List Work
  | .out msg | .running msg | .adding msg => msg.toList
  | _ => []

/-- The thread is between two jobs: it has no message in hand. -/
def WorkerPc.between : WorkerPc Work → Bool
  | .check | .checkPending | .idle | .timedOut => true
  | _ => false

theorem WorkerPc.hand_between {pc : WorkerPc Work} (h : pc.between) : pc.hand = [] := by
  cases pc <;> simp_all [between, hand]

/-- The items a thread has in its queue or is running. -/
def WorkerPoolThread.held (t : WorkerPoolThread Work) : List Work := workItems t.queue ++ t.pc.hand

/-- The items submitted and not yet returned, by the place they are in. -/
def WorkerPool.outstanding (m : WorkerPool Work) : List Work :=
  workItems m.pending_work ++ m.threads.flatMap WorkerPoolThread.held ++ workItems m.result_msg

/-- A thread with the registers of the manager: between two jobs it is free until it
is sent a message, while it has a job it is not, and it leaves with an empty queue. -/
def ThreadOk (free all : Finset Nat) (worker : Nat) (t : WorkerPoolThread Work) : Prop :=
  t.queue.length ≤ 1 ∧ (∀ msg ∈ t.queue, msg.isSome) ∧
    match t.pc with
    | .check | .checkPending | .idle | .timedOut =>
      worker ∈ all ∧ (worker ∈ free ↔ t.queue = [])
    | .out msg | .running msg | .adding msg =>
      worker ∈ all ∧ worker ∉ free ∧ t.queue = [] ∧ msg.isSome
    | .exited => worker ∉ all ∧ worker ∉ free ∧ t.queue = []

/-- Between two jobs a thread is free as long as its queue is empty. -/
theorem threadOk_between {free all : Finset Nat} {worker : Nat} {pc : WorkerPc Work}
    {queue : List (WorkMessage Work)} (hpc : pc.between) :
    ThreadOk free all worker ⟨pc, queue⟩ ↔ queue.length ≤ 1 ∧ (∀ msg ∈ queue, msg.isSome) ∧
      worker ∈ all ∧ (worker ∈ free ↔ queue = []) := by
  cases pc with
  | check | checkPending | idle | timedOut => rfl
  | out _ | running _ | adding _ | exited => simp [WorkerPc.between] at hpc

theorem ThreadOk.of_free {free all : Finset Nat} {worker : Nat} {t : WorkerPoolThread Work}
    (h : ThreadOk free all worker t) (hfree : worker ∈ free) :
    t.pc.between ∧ t.queue = [] := by
  obtain ⟨-, -, hpc⟩ := h
  obtain ⟨pc, queue⟩ := t
  cases pc with
  | check | checkPending | idle | timedOut => exact ⟨rfl, hpc.2.mp hfree⟩
  | out _ | running _ | adding _ | exited => exact absurd hfree hpc.2.1

theorem ThreadOk.congr {free free' all all' : Finset Nat} {worker : Nat}
    {t : WorkerPoolThread Work} (h : ThreadOk free all worker t)
    (hfree : worker ∈ free' ↔ worker ∈ free) (hall : worker ∈ all' ↔ worker ∈ all) :
    ThreadOk free' all' worker t := by
  unfold ThreadOk at *
  simp only [hfree, hall]
  exact h

namespace WorkerPool

/-- The registers of the manager, its lists and its threads fit together. -/
structure Ok (m : WorkerPool Work) : Prop where
  limit : 1 ≤ m.max_workers
  few : m.all_workers.card ≤ 2 ^ 31
  created : ∀ w ∈ m.all_workers, w < m.threads.length
  registered : m.free_workers ⊆ m.all_workers
  threads : ∀ w t, m.threads[w]? = some t → ThreadOk m.free_workers m.all_workers w t
  pending : ∀ msg ∈ m.pending_work, msg.isSome
  result : ∀ msg ∈ m.result_msg, msg.isSome

theorem Ok.few_free {m : WorkerPool Work} (h : Ok m) : m.free_workers.card ≤ 2 ^ 31 :=
  (Finset.card_le_card h.registered).trans h.few

theorem ok_create : Ok (create : WorkerPool Work) := by
  refine ⟨?_, ?_, ?_, ?_, ?_, ?_, ?_⟩ <;> simp [create]

/-- One thread is replaced and changes its own registration, and the lists change. -/
theorem Ok.update {m m' : WorkerPool Work} {w : Nat} {u : WorkerPoolThread Work} (h : Ok m)
    (hthreads : m'.threads = m.threads.set w u) (hmax : m'.max_workers = m.max_workers)
    (hfree : ∀ j, j ≠ w → (j ∈ m'.free_workers ↔ j ∈ m.free_workers))
    (hall : ∀ j, j ≠ w → (j ∈ m'.all_workers ↔ j ∈ m.all_workers))
    (hsub : m'.all_workers ⊆ m.all_workers) (hregistered : m'.free_workers ⊆ m'.all_workers)
    (hu : ThreadOk m'.free_workers m'.all_workers w u)
    (hpending : ∀ msg ∈ m'.pending_work, msg.isSome)
    (hresult : ∀ msg ∈ m'.result_msg, msg.isSome) : Ok m' := by
  refine ⟨?_, ?_, ?_, hregistered, ?_, hpending, hresult⟩
  · rw [hmax]
    exact h.limit
  · exact (Finset.card_le_card hsub).trans h.few
  · intro j hj
    rw [hthreads, length_set]
    exact h.created j (hsub hj)
  · rw [hthreads]
    refine forall_getElem?_set ?_ hu
    intro j t hj ht
    exact (h.threads j t ht).congr (hfree j hj) (hall j hj)

/-- Replacing a thread moves the items it held. -/
theorem count_outstanding_set [DecidableEq Work] {m m' : WorkerPool Work} {w : Nat}
    {t u : WorkerPoolThread Work} (hw : m.threads[w]? = some t)
    (hthreads : m'.threads = m.threads.set w u) (x : Work) :
    m'.outstanding.count x + t.held.count x +
        (workItems m.pending_work).count x + (workItems m.result_msg).count x =
      m.outstanding.count x + u.held.count x +
        (workItems m'.pending_work).count x + (workItems m'.result_msg).count x := by
  have hset := sum_map_set (List.count x ∘ WorkerPoolThread.held) u hw
  unfold outstanding
  rw [hthreads]
  simp only [count_append, count_flatMap]
  simp only [Function.comp_apply] at hset
  omega

theorem toNat_toUInt32_lt {n : Int32} (h : 1 ≤ n) : n.toUInt32.toNat < 2 ^ 31 := by
  have hint : (1 : Int) ≤ n.toInt := Int32.le_iff_toInt_le.mp h
  have hcond := BitVec.toInt_eq_toNat_cond n.toBitVec
  change n.toInt = _ at hcond
  change n.toBitVec.toNat < 2 ^ 31
  split at hcond <;> omega

/-- Starting a worker keeps everything in its place. -/
theorem Ok.createWorker {m : WorkerPool Work} (h : Ok m) (hfew : m.all_workers.card < 2 ^ 31) :
    Ok m.createWorker ∧ m.createWorker.outstanding = m.outstanding ∧
      m.createWorker.free_workers.card = m.free_workers.card + 1 := by
  have hnew : m.threads.length ∉ m.all_workers := fun hmem =>
    Nat.lt_irrefl _ (h.created _ hmem)
  have hnew' : m.threads.length ∉ m.free_workers := fun hmem => hnew (h.registered hmem)
  refine ⟨⟨h.limit, ?_, ?_, ?_, ?_, h.pending, h.result⟩, ?_, ?_⟩
  · simp only [WorkerPool.createWorker, Finset.card_insert_of_notMem hnew]
    omega
  · intro w hw
    simp only [WorkerPool.createWorker, length_append, length_singleton]
    rcases Finset.mem_insert.mp hw with rfl | hw
    · omega
    · have := h.created w hw
      omega
  · exact Finset.insert_subset_insert _ h.registered
  · intro w t ht
    simp only [WorkerPool.createWorker] at ht ⊢
    by_cases hlt : w < m.threads.length
    · rw [List.getElem?_append_left hlt] at ht
      refine (h.threads w t ht).congr ?_ ?_ <;> simp [Nat.ne_of_lt hlt]
    · have hw := (List.getElem?_eq_some_iff.mp ht).1
      simp only [length_append, length_singleton] at hw
      obtain rfl : w = m.threads.length := by omega
      obtain rfl : ⟨.check, []⟩ = t := by simpa using ht
      exact ⟨by simp, by simp, by simp⟩
  · simp [outstanding, WorkerPool.createWorker, WorkerPoolThread.held, WorkerPc.hand]
  · simp only [WorkerPool.createWorker, Finset.card_insert_of_notMem hnew']

/-- The loop of `addWork` ends, and only starts workers. -/
theorem Ok.createWorkers {m : WorkerPool Work} (h : Ok m) (fuel : Nat)
    (hfuel : m.pending_work.length < fuel + m.free_workers.card) (hpos : 0 < fuel) :
    ∃ m', m.createWorkers fuel = .ok m' ∧ Ok m' ∧ m'.outstanding = m.outstanding ∧
      m'.pending_work = m.pending_work := by
  induction fuel generalizing m with
  | zero => omega
  | succ fuel ih =>
    unfold WorkerPool.createWorkers
    split
    · rename_i hcond
      obtain ⟨hpending, hall⟩ := hcond
      have hfree := h.few_free
      have hfew := h.few
      rw [UInt64.lt_iff_toNat_lt, toNat_itemCount] at hpending hall
      rw [toNat_itemCount] at hpending
      have hlimit := toNat_toUInt32_lt h.limit
      rw [UInt32.toNat_toUInt64] at hall
      have hmod := Nat.mod_le m.pending_work.length (2 ^ 32)
      obtain ⟨hok, hout, hcard⟩ := h.createWorker (by omega)
      obtain ⟨m', hm', hok', hout', hpend'⟩ := ih hok (by
        rw [hcard]
        change m.pending_work.length < _
        omega) (by omega)
      exact ⟨m', hm', hok', hout'.trans hout, hpend'⟩
    · exact ⟨m, rfl, h, rfl, rfl⟩

theorem iterFirst_mem {order w : Nat} {workers : Finset Nat}
    (h : iterFirst order workers = some w) : w ∈ workers := by
  unfold iterFirst at h
  split at h
  · obtain rfl : order = w := by simpa using h
    assumption
  · exact (Finset.mem_sort _).mp (mem_of_head? h)

theorem iterFirst_isSome (order : Nat) {workers : Finset Nat} (h : 0 < workers.card) :
    ∃ w, iterFirst order workers = some w := by
  unfold iterFirst
  split
  · exact ⟨order, rfl⟩
  · cases hsort : workers.sort (· ≤ ·) with
    | nil =>
      have hlen := Finset.length_sort (s := workers) (· ≤ ·)
      rw [hsort] at hlen
      simp only [length_nil] at hlen
      omega
    | cons w rest => exact ⟨w, rfl⟩

/-- Handing the first pending message to a free worker. -/
theorem Ok.sendMessage [DecidableEq Work] {m : WorkerPool Work} {w : Nat}
    {msg : WorkMessage Work} {rest : List (WorkMessage Work)} (h : Ok m)
    (hw : w ∈ m.free_workers) (hpending : m.pending_work = msg :: rest) :
    let m' := { m with
      free_workers := m.free_workers.erase w
      pending_work := rest }.sendMessage w msg
    Ok m' ∧ ∀ x, m'.outstanding.count x = m.outstanding.count x := by
  have hlt := h.created w (h.registered hw)
  have ht := List.getElem?_eq_getElem hlt
  generalize m.threads[w] = t at ht
  obtain ⟨hbetween, hnil⟩ := (h.threads w t ht).of_free hw
  have hhand := WorkerPc.hand_between hbetween
  have hmsg : msg.isSome := h.pending msg (by simp [hpending])
  have hrest : ∀ msg ∈ rest, msg.isSome := fun msg' hmem =>
    h.pending msg' (by simp [hpending, hmem])
  intro m'
  have hthreads : m'.threads = m.threads.set w ⟨t.pc, [msg]⟩ := by
    simp [m', WorkerPool.sendMessage, ht, hnil]
  have hrest' : m'.pending_work = rest ∧ m'.result_msg = m.result_msg ∧
      m'.free_workers = m.free_workers.erase w ∧ m'.all_workers = m.all_workers ∧
      m'.max_workers = m.max_workers := by
    simp [m', WorkerPool.sendMessage, ht]
  obtain ⟨hp, hr, hf, ha, hm⟩ := hrest'
  constructor
  · refine h.update hthreads hm ?_ ?_ ?_ ?_ ?_ ?_ ?_
    · intro j hj
      simp [hf, hj]
    · simp [ha]
    · rw [ha]
    · rw [hf, ha]
      exact (Finset.erase_subset _ _).trans h.registered
    · rw [hf, ha, threadOk_between hbetween]
      exact ⟨le_refl 1, by simpa using hmsg, h.registered hw, by simp⟩
    · rwa [hp]
    · rw [hr]
      exact h.result
  · intro x
    have hcount := count_outstanding_set ht hthreads x
    rw [hp, hr, hpending] at hcount
    simp only [WorkerPoolThread.held, hnil, hhand, workItems_nil, workItems_cons,
      append_nil, count_append, count_nil] at hcount
    omega

/-- `addWork` takes the item into the pool and loses nothing. -/
theorem Ok.addWork [DecidableEq Work] {m : WorkerPool Work} (h : Ok m) (work : Work)
    (order : Nat) :
    ∃ m', m.addWork work order = .ok m' ∧ Ok m' ∧
      ∀ x, m'.outstanding.count x = m.outstanding.count x + [work].count x := by
  have hnew : Ok { m with pending_work := m.pending_work ++ [some work] } := by
    refine ⟨h.limit, h.few, h.created, h.registered, h.threads, ?_, h.result⟩
    intro msg hmsg
    rcases mem_append.mp hmsg with hmsg | hmsg
    · exact h.pending msg hmsg
    · obtain rfl : msg = some work := by simpa using hmsg
      rfl
  have hcount (x : Work) :
      { m with pending_work := m.pending_work ++ [some work] }.outstanding.count x =
        m.outstanding.count x + [work].count x := by
    simp only [outstanding, workItems_append, workItems_cons, workItems_nil, Option.toList_some,
      append_nil, count_append]
    omega
  obtain ⟨m', hloop, hok, hout, hpend⟩ := hnew.createWorkers
    ((m.pending_work ++ [some work]).length + 1) (by dsimp only; omega) (by omega)
  simp only [WorkerPool.addWork, hloop, Outcome.ok_bind]
  by_cases hfree : itemCount m'.free_workers.card > 0
  · rw [if_pos hfree]
    have hcard : 0 < m'.free_workers.card := by
      rw [gt_iff_lt, UInt64.lt_iff_toNat_lt, toNat_itemCount] at hfree
      exact Nat.pos_of_ne_zero fun hzero => by simp [hzero] at hfree
    obtain ⟨w, hw⟩ := iterFirst_isSome order hcard
    cases hpending : m'.pending_work with
    | nil =>
      rw [hpend] at hpending
      simp at hpending
    | cons msg rest =>
      obtain ⟨hsent, hsame⟩ := hok.sendMessage (iterFirst_mem hw) hpending
      simp only [hw]
      exact ⟨_, rfl, hsent, fun x => by rw [hsame, hout, hcount]⟩
  · rw [if_neg hfree]
    exact ⟨m', rfl, hok, fun x => by rw [hout, hcount]⟩

theorem Ok.removeResult [DecidableEq Work] {m : WorkerPool Work} {msg : WorkMessage Work}
    {rest : List (WorkMessage Work)} (h : Ok m) (hresult : m.result_msg = msg :: rest) :
    Ok { m with result_msg := rest } ∧
      ∀ x, { m with result_msg := rest }.outstanding.count x + msg.toList.count x =
        m.outstanding.count x := by
  constructor
  · refine ⟨h.limit, h.few, h.created, h.registered, h.threads, h.pending, ?_⟩
    intro msg' hmsg
    exact h.result msg' (by simp [hresult, hmsg])
  · intro x
    simp only [outstanding, hresult, workItems_cons, count_append]
    omega

theorem Ok.checkWorkResult [DecidableEq Work] {m : WorkerPool Work} (h : Ok m) :
    ∃ m' work, m.checkWorkResult = .ok (m', work) ∧ Ok m' ∧
      ∀ x, m'.outstanding.count x + work.toList.count x = m.outstanding.count x := by
  unfold WorkerPool.checkWorkResult
  by_cases hcount : itemCount m.result_msg.length ≠ 0
  · rw [if_pos hcount]
    cases hresult : m.result_msg with
    | nil => simp [hresult, itemCount] at hcount
    | cons msg rest =>
      obtain ⟨hok, hx⟩ := h.removeResult hresult
      exact ⟨_, msg, rfl, hok, hx⟩
  · rw [if_neg hcount]
    exact ⟨m, none, rfl, h, by simp⟩

/-- A pass of `waitWorkResult` takes out what it returns. -/
theorem Ok.waitWorkResult [DecidableEq Work] {m : WorkerPool Work} (h : Ok m) :
    ∃ m' turn, m.waitWorkResult = .ok (m', turn) ∧ Ok m' ∧
      ∀ x, m'.outstanding.count x + (match turn with
        | .leave work => work.toList.count x
        | .sleep => 0) = m.outstanding.count x := by
  unfold WorkerPool.waitWorkResult
  by_cases hcount : itemCount m.result_msg.length ≠ 0
  · rw [if_pos hcount]
    cases hresult : m.result_msg with
    | nil => simp [hresult, itemCount] at hcount
    | cons msg rest =>
      obtain ⟨hok, hx⟩ := h.removeResult hresult
      exact ⟨_, _, rfl, hok, hx⟩
  · rw [if_neg hcount]
    split
    · exact ⟨m, _, rfl, h, by simp⟩
    · refine ⟨_, _, rfl, ?_, by simp [outstanding]⟩
      exact ⟨h.limit, h.few, h.created, h.registered, h.threads, h.pending, h.result⟩

/-- A thread goes on by itself. -/
theorem Ok.setThread [DecidableEq Work] {m : WorkerPool Work} {w : Nat}
    {t u : WorkerPoolThread Work} (h : Ok m) (ht : m.threads[w]? = some t)
    (hu : ThreadOk m.free_workers m.all_workers w u)
    (hheld : ∀ x, u.held.count x = t.held.count x) :
    ∃ m', (.ok (m.setThread w u) : Call (WorkerPool Work)) = .ok m' ∧ Ok m' ∧
      ∀ x, m'.outstanding.count x = m.outstanding.count x := by
  refine ⟨_, rfl, ?_, ?_⟩
  · exact h.update rfl rfl (fun _ _ => Iff.rfl) (fun _ _ => Iff.rfl) (Finset.Subset.refl _)
      h.registered hu h.pending h.result
  · intro x
    have hcount := count_outstanding_set ht (rfl : (m.setThread w u).threads = _) x
    have := hheld x
    simp only [WorkerPool.setThread] at hcount ⊢
    omega

/-- A thread between two jobs receives the message in its queue. -/
theorem Ok.receive [DecidableEq Work] {m : WorkerPool Work} {w : Nat} {pc : WorkerPc Work}
    {msg : WorkMessage Work} {rest : List (WorkMessage Work)} (h : Ok m) (hpc : pc.between)
    (ht : m.threads[w]? = some ⟨pc, msg :: rest⟩) :
    ∃ m', (.ok (m.setThread w ⟨.out msg, rest⟩) : Call (WorkerPool Work)) = .ok m' ∧ Ok m' ∧
      ∀ x, m'.outstanding.count x = m.outstanding.count x := by
  obtain ⟨hlen, hsome, hall, hfree⟩ := (threadOk_between hpc).mp (h.threads w _ ht)
  obtain rfl : rest = [] := by
    simp only [length_cons] at hlen
    exact eq_nil_of_length_eq_zero (by omega)
  refine h.setThread ht ⟨by simp, by simp, hall, ?_, rfl, hsome msg (by simp)⟩ ?_
  · simp [hfree]
  · intro x
    simp only [WorkerPoolThread.held, WorkerPc.hand_between hpc]
    simp [WorkerPc.hand]

/-- Every step of a thread keeps the pool in order and every item in one place. -/
theorem Ok.thread [DecidableEq Work] {m : WorkerPool Work} {w : Nat} {t : WorkerPoolThread Work}
    (h : Ok m) (ht : m.threads[w]? = some t) :
    ∃ m', m.thread w t = .ok m' ∧ Ok m' ∧
      ∀ x, m'.outstanding.count x = m.outstanding.count x := by
  have hok := h.threads w t ht
  obtain ⟨pc, queue⟩ := t
  unfold WorkerPool.thread
  cases pc with
  | check | idle =>
    cases queue with
    | cons msg rest => exact h.receive rfl ht
    | nil => exact h.setThread ht hok fun _ => rfl
  | checkPending =>
    cases queue with
    | cons msg rest => exact h.receive rfl ht
    | nil =>
      have hpos : ¬ m.max_workers < 0 := by
        intro hneg
        have hlt : m.max_workers.toInt < 0 := Int32.lt_iff_toInt_lt.mp hneg
        have hle : 1 ≤ m.max_workers.toInt := Int32.le_iff_toInt_le.mp h.limit
        omega
      simp only [if_neg hpos]
      obtain ⟨hlen, hsome, hall, hfree⟩ := hok
      split
      · rename_i hcount
        cases hpending : m.pending_work with
        | nil => simp [hpending, itemCount] at hcount
        | cons wmsg rest =>
          refine ⟨_, rfl, h.update rfl rfl ?_ (fun _ _ => Iff.rfl) (Finset.Subset.refl _) ?_ ?_ ?_
            h.result, ?_⟩
          · intro j hj
            simp [WorkerPool.setThread, hj]
          · exact (Finset.erase_subset _ _).trans h.registered
          · exact ⟨by simp, by simp, hall, by simp [WorkerPool.setThread], rfl,
              h.pending wmsg (by simp [hpending])⟩
          · intro msg hmsg
            exact h.pending msg (by simpa [hpending] using .inr hmsg)
          · intro x
            have hcount := count_outstanding_set ht (rfl : ({ m with
              pending_work := rest
              free_workers := m.free_workers.erase w }.setThread w
                ⟨.out wmsg, []⟩).threads = _) x
            simp only [WorkerPoolThread.held, WorkerPc.hand, workItems_nil, nil_append,
              append_nil, count_nil, WorkerPool.setThread, hpending, workItems_cons,
              count_append] at hcount ⊢
            omega
      · have hmem : w ∈ m.free_workers := hfree.mpr rfl
        simp only [Finset.insert_eq_of_mem hmem]
        exact h.setThread ht ⟨hlen, hsome, hall, hfree⟩ fun _ => rfl
  | timedOut =>
    cases queue with
    | cons msg rest => exact h.receive rfl ht
    | nil =>
      obtain ⟨-, -, hall, -⟩ := hok
      simp only [WorkerPool.exit, WorkerPool.workerExiting, if_pos hall, Outcome.ok_bind]
      refine ⟨_, rfl, h.update rfl rfl ?_ ?_ (Finset.erase_subset _ _) ?_ ?_ h.pending h.result, ?_⟩
      · intro j hj
        simp [WorkerPool.setThread, hj]
      · intro j hj
        simp [WorkerPool.setThread, hj]
      · exact Finset.erase_subset_erase _ h.registered
      · exact ⟨by simp, by simp, by simp [WorkerPool.setThread], by simp [WorkerPool.setThread],
          rfl⟩
      · intro x
        have hcount := count_outstanding_set ht (rfl : (m.setThread w ⟨.exited, []⟩).threads = _) x
        simp only [WorkerPoolThread.held, WorkerPc.hand, WorkerPool.setThread,
          outstanding] at hcount ⊢
        omega
  | out msg =>
    obtain ⟨hlen, hsome, hall, hfree, hqueue, hmsg⟩ := hok
    cases msg with
    | none => simp at hmsg
    | some work =>
      exact h.setThread ht ⟨hlen, hsome, hall, hfree, hqueue, hmsg⟩ fun _ => rfl
  | running msg => exact h.setThread ht hok fun _ => rfl
  | adding msg =>
    obtain ⟨hlen, hsome, hall, hfree, rfl, hmsg⟩ := hok
    refine ⟨_, rfl, h.update rfl rfl ?_ (fun _ _ => Iff.rfl) (Finset.Subset.refl _) ?_ ?_
      h.pending ?_, ?_⟩
    · intro j hj
      simp [WorkerPool.setThread, hj]
    · exact Finset.insert_subset hall h.registered
    · exact ⟨by simp, by simp, hall, by simp [WorkerPool.setThread]⟩
    · intro msg' hmem
      rcases mem_append.mp hmem with hmem | hmem
      · exact h.result msg' hmem
      · obtain rfl : msg' = msg := by simpa using hmem
        exact hmsg
    · intro x
      have hcount := count_outstanding_set ht
        (rfl : ((m.addResult w msg).1.setThread w ⟨.check, []⟩).threads = _) x
      simp only [WorkerPoolThread.held, WorkerPc.hand, workItems_nil, nil_append,
        append_nil, count_nil, WorkerPool.setThread, WorkerPool.addResult,
        workItems_append, workItems_cons, count_append] at hcount ⊢
      omega
  | exited => exact ⟨m, rfl, h, fun _ => rfl⟩

/-- Below `2 ^ 32` messages, NULL means that nothing is left in the pool. -/
theorem Ok.outstanding_eq_nil {m m' : WorkerPool Work} (h : Ok m)
    (hpending : m.pending_work.length < 2 ^ 32) (hresult : m.result_msg.length < 2 ^ 32)
    (hnull : m.waitWorkResult = .ok (m', .leave none)) : m.outstanding = [] := by
  unfold WorkerPool.waitWorkResult at hnull
  have hresult' : m.result_msg = [] := by
    cases hmsg : m.result_msg with
    | nil => rfl
    | cons msg rest =>
      have hcount : itemCount m.result_msg.length ≠ 0 := by
        rw [Ne, itemCount_eq_zero hresult, hmsg]
        simp
      rw [if_pos hcount, hmsg] at hnull
      have hsome := h.result msg (by simp [hmsg])
      simp only [Outcome.ok.injEq, Prod.mk.injEq, Turn.leave.injEq] at hnull
      simp [hnull.2] at hsome
  have hcount : ¬ itemCount m.result_msg.length ≠ 0 := by
    simp [hresult', itemCount]
  rw [if_neg hcount] at hnull
  split at hnull
  · rename_i hcond
    have hpending' : m.pending_work = [] :=
      eq_nil_of_length_eq_zero ((itemCount_eq_zero hpending).mp hcond.1)
    have hcard : m.free_workers.card = m.all_workers.card := by
      have hfew := h.few
      have hfree := h.few_free
      exact (itemCount_inj (by omega) (by omega)).mp hcond.2
    have hall : m.free_workers = m.all_workers :=
      Finset.eq_of_subset_of_card_le h.registered (le_of_eq hcard.symm)
    have hheld : ∀ t ∈ m.threads, t.held = [] := by
      intro t ht
      obtain ⟨w, hw⟩ := List.getElem?_of_mem ht
      have hok := h.threads w t hw
      by_cases hfree : w ∈ m.free_workers
      · obtain ⟨hbetween, hqueue⟩ := hok.of_free hfree
        simp [WorkerPoolThread.held, hqueue, WorkerPc.hand_between hbetween]
      · obtain ⟨pc, queue⟩ := t
        obtain ⟨-, -, hpc⟩ := hok
        rw [← hall] at hpc
        cases pc with
        | check | checkPending | idle | timedOut | out _ | running _ | adding _ =>
          exact absurd hpc.1 hfree
        | exited =>
          obtain rfl : queue = [] := hpc.2.2
          rfl
    simpa [outstanding, hresult', hpending'] using hheld
  · simp at hnull

end WorkerPool

end Drt
