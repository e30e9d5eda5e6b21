import Drt.App.WorkerPoolInvariant

/-!
# Conservation of work in the worker pool

Every submitted item is in exactly one place on its way through the pool, in every
state before the pool is destroyed. NULL from `waitWorkResult` means that nothing
is outstanding as long as the counts it compares have not wrapped: `count()`
reads the number of items modulo `2 ^ 32`.
-/

open List

namespace Drt

open WorkerPool

variable {Work : Type}

namespace PoolSystem

/-- Where a submitted item can be. -/
inductive Place where
  | pending
  | queue (worker : Nat)
  | running (worker : Nat)
  | result
  | returned
  deriving DecidableEq, Repr

/-- The items in a place. -/
def itemsAt (s : PoolSystem Work) : Place → List Work
  | .pending => workItems s.pool.pending_work
  | .queue worker => (s.pool.threads[worker]?.map fun t => workItems t.queue).getD []
  | .running worker => (s.pool.threads[worker]?.map fun t => t.pc.hand).getD []
  | .result => workItems s.pool.result_msg
  | .returned => s.returned

/-- Every work is in one place of the pool, and the workers that are free can take one. -/
structure Conserved (s : PoolSystem Work) : Prop where
  /-- No assertion failed, and no empty list was read from. -/
  sound : s.crashed = false
  /-- Every submission is in one of the places, and nothing else is. -/
  kept : s.submitted.Perm (s.pool.outstanding ++ s.returned)
  exactly_one : s.submitted.Nodup → ∀ x ∈ s.submitted, ∃! p, x ∈ s.itemsAt p
  one_message : ∀ t ∈ s.pool.threads, t.queue.length ≤ 1
  free_alive : ∀ w ∈ s.pool.free_workers, w ∈ s.pool.all_workers ∧
    ∃ t, s.pool.threads[w]? = some t ∧ t.pc ≠ .exited
  exited_empty : ∀ t ∈ s.pool.threads, t.pc = .exited → t.queue = []
  /-- When NULL was returned, everything submitted had been returned. -/
  null_idle : ∀ r ∈ s.nulls, r.1.Perm r.2

/-- The waiting user looks at lists whose counts have not wrapped. -/
def CountsFit (s : PoolSystem Work) (e : Event Work) : Prop :=
  e = .waitWorkResult ∨ e = .wakeWaiting →
    s.pool.pending_work.length < 2 ^ 32 ∧ s.pool.result_msg.length < 2 ^ 32

instance (s : PoolSystem Work) (e : Event Work) [DecidableEq Work] :
    Decidable (CountsFit s e) := by
  unfold CountsFit
  infer_instance

/-- The invariant of the pool with its users. -/
structure Kept [DecidableEq Work] (s : PoolSystem Work) : Prop where
  sound : s.crashed = false
  pool : s.pool.Ok
  count : ∀ x, s.submitted.count x = s.pool.outstanding.count x + s.returned.count x
  null_idle : ∀ r ∈ s.nulls, r.1.Perm r.2

variable [DecidableEq Work]

theorem kept_start : Kept (start : PoolSystem Work) := by
  refine ⟨rfl, ok_create, ?_, ?_⟩ <;>
    simp [start, outstanding, create]

variable {s : PoolSystem Work}

/-- What a pass of `waitWorkResult` hands to the user is what leaves the pool. -/
theorem Kept.waitWorkResult (h : Kept s) {m : WorkerPool Work} (hm : m.Ok)
    (hout : m.outstanding = s.pool.outstanding) (hpending : m.pending_work.length < 2 ^ 32)
    (hresult : m.result_msg.length < 2 ^ 32) : Kept (s.settle m.waitWorkResult s.waitTurn) := by
  obtain ⟨m', turn, heq, hok, hcount⟩ := hm.waitWorkResult
  rw [heq]
  rcases turn with (_ | work) | _
  · -- NULL
    have hnil := hm.outstanding_eq_nil hpending hresult heq
    refine ⟨h.sound, hok, ?_, ?_⟩
    · intro x
      have hx := h.count x
      have hx' := hcount x
      simp only [settle, waitTurn, Option.toList_none, count_nil] at hx' ⊢
      rw [hout] at hx'
      omega
    · intro r hr
      rcases mem_append.mp hr with hr | hr
      · exact h.null_idle r hr
      · obtain rfl : r = (s.submitted, s.returned) := by simpa using hr
        rw [perm_iff_count]
        intro x
        rw [h.count x, ← hout, hnil, count_nil, Nat.zero_add]
  · refine ⟨h.sound, hok, ?_, h.null_idle⟩
    intro x
    have hx := h.count x
    have hx' := hcount x
    simp only [settle, waitTurn, Option.toList_some, count_append] at hx' ⊢
    rw [hout] at hx'
    omega
  · refine ⟨h.sound, hok, ?_, h.null_idle⟩
    intro x
    have hx := h.count x
    have hx' := hcount x
    simp only [settle, waitTurn] at hx' ⊢
    rw [hout] at hx'
    omega

/-- A good step keeps every item in its place. -/
theorem Kept.step {t : PoolSystem Work} {e : Event Work} (h : Kept s) (good : CountsFit s e)
    (hstep : s.step e = some t) : Kept t := by
  cases e with
  | addWork work order =>
    obtain ⟨m', heq, hok, hcount⟩ := h.pool.addWork work order
    simp only [PoolSystem.step, heq, settle, Option.some.injEq] at hstep
    subst hstep
    refine ⟨h.sound, hok, ?_, h.null_idle⟩
    intro x
    have hx := h.count x
    have hx' := hcount x
    simp only [count_append]
    omega
  | checkWorkResult =>
    obtain ⟨m', work, heq, hok, hcount⟩ := h.pool.checkWorkResult
    simp only [PoolSystem.step, heq, settle, Option.some.injEq] at hstep
    subst hstep
    refine ⟨h.sound, hok, ?_, h.null_idle⟩
    intro x
    have hx := h.count x
    have hx' := hcount x
    simp only [count_append]
    omega
  | waitWorkResult =>
    obtain ⟨hpending, hresult⟩ := good (.inl rfl)
    simp only [PoolSystem.step] at hstep
    split at hstep
    · simp at hstep
    · obtain rfl := Option.some.inj hstep
      exact h.waitWorkResult h.pool rfl hpending hresult
  | wakeWaiting =>
    obtain ⟨hpending, hresult⟩ := good (.inr rfl)
    simp only [PoolSystem.step] at hstep
    split at hstep
    · obtain rfl := Option.some.inj hstep
      have hm : { s.pool with is_waiting := false }.Ok :=
        ⟨h.pool.limit, h.pool.few, h.pool.created, h.pool.registered, h.pool.threads,
          h.pool.pending, h.pool.result⟩
      exact h.waitWorkResult hm rfl hpending hresult
    · simp at hstep
  | thread worker =>
    simp only [PoolSystem.step] at hstep
    cases ht : s.pool.threads[worker]? with
    | none => simp [ht] at hstep
    | some t' =>
      obtain ⟨m', heq, hok, hcount⟩ := h.pool.thread ht
      simp only [ht, heq, settle, Option.some.injEq] at hstep
      subst hstep
      refine ⟨h.sound, hok, ?_, h.null_idle⟩
      intro x
      rw [h.count x, hcount x]
  | setMaxWorkers max_count =>
    simp only [PoolSystem.step] at hstep
    split at hstep
    · rename_i hlimit
      obtain rfl := Option.some.inj hstep
      exact ⟨h.sound, ⟨hlimit, h.pool.few, h.pool.created, h.pool.registered, h.pool.threads,
        h.pool.pending, h.pool.result⟩, h.count, h.null_idle⟩
    · simp at hstep

/-- The places in use. -/
def places (s : PoolSystem Work) : List Place :=
  .pending :: .result :: .returned ::
    ((List.range s.pool.threads.length).map .queue ++
      (List.range s.pool.threads.length).map .running)

omit [DecidableEq Work] in
theorem mem_places {p : Place} {x : Work} (h : x ∈ s.itemsAt p) : p ∈ s.places := by
  unfold places
  cases p with
  | pending => simp
  | result => simp
  | returned => simp
  | queue w | running w =>
    cases hw : s.pool.threads[w]? with
    | none => simp [itemsAt, hw] at h
    | some t =>
      have hlt := (List.getElem?_eq_some_iff.mp hw).1
      simp [hlt]

/-- The places together hold what is outstanding and what is returned. -/
theorem count_places (s : PoolSystem Work) (x : Work) :
    (s.places.flatMap s.itemsAt).count x =
      s.pool.outstanding.count x + s.returned.count x := by
  have hqueue : ((List.range s.pool.threads.length).map Place.queue).flatMap s.itemsAt =
      s.pool.threads.flatMap fun t => workItems t.queue := by
    rw [flatMap_map]
    exact flatMap_range_getElem? (fun t : WorkerPoolThread Work => workItems t.queue) _
  have hrunning : ((List.range s.pool.threads.length).map Place.running).flatMap s.itemsAt =
      s.pool.threads.flatMap fun t => t.pc.hand := by
    rw [flatMap_map]
    exact flatMap_range_getElem? (fun t : WorkerPoolThread Work => t.pc.hand) _
  have hheld : (s.pool.threads.flatMap WorkerPoolThread.held).count x =
      (s.pool.threads.flatMap fun t => workItems t.queue).count x +
        (s.pool.threads.flatMap fun t => t.pc.hand).count x := by
    induction s.pool.threads with
    | nil => rfl
    | cons t rest ih =>
      simp only [flatMap_cons, count_append, WorkerPoolThread.held, ih]
      omega
  simp only [places, flatMap_cons, flatMap_append, hqueue, hrunning, count_append,
    outstanding, hheld, itemsAt]
  omega

/-- The invariant says where every work is. -/
theorem Kept.conserved (h : Kept s) : Conserved s := by
  have hkept : s.submitted.Perm (s.pool.outstanding ++ s.returned) := by
    rw [perm_iff_count]
    intro x
    rw [count_append, h.count x]
  have hplaces : s.submitted.Perm (s.places.flatMap s.itemsAt) := by
    rw [perm_iff_count]
    intro x
    rw [count_places, h.count x]
  refine ⟨h.sound, hkept, ?_, ?_, ?_, ?_, h.null_idle⟩
  · intro hnodup x hx
    obtain ⟨p, hp, hxp⟩ := mem_flatMap.mp (hplaces.mem_iff.mp hx)
    refine ⟨p, hxp, fun q hxq => ?_⟩
    exact eq_of_mem_of_nodup_flatMap (hplaces.nodup_iff.mp hnodup) (mem_places hxq) hp
      hxq hxp
  · intro t ht
    obtain ⟨w, hw⟩ := List.getElem?_of_mem ht
    exact (h.pool.threads w t hw).1
  · intro w hw
    have hall := h.pool.registered hw
    have ht := List.getElem?_eq_getElem (h.pool.created w hall)
    refine ⟨hall, _, ht, fun hexit => ?_⟩
    have hbetween := ((h.pool.threads w _ ht).of_free hw).1
    simp [hexit, WorkerPc.between] at hbetween
  · intro t ht hexit
    obtain ⟨w, hw⟩ := List.getElem?_of_mem ht
    obtain ⟨-, -, hpc⟩ := h.pool.threads w t hw
    rw [hexit] at hpc
    exact hpc.2.2

omit [DecidableEq Work] in
/-- In every run in which `waitWorkResult` looks at counts that have not wrapped, no
item is lost or doubled, and NULL means that nothing is outstanding. -/
theorem conserved_of_countsFit (s : PoolSystem Work)
    (h : (machine Work).ReachableWith CountsFit s) : Conserved s := by
  classical
  refine (h.invariant Kept ?_ fun _ _ _ hs good => hs.step good).conserved
  rintro s rfl
  exact kept_start

/-- Three items for two workers: the second one comes back first, its worker takes the third, and
then there is nothing more. -/
theorem conserved_of_countsFit_overtaken :
    ∃ s, (machine Nat).ReachableWith CountsFit s ∧ s.returned = [6, 5, 7] ∧
      s.nulls = [([5, 6, 7], [6, 5, 7])] ∧ Conserved s := by
  let events : List (Event Nat) :=
    [.setMaxWorkers 2, .addWork 5 0, .addWork 6 1, .addWork 7 0] ++
      List.replicate 6 (.thread 1) ++ .waitWorkResult :: List.replicate 4 (.thread 0) ++
      List.replicate 3 (.thread 1) ++ [.checkWorkResult, .waitWorkResult, .waitWorkResult]
  let s := ((machine Nat).executeWith CountsFit start events).get (by decide)
  have hs : (machine Nat).ReachableWith CountsFit s :=
    ⟨start, events, rfl, Machine.run_of_executeWith (Option.some_get _).symm⟩
  exact ⟨s, hs, by decide, by decide, conserved_of_countsFit s hs⟩

/-- One worker with a message in its queue, and `n` more items pending. -/
private def busy (n : Nat) : PoolSystem Unit where
  pool := { WorkerPool.create with
    all_workers := {0}
    pending_work := List.replicate n (some ())
    threads := [⟨.check, [some ()]⟩] }
  asleep := false
  submitted := List.replicate (n + 1) ()
  returned := []
  nulls := []
  crashed := false

private theorem step_start : (machine Unit).step start (.addWork () 0) = some (busy 0) := by
  rfl

/-- The only allowed worker is busy, so more work is only put aside. -/
private theorem step_busy (n : Nat) :
    (machine Unit).step (busy n) (.addWork () 0) = some (busy (n + 1)) := by
  have hloop (fuel : Nat) : (busy (n + 1)).pool.createWorkers (fuel + 1) = .ok (busy (n + 1)).pool := by
    unfold createWorkers
    rw [if_neg]
    rintro ⟨-, hall⟩
    revert hall
    change ¬ itemCount ({0} : Finset Nat).card < (1 : Int32).toUInt32.toUInt64
    decide
  have hadd : (busy n).pool.addWork () 0 = .ok (busy (n + 1)).pool := by
    have hpending : { (busy n).pool with pending_work := (busy n).pool.pending_work ++ [some ()] } =
        (busy (n + 1)).pool := by
      simp only [busy, replicate_succ']
    simp only [addWork, hpending, hloop, Outcome.ok_bind]
    rfl
  simp only [machine, PoolSystem.step, hadd, settle]
  simp only [busy, replicate_succ' (n := n + 1)]

private theorem run_busy (n : Nat) :
    ∃ as, (machine Unit).Run (fun _ _ => True) start as (busy n) := by
  induction n with
  | zero => exact ⟨_, .single trivial step_start⟩
  | succ n ih =>
    obtain ⟨as, run⟩ := ih
    exact ⟨_, run.snoc trivial (step_busy n)⟩

/-- The worker is done and has not looked for more work yet; its result is returned. -/
private def answered (n : Nat) : PoolSystem Unit where
  pool := { WorkerPool.create with
    all_workers := {0}
    free_workers := {0}
    pending_work := List.replicate n (some ())
    threads := [⟨.check, []⟩] }
  asleep := false
  submitted := List.replicate (n + 1) ()
  returned := [()]
  nulls := []
  crashed := false

private theorem execute_busy (n : Nat) : (machine Unit).execute (busy n)
    [.thread 0, .thread 0, .thread 0, .thread 0, .waitWorkResult] = some (answered n) := by
  rfl

/-- When the count of the pending messages has wrapped to zero, NULL is returned. -/
private theorem step_answered (n : Nat) (hn : itemCount n = 0) :
    (machine Unit).step (answered n) .waitWorkResult =
      some { answered n with nulls := [(List.replicate (n + 1) (), [()])] } := by
  have hresult : ¬ itemCount (answered n).pool.result_msg.length ≠ 0 := by
    simp [answered, create, itemCount]
  have hidle : itemCount (answered n).pool.pending_work.length = 0 ∧
      itemCount (answered n).pool.free_workers.card =
        itemCount (answered n).pool.all_workers.card := by
    constructor
    · simpa [answered] using hn
    · rfl
  have hwait : (answered n).pool.waitWorkResult = .ok ((answered n).pool, .leave none) := by
    unfold waitWorkResult
    rw [if_neg hresult, if_pos hidle]
  simp only [machine, PoolSystem.step, hwait]
  rfl

private theorem not_conserved_of_count (n : Nat) (hn : itemCount n = 0) (hpos : 0 < n)
    (h : ∀ s : PoolSystem Unit, (machine Unit).Reachable s → Conserved s) : False := by
  obtain ⟨as, run⟩ := run_busy n
  have hs : (machine Unit).Reachable (answered n) :=
    ⟨start, _, rfl, run.append (Machine.run_of_execute (execute_busy n))⟩
  have hnull := (h _ (hs.next trivial (step_answered n hn))).null_idle _ (mem_singleton_self _)
  have hlength := hnull.length_eq
  simp only [length_replicate, length_singleton] at hlength
  omega

/-- With `2 ^ 32` items pending, NULL is returned although all of them are outstanding. -/
theorem not_conserved_wrapped :
    ¬ ∀ s : PoolSystem Unit, (machine Unit).Reachable s → Conserved s := by
  refine not_conserved_of_count (2 ^ 32) ?_ (by omega)
  rw [← UInt64.toNat_inj, toNat_itemCount]
  rfl

end PoolSystem

end Drt
