import Drt.Sql.ConnectionPool

/-!
# Waiting for a connection

A release and a destruction signal one blocked call each. As long as a call is blocked,
there are as many calls on their way out of `wait` as connections to be had. A call which
has been woken and cannot open its connection leaves with an exception and passes the
signal on to nobody.
-/

open List

namespace Drt

/-- In `getConnection`, and not blocked. -/
def GetCall.isAwake : GetCall → Bool
  | .entering _ => true
  | .looping _ => true
  | _ => false

namespace ConnectionSystem

/-- The thread is blocked in `wait`. -/
def isWaiting (s : ConnectionSystem) (thread : Nat) : Bool :=
  s.calls[thread]?.any GetCall.isWaiting

def isAwake (s : ConnectionSystem) (thread : Nat) : Bool :=
  s.calls[thread]?.any GetCall.isAwake

/-- The connections that a call can have: the idle ones, and those it may open. -/
def available (s : ConnectionSystem) : Nat :=
  s.pool.connection_list.length + (s.pool.max_connections - s.pool.num_connections).toNat

/-- The calls that have been woken, after a step. -/
def stillWoken (s t : ConnectionSystem) (woken : Finset Nat) : Finset Nat :=
  (Finset.range t.calls.length).filter fun i => (i ∈ woken ∨ s.isWaiting i) ∧ t.isAwake i

/-- The pool, with the calls that have been woken and have not left nor blocked again. -/
structure Tracked where
  system : ConnectionSystem
  woken : Finset Nat

/-- The runs of the pool, with the history of the woken calls. -/
def tracked (init_conns : Nat) (max_connections : Int) : Machine Tracked ConnectionEvent where
  init p := (machine init_conns max_connections).init p.system ∧ p.woken = ∅
  step p e := (p.system.step e).map fun t => ⟨t, stillWoken p.system t p.woken⟩

/-- The history adds no runs and takes none away. -/
theorem reachable_iff_tracked {init_conns : Nat} {max_connections : Int} {s : ConnectionSystem} :
    (machine init_conns max_connections).Reachable s ↔
      ∃ woken, (tracked init_conns max_connections).Reachable ⟨s, woken⟩ := by
  constructor
  · intro h
    refine h.invariant (fun s => ∃ woken, (tracked init_conns max_connections).Reachable ⟨s, woken⟩)
      ?_ ?_
    · exact fun s hs => ⟨∅, .init ⟨hs, rfl⟩⟩
    · rintro s e t ⟨woken, hs⟩ hstep
      refine ⟨stillWoken s t woken, hs.next (a := e) trivial ?_⟩
      exact Option.map_eq_some_iff.mpr ⟨t, hstep, rfl⟩
  · rintro ⟨woken, h⟩
    refine h.simulation (fun p hp => hp.1) ?_ (f := Tracked.system)
    rintro p e q hstep
    obtain ⟨t, ht, rfl⟩ := Option.map_eq_some_iff.mp hstep
    exact ⟨[e], .single trivial ht⟩

/-- A thread is blocked although there is a connection for it, nobody is inside of the lock
and no signal is under way. -/
def Tracked.LostWakeup (p : Tracked) : Prop :=
  p.system.list_mutex = none ∧ p.woken = ∅ ∧ (∃ thread, p.system.isWaiting thread = true) ∧
    (p.system.pool.connection_list ≠ [] ∨
      p.system.pool.num_connections < p.system.pool.max_connections)

/-- A woken call may fail to open a connection when nobody is blocked, or when enough others
have been woken. -/
def Tracked.FailsSafely (p : Tracked) : ConnectionEvent → Prop
  | .pass thread _ false _ =>
    p.system.pool.connection_list = [] →
    p.system.pool.num_connections < p.system.pool.max_connections →
    thread ∈ p.woken →
    (∀ i < p.system.calls.length, p.system.isWaiting i = false) ∨
      p.system.available < p.woken.card
  | _ => True

instance (p : Tracked) (e : ConnectionEvent) : Decidable (p.FailsSafely e) := by
  cases e with
  | pass thread now opened woken =>
    cases opened with
    | false => exact inferInstanceAs (Decidable (_ → _ → _ → _ ∨ _))
    | true => exact isTrue trivial
  | _ => exact isTrue trivial

variable {s s₁ t : ConnectionSystem} {woken : Finset Nat} {i : Nat}

theorem isWaiting_iff : s.isWaiting i = true ↔ ∃ ping, s.calls[i]? = some (.waiting ping) := by
  unfold isWaiting
  cases s.calls[i]? with
  | none => simp
  | some call => cases call <;> simp [GetCall.isWaiting]

theorem isAwake_iff : s.isAwake i = true ↔
    ∃ ping, s.calls[i]? = some (.entering ping) ∨ s.calls[i]? = some (.looping ping) := by
  unfold isAwake
  cases s.calls[i]? with
  | none => simp
  | some call => cases call <;> simp [GetCall.isAwake]

theorem not_isWaiting_of_isAwake (h : s.isAwake i = true) : ¬ s.isWaiting i = true := by
  intro hwaiting
  obtain ⟨ping, hcall⟩ := isWaiting_iff.mp hwaiting
  obtain ⟨ping', hcall' | hcall'⟩ := isAwake_iff.mp h <;> rw [hcall] at hcall' <;> cases hcall'

theorem mem_stillWoken :
    i ∈ stillWoken s t woken ↔ (i ∈ woken ∨ s.isWaiting i = true) ∧ t.isAwake i = true := by
  unfold stillWoken
  rw [Finset.mem_filter, Finset.mem_range]
  constructor
  · exact And.right
  · rintro ⟨hmem, hawake⟩
    refine ⟨?_, hmem, hawake⟩
    obtain ⟨ping, hcall | hcall⟩ := isAwake_iff.mp hawake <;>
      exact (List.getElem?_eq_some_iff.mp hcall).1

/-- The woken calls are not blocked, and while a call is, there are as many as connections
to be had. -/
structure Enough (p : Tracked) : Prop where
  awake : ∀ i ∈ p.woken, p.system.isAwake i = true
  enough : ∀ i, p.system.isWaiting i = true → p.system.available ≤ p.woken.card

/-- Nobody is blocked, or the woken calls have kept up with the connections to be had. -/
def KeepsUp (s t : ConnectionSystem) (woken woken' : Finset Nat) : Prop :=
  (∀ i, ¬ t.isWaiting i = true) ∨ t.available + woken.card ≤ s.available + woken'.card

/-- The invariant after a step which keeps up; a call that blocks finds no connection. -/
theorem Enough.next (h : Enough ⟨s, woken⟩) (hkeeps : KeepsUp s t woken (stillWoken s t woken))
    (hblocks : ∀ i, t.isWaiting i = true → (∃ j, s.isWaiting j = true) ∨ t.available = 0) :
    Enough ⟨t, stillWoken s t woken⟩ := by
  refine ⟨fun i hi => (mem_stillWoken.mp hi).2, ?_⟩
  intro i hi
  change t.available ≤ (stillWoken s t woken).card
  rcases hblocks i hi with ⟨j, hj⟩ | hnone
  · rcases hkeeps with hnobody | hle
    · exact absurd hi (hnobody i)
    · have henough : s.available ≤ woken.card := h.enough j hj
      omega
  · omega

variable {conn thread : Nat} {call : GetCall} {wake : Option Nat}

theorem isWaiting_set (hcalls : t.calls = s.calls.set thread call) (hcall : ¬ call.isWaiting = true)
    (h : t.isWaiting i = true) : i ≠ thread ∧ s.isWaiting i = true := by
  unfold isWaiting at h ⊢
  rw [hcalls] at h
  by_cases hi : thread = i
  · subst hi
    rw [List.getElem?_set_self'] at h
    cases hget : s.calls[thread]? with
    | none => simp [hget] at h
    | some old => exact absurd (by simpa [hget] using h) hcall
  · rw [List.getElem?_set_ne hi] at h
    exact ⟨Ne.symm hi, h⟩

theorem isAwake_set_ne (hcalls : t.calls = s.calls.set thread call) (hi : i ≠ thread) :
    t.isAwake i = s.isAwake i := by
  unfold isAwake
  rw [hcalls, List.getElem?_set_ne (Ne.symm hi)]

/-- A signal wakes a blocked call, if there is one. -/
theorem signal_calls (h : s.signal wake = some t) :
    t.pool = s.pool ∧ ((∀ i, ¬ s.isWaiting i = true) ∧ t.calls = s.calls ∨
      ∃ j ping, s.calls[j]? = some (.waiting ping) ∧ t.calls = s.calls.set j (.entering ping)) := by
  cases wake with
  | none =>
    simp only [signal] at h
    split at h
    · cases h
    · rename_i hnone
      obtain rfl := Option.some.inj h
      refine ⟨rfl, .inl ⟨?_, rfl⟩⟩
      intro i hi
      obtain ⟨ping, hcall⟩ := isWaiting_iff.mp hi
      exact hnone (any_eq_true.mpr ⟨_, mem_of_getElem? hcall, rfl⟩)
  | some j =>
    simp only [signal] at h
    split at h
    · rename_i ping hcall
      obtain rfl := Option.some.inj h
      exact ⟨rfl, .inr ⟨j, ping, hcall, rfl⟩⟩
    · cases h

theorem isWaiting_signal (h : s.signal wake = some t) (hi : t.isWaiting i = true) :
    s.isWaiting i = true := by
  obtain ⟨-, ⟨-, hcalls⟩ | ⟨j, ping, -, hcalls⟩⟩ := signal_calls h
  · unfold isWaiting at hi ⊢
    rwa [hcalls] at hi
  · exact (isWaiting_set hcalls (by simp [GetCall.isWaiting]) hi).2

theorem keepsUp_of_awake (hawake : ∀ i ∈ woken, t.isAwake i = true)
    (havailable : t.available ≤ s.available) :
    KeepsUp s t woken (stillWoken s t woken) := by
  have hsubset : woken ⊆ stillWoken s t woken :=
    fun i hi => mem_stillWoken.mpr ⟨.inl hi, hawake i hi⟩
  exact .inr (Nat.add_le_add havailable (Finset.card_le_card hsubset))

section

variable (hs : ∀ i ∈ woken, s.isAwake i = true)
include hs

/-- One more connection to be had, and a signal. -/
theorem keepsUp_signal (hawake : ∀ i ∈ woken, s₁.isAwake i = true)
    (hwaiting : ∀ i, s₁.isWaiting i = true → s.isWaiting i = true)
    (havailable : s₁.available ≤ s.available + 1) (h : s₁.signal wake = some t) :
    KeepsUp s t woken (stillWoken s t woken) := by
  have hsame : t.available = s₁.available := by
    unfold available
    rw [(signal_calls h).1]
  obtain ⟨-, ⟨hnobody, -⟩ | ⟨j, ping, hcall, hcalls⟩⟩ := signal_calls h
  · exact .inl fun i hi => hnobody i (isWaiting_signal h hi)
  · right
    have hj : s.isWaiting j = true := hwaiting j (isWaiting_iff.mpr ⟨ping, hcall⟩)
    have hnew : j ∉ woken := fun hmem => not_isWaiting_of_isAwake (hs j hmem) hj
    have hawakened : t.isAwake j = true := by
      refine isAwake_iff.mpr ⟨ping, .inl ?_⟩
      rw [hcalls, List.getElem?_set_self (List.getElem?_eq_some_iff.mp hcall).1]
    have hsubset : insert j woken ⊆ stillWoken s t woken := by
      intro i hi
      by_cases hij : i = j
      · subst hij
        exact mem_stillWoken.mpr ⟨.inr hj, hawakened⟩
      · have hmem : i ∈ woken := (Finset.mem_insert.mp hi).resolve_left hij
        refine mem_stillWoken.mpr ⟨.inl hmem, ?_⟩
        rw [isAwake_set_ne hcalls hij]
        exact hawake i hmem
    have hcard := Finset.card_le_card hsubset
    rw [Finset.card_insert_of_notMem hnew] at hcard
    omega

/-- A reference is given up, and the connection with it if it was the last one. -/
theorem keepsUp_unref (hawake : ∀ i ∈ woken, s₁.isAwake i = true)
    (hwaiting : ∀ i, s₁.isWaiting i = true → s.isWaiting i = true)
    (havailable : s₁.available ≤ s.available) (h : s₁.unref conn wake = some t) :
    KeepsUp s t woken (stillWoken s t woken) ∧
      ∀ i, t.isWaiting i = true → s.isWaiting i = true := by
  unfold unref at h
  simp only at h
  split at h
  · unfold destroyingConnection at h
    refine ⟨keepsUp_signal hs ?_ ?_ ?_ h, ?_⟩
    · exact hawake
    · exact hwaiting
    · unfold available at havailable ⊢
      simp only
      omega
    · intro i hi
      have hi' := isWaiting_signal h hi
      exact hwaiting i hi'
  · obtain rfl := Option.some.inj h
    exact ⟨keepsUp_of_awake hawake havailable, hwaiting⟩

/-- A call which leaves the loop takes at most one of the woken calls away. -/
theorem keepsUp_leave (hcalls : t.calls = s.calls.set thread call)
    (havailable : t.available + 1 ≤ s.available ∨ t.available ≤ s.available ∧ thread ∉ woken) :
    KeepsUp s t woken (stillWoken s t woken) := by
  right
  have hsubset : woken.erase thread ⊆ stillWoken s t woken := by
    intro i hi
    obtain ⟨hne, hmem⟩ := Finset.mem_erase.mp hi
    refine mem_stillWoken.mpr ⟨.inl hmem, ?_⟩
    rw [isAwake_set_ne hcalls hne]
    exact hs i hmem
  have hcard := Finset.card_le_card hsubset
  rcases havailable with hless | ⟨hle, hnot⟩
  · have herase : woken.card - 1 ≤ (woken.erase thread).card := Finset.pred_card_le_card_erase
    omega
  · rw [Finset.erase_eq_of_notMem hnot] at hcard
    omega

theorem awake_of_set (hcalls : t.calls = s.calls.set thread call) (hcall : call.isAwake = true) :
    ∀ i ∈ woken, t.isAwake i = true := by
  intro i hi
  by_cases hit : i = thread
  · subst hit
    have hold := hs i hi
    unfold isAwake at hold ⊢
    rw [hcalls, List.getElem?_set_self']
    cases hget : s.calls[i]? with
    | none => simp [hget] at hold
    | some old => simpa using hcall
  · rw [isAwake_set_ne hcalls hit]
    exact hs i hi

end

/-- `openConnection` fails, and the call leaves the others with the places it has found. -/
theorem Enough.fail {now : Int} (h : Enough ⟨s, woken⟩) (hlist : s.pool.connection_list = [])
    (hroom : s.pool.num_connections < s.pool.max_connections)
    (hsafe : Tracked.FailsSafely ⟨s, woken⟩ (.pass thread now false wake)) :
    Enough ⟨{ s with list_mutex := none, calls := s.calls.set thread .outside },
      stillWoken s { s with list_mutex := none, calls := s.calls.set thread .outside } woken⟩ := by
  let t : ConnectionSystem :=
    { s with list_mutex := none, calls := s.calls.set thread .outside }
  change Enough ⟨t, stillWoken s t woken⟩
  have hs : ∀ i ∈ woken, s.isAwake i = true := h.awake
  have hcalls : t.calls = s.calls.set thread .outside := rfl
  have hwaiting : ∀ i, t.isWaiting i = true → s.isWaiting i = true :=
    fun i hi => (isWaiting_set hcalls (by simp [GetCall.isWaiting]) hi).2
  have hsame : t.available = s.available := rfl
  by_cases hthread : thread ∈ woken
  · rcases hsafe hlist hroom hthread with hnobody | hothers
    · refine h.next (.inl ?_) fun i hi => .inl ⟨i, hwaiting i hi⟩
      intro i hi
      have hold := hwaiting i hi
      obtain ⟨ping, hcall⟩ := isWaiting_iff.mp hold
      rw [hnobody i (List.getElem?_eq_some_iff.mp hcall).1] at hold
      cases hold
    · refine ⟨fun i hi => (mem_stillWoken.mp hi).2, ?_⟩
      intro i _
      change t.available ≤ (stillWoken s t woken).card
      have hsubset : woken.erase thread ⊆ stillWoken s t woken := by
        intro j hj
        obtain ⟨hne, hmem⟩ := Finset.mem_erase.mp hj
        refine mem_stillWoken.mpr ⟨.inl hmem, ?_⟩
        rw [isAwake_set_ne hcalls hne]
        exact hs j hmem
      have hcard := Finset.card_le_card hsubset
      have herase := Finset.card_erase_of_mem hthread
      have hothers' : s.available < woken.card := hothers
      omega
  · exact h.next (keepsUp_leave hs hcalls (.inr ⟨hsame.le, hthread⟩))
      fun i hi => .inl ⟨i, hwaiting i hi⟩

/-- A call that is in the loop with the lock. -/
theorem Enough.getConnection {ping : Bool} {now : Int} {opened : Bool} (h : Enough ⟨s, woken⟩)
    (hsafe : Tracked.FailsSafely ⟨s, woken⟩ (.pass thread now opened wake))
    (hstep : s.getConnection thread ping now opened wake = some t) :
    Enough ⟨t, stillWoken s t woken⟩ := by
  have hs : ∀ i ∈ woken, s.isAwake i = true := h.awake
  unfold ConnectionSystem.getConnection at hstep
  split at hstep
  · rename_i n rest hlist
    split at hstep
    · -- too old: the connection goes, and the place with it
      let removed := { s with pool := { s.pool with connection_list := rest } }
      have havailable : removed.available ≤ s.available := by
        simp only [available, removed, hlist, length_cons]
        omega
      have hawake : ∀ i ∈ woken, removed.isAwake i = true := hs
      have hsame : ∀ i, removed.isWaiting i = true → s.isWaiting i = true := fun _ hi => hi
      have hunref : removed.unref n wake = some t := hstep
      obtain ⟨hkeeps, hwaiting⟩ := keepsUp_unref hs hawake hsame havailable hunref
      exact h.next hkeeps fun i hi => .inl ⟨i, hwaiting i hi⟩
    · obtain rfl := Option.some.inj hstep
      refine h.next (keepsUp_leave hs rfl (.inl ?_)) ?_
      · simp only [available, leave, hlist, length_cons]
        omega
      · intro i hi
        refine .inl ⟨i, (isWaiting_set rfl ?_ hi).2⟩
        cases ping <;> simp [GetCall.isWaiting]
  · rename_i hlist
    split at hstep
    · rename_i hfull
      obtain rfl := Option.some.inj hstep
      have hnone : available { s with
          list_mutex := none, calls := s.calls.set thread (.waiting ping) } = 0 := by
        simp only [available, hlist, length_nil]
        omega
      refine ⟨fun i hi => (mem_stillWoken.mp hi).2, ?_⟩
      intro i _
      exact hnone.le.trans (Nat.zero_le _)
    · rename_i hroom
      split at hstep
      · obtain rfl := Option.some.inj hstep
        refine h.next (keepsUp_leave hs rfl (.inl ?_)) ?_
        · simp only [available, leave, newHold, hlist, length_nil]
          omega
        · intro i hi
          refine .inl ⟨i, (isWaiting_set rfl ?_ hi).2⟩
          cases ping <;> simp [GetCall.isWaiting]
      · rename_i hopened
        obtain rfl := Bool.eq_false_iff.mpr hopened
        obtain rfl := Option.some.inj hstep
        exact h.fail hlist (Int.not_le.mp hroom) hsafe

/-- A thread that is not in the loop is not one of the woken calls. -/
theorem Enough.not_mem (h : Enough ⟨s, woken⟩) (hget : s.calls[thread]? = some call)
    (hcall : ¬ call.isAwake = true) : thread ∉ woken := by
  intro hmem
  have hawake : s.isAwake thread = true := h.awake thread hmem
  unfold isAwake at hawake
  rw [hget] at hawake
  exact hcall (by simpa using hawake)

theorem unrefOutside_eq (h : s.unrefOutside conn wake = some t) : s.unref conn wake = some t := by
  unfold unrefOutside at h
  split at h
  · cases h
  · exact h

section

variable (h : Enough ⟨s, woken⟩)
include h

/-- A reference is given up by a thread without the lock. -/
theorem Enough.unref (hstep : s₁.unrefOutside conn wake = some t) (hcalls : s₁.calls = s.calls)
    (hpool : s₁.pool = s.pool) : Enough ⟨t, stillWoken s t woken⟩ := by
  have hs : ∀ i ∈ woken, s.isAwake i = true := h.awake
  have hawake : ∀ i ∈ woken, s₁.isAwake i = true := by
    unfold isAwake
    rw [hcalls]
    exact hs
  have hsame : ∀ i, s₁.isWaiting i = true → s.isWaiting i = true := by
    unfold isWaiting
    rw [hcalls]
    exact fun _ hi => hi
  have havailable : s₁.available ≤ s.available := by
    unfold available
    rw [hpool]
  obtain ⟨hkeeps, hwaiting⟩ :=
    keepsUp_unref hs hawake hsame havailable (unrefOutside_eq hstep)
  exact h.next hkeeps fun i hi => .inl ⟨i, hwaiting i hi⟩

/-- A thread that comes into the loop, or goes on in it. -/
theorem Enough.goto (hcalls : t.calls = s.calls.set thread call) (hpool : t.pool = s.pool)
    (hcall : call.isAwake = true) : Enough ⟨t, stillWoken s t woken⟩ := by
  have hs : ∀ i ∈ woken, s.isAwake i = true := h.awake
  have hnot : ¬ call.isWaiting = true := by
    cases call <;> simp [GetCall.isWaiting, GetCall.isAwake] at hcall ⊢
  have havailable : t.available ≤ s.available := by
    unfold available
    rw [hpool]
  exact h.next (keepsUp_of_awake (awake_of_set hs hcalls hcall) havailable)
    fun i hi => .inl ⟨i, (isWaiting_set hcalls hnot hi).2⟩

theorem Enough.getConnectionPing {ok : Bool} (hcall : s.calls[thread]? = some (.pinging conn))
    (hstep : s.getConnectionPing thread conn ok wake = some t) :
    Enough ⟨t, stillWoken s t woken⟩ := by
  have hs : ∀ i ∈ woken, s.isAwake i = true := h.awake
  have hnot : thread ∉ woken := h.not_mem hcall (by simp [GetCall.isAwake])
  unfold ConnectionSystem.getConnectionPing at hstep
  split at hstep
  · obtain rfl := Option.some.inj hstep
    refine h.next (keepsUp_leave hs rfl (.inr ⟨le_rfl, hnot⟩)) ?_
    exact fun i hi => .inl ⟨i, (isWaiting_set rfl (by simp [GetCall.isWaiting]) hi).2⟩
  · let s₁ : ConnectionSystem := { s with calls := s.calls.set thread (.entering true) }
    have hawake : ∀ i ∈ woken, s₁.isAwake i = true := awake_of_set hs rfl rfl
    have hsame : ∀ i, s₁.isWaiting i = true → s.isWaiting i = true :=
      fun i hi => (isWaiting_set rfl (by simp [GetCall.isWaiting]) hi).2
    have havailable : s₁.available ≤ s.available := le_rfl
    obtain ⟨hkeeps, hwaiting⟩ :=
      keepsUp_unref hs hawake hsame havailable (unrefOutside_eq hstep)
    exact h.next hkeeps fun i hi => .inl ⟨i, hwaiting i hi⟩

/-- A connection comes back to the list, with a signal. -/
theorem Enough.releaseConnection (hstep : s₁.releaseConnection conn wake = some t)
    (hcalls : s₁.calls = s.calls) (hpool : s₁.pool = s.pool) :
    Enough ⟨t, stillWoken s t woken⟩ := by
  have hs : ∀ i ∈ woken, s.isAwake i = true := h.awake
  unfold ConnectionSystem.releaseConnection at hstep
  have hold : ∀ i, t.isWaiting i = true → s.isWaiting i = true := by
    intro i hi
    have hi' := isWaiting_signal hstep hi
    unfold isWaiting at hi' ⊢
    rwa [hcalls] at hi'
  refine h.next (keepsUp_signal hs ?_ ?_ ?_ hstep) fun i hi => .inl ⟨i, hold i hi⟩
  · unfold isAwake
    rw [hcalls]
    exact hs
  · unfold isWaiting
    rw [hcalls]
    exact fun _ hi => hi
  · unfold available
    rw [hpool]
    simp only [length_cons]
    omega

/-- The step lemma of the invariant. -/
theorem Enough.step {e : ConnectionEvent} (hsafe : Tracked.FailsSafely ⟨s, woken⟩ e)
    (hstep : s.step e = some t) : Enough ⟨t, stillWoken s t woken⟩ := by
  cases e with
  | call thread ping | lock thread | spurious thread =>
    simp only [ConnectionSystem.step] at hstep
    split at hstep
    · obtain rfl := Option.some.inj hstep
      exact h.goto rfl rfl rfl
    · cases hstep
  | pass thread now opened wake =>
    simp only [ConnectionSystem.step] at hstep
    split at hstep
    · exact h.getConnection hsafe hstep
    · cases hstep
  | pinged thread ok wake =>
    simp only [ConnectionSystem.step] at hstep
    split at hstep
    · rename_i hcall
      exact h.getConnectionPing hcall hstep
    · cases hstep
  | release conn wake =>
    simp only [ConnectionSystem.step] at hstep
    split at hstep
    · exact h.releaseConnection hstep rfl rfl
    · cases hstep
  | drop conn wake | dropReleased conn wake =>
    simp only [ConnectionSystem.step] at hstep
    split at hstep
    · exact h.unref hstep rfl rfl
    · cases hstep
  | setMaxOldness max_oldness =>
    obtain rfl := Option.some.inj hstep
    refine h.next (keepsUp_of_awake ?_ le_rfl) fun i hi => .inl ⟨i, hi⟩
    exact h.awake

end

/-- At the start nobody is blocked. -/
theorem enough_start (init_conns : Nat) (max_connections max_oldness : Int) (threads : Nat)
    (created : Nat → Int) :
    Enough ⟨start init_conns max_connections max_oldness threads created, ∅⟩ := by
  have hcalls : ∀ n, ((List.range n).foldl (fun s i => s.initialConnection (created i))
      (empty max_connections max_oldness threads)).calls = List.replicate threads .outside := by
    intro n
    induction n with
    | zero => rfl
    | succ n ih =>
      rw [range_succ, foldl_append]
      exact ih
  refine ⟨fun i hi => absurd hi (Finset.notMem_empty i), ?_⟩
  intro i hi
  obtain ⟨ping, hcall⟩ := isWaiting_iff.mp hi
  have hmem := mem_of_getElem? hcall
  unfold start at hmem
  rw [hcalls] at hmem
  cases eq_of_mem_replicate hmem

/-- In every run whose open failures are safe, no wakeup is lost. -/
theorem not_lostWakeup_of_failsSafely (init_conns : Nat) (max_connections : Int) (p : Tracked)
    (h : (tracked init_conns max_connections).ReachableWith Tracked.FailsSafely p) :
    ¬ p.LostWakeup := by
  have henough : Enough p := by
    refine h.invariant Enough ?_ ?_
    · rintro ⟨s, woken⟩ ⟨⟨max_oldness, threads, created, hs⟩, hwoken⟩
      obtain rfl : s = _ := hs
      obtain rfl : woken = ∅ := hwoken
      exact enough_start init_conns max_connections max_oldness threads created
    · rintro ⟨s, woken⟩ e q hs hsafe hstep
      obtain ⟨t, ht, rfl⟩ := Option.map_eq_some_iff.mp hstep
      exact hs.step hsafe ht
  rintro ⟨-, hnone, ⟨i, hi⟩, hany⟩
  have hle := henough.enough i hi
  rw [hnone, Finset.card_empty] at hle
  unfold available at hle
  rcases hany with hidle | hroom
  · have hlength := length_pos_iff.mpr hidle
    omega
  · omega

/-- A woken call which cannot open a connection, with nobody else blocked, and then a call
that can, while another one is blocked. -/
theorem not_lostWakeup_of_failsSafely_retried :
    ∃ p, (tracked 1 1).ReachableWith Tracked.FailsSafely p ∧ p.system.isWaiting 2 = true ∧
      ¬ p.LostWakeup := by
  let events : List ConnectionEvent := [.call 0 false, .lock 0, .pass 0 5 true none,
    .call 1 false, .lock 1, .pass 1 5 true none, .drop 0 (some 1), .lock 1, .pass 1 6 false none,
    .call 0 true, .lock 0, .pass 0 7 true none, .call 2 false, .lock 2, .pass 2 8 true none]
  let p₀ : Tracked := ⟨start 1 1 0 3 fun _ => 0, ∅⟩
  let p := ((tracked 1 1).executeWith Tracked.FailsSafely p₀ events).get (by decide)
  have hp : (tracked 1 1).ReachableWith Tracked.FailsSafely p :=
    ⟨p₀, events, ⟨⟨0, 3, fun _ => 0, rfl⟩, rfl⟩,
      Machine.run_of_executeWith (Option.some_get _).symm⟩
  exact ⟨p, hp, by decide, not_lostWakeup_of_failsSafely 1 1 p hp⟩

/-- Two calls are blocked when the only connection is destroyed. The woken one fails to open
another, and the second one is left behind although there is a place. -/
theorem exists_lostWakeup :
    ¬ ∀ (init_conns : Nat) (max_connections : Int) (p : Tracked),
      (tracked init_conns max_connections).Reachable p → ¬ p.LostWakeup := by
  let events : List ConnectionEvent := [.call 0 false, .lock 0, .pass 0 5 true none,
    .call 1 false, .lock 1, .pass 1 5 true none, .call 2 false, .lock 2, .pass 2 5 true none,
    .drop 0 (some 1), .lock 1, .pass 1 6 false none]
  let p₀ : Tracked := ⟨start 1 1 0 3 fun _ => 0, ∅⟩
  let p := ((tracked 1 1).execute p₀ events).get (by decide)
  have hp : (tracked 1 1).Reachable p :=
    ⟨p₀, events, ⟨⟨0, 3, fun _ => 0, rfl⟩, rfl⟩,
      Machine.run_of_execute (Option.some_get _).symm⟩
  have hcalls : p.system.calls = [.outside, .outside, .waiting false] := by decide
  have hlost : p.LostWakeup := by
    refine ⟨by decide, by decide, ⟨2, ?_⟩, .inr (by decide)⟩
    unfold isWaiting
    rw [hcalls]
    rfl
  exact fun h => h 1 1 p hp hlost

end ConnectionSystem

end Drt
