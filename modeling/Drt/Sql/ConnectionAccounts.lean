import Drt.Sql.ConnectionPool
import Mathlib.Tactic.Abel

/-!
# The accounts of the connection pool

The references to connections are those of the list, of the callers, of the calls under
way and those which callers keep to what they have released. `num_connections` is the
number of connections that are referenced, so a connection which the pool has dropped is
counted as long as the caller that released it keeps its reference.
-/

open List Function

namespace Drt

namespace ConnectionSystem

/-- The connections in the hands of callers, or of calls that are going to return them. -/
def handedOut (s : ConnectionSystem) : List Nat := s.handed_out ++ s.calls.filterMap GetCall.taken

/-- The references that make a connection idle or handed out. -/
def held (s : ConnectionSystem) : Multiset Nat := ↑s.pool.connection_list + ↑s.handedOut

/-- All references. -/
def refs (s : ConnectionSystem) : Multiset Nat := s.held + ↑s.released

/-- The connections neither idle nor handed out, which the caller that released them
still refers to. -/
def lingering (s : ConnectionSystem) : Finset Nat :=
  s.released.toFinset \ (s.pool.connection_list ++ s.handedOut).toFinset

/-- The reference counters. -/
def refcnt (s : ConnectionSystem) (conn : Nat) : Nat := (s.holds conn).refcnt

/-- The counters count, and the connections held are held once. -/
structure Accounted (init_conns : Nat) (max_connections : Int) (s : ConnectionSystem) : Prop where
  counted : References.Counted s.refcnt s.refs
  fresh : ∀ c ∈ s.refs, c < s.allocated
  apart : s.held.Nodup
  alive : s.pool.num_connections = (References.live s.refs).card
  limit : s.pool.max_connections = max_connections
  bounded : s.pool.num_connections ≤ max (initialCount init_conns : Int) max_connections

variable {init_conns : Nat} {max_connections : Int} {s s' t : ConnectionSystem}

/-- Two states agree on the counters. -/
structure SameCounters (s t : ConnectionSystem) : Prop where
  refcnt : t.refcnt = s.refcnt
  allocated : t.allocated = s.allocated
  num : t.pool.num_connections = s.pool.num_connections
  limit : t.pool.max_connections = s.pool.max_connections

theorem Accounted.move (h : Accounted init_conns max_connections s) (same : SameCounters s t)
    (hheld : t.held = s.held) (hreleased : t.released = s.released) :
    Accounted init_conns max_connections t := by
  have hrefs : t.refs = s.refs := by rw [refs, refs, hheld, hreleased]
  refine ⟨?_, ?_, ?_, ?_, ?_, ?_⟩
  · rw [same.refcnt, hrefs]
    exact h.counted
  · rw [hrefs, same.allocated]
    exact h.fresh
  · rw [hheld]
    exact h.apart
  · rw [same.num, hrefs]
    exact h.alive
  · rw [same.limit]
    exact h.limit
  · rw [same.num]
    exact h.bounded

variable {conn thread : Nat} {woken : Option Nat}

theorem coe_handedOut_set {call : GetCall} (call' : GetCall) (h : s.calls[thread]? = some call) :
    (↑call.taken.toList : Multiset Nat) +
        ↑((s.calls.set thread call').filterMap GetCall.taken) =
      ↑call'.taken.toList + ↑(s.calls.filterMap GetCall.taken) :=
  Quot.sound (filterMap_set_perm GetCall.taken call' h)

theorem coe_taken_set {call call' : GetCall} (h : s.calls[thread]? = some call)
    (htaken : call.taken = none) (htaken' : call'.taken = none) :
    (↑((s.calls.set thread call').filterMap GetCall.taken) : Multiset Nat) =
      ↑(s.calls.filterMap GetCall.taken) := by
  have hset := coe_handedOut_set call' h
  rw [htaken, htaken'] at hset
  simpa using hset

theorem held_eq (s : ConnectionSystem) : s.held =
    ↑s.pool.connection_list + (↑s.handed_out + ↑(s.calls.filterMap GetCall.taken)) :=
  rfl

theorem signal_spec (h : s.signal woken = some t) :
    SameCounters s t ∧ t.held = s.held ∧ t.released = s.released := by
  cases woken with
  | none =>
    simp only [signal] at h
    split at h
    · cases h
    · obtain rfl := Option.some.inj h
      exact ⟨⟨rfl, rfl, rfl, rfl⟩, rfl, rfl⟩
  | some thread =>
    simp only [signal] at h
    split at h
    · rename_i ping hcall
      obtain rfl := Option.some.inj h
      refine ⟨⟨rfl, rfl, rfl, rfl⟩, ?_, rfl⟩
      simp only [held_eq]
      rw [coe_taken_set hcall rfl rfl]
    · cases h

theorem refcnt_update (s : ConnectionSystem) (conn n : Nat) :
    (fun c => (update s.holds conn { s.holds conn with refcnt := n } c).refcnt) =
      update s.refcnt conn n := by
  funext c
  by_cases hc : c = conn
  · subst hc
    rw [update_self, update_self]
  · rw [update_of_ne hc, update_of_ne hc]
    rfl

/-- What `unref` does to the counters; the holders are left to the caller. -/
theorem unref_spec (h : s.unref conn woken = some t) :
    t.refcnt = update s.refcnt conn (s.refcnt conn - 1) ∧
    t.allocated = s.allocated ∧
    t.pool.num_connections =
      s.pool.num_connections - (if s.refcnt conn - 1 = 0 then 1 else 0 : Nat) ∧
    t.pool.max_connections = s.pool.max_connections ∧
    t.held = s.held ∧ t.released = s.released := by
  unfold unref at h
  simp only at h
  split at h
  · rename_i hlast
    have hlast' : s.refcnt conn - 1 = 0 := hlast
    obtain ⟨same, hheld, hreleased⟩ := signal_spec h
    refine ⟨?_, same.allocated, ?_, same.limit, hheld, hreleased⟩
    · rw [same.refcnt]
      exact refcnt_update s conn _
    · rw [same.num, if_pos hlast']
      rfl
  · rename_i hlast
    have hlast' : ¬ s.refcnt conn - 1 = 0 := hlast
    obtain rfl := Option.some.inj h
    refine ⟨refcnt_update s conn _, rfl, ?_, rfl, rfl, rfl⟩
    rw [if_neg hlast']
    exact (Int.sub_zero _).symm

/-- A reference is given up. -/
theorem Accounted.unref (h : Accounted init_conns max_connections s) (same : SameCounters s s')
    (hrefs : s.refs = conn ::ₘ s'.refs) (happart : s'.held.Nodup)
    (hstep : s'.unref conn woken = some t) : Accounted init_conns max_connections t := by
  obtain ⟨hrefcnt, halloc, hnum, hlimit, hheld, hreleased⟩ := unref_spec hstep
  have hrefs' : t.refs = s'.refs := by rw [refs, refs, hheld, hreleased]
  have hcounted : References.Counted s'.refcnt (conn ::ₘ s'.refs) := by
    rw [same.refcnt, ← hrefs]
    exact h.counted
  have halive : (s'.pool.num_connections : Int) = (References.live (conn ::ₘ s'.refs)).card := by
    rw [same.num, ← hrefs]
    exact h.alive
  have hcard := hcounted.card_unref
  have hbounded := h.bounded
  rw [← same.num] at hbounded
  refine ⟨?_, ?_, ?_, ?_, ?_, ?_⟩
  · rw [hrefcnt, hrefs']
    exact hcounted.unref
  · intro c hc
    rw [halloc, same.allocated]
    refine h.fresh c ?_
    rw [hrefs]
    rw [hrefs'] at hc
    exact Multiset.mem_cons_of_mem hc
  · rw [hheld]
    exact happart
  · rw [hrefs', hnum, halive, hcard]
    omega
  · rw [hlimit, same.limit]
    exact h.limit
  · rw [hnum]
    omega

theorem unref_of_outside (h : s.unrefOutside conn woken = some t) :
    s.unref conn woken = some t := by
  unfold unrefOutside at h
  split at h
  · cases h
  · exact h

/-- A connection is created for a holder. -/
theorem Accounted.create (h : Accounted init_conns max_connections s) (now : Int)
    (hroom : s.pool.num_connections + 1 ≤ max (initialCount init_conns : Int) max_connections)
    (same : SameCounters (s.newHold now) t) (hheld : t.held = s.allocated ::ₘ s.held)
    (hreleased : t.released = s.released) : Accounted init_conns max_connections t := by
  have hrefs : t.refs = s.allocated ::ₘ s.refs := by
    rw [refs, refs, hheld, hreleased, Multiset.cons_add]
  have hnew : s.allocated ∉ s.refs := fun hmem => Nat.lt_irrefl _ (h.fresh _ hmem)
  have hzero : s.refcnt s.allocated = 0 := by
    rw [h.counted, Multiset.count_eq_zero]
    exact hnew
  have hrefcnt : (s.newHold now).refcnt =
      update s.refcnt s.allocated (s.refcnt s.allocated + 1) := by
    rw [hzero]
    funext c
    by_cases hc : c = s.allocated
    · subst hc
      simp [refcnt, newHold]
    · simp [refcnt, newHold, update_of_ne hc]
  refine ⟨?_, ?_, ?_, ?_, ?_, ?_⟩
  · rw [same.refcnt, hrefcnt, hrefs]
    exact h.counted.ref s.allocated
  · intro c hc
    rw [same.allocated]
    rw [hrefs, Multiset.mem_cons] at hc
    rcases hc with rfl | hc
    · exact Nat.lt_succ_self _
    · exact Nat.lt_succ_of_lt (h.fresh c hc)
  · rw [hheld, Multiset.nodup_cons]
    exact ⟨fun hmem => hnew (Multiset.mem_add.mpr (.inl hmem)), h.apart⟩
  · rw [same.num, hrefs, References.card_new hnew]
    have halive := h.alive
    change s.pool.num_connections + 1 = _
    omega
  · rw [same.limit]
    exact h.limit
  · rw [same.num]
    exact hroom

/-- A held connection gets one more reference. -/
theorem Accounted.ref (h : Accounted init_conns max_connections s) (hmem : conn ∈ s.refs)
    (hrefcnt : t.refcnt = update s.refcnt conn (s.refcnt conn + 1))
    (halloc : t.allocated = s.allocated) (hnum : t.pool.num_connections = s.pool.num_connections)
    (hlimit : t.pool.max_connections = s.pool.max_connections) (hheld : t.held = s.held)
    (hreleased : (↑t.released : Multiset Nat) = conn ::ₘ ↑s.released) :
    Accounted init_conns max_connections t := by
  have hrefs : t.refs = conn ::ₘ s.refs := by
    rw [refs, refs, hheld, hreleased, Multiset.add_cons]
  refine ⟨?_, ?_, ?_, ?_, ?_, ?_⟩
  · rw [hrefcnt, hrefs]
    exact h.counted.ref conn
  · intro c hc
    rw [halloc]
    rw [hrefs, Multiset.mem_cons] at hc
    rcases hc with rfl | hc
    · exact h.fresh c hmem
    · exact h.fresh c hc
  · rw [hheld]
    exact h.apart
  · rw [hnum, hrefs, References.live_again hmem]
    exact h.alive
  · rw [hlimit]
    exact h.limit
  · rw [hnum]
    exact h.bounded

/-- Leaving `getConnection` puts the connection into the hands of the caller or the call. -/
theorem held_leave {ping ping' : Bool} (conn : Nat)
    (hcall : s.calls[thread]? = some (.looping ping')) :
    (s.leave thread ping conn).held = conn ::ₘ s.held := by
  simp only [held_eq, leave]
  cases ping with
  | false =>
    have htaken := coe_taken_set hcall rfl (show GetCall.outside.taken = none from rfl)
    simp only [Bool.false_eq_true, if_false, htaken, ← Multiset.cons_coe, Multiset.cons_add,
      Multiset.add_cons]
  | true =>
    have hset := coe_handedOut_set (.pinging conn) hcall
    have htaken : (↑((s.calls.set thread (.pinging conn)).filterMap GetCall.taken) :
        Multiset Nat) = conn ::ₘ ↑(s.calls.filterMap GetCall.taken) := by
      simpa [GetCall.taken] using hset
    simp only [if_true, htaken, Multiset.add_cons]

theorem Accounted.getConnection {ping : Bool} {now : Int} {opened : Bool}
    (h : Accounted init_conns max_connections s) (hcall : s.calls[thread]? = some (.looping ping))
    (hstep : s.getConnection thread ping now opened woken = some t) :
    Accounted init_conns max_connections t := by
  unfold ConnectionSystem.getConnection at hstep
  split at hstep
  · rename_i n rest hlist
    let removed := { s with pool := { s.pool with connection_list := rest } }
    have hheld : s.held = n ::ₘ removed.held := by
      rw [held_eq, held_eq, hlist, ← Multiset.cons_coe, Multiset.cons_add]
    have same : SameCounters s removed := ⟨rfl, rfl, rfl, rfl⟩
    split at hstep
    · -- too old: only the list's reference goes
      refine h.unref same ?_ ?_ hstep
      · rw [refs, refs, hheld, Multiset.cons_add]
      · have := h.apart
        rw [hheld, Multiset.nodup_cons] at this
        exact this.2
    · obtain rfl := Option.some.inj hstep
      refine h.move ⟨rfl, rfl, rfl, rfl⟩ ?_ rfl
      rw [hheld]
      exact held_leave (s := removed) n hcall
  · split at hstep
    · obtain rfl := Option.some.inj hstep
      refine h.move ⟨rfl, rfl, rfl, rfl⟩ ?_ rfl
      simp only [held_eq]
      rw [coe_taken_set hcall rfl rfl]
    · rename_i hroom
      split at hstep
      · obtain rfl := Option.some.inj hstep
        refine h.create now ?_ ⟨rfl, rfl, rfl, rfl⟩ ?_ rfl
        · have hlimit := h.limit
          omega
        · exact held_leave (s := s.newHold now) s.allocated hcall
      · obtain rfl := Option.some.inj hstep
        refine h.move ⟨rfl, rfl, rfl, rfl⟩ ?_ rfl
        simp only [held_eq]
        rw [coe_taken_set hcall rfl rfl]

theorem Accounted.getConnectionPing {ok : Bool} (h : Accounted init_conns max_connections s)
    (hcall : s.calls[thread]? = some (.pinging conn))
    (hstep : s.getConnectionPing thread conn ok woken = some t) :
    Accounted init_conns max_connections t := by
  have htaken (call' : GetCall) (hnone : call'.taken = none) :
      (↑(s.calls.filterMap GetCall.taken) : Multiset Nat) =
        conn ::ₘ ↑((s.calls.set thread call').filterMap GetCall.taken) := by
    have hset := coe_handedOut_set call' hcall
    rw [hnone] at hset
    simpa [GetCall.taken] using hset.symm
  unfold ConnectionSystem.getConnectionPing at hstep
  split at hstep
  · obtain rfl := Option.some.inj hstep
    refine h.move ⟨rfl, rfl, rfl, rfl⟩ ?_ rfl
    simp only [held_eq, htaken .outside rfl, ← Multiset.cons_coe, Multiset.cons_add,
      Multiset.add_cons]
  · let s' := { s with calls := s.calls.set thread (.entering true) }
    have hheld : s.held = conn ::ₘ s'.held := by
      simp only [held_eq, s', htaken (.entering true) rfl, Multiset.add_cons]
    have same : SameCounters s s' := ⟨rfl, rfl, rfl, rfl⟩
    refine h.unref same ?_ ?_ (unref_of_outside hstep)
    · rw [refs, refs, hheld, Multiset.cons_add]
    · have := h.apart
      rw [hheld, Multiset.nodup_cons] at this
      exact this.2

theorem coe_erase {l : List Nat} (h : conn ∈ l) :
    (↑l : Multiset Nat) = conn ::ₘ ↑(l.erase conn) := by
  rw [← Multiset.coe_erase, Multiset.cons_erase (Multiset.mem_coe.mpr h)]

theorem held_erase (h : conn ∈ s.handed_out) :
    s.held = conn ::ₘ { s with handed_out := s.handed_out.erase conn }.held := by
  simp only [held_eq, coe_erase h, Multiset.cons_add, Multiset.add_cons]

theorem Accounted.releaseConnection (h : Accounted init_conns max_connections s)
    (hmem : conn ∈ s.handed_out) (hstep : { s with
      handed_out := s.handed_out.erase conn
      released := conn :: s.released }.releaseConnection conn woken = some t) :
    Accounted init_conns max_connections t := by
  unfold ConnectionSystem.releaseConnection at hstep
  obtain ⟨same, hheld, hreleased⟩ := signal_spec hstep
  have hheld' : t.held = s.held := by
    rw [hheld, held_erase hmem]
    simp only [held_eq, ← Multiset.cons_coe, Multiset.cons_add]
  have hrefs : conn ∈ s.refs := by
    rw [refs, held_erase hmem, Multiset.cons_add]
    exact Multiset.mem_cons_self _ _
  refine h.ref hrefs ?_ same.allocated same.num same.limit hheld' ?_
  · rw [same.refcnt]
    exact refcnt_update _ conn _
  · rw [hreleased]
    exact (Multiset.cons_coe _ _).symm

/-- Every step keeps the accounts. -/
theorem Accounted.step {e : ConnectionEvent} (h : Accounted init_conns max_connections s)
    (hstep : s.step e = some t) : Accounted init_conns max_connections t := by
  cases e with
  | call thread ping | spurious thread =>
    simp only [ConnectionSystem.step] at hstep
    split at hstep
    · rename_i hcall
      obtain rfl := Option.some.inj hstep
      refine h.move ⟨rfl, rfl, rfl, rfl⟩ ?_ rfl
      simp only [held_eq]
      rw [coe_taken_set hcall rfl rfl]
    · cases hstep
  | lock thread =>
    simp only [ConnectionSystem.step] at hstep
    split at hstep
    · rename_i hcall _
      obtain rfl := Option.some.inj hstep
      refine h.move ⟨rfl, rfl, rfl, rfl⟩ ?_ rfl
      simp only [held_eq]
      rw [coe_taken_set hcall rfl rfl]
    · cases hstep
  | pass thread now opened woken =>
    simp only [ConnectionSystem.step] at hstep
    split at hstep
    · rename_i hcall
      exact h.getConnection hcall hstep
    · cases hstep
  | pinged thread ok woken =>
    simp only [ConnectionSystem.step] at hstep
    split at hstep
    · rename_i hcall
      exact h.getConnectionPing hcall hstep
    · cases hstep
  | release conn woken =>
    simp only [ConnectionSystem.step] at hstep
    split at hstep
    · rename_i hcond
      exact h.releaseConnection hcond.1 hstep
    · cases hstep
  | drop conn woken =>
    simp only [ConnectionSystem.step] at hstep
    split at hstep
    · rename_i hmem
      have hheld := held_erase hmem
      have same : SameCounters s { s with handed_out := s.handed_out.erase conn } :=
        ⟨rfl, rfl, rfl, rfl⟩
      refine h.unref same ?_ ?_ (unref_of_outside hstep)
      · rw [refs, refs, hheld, Multiset.cons_add]
      · have := h.apart
        rw [hheld, Multiset.nodup_cons] at this
        exact this.2
    · cases hstep
  | dropReleased conn woken =>
    simp only [ConnectionSystem.step] at hstep
    split at hstep
    · rename_i hmem
      have same : SameCounters s { s with released := s.released.erase conn } :=
        ⟨rfl, rfl, rfl, rfl⟩
      refine h.unref same ?_ h.apart (unref_of_outside hstep)
      rw [refs, refs, coe_erase hmem, Multiset.add_cons]
      rfl
    · cases hstep
  | setMaxOldness max_oldness =>
    obtain rfl := Option.some.inj hstep
    exact h.move ⟨rfl, rfl, rfl, rfl⟩ rfl rfl

/-- The connections opened by the constructor are idle. -/
theorem accounted_start (max_oldness : Int) (threads : Nat) (created : Nat → Int) :
    Accounted init_conns max_connections
      (start init_conns max_connections max_oldness threads created) := by
  have hempty : ∀ threads : Nat,
      (List.replicate threads GetCall.outside).filterMap GetCall.taken = [] := by
    intro threads
    rw [filterMap_eq_nil_iff]
    intro call hcall
    rw [eq_of_mem_replicate hcall]
    rfl
  have hloop : ∀ n ≤ initialCount init_conns,
      let s := (List.range n).foldl (fun s i => s.initialConnection (created i))
        (empty max_connections max_oldness threads)
      Accounted init_conns max_connections s ∧ s.pool.num_connections = n := by
    intro n
    induction n with
    | zero =>
      intro _
      refine ⟨⟨?_, ?_, ?_, ?_, rfl, ?_⟩, rfl⟩
      · intro c
        simp [refs, held_eq, empty, hempty, refcnt]
      · simp [refs, held_eq, empty, hempty]
      · simp [held_eq, empty, hempty]
      · simp [refs, held_eq, empty, hempty, References.live]
      · exact le_max_of_le_left (Int.natCast_nonneg _)
    | succ n ih =>
      intro hn
      obtain ⟨hs, hnum⟩ := ih (Nat.le_of_succ_le hn)
      rw [range_succ, foldl_append]
      refine ⟨hs.create (created n) ?_ ⟨rfl, rfl, rfl, rfl⟩ ?_ rfl, ?_⟩
      · rw [hnum]
        exact le_max_of_le_left (Int.ofNat_le.mpr hn)
      · simp only [foldl_cons, foldl_nil, held_eq, initialConnection, newHold,
          ← Multiset.cons_coe, Multiset.cons_add]
      · change _ + 1 = _
        rw [hnum]
        rfl
  exact (hloop _ le_rfl).1

theorem Accounted.reachable (h : (machine init_conns max_connections).Reachable s) :
    Accounted init_conns max_connections s := by
  refine h.invariant (Accounted init_conns max_connections) ?_ fun _ _ _ hs => hs.step
  rintro s ⟨max_oldness, threads, created, rfl⟩
  exact accounted_start max_oldness threads created

/-- What the pool owes its users, when `out` are the connections handed out. -/
structure BalancedBy (out : ConnectionSystem → List Nat) (init_conns : Nat) (max_connections : Int)
    (s : ConnectionSystem) : Prop where
  counted : s.pool.num_connections = s.pool.connection_list.length + (out s).length
  bounded : s.pool.num_connections ≤ max (initialCount init_conns : Int) max_connections
  apart : (s.pool.connection_list ++ out s).Nodup

/-- The same with the connections that callers have released and still refer to. -/
structure Balanced (init_conns : Nat) (max_connections : Int) (s : ConnectionSystem) : Prop where
  counted : s.pool.num_connections =
    s.pool.connection_list.length + s.handedOut.length + s.lingering.card
  bounded : s.pool.num_connections ≤ max (initialCount init_conns : Int) max_connections
  apart : (s.pool.connection_list ++ s.handedOut).Nodup

/-- In every run, the counter is the number of connections idle, handed out or lingering. -/
theorem balanced_of_reachable (init_conns : Nat) (max_connections : Int) (s : ConnectionSystem)
    (h : (machine init_conns max_connections).Reachable s) :
    Balanced init_conns max_connections s := by
  have hs := Accounted.reachable h
  have hapart : (s.pool.connection_list ++ s.handedOut).Nodup := hs.apart
  refine ⟨?_, hs.bounded, hapart⟩
  have hlive : References.live s.refs =
      (s.pool.connection_list ++ s.handedOut).toFinset ∪ s.lingering := by
    ext c
    simp only [References.live, refs, held, lingering, Multiset.mem_toFinset, Multiset.mem_add,
      Multiset.mem_coe, Finset.mem_union, Finset.mem_sdiff, mem_toFinset, mem_append]
    tauto
  have hdisjoint : Disjoint (s.pool.connection_list ++ s.handedOut).toFinset s.lingering :=
    Finset.disjoint_sdiff
  rw [hs.alive, hlive, Finset.card_union_of_disjoint hdisjoint,
    toFinset_card_of_nodup hapart, length_append]
  push_cast
  rfl

/-- A connection that fails its ping, one that cannot be opened, and one handed out. -/
theorem balanced_of_reachable_failures :
    ∃ s, (machine 0 1).Reachable s ∧ s.handedOut = [1] ∧ Balanced 0 1 s := by
  let events : List ConnectionEvent := [.call 0 true, .lock 0, .pass 0 5 true none, .call 1 false,
    .lock 1, .pass 1 5 true none, .pinged 0 false (some 1), .lock 0, .pass 0 6 false none,
    .lock 1, .pass 1 7 true none]
  let s₀ := start 0 1 0 2 fun _ => 0
  let s := ((machine 0 1).execute s₀ events).get (by decide)
  have hs : (machine 0 1).Reachable s :=
    ⟨s₀, events, ⟨0, 2, fun _ => 0, rfl⟩, Machine.run_of_execute (Option.some_get _).symm⟩
  exact ⟨s, hs, by decide, balanced_of_reachable 0 1 s hs⟩

/-- A connection is released, and it is aged out before its caller gives up the reference:
it is counted, but neither idle nor handed out. If that caller still has it, then it is
idle and handed out before. -/
theorem not_balancedBy_agedOut :
    (¬ ∀ (init_conns : Nat) (max_connections : Int) (s : ConnectionSystem),
      (machine init_conns max_connections).Reachable s →
        BalancedBy handedOut init_conns max_connections s) ∧
    ¬ ∀ (init_conns : Nat) (max_connections : Int) (s : ConnectionSystem),
      (machine init_conns max_connections).Reachable s →
        BalancedBy (fun s => s.handedOut ++ s.released) init_conns max_connections s := by
  let released : List ConnectionEvent := [.call 0 false, .lock 0, .pass 0 5 true none,
    .release 0 none]
  let aged : List ConnectionEvent := [.setMaxOldness 1, .call 1 false, .lock 1, .pass 1 9 true none,
    .pass 1 9 false none]
  let s₀ := start 1 1023 0 2 fun _ => 0
  constructor
  · intro h
    let s := ((machine 1 1023).execute s₀ (released ++ aged)).get (by decide)
    have hs : (machine 1 1023).Reachable s :=
      ⟨s₀, released ++ aged, ⟨0, 2, fun _ => 0, rfl⟩,
        Machine.run_of_execute (Option.some_get _).symm⟩
    have hcounted := (h 1 1023 s hs).counted
    have hnum : s.pool.num_connections = 1 := by decide
    have hlist : s.pool.connection_list = [] := by decide
    have hout : s.handedOut = [] := by decide
    rw [hnum, hlist, hout] at hcounted
    cases hcounted
  · intro h
    let s := ((machine 1 1023).execute s₀ released).get (by decide)
    have hs : (machine 1 1023).Reachable s :=
      ⟨s₀, released, ⟨0, 2, fun _ => 0, rfl⟩, Machine.run_of_execute (Option.some_get _).symm⟩
    have hapart := (h 1 1023 s hs).apart
    have hboth : s.pool.connection_list ++ (s.handedOut ++ s.released) = [0, 0] := by decide
    rw [hboth] at hapart
    exact absurd hapart (by decide)

end ConnectionSystem

end Drt
