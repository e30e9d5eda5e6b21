import Drt.Lib.ListUpdate
import Drt.Lib.Machine
import Drt.Lib.References

/-!
# The connection pool

Idle connections are on a list, newest first; `num_connections` counts the objects
between the constructor and the destructor of `ConnectionHoldPool`. The destructor runs
with the last reference and takes the recursive `list_mutex`. Nobody can look at an
object without a reference, so its last reference is counted until that lock is taken.
-/

namespace Drt

/-- The fields of `ConnectionPool` which decide whether a connection is handed out. -/
structure ConnectionPool where
  max_oldness : Int
  max_connections : Int
  num_connections : Int
  /-- The objects on the list, from `iterFirst` on. -/
  connection_list : List Nat
  deriving DecidableEq, Repr

/-- A connection of the pool, with its reference counter. -/
structure ConnectionHoldPool where
  created : Int
  refcnt : Nat
  deriving DecidableEq, Repr

/-- Where a thread is; `ping` says that `getConnection` is called by `getConnectionPing`. -/
inductive GetCall where
  | outside
  /-- Before the lock, or woken in `wait` and about to take it again. -/
  | entering (ping : Bool)
  /-- In the loop, with the lock. -/
  | looping (ping : Bool)
  | waiting (ping : Bool)
  /-- In `conn->ping()`, or in the `unref` after it. -/
  | pinging (conn : Nat)
  deriving DecidableEq, Repr

/-- The connection a call has taken and not returned yet. -/
def GetCall.taken : GetCall → Option Nat
  | .pinging conn => some conn
  | _ => none

def GetCall.isWaiting : GetCall → Bool
  | .waiting _ => true
  | _ => false

/-- The pool with the threads around it. -/
structure ConnectionSystem where
  pool : ConnectionPool
  holds : Nat → ConnectionHoldPool
  /-- The number of objects created so far. -/
  allocated : Nat
  calls : List GetCall
  /-- The thread in the loop of `getConnection`. -/
  list_mutex : Option Nat
  /-- The connections returned to callers and not passed to `releaseConnection` yet. -/
  handed_out : List Nat
  /-- The references that callers still have to what they have released. -/
  released : List Nat

namespace ConnectionSystem

/-- `list_mutex->signal()` wakes one waiting thread, if there is any. -/
def signal (s : ConnectionSystem) : Option Nat → Option ConnectionSystem
  | some thread =>
    match s.calls[thread]? with
    | some (.waiting ping) => some { s with calls := s.calls.set thread (.entering ping) }
    | _ => none
  | none => if s.calls.any GetCall.isWaiting then none else some s

/-- `new ConnectionHoldPool(this, …)`. -/
def newHold (s : ConnectionSystem) (now : Int) : ConnectionSystem :=
  { s with
    pool := { s.pool with num_connections := s.pool.num_connections + 1 }
    holds := Function.update s.holds s.allocated ⟨now, 1⟩
    allocated := s.allocated + 1 }

def destroyingConnection (s : ConnectionSystem) (woken : Option Nat) : Option ConnectionSystem :=
  { s with
    pool := { s.pool with num_connections := s.pool.num_connections - 1 } }.signal woken

/-- `unref` of a connection, with the lock if it is the last one. -/
def unref (s : ConnectionSystem) (conn : Nat) (woken : Option Nat) : Option ConnectionSystem :=
  let hold := { s.holds conn with refcnt := (s.holds conn).refcnt - 1 }
  let s := { s with holds := Function.update s.holds conn hold }
  if hold.refcnt = 0 then s.destroyingConnection woken else some s

/-- `unref` by a thread without the lock. -/
def unrefOutside (s : ConnectionSystem) (conn : Nat) (woken : Option Nat) : Option ConnectionSystem :=
  if (s.holds conn).refcnt = 1 ∧ s.list_mutex.isSome then none else s.unref conn woken

/-- `releaseConnection`: the list gets a reference of its own. -/
def releaseConnection (s : ConnectionSystem) (conn : Nat) (woken : Option Nat) : Option ConnectionSystem :=
  { s with
    pool := { s.pool with connection_list := conn :: s.pool.connection_list }
    holds := Function.update s.holds conn
      { s.holds conn with refcnt := (s.holds conn).refcnt + 1 } }.signal woken

/-- The thread leaves `getConnection` with a connection. -/
def leave (s : ConnectionSystem) (thread : Nat) (ping : Bool) (conn : Nat) : ConnectionSystem :=
  { s with
    list_mutex := none
    calls := s.calls.set thread (if ping then .pinging conn else .outside)
    handed_out := if ping then s.handed_out else conn :: s.handed_out }

/-- One pass of the loop of `getConnection`; `opened` says whether `openConnection`
succeeds, and otherwise its exception leaves the function. -/
def getConnection (s : ConnectionSystem) (thread : Nat) (ping : Bool) (now : Int) (opened : Bool)
    (woken : Option Nat) : Option ConnectionSystem :=
  match s.pool.connection_list with
  | n :: rest =>
    let removed := { s with pool := { s.pool with connection_list := rest } }
    if s.pool.max_oldness > 0 ∧ (s.holds n).created + s.pool.max_oldness < now then
      removed.unref n woken
    else some (removed.leave thread ping n)
  | [] =>
    if s.pool.num_connections ≥ s.pool.max_connections then
      some { s with list_mutex := none, calls := s.calls.set thread (.waiting ping) }
    else if opened then some ((s.newHold now).leave thread ping s.allocated)
    else some { s with list_mutex := none, calls := s.calls.set thread .outside }

/-- The thread goes on after `conn->ping()`. -/
def getConnectionPing (s : ConnectionSystem) (thread conn : Nat) (ok : Bool) (woken : Option Nat) :
    Option ConnectionSystem :=
  if ok then
    some { s with
      calls := s.calls.set thread .outside
      handed_out := conn :: s.handed_out }
  else { s with calls := s.calls.set thread (.entering true) }.unrefOutside conn woken

/-- One pass of the loop in the constructor: the list keeps the only reference. -/
def initialConnection (s : ConnectionSystem) (now : Int) : ConnectionSystem :=
  let s' := s.newHold now
  { s' with pool := { s'.pool with connection_list := s.allocated :: s'.pool.connection_list } }

/-- The number of connections the constructor opens. -/
def initialCount (init_conns : Nat) : Nat := if init_conns = 0 then 1 else init_conns

/-- `ConnectionPool(connect_str, init_conns)`, before its first connection. -/
def empty (max_connections max_oldness : Int) (threads : Nat) : ConnectionSystem where
  pool := ⟨max_oldness, max_connections, 0, []⟩
  holds := fun _ => ⟨0, 0⟩
  allocated := 0
  calls := List.replicate threads .outside
  list_mutex := none
  handed_out := []
  released := []

/-- The pool at the end of its constructor; `created` are the times it looks at. -/
def start (init_conns : Nat) (max_connections max_oldness : Int) (threads : Nat)
    (created : Nat → Int) : ConnectionSystem :=
  (List.range (initialCount init_conns)).foldl (fun s i => s.initialConnection (created i))
    (empty max_connections max_oldness threads)

/-- Which thread moves, with what it is told by the clock, the database and `signal`. -/
inductive ConnectionEvent where
  | call (thread : Nat) (ping : Bool)
  | lock (thread : Nat)
  | pass (thread : Nat) (now : Int) (opened : Bool) (woken : Option Nat)
  /-- `wait` ends without a signal. -/
  | spurious (thread : Nat)
  | pinged (thread : Nat) (ok : Bool) (woken : Option Nat)
  | release (conn : Nat) (woken : Option Nat)
  /-- A caller gives up a connection it has not released. -/
  | drop (conn : Nat) (woken : Option Nat)
  /-- A caller gives up the reference it has kept to a connection it has released. -/
  | dropReleased (conn : Nat) (woken : Option Nat)
  | setMaxOldness (max_oldness : Int)
  deriving DecidableEq, Repr

/-- The step of an event, if it can happen. -/
def step (s : ConnectionSystem) : ConnectionEvent → Option ConnectionSystem
  | .call thread ping =>
    match s.calls[thread]? with
    | some .outside => some { s with calls := s.calls.set thread (.entering ping) }
    | _ => none
  | .lock thread =>
    match s.calls[thread]?, s.list_mutex with
    | some (.entering ping), none =>
      some { s with list_mutex := some thread, calls := s.calls.set thread (.looping ping) }
    | _, _ => none
  | .pass thread now opened woken =>
    match s.calls[thread]? with
    | some (.looping ping) => s.getConnection thread ping now opened woken
    | _ => none
  | .spurious thread =>
    match s.calls[thread]? with
    | some (.waiting ping) => some { s with calls := s.calls.set thread (.entering ping) }
    | _ => none
  | .pinged thread ok woken =>
    match s.calls[thread]? with
    | some (.pinging conn) => s.getConnectionPing thread conn ok woken
    | _ => none
  | .release conn woken =>
    if conn ∈ s.handed_out ∧ s.list_mutex = none then
      { s with
        handed_out := s.handed_out.erase conn
        released := conn :: s.released }.releaseConnection conn woken
    else none
  | .drop conn woken =>
    if conn ∈ s.handed_out then
      { s with handed_out := s.handed_out.erase conn }.unrefOutside conn woken
    else none
  | .dropReleased conn woken =>
    if conn ∈ s.released then
      { s with released := s.released.erase conn }.unrefOutside conn woken
    else none
  | .setMaxOldness max_oldness => some { s with pool := { s.pool with max_oldness := max_oldness } }

/-- The runs of a pool with any number of threads. -/
def machine (init_conns : Nat) (max_connections : Int) : Machine ConnectionSystem ConnectionEvent where
  init s := ∃ max_oldness threads created,
    s = start init_conns max_connections max_oldness threads created
  step s e := s.step e

end ConnectionSystem

end Drt
