import Drt.Lib.ListUpdate
import Drt.Lib.Machine
import Drt.Lib.WordBits

/-!
# Pointer locks

`Lockp` keeps the state of a lock in the two low bits of the pointer it protects: 0 is
unlocked, 3 is locked, 1 is locked with a thread waiting. Words are shared by any number
of threads, and each access to one is a step. A thread that waits does so on one of 256
condition variables, chosen by the address of the word.
-/

namespace Drt

namespace Lockp

/-- The index in `low_conds` for a word. -/
def accCond (ptr : UInt64) : Nat :=
  let hash := ptr
  let hash := hash + hash >>> 32
  let hash := hash + hash >>> 16
  let hash := hash + hash >>> 8
  (hash % 256).toNat

/-- What is done with the pointer that `lock` returns: the caller gets it, or `xchg` goes on
and stores another one. -/
inductive Caller where
  | user
  | xchg (newval : UInt64)
  deriving DecidableEq, Repr

/-- Where a thread is. The `cond` of `lock` is `NULL` until it has locked the condition. -/
inductive Place where
  | outside
  /-- Before `i_lock` reads the word. -/
  | i_lock (ptr : UInt64) (caller : Caller)
  | i_lockCas (ptr val : UInt64) (caller : Caller)
  /-- Before `lock` reads the word, for its first try. -/
  | lock (ptr : UInt64) (caller : Caller)
  /-- At the label `retry`. -/
  | retry (ptr : UInt64) (cond : Bool) (caller : Caller)
  /-- Before the exchange that takes the lock. -/
  | lockCas (ptr val : UInt64) (cond : Bool) (caller : Caller)
  /-- Before the exchange that marks a waiting thread. -/
  | mark (ptr val : UInt64) (cond : Bool) (caller : Caller)
  /-- Before `accCond(ptr)->lock()`. -/
  | condLock (ptr val : UInt64) (caller : Caller)
  /-- Before the word is compared under the lock of the condition. -/
  | check (ptr val : UInt64) (caller : Caller)
  /-- Before `cond->wait()`. -/
  | wait (ptr : UInt64) (caller : Caller)
  /-- Blocked in `cond->wait()`. -/
  | waiting (ptr : UInt64) (caller : Caller)
  /-- Woken, before `wait` takes the lock of the condition again. -/
  | woken (ptr : UInt64) (caller : Caller)
  /-- Before `cond->unlock()`, with the lock of the word. -/
  | condUnlock (ptr val : UInt64) (caller : Caller)
  /-- Before `unlock` or `i_unlock` stores the pointer; `old` is what `xchg` will return. -/
  | unlock (ptr newval : UInt64) (old : Option UInt64)
  /-- In `p_wake`, before `cond->lock()`, `cond->signal()` and `cond->unlock()`. -/
  | wakeLock (ptr : UInt64)
  | wakeSignal (ptr : UInt64)
  | wakeUnlock (ptr : UInt64)
  /-- Before `i_xchg` or `xchg` reads the word. -/
  | i_xchg (ptr newval : UInt64)
  | i_xchgCas (ptr old newval : UInt64)
  | xchg (ptr newval : UInt64)
  | xchgCas (ptr old newval : UInt64)
  deriving DecidableEq, Repr

/-- A call of a user. -/
inductive Call where
  | lock (ptr : UInt64)
  | i_lock (ptr : UInt64)
  | unlock (ptr newval : UInt64)
  | i_unlock (ptr newval : UInt64)
  | xchg (ptr newval : UInt64)
  | i_xchg (ptr newval : UInt64)
  deriving DecidableEq, Repr

/-- A call that has had its effect, with the pointer it returns and the one it stores. -/
inductive Access where
  | locked (ptr val : UInt64)
  | unlocked (ptr newval : UInt64)
  | exchanged (ptr old newval : UInt64)
  deriving DecidableEq, Repr

/-- A thread, with the words it has locked. -/
structure Thread where
  place : Place
  held : List UInt64
  deriving DecidableEq, Repr

end Lockp

open Lockp TagBits

/-- The words in memory and the threads that lock them. -/
structure LockSystem where
  memory : UInt64 → UInt64
  /-- The thread that has locked each of `low_conds`. -/
  low_conds : Nat → Option Nat
  threads : List Lockp.Thread
  /-- The calls that have had their effect, in this order. -/
  log : List Access

namespace LockSystem

/-- The thread goes on at another place. -/
def goto (s : LockSystem) (thread : Nat) (t : Lockp.Thread) (place : Place) : LockSystem :=
  { s with threads := s.threads.set thread { t with place } }

/-- `Atomic::cmpxchg` writes the word. -/
def write (s : LockSystem) (ptr val : UInt64) : LockSystem :=
  { s with memory := Function.update s.memory ptr val }

def record (s : LockSystem) (access : Access) : LockSystem :=
  { s with log := s.log ++ [access] }

def setCond (s : LockSystem) (ptr : UInt64) (owner : Option Nat) : LockSystem :=
  { s with low_conds := Function.update s.low_conds (accCond ptr) owner }

/-- `lock` returns. -/
def returned (s : LockSystem) (thread : Nat) (t : Lockp.Thread) (ptr val : UInt64) :
    Caller → LockSystem
  | .user => (s.record (.locked ptr val)).goto thread t .outside
  | .xchg newval => s.goto thread t (.unlock ptr newval (some val))

/-- The exchange which takes the lock has been made. -/
def acquired (s : LockSystem) (thread : Nat) (t : Lockp.Thread) (ptr val : UInt64) (cond : Bool)
    (caller : Caller) : LockSystem :=
  let t := { t with held := ptr :: t.held }
  if cond then s.goto thread t (.condUnlock ptr val caller) else s.returned thread t ptr val caller

/-- What `unlock` has done when the pointer is stored. -/
def released (ptr newval : UInt64) : Option UInt64 → Access
  | none => .unlocked ptr newval
  | some old => .exchanged ptr old newval

/-- The next step of a thread, except for `signal` and the end of `wait`. -/
def advance (s : LockSystem) (thread : Nat) (t : Lockp.Thread) : Option LockSystem :=
  match t.place with
  | .outside => none
  | .i_lock ptr caller =>
    let val := s.memory ptr
    if val &&& 1 ≠ 0 then some (s.goto thread t (.lock ptr caller))
    else some (s.goto thread t (.i_lockCas ptr val caller))
  | .i_lockCas ptr val caller =>
    if s.memory ptr = val then
      some ((s.write ptr (val ||| 3)).acquired thread t ptr val false caller)
    else some (s.goto thread t (.lock ptr caller))
  | .lock ptr caller =>
    let val := s.memory ptr &&& ~~~1
    some (s.goto thread t (.lockCas ptr val false caller))
  | .retry ptr cond caller =>
    let val := s.memory ptr
    if val &&& 1 = 0 then some (s.goto thread t (.lockCas ptr val cond caller))
    else if val &&& 2 ≠ 0 then some (s.goto thread t (.mark ptr val cond caller))
    else if cond then some (s.goto thread t (.check ptr val caller))
    else some (s.goto thread t (.condLock ptr val caller))
  | .lockCas ptr val cond caller =>
    if s.memory ptr = val then
      some ((s.write ptr ((val &&& ~~~3) ||| (if cond then 1 else 3))).acquired thread t ptr val
        cond caller)
    else some (s.goto thread t (.retry ptr cond caller))
  | .mark ptr val cond caller =>
    if s.memory ptr = val then
      let s := s.write ptr (val - 2)
      if cond then some (s.goto thread t (.check ptr (val - 2) caller))
      else some (s.goto thread t (.condLock ptr (val - 2) caller))
    else some (s.goto thread t (.retry ptr cond caller))
  | .condLock ptr val caller =>
    if s.low_conds (accCond ptr) = none then
      some ((s.setCond ptr (some thread)).goto thread t (.check ptr val caller))
    else none
  | .check ptr val caller =>
    if s.memory ptr = val then some (s.goto thread t (.wait ptr caller))
    else some (s.goto thread t (.retry ptr true caller))
  | .wait ptr caller => some ((s.setCond ptr none).goto thread t (.waiting ptr caller))
  | .waiting _ _ => none
  | .woken ptr caller =>
    if s.low_conds (accCond ptr) = none then
      some ((s.setCond ptr (some thread)).goto thread t (.retry ptr true caller))
    else none
  | .condUnlock ptr val caller => some ((s.setCond ptr none).returned thread t ptr val caller)
  | .unlock ptr newval old =>
    let t := { t with held := t.held.erase ptr }
    let place : Place := if s.memory ptr &&& 2 = 0 then .wakeLock ptr else .outside
    some (((s.write ptr newval).record (released ptr newval old)).goto thread t place)
  | .wakeLock ptr =>
    if s.low_conds (accCond ptr) = none then
      some ((s.setCond ptr (some thread)).goto thread t (.wakeSignal ptr))
    else none
  | .wakeSignal _ => none
  | .wakeUnlock ptr => some ((s.setCond ptr none).goto thread t .outside)
  | .i_xchg ptr newval =>
    let old := s.memory ptr
    if old &&& 1 ≠ 0 then some (s.goto thread t (.xchg ptr newval))
    else some (s.goto thread t (.i_xchgCas ptr old newval))
  | .i_xchgCas ptr old newval =>
    if s.memory ptr = old then
      some (((s.write ptr newval).record (.exchanged ptr old newval)).goto thread t .outside)
    else some (s.goto thread t (.xchg ptr newval))
  | .xchg ptr newval =>
    let old := s.memory ptr
    if old &&& 1 ≠ 0 then some (s.goto thread t (.i_lock ptr (.xchg newval)))
    else some (s.goto thread t (.xchgCas ptr old newval))
  | .xchgCas ptr old newval =>
    if s.memory ptr = old then
      some (((s.write ptr newval).record (.exchanged ptr old newval)).goto thread t .outside)
    else some (s.goto thread t (.i_lock ptr (.xchg newval)))

/-- Where a call begins. A user unlocks what it has locked, and stores plain pointers. -/
def callPlace (held : List UInt64) : Lockp.Call → Option Place
  | .lock ptr => some (.lock ptr .user)
  | .i_lock ptr => some (.i_lock ptr .user)
  | .unlock ptr newval | .i_unlock ptr newval =>
    if ptr ∈ held ∧ Untagged newval then some (.unlock ptr newval none) else none
  | .xchg ptr newval => if Untagged newval then some (.xchg ptr newval) else none
  | .i_xchg ptr newval => if Untagged newval then some (.i_xchg ptr newval) else none

/-- The thread is blocked on the condition of this word. -/
def sleepsAt (ptr : UInt64) (t : Lockp.Thread) : Bool :=
  match t.place with
  | .waiting ptr' _ => accCond ptr' = accCond ptr
  | _ => false

/-- `cond->signal()` wakes one thread that is blocked on the condition, if there is any. -/
def signal (s : LockSystem) (ptr : UInt64) : Option Nat → Option LockSystem
  | none => if s.threads.any (sleepsAt ptr) then none else some s
  | some sleeper =>
    match s.threads[sleeper]? with
    | some ⟨.waiting ptr' caller, held⟩ =>
      if accCond ptr' = accCond ptr then
        some (s.goto sleeper ⟨.waiting ptr' caller, held⟩ (.woken ptr' caller))
      else none
    | _ => none

/-- Which thread moves, with the choices of its user and of the condition. -/
inductive Event where
  | call (thread : Nat) (call : Lockp.Call)
  | run (thread : Nat)
  | signal (thread : Nat) (sleeper : Option Nat)
  /-- `cond->wait()` ends without a signal. -/
  | spurious (thread : Nat)
  deriving DecidableEq, Repr

/-- The step of an event, if it can happen. -/
def step (s : LockSystem) : Event → Option LockSystem
  | .call thread call =>
    match s.threads[thread]? with
    | some ⟨.outside, held⟩ =>
      (callPlace held call).map fun place => s.goto thread ⟨.outside, held⟩ place
    | _ => none
  | .run thread =>
    match s.threads[thread]? with
    | some t => s.advance thread t
    | none => none
  | .signal thread sleeper =>
    match s.threads[thread]? with
    | some ⟨.wakeSignal ptr, held⟩ =>
      (s.goto thread ⟨.wakeSignal ptr, held⟩ (.wakeUnlock ptr)).signal ptr sleeper
    | _ => none
  | .spurious thread =>
    match s.threads[thread]? with
    | some ⟨.waiting ptr caller, held⟩ =>
      some (s.goto thread ⟨.waiting ptr caller, held⟩ (.woken ptr caller))
    | _ => none

/-- Plain words, all unlocked, and threads which have not called anything yet. -/
def start (memory : UInt64 → UInt64) (threads : Nat) : LockSystem where
  memory := memory
  low_conds := fun _ => none
  threads := List.replicate threads ⟨.outside, []⟩
  log := []

/-- The runs over plain words with this contents. -/
def machine (memory : UInt64 → UInt64) : Machine LockSystem Event where
  init s := (∀ ptr, Untagged (memory ptr)) ∧ ∃ threads, s = start memory threads
  step s e := s.step e

end LockSystem

end Drt
