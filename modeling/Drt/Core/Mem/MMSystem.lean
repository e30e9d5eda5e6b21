import Drt.Core.Mem.MMDefaultFailure
import Drt.Lib.Machine
import Drt.Lib.Memory
import Drt.Lib.Places

/-!
# Threads in the default memory manager

The calls of `MM_default` by any number of threads, with the octets that they read and write: the
link in front of each free block, the size in front of each allocated one, and what the program
writes into its blocks. The threads come between one another at each access to a list of the
instance; what is done between `i_lock` and `i_unlock` is done with the latter, since nobody else
looks at these blocks. `impl_regrow` is a call of `impl_alloc`, writes of the program and a call of
`impl_free`. The debugging options are off, apart from `MMD_THREAD`.
-/

namespace Drt

/-- A pointer that the program got, and the size it asked for. -/
abbrev Pointer := Nat × UInt64

/-- Where a thread is. -/
inductive MMPc where
  | outside
  /-- At the beginning of `impl_alloc`. -/
  | impl_alloc (size_ : UInt64)
  /-- Before `::malloc` of a large block. -/
  | large (size_ : UInt64)
  /-- Before the test of `*queue`. -/
  | look (size_ : UInt64) (q : FreeList)
  /-- At `go_alloc`. -/
  | go_alloc (size_ : UInt64) (q : FreeList)
  /-- Before `i_lock(queue)`, perhaps with a chunk and the remainder of it. -/
  | lock (size_ : UInt64) (q : FreeList) (add : Option (Nat × Block))
  /-- Before `i_unlock(queue, …)`, where `i_lock` returned `out`. -/
  | locked (size_ : UInt64) (q : FreeList) (add : Option (Nat × Block)) (out : Nat)
  /-- Before `::free(add)`. -/
  | giveBack (size_ : UInt64) (q : FreeList) (add out : Nat)
  /-- Before the remainder is put on a list. -/
  | remain (size_ : UInt64) (r : Block) (out : Nat)
  | remainLocked (size_ : UInt64) (q : FreeList) (r : Block) (prev out : Nat)
  | has_out (size_ : UInt64) (out : Nat)
  /-- At the beginning of `impl_free`. -/
  | impl_free (m : Nat)
  | freeLocked (m : Nat) (q : FreeList) (prev : Nat)
  /-- In `impl_closingThread`, before these lists. -/
  | closing (qs : List FreeList)
  | closingLocked (q : FreeList) (prev : Nat) (qs : List FreeList)
  /-- Memory was touched that `::malloc` did not give, or an assertion failed. -/
  | fault
  deriving DecidableEq, Repr

/-- The lists of a thread with their first and last block, and where the thread is. -/
structure MMThread where
  thr_queue : FreeList → Nat × Nat
  pc : MMPc

/-- Memory, and the chunks that `::malloc` gave. -/
structure MMHeap where
  memory : Memory
  chunks : List Block

/-- The lists of the instance, the threads, and what the program may use. A list that is locked has
no value. -/
structure MMSystem extends MMHeap where
  queue : FreeList → Option Nat
  threads : Nat → MMThread
  live : List Pointer

/-- What happens. -/
inductive MMEvent where
  | alloc (thread : Nat) (size_ : UInt64)
  | free (thread : Nat) (m : Pointer)
  | closingThread (thread : Nat)
  /-- The program writes into a block. -/
  | write (m : Pointer) (i : Nat) (v : UInt8)
  /-- The thread goes on, and `::malloc` returns `add` if it is called. -/
  | next (thread : Nat) (add : Option Nat)
  deriving DecidableEq, Repr

/-- The lists in the order of `impl_closingThread`. -/
def FreeList.all : List FreeList :=
  .ptr :: ((List.finRange 8).map .small ++ (List.finRange 6).map .bigger)

theorem FreeList.mem_all : ∀ q : FreeList, q ∈ FreeList.all := by decide

namespace MMSystem

variable (s : MMSystem) (t : Nat)

/-- The octets are in a chunk. -/
def Covers (a n : Nat) : Prop := ∃ c ∈ s.chunks, c.addr ≤ a ∧ a + n ≤ c.addr + c.size

instance (a n : Nat) : Decidable (s.Covers a n) :=
  inferInstanceAs (Decidable (∃ c ∈ s.chunks, _))

/-- A word is read. -/
def load (a : Nat) : Option Nat := if s.Covers a 8 then some (s.memory.loadWord a) else none

/-- A word is written. -/
def store (a v : Nat) : Option MMSystem :=
  if s.Covers a 8 then some { s with memory := s.memory.storeWord a v } else none

/-- `::malloc` may give this: memory of the program that it did not give yet. -/
def Gives (n : Nat) : Option Nat → Prop
  | none => True
  | some add => 0 < add ∧ add + n ≤ 2 ^ 63 ∧
      ∀ c ∈ s.chunks, c.addr + c.size ≤ add ∨ add + n ≤ c.addr

instance (n : Nat) : (add : Option Nat) → Decidable (s.Gives n add)
  | none => isTrue trivial
  | some _ => @instDecidableAnd _ _ _ (@instDecidableAnd _ _ _ (List.decidableBAll _ _))

/-- `::malloc` has given it. -/
def obtain (n : Nat) : Option Nat → MMSystem
  | none => s
  | some add => { s with chunks := ⟨add, n⟩ :: s.chunks }

/-- `::free`. -/
def release (add : Nat) : Option MMSystem :=
  if ∃ c ∈ s.chunks, c.addr = add then
    some { s with chunks := s.chunks.filter (·.addr ≠ add) }
  else none

/-- The thread is now there. -/
def goto (pc : MMPc) : MMSystem :=
  { s with threads := Function.update s.threads t { s.threads t with pc } }

/-- A list of the instance is now locked, or has this value. -/
def setQueue (q : FreeList) (v : Option Nat) : MMSystem :=
  { s with queue := Function.update s.queue q v }

/-- A list of the thread has these ends. -/
def setThrQueue (q : FreeList) (v : Nat × Nat) : MMSystem :=
  { s with
    threads := Function.update s.threads t
      { s.threads t with thr_queue := Function.update (s.threads t).thr_queue q v } }

/-- What cannot be done is a fault. -/
def settle (r : Option MMSystem) : MMSystem := r.getD (s.goto t .fault)

/-- `Lockp::i_lock`. -/
def i_lock (q : FreeList) (k : Nat → MMPc) : Option MMSystem :=
  (s.queue q).map fun prev => (s.setQueue q none).goto t (k prev)

/-- The loop over a chunk: each block is linked to the next one, and the last to nothing. -/
def carveLinks (q : FreeList) (cur fin : Nat) (s : MMSystem) : Option (MMSystem × Block) :=
  let next := cur + q.size
  if next ≤ fin then (s.store cur next).bind (carveLinks q next fin)
  else (s.store (cur - q.size) 0).map fun s => (s, ⟨cur, fin - cur⟩)
termination_by fin - cur
decreasing_by
  have := q.size_pos
  omega

/-- `impl_alloc` from the beginning to the choice of a list, with a block of the thread's own list
if there is one. -/
def implAlloc (thread : Bool) (size_ : UInt64) : MMSystem :=
  let size := size_ + 8
  if 1024 < size then s.goto t (.large size_)
  else
    let q := allocList size
    if thread then
      let queue := (s.threads t).thr_queue q
      if queue.1 ≠ 0 then
        s.settle t ((s.load queue.1).map fun next =>
          (s.setThrQueue t q (next, queue.2)).goto t (.has_out size_ queue.1))
      else s.goto t (.look size_ (allocList (.ofNat q.size)))
    else s.goto t (.look size_ q)

/-- A large block. What is tested is the pointer behind the alignment. -/
def takeLarge (size_ : UInt64) (add : Option Nat) : MMSystem :=
  let out := add.getD 0 + 16 - 8
  if out = 0 then s.goto t .outside
  else (s.obtain (size_ + 8 + 16).toNat add).goto t (.has_out size_ out)

/-- From `go_alloc` to the end of the loop; without a chunk an exception is thrown. -/
def goAlloc (size_ : UInt64) (q : FreeList) : Option Nat → MMSystem
  | none => s.goto t .outside
  | some add =>
    s.settle t ((carveLinks q (add + 8) (add + q.alloc) (s.obtain q.alloc (some add))).map
      fun r => r.1.goto t (.lock size_ q (some (add, r.2))))

/-- With the list locked: a block of it, or of the chunk, or none. -/
def takeOut (size_ : UInt64) (q : FreeList) (add : Option (Nat × Block)) (out : Nat) : MMSystem :=
  match out, add with
  | 0, none => (s.setQueue q (some 0)).goto t (.go_alloc size_ q)
  | 0, some (add, r) => s.settle t ((s.load (add + 8)).map fun next =>
      (s.setQueue q (some next)).goto t (.remain size_ r (add + 8)))
  | out + 1, none => s.settle t ((s.load (out + 1)).map fun next =>
      (s.setQueue q (some next)).goto t (.has_out size_ (out + 1)))
  | out + 1, some (add, _) => s.settle t ((s.load (out + 1)).map fun next =>
      (s.setQueue q (some next)).goto t (.giveBack size_ q add (out + 1)))

/-- The link of the last of some free blocks is set, and the list starts with the first. -/
def i_unlockTo (q : FreeList) (first last prev : Nat) (k : MMSystem → MMSystem) : MMSystem :=
  s.settle t ((s.store last prev).map fun s => k (s.setQueue q (some first)))

/-- The size is written in front of the block, and the program gets it. -/
def hasOut (size_ : UInt64) (out : Nat) : MMSystem :=
  s.settle t ((s.store out size_.toNat).map fun s =>
    { s.goto t .outside with live := (out + 8, size_) :: s.live })

/-- `impl_free` up to `i_lock`: a large block is given back, and a thread's own list is not
locked. -/
def implFree (thread : Bool) (m : Nat) : Option MMSystem :=
  match s.load (m - 8) with
  | none => some (s.goto t .fault)
  | some size_ =>
    let size := UInt64.ofNat size_ + 8
    if 1024 < size then
      some (s.settle t ((s.release (m - 8 + 8 - 16)).map fun s => s.goto t .outside))
    else
      let q := freeList size
      if thread then
        let queue := (s.threads t).thr_queue q
        let last := if queue.1 = 0 then m - 8 else queue.2
        some (s.settle t ((s.store (m - 8) queue.1).map fun s =>
          (s.setThrQueue t q (m - 8, last)).goto t .outside))
      else s.i_lock t q fun prev => .freeLocked m q prev

/-- `insertGlobalCache` of the next list, up to `i_lock`. -/
def closing : List FreeList → Option MMSystem
  | [] => some (s.goto t .outside)
  | q :: qs =>
    let queue := (s.threads t).thr_queue q
    if queue.1 ≠ 0 then s.i_lock t q fun prev => .closingLocked q prev qs
    else some ((s.setThrQueue t q (0, queue.2)).goto t (.closing qs))

/-- What a thread does next, if it does not wait for a lock. -/
def next (thread : Bool) (add : Option Nat) : MMPc → Option MMSystem
  | .outside | .fault => none
  | .impl_alloc size_ => some (s.implAlloc t thread size_)
  | .large size_ =>
    if s.Gives (size_ + 8 + 16).toNat add then some (s.takeLarge t size_ add) else none
  | .look size_ q =>
    some (s.goto t (if s.queue q = some 0 then .go_alloc size_ q else .lock size_ q none))
  | .go_alloc size_ q => if s.Gives q.alloc add then some (s.goAlloc t size_ q add) else none
  | .lock size_ q add => s.i_lock t q fun out => .locked size_ q add out
  | .locked size_ q add out => some (s.takeOut t size_ q add out)
  | .giveBack size_ _ add out =>
    some (s.settle t ((s.release add).map fun s => s.goto t (.has_out size_ out)))
  | .remain size_ r out =>
    if r.size = 0 then some (s.goto t (.has_out size_ out))
    else
      match remainList r.size with
      | none => some (s.goto t .fault)
      | some q => s.i_lock t q fun prev => .remainLocked size_ q r prev out
  | .remainLocked size_ q r prev out =>
    some (s.i_unlockTo t q r.addr r.addr prev fun s => s.goto t (.has_out size_ out))
  | .has_out size_ out => some (s.hasOut t size_ out)
  | .impl_free m => s.implFree t thread m
  | .freeLocked m q prev =>
    some (s.i_unlockTo t q (m - 8) (m - 8) prev fun s => s.goto t .outside)
  | .closing qs => s.closing t qs
  | .closingLocked q prev qs =>
    let queue := (s.threads t).thr_queue q
    some (s.i_unlockTo t q queue.1 queue.2 prev fun s =>
      (s.setThrQueue t q (0, queue.2)).goto t (.closing qs))

/-- One step. The program passes pointers that it got and did not give back. -/
def step (thread : Bool) (s : MMSystem) : MMEvent → Option MMSystem
  | .alloc t size_ =>
    if (s.threads t).pc = .outside then some (s.goto t (.impl_alloc size_)) else none
  | .free t m =>
    if (s.threads t).pc = .outside ∧ m ∈ s.live then
      some ({ s with live := s.live.erase m }.goto t (.impl_free m.1))
    else none
  | .closingThread t =>
    if (s.threads t).pc = .outside then some (s.goto t (.closing FreeList.all)) else none
  | .write m i v =>
    if m ∈ s.live ∧ i < m.2.toNat then
      some { s with memory := s.memory.store (m.1 + i) [v] }
    else none
  | .next t add => s.next t thread add (s.threads t).pc

end MMSystem

/-- The thread asks `::malloc` for a large block. -/
def MMPc.asksLarge : MMPc → Bool
  | .large _ => true
  | _ => false

/-- A request whose size does not wrap, and no failure of `::malloc` for a large block. -/
def MMSystem.Ordinary (s : MMSystem) : MMEvent → Prop
  | .alloc _ size_ => size_.toNat + 24 < 2 ^ 64
  | .next t none => (s.threads t).pc.asksLarge = false
  | _ => True

instance (s : MMSystem) (e : MMEvent) : Decidable (s.Ordinary e) := by
  unfold MMSystem.Ordinary
  split <;> infer_instance

end Drt
