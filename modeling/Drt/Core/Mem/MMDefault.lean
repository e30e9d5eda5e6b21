import Drt.Lib.Outcome
import Mathlib.Tactic.Ring

/-!
# The default memory manager

`MM_default` keeps lists of free blocks of fifteen sizes, cuts new blocks of these sizes from
chunks of `malloc`, and leaves greater ones to `malloc` itself. The size of a request is written in
front of the block. The numbers are those of a host with pointers of eight octets. What the
debugging options print and remember is left out.
-/

namespace Drt

/-- What is thrown when memory runs out: `MemException_instance`, whatever the size. -/
inductive MemException where
  | memException_instance
  deriving DecidableEq, Repr

/-- The flags of `debug_options`. -/
structure MMOptions where
  /-- `MMD_THREAD`. -/
  thread : Bool
  /-- `MMD_BOUND`. -/
  bound : Bool
  /-- One of the others. -/
  debug : Bool
  deriving DecidableEq, Repr

/-- The lists: `alsmall_ptr`, `alsmall_small` and `alsmall_bigger`, of the instance or of a
thread. -/
inductive FreeList where
  | ptr
  | small (i : Fin 8)
  | bigger (i : Fin 6)
  deriving DecidableEq, Repr

namespace FreeList

/-- The size of the blocks of a list. -/
def size : FreeList → Nat
  | ptr => 8
  | small i => 16 * (i + 1)
  | bigger i => [192, 256, 384, 512, 768, 1024].get i

/-- The size of the chunks they are cut from: `alloc`. -/
def alloc : FreeList → Nat
  | ptr => 512 - 4 * 8
  | small _ => 1024 - 4 * 8
  | bigger _ => 4096 - 4 * 8

/-- What can be decided of a list can be decided of all. -/
instance decidableForall {p : FreeList → Prop} [DecidablePred p] : Decidable (∀ q, p q) :=
  decidable_of_iff (p ptr ∧ (∀ i, p (small i)) ∧ ∀ i, p (bigger i))
    ⟨fun ⟨hptr, hsmall, hbigger⟩ q => q.casesOn hptr hsmall hbigger,
      fun h => ⟨h ptr, fun i => h (small i), fun i => h (bigger i)⟩⟩

theorem size_pos : ∀ q : FreeList, 0 < q.size := by decide

theorem size_le : ∀ q : FreeList, q.size ≤ 4096 := by decide

end FreeList

/-- Memory at an address. -/
structure Block where
  addr : Nat
  size : Nat
  deriving DecidableEq, Repr

/-- A block is large enough for the list, and is a part of a chunk. -/
def FreeList.Fits (q : FreeList) (b : Block) : Prop := q.size ≤ b.size ∧ b.size ≤ 4096

instance (q : FreeList) (b : Block) : Decidable (q.Fits b) :=
  inferInstanceAs (Decidable (_ ∧ _))

/-- The blocks that a list may hold. -/
abbrev Room (q : FreeList) := { b : Block // q.Fits b }

/-- The lists and the counter. -/
structure MMDefault where
  queue (q : FreeList) : List (Room q)
  /-- `thr_alsmall_ptr1`, `thr_alsmall_small` and `thr_alsmall_bigger` of each thread. -/
  thr_queue (thread : Nat) (q : FreeList) : List (Room q)
  debug_current_seq : Nat

/-- `(size+DR_ALIGN_ALLOC-1)&~(DR_ALIGN_ALLOC-1)`. -/
def alignAlloc (size : UInt64) : UInt64 := (size + 15) &&& ~~~15

/-- It rounds up to a multiple of 16, if that is less than `2 ^ 64`. -/
theorem alignAlloc_toNat (size : UInt64) :
    (alignAlloc size).toNat = (size.toNat + 15) % 2 ^ 64 / 16 * 16 := by
  have hclear (x : BitVec 64) : x &&& ~~~15#64 = (x >>> 4) <<< 4 := by
    ext i hi
    have hmask : (15#64)[i] = decide (i < 4) := Nat.testBit_two_pow_sub_one 4 i
    rw [BitVec.getElem_and, BitVec.getElem_not, hmask, BitVec.getElem_shiftLeft]
    by_cases hlow : i < 4
    · simp [hlow]
    · have hshift : 4 + (i - 4) = i := Nat.add_sub_cancel' (Nat.le_of_not_lt hlow)
      simp [hlow, BitVec.getElem_ushiftRight, hshift, BitVec.getLsbD_eq_getElem hi]
  have hbits : (alignAlloc size).toBitVec = ((size + 15).toBitVec >>> 4) <<< 4 := hclear _
  rw [← UInt64.toNat_toBitVec, hbits, BitVec.toNat_shiftLeft, BitVec.toNat_ushiftRight]
  simp only [UInt64.toBitVec_add, UInt64.toNat_toBitVec, BitVec.toNat_add, Nat.shiftLeft_eq,
    Nat.shiftRight_eq_div_pow]
  have hsize := size.toNat_lt
  change ((size.toNat + 15) % 2 ^ 64 / 2 ^ 4 * 2 ^ 4) % 2 ^ 64 = _
  omega

/-- The size of the block for a request: with the word for the size, and the guards if there are
any. -/
def blockSize (o : MMOptions) (size_ : UInt64) : UInt64 :=
  let size := size_ + 8
  if o.bound then alignAlloc size + 64 else size

/-- The size that is required. -/
def requiredSize (o : MMOptions) (size_ : UInt64) : Nat :=
  let size := size_.toNat + 8
  if o.bound then (size + 15) / 16 * 16 + 64 else size

theorem blockSize_toNat (o : MMOptions) (size_ : UInt64) :
    (blockSize o size_).toNat = requiredSize o size_ % 2 ^ 64 := by
  unfold blockSize requiredSize
  dsimp only
  by_cases hbound : o.bound = true
  · rw [if_pos hbound, if_pos hbound, UInt64.toNat_add, alignAlloc_toNat, UInt64.toNat_add]
    change (((size_.toNat + 8) % 2 ^ 64 + 15) % 2 ^ 64 / 16 * 16 + 64) % 2 ^ 64 = _
    omega
  · rw [if_neg hbound, if_neg hbound, UInt64.toNat_add]
    rfl

/-- The choice of `alsmall_bigger`. -/
def biggerList (size : UInt64) : FreeList :=
  if size ≤ 192 then .bigger 0
  else if size ≤ 256 then .bigger 1
  else if size ≤ 384 then .bigger 2
  else if size ≤ 512 then .bigger 3
  else if size ≤ 768 then .bigger 4
  else .bigger 5

/-- The list of `impl_alloc` for a size. -/
def allocList (size : UInt64) : FreeList :=
  if size ≤ 8 then .ptr
  else if h : (size.toNat - 1) / 16 < 8 then .small ⟨(size.toNat - 1) / 16, h⟩
  else biggerList (alignAlloc size)

/-- The list of `impl_free`. -/
def freeList (size : UInt64) : FreeList :=
  if size ≤ 8 then .ptr
  else if h : (size.toNat - 1) / 16 < 8 then .small ⟨(size.toNat - 1) / 16, h⟩
  else biggerList size

theorem allocList_size : ∀ q : FreeList, allocList (.ofNat q.size) = q := by decide

variable {size : UInt64}

section

variable (h : size ≤ 1024)
include h

/-- Up to 1024, rounding keeps a size below a bound that is a multiple of 16. -/
theorem alignAlloc_le_iff {k : UInt64} (hk : k.toNat % 16 = 0) :
    alignAlloc size ≤ k ↔ size ≤ k := by
  rw [UInt64.le_iff_toNat_le] at h
  change size.toNat ≤ 1024 at h
  rw [UInt64.le_iff_toNat_le, UInt64.le_iff_toNat_le, alignAlloc_toNat]
  omega

theorem biggerList_alignAlloc : biggerList (alignAlloc size) = biggerList size := by
  unfold biggerList
  simp only [alignAlloc_le_iff h (show (192 : UInt64).toNat % 16 = 0 from rfl),
    alignAlloc_le_iff h (show (256 : UInt64).toNat % 16 = 0 from rfl),
    alignAlloc_le_iff h (show (384 : UInt64).toNat % 16 = 0 from rfl),
    alignAlloc_le_iff h (show (512 : UInt64).toNat % 16 = 0 from rfl),
    alignAlloc_le_iff h (show (768 : UInt64).toNat % 16 = 0 from rfl)]

theorem le_size_biggerList : size.toNat ≤ (biggerList size).size := by
  rw [UInt64.le_iff_toNat_le] at h
  unfold biggerList
  split_ifs with h192 h256 h384 h512 h768
  · exact UInt64.le_iff_toNat_le.mp h192
  · exact UInt64.le_iff_toNat_le.mp h256
  · exact UInt64.le_iff_toNat_le.mp h384
  · exact UInt64.le_iff_toNat_le.mp h512
  · exact UInt64.le_iff_toNat_le.mp h768
  · exact h

theorem freeList_eq_allocList : freeList size = allocList size := by
  unfold freeList allocList
  rw [biggerList_alignAlloc h]

theorem le_size_allocList : size.toNat ≤ (allocList size).size := by
  unfold allocList
  split_ifs with hptr hsmall
  · exact UInt64.le_iff_toNat_le.mp hptr
  · change size.toNat ≤ 16 * ((size.toNat - 1) / 16 + 1)
    omega
  · rw [biggerList_alignAlloc h]
    exact le_size_biggerList h

end

/-- The list for what is left of a chunk; `none` is `DR_AssertInvalid`. -/
def remainList (remain_size : Nat) : Option FreeList :=
  if remain_size < 2 * 8 then some .ptr
  else if h : remain_size / 16 ≤ 8 then some (.small ⟨(remain_size - 16) / 16, by omega⟩)
  else if remain_size < 192 then some (.small 7)
  else if remain_size < 256 then some (.bigger 0)
  else if remain_size < 384 then some (.bigger 1)
  else if remain_size < 512 then some (.bigger 2)
  else if remain_size < 768 then some (.bigger 3)
  else if remain_size < 1024 then some (.bigger 4)
  else none

/-- The loop that cuts a chunk into blocks and leaves a remainder. -/
def carve (q : FreeList) (cur fin : Nat) : List (Room q) × Block :=
  let next := cur + q.size
  if next ≤ fin then
    let r := carve q next fin
    (⟨⟨cur, q.size⟩, Nat.le_refl _, q.size_le⟩ :: r.1, r.2)
  else ([], ⟨cur, fin - cur⟩)
termination_by fin - cur
decreasing_by
  have := q.size_pos
  omega

/-- The size of the guard in front of a block. -/
def MMOptions.guard (o : MMOptions) : Nat := if o.bound then 32 else 0

/-- A block with the size in front of the caller's octets. -/
structure Allocated (o : MMOptions) where
  out : Block
  size_ : UInt64
  /-- A small one may go to its list when it is freed. -/
  fits : blockSize o size_ ≤ 1024 → (freeList (blockSize o size_)).Fits out

/-- The octets from the pointer that the caller has to the end of the block. -/
def Allocated.room {o : MMOptions} (m : Allocated o) : Nat := m.out.size - o.guard - 8

/-- Where other threads may come between. -/
inductive Moment where
  /-- After the test of `*queue`. -/
  | looked
  /-- After `malloc`. -/
  | added
  /-- After `i_unlock`. -/
  | unlocked

/-- What a call depends on. -/
structure MMWorld where
  malloc : Nat → Option Nat
  /-- What other threads make of the lists. -/
  others : Moment → MMDefault → MMDefault

/-- The end of a call. -/
structure MMCall (α : Type) where
  /-- The size that `malloc` was called with, if it was. -/
  asked : Option Nat
  result : Outcome MemException α
  state : MMDefault

namespace MMDefault

variable {o : MMOptions}

/-- A list is now this. -/
def setQueue (s : MMDefault) (q : FreeList) (l : List (Room q)) : MMDefault :=
  { s with queue := Function.update s.queue q l }

/-- A list of a thread is now this. -/
def setThrQueue (s : MMDefault) (thread : Nat) (q : FreeList) (l : List (Room q)) : MMDefault :=
  { s with
    thr_queue := Function.update s.thr_queue thread (Function.update (s.thr_queue thread) q l) }

/-- The remainder of a chunk goes to a list; one that fails the assertion or would be too small for
its list is a fault. -/
def keepRemain (s : MMDefault) (remain : Block) : Option MMDefault :=
  if remain.size = 0 then some s
  else
    match remainList remain.size with
    | none => none
    | some q =>
      if h : q.Fits remain then some (s.setQueue q (⟨remain, h⟩ :: s.queue q)) else none

/-- From `go_alloc` on. The chunk is freed again if another thread has filled the list
meanwhile. -/
def goAlloc (w : MMWorld) (q : FreeList) (s : MMDefault) : MMCall (Room q) :=
  match w.malloc q.alloc with
  | none => ⟨some q.alloc, .raise .memException_instance, s⟩
  | some add =>
    let r := carve q (add + 8) (add + q.alloc)
    let s := w.others .added s
    match s.queue q with
    | b :: l => ⟨some q.alloc, .ok b, s.setQueue q l⟩
    | [] =>
      match r.1 with
      | [] => ⟨some q.alloc, .fault, s⟩
      | b :: l =>
        let s := w.others .unlocked (s.setQueue q l)
        match s.keepRemain r.2 with
        | none => ⟨some q.alloc, .fault, s⟩
        | some s => ⟨some q.alloc, .ok b, s⟩

/-- A block of the instance's list, or of a new chunk. -/
def takeBlock (w : MMWorld) (q : FreeList) (s : MMDefault) : MMCall (Room q) :=
  let queue := s.queue q
  let s := w.others .looked s
  match queue with
  | [] => goAlloc w q s
  | _ :: _ =>
    match s.queue q with
    | [] => goAlloc w q s
    | b :: l => ⟨none, .ok b, s.setQueue q l⟩

/-- From `has_out` on: the guard and the size are written. -/
def hasOut (o : MMOptions) (size_ : UInt64) (out : Block)
    (fits : blockSize o size_ ≤ 1024 → (freeList (blockSize o size_)).Fits out) (s : MMDefault) :
    Outcome MemException (Allocated o) × MMDefault :=
  let s :=
    if o.bound || o.debug then { s with debug_current_seq := s.debug_current_seq + 1 } else s
  if out.size < o.guard + 8 then (.fault, s) else (.ok ⟨out, size_, fits⟩, s)

/-- The end of a call that has its block. -/
def finish {q : FreeList} (o : MMOptions) (size_ : UInt64)
    (fits : blockSize o size_ ≤ 1024 → freeList (blockSize o size_) = q) (c : MMCall (Room q)) :
    MMCall (Allocated o) :=
  match c.result with
  | .ok b =>
    let r := hasOut o size_ b.val (fun h => fits h ▸ b.property) c.state
    ⟨c.asked, r.1, r.2⟩
  | .raise e => ⟨c.asked, .raise e, c.state⟩
  | .fault => ⟨c.asked, .fault, c.state⟩
  | .outOfFuel => ⟨c.asked, .outOfFuel, c.state⟩

/-- `impl_alloc`. For a great block, what is tested is the pointer behind the alignment. With a list
of the thread, the list of the instance is chosen by the rounded size. -/
def implAlloc (o : MMOptions) (w : MMWorld) (thread : Nat) (size_ : UInt64) (s : MMDefault) :
    MMCall (Allocated o) :=
  let size := blockSize o size_
  if hlarge : 1024 < size then
    let n := (size + 16).toNat
    let m := w.malloc n
    let out := m.getD 0 + 16 - 8
    if out = 0 then ⟨some n, .raise .memException_instance, s⟩
    else
      match m with
      | none => ⟨some n, .fault, s⟩
      | some _ =>
        let r := hasOut o size_ ⟨out, n - 8⟩ (fun h => absurd hlarge (UInt64.not_lt.mpr h)) s
        ⟨some n, r.1, r.2⟩
  else
    let q := allocList size
    if o.thread then
      match s.thr_queue thread q with
      | b :: l => finish o size_ freeList_eq_allocList ⟨none, .ok b, s.setThrQueue thread q l⟩
      | [] =>
        finish o size_ (fun h => (freeList_eq_allocList h).trans (allocList_size q).symm)
          (takeBlock w (allocList (.ofNat q.size)) s)
    else finish o size_ freeList_eq_allocList (takeBlock w q s)

/-- `impl_free`. -/
def implFree (o : MMOptions) (thread : Nat) (m : Allocated o) (s : MMDefault) : MMDefault :=
  if h : blockSize o m.size_ ≤ 1024 then
    let q := freeList (blockSize o m.size_)
    let b : Room q := ⟨m.out, m.fits h⟩
    if o.thread then s.setThrQueue thread q (b :: s.thr_queue thread q)
    else s.setQueue q (b :: s.queue q)
  else s

/-- `impl_regrow`. Copying more octets than the new block has is a fault. -/
def implRegrow (o : MMOptions) (w : MMWorld) (thread : Nat) (m : Allocated o) (newsize : UInt64)
    (s : MMDefault) : MMCall (Allocated o) :=
  if newsize ≤ m.size_ then ⟨none, .ok m, s⟩
  else
    let c := implAlloc o w thread newsize s
    match c.result with
    | .ok nm =>
      if nm.room < m.size_.toNat then ⟨c.asked, .fault, c.state⟩
      else ⟨c.asked, .ok nm, implFree o thread m c.state⟩
    | _ => c

end MMDefault

end Drt
