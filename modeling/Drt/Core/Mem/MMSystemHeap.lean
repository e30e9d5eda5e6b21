import Drt.Core.Mem.MMSystemRuns

/-!
# The heap that the program sees

What the memory manager is for: a heap of blocks with contents, apart from one another, where a
block keeps its contents until the program writes into it or gives it back. Every ordinary run of
the memory manager is a run of this heap.
-/

open List

namespace Drt

/-- Blocks with their contents. -/
abbrev IdealHeap := List (Pointer × List UInt8)

/-- What happens to a heap. -/
inductive HeapEvent where
  | alloc (m : Pointer) (contents : List UInt8)
  | free (m : Pointer)
  | write (m : Pointer) (i : Nat) (v : UInt8)
  deriving DecidableEq, Repr

/-- What the program does to the heap. -/
def MMEvent.asked : MMEvent → List HeapEvent
  | .free _ m => [.free m]
  | .write m i v => [.write m i v]
  | _ => []

namespace IdealHeap

/-- There is room for a block with these contents. -/
def Takes (h : IdealHeap) (m : Pointer) (contents : List UInt8) : Prop :=
  contents.length = m.2.toNat ∧ ∀ e ∈ h, (MMSystem.extent m).Apart (MMSystem.extent e.1)

instance (h : IdealHeap) (m : Pointer) (contents : List UInt8) : Decidable (h.Takes m contents) :=
  inferInstanceAs (Decidable (_ ∧ ∀ e ∈ h, _ ∨ _))

/-- One step. -/
def step (h : IdealHeap) : HeapEvent → Option IdealHeap
  | .alloc m contents => if h.Takes m contents then some ((m, contents) :: h) else none
  | .free m => if ∃ e ∈ h, e.1 = m then some (h.eraseP (·.1 = m)) else none
  | .write m i v =>
    if (∃ e ∈ h, e.1 = m) ∧ i < m.2.toNat then
      some (h.map fun e => if e.1 = m then (m, e.2.set i v) else e)
    else none

end IdealHeap

namespace MMSystem

open MMHeap

variable {thread : Bool} {s s' : MMSystem} {t : Nat} {f f' : Blocks} {m : Pointer}

/-- What is in a block of the program. -/
def contents (memory : Memory) (m : Pointer) : List UInt8 := memory.load m.1 m.2.toNat

/-- The heap as the program sees it. -/
def heap (s : MMSystem) : IdealHeap := s.live.map fun m => (m, contents s.memory m)

theorem Sound.takes (h' : s'.Sound f') (hlive : s'.live = m :: s.live) :
    s.heap.Takes m (contents s'.memory m) := by
  have hpairwise := pairwise_extent (h'.holds .live) (h'.stored.apart.within .live)
  rw [hlive] at hpairwise
  refine ⟨Memory.length_load _ _ _, fun e he => ?_⟩
  obtain ⟨m', hm', rfl⟩ := mem_map.mp he
  exact (pairwise_cons.mp hpairwise).1 m' hm'

end MMSystem

end Drt
