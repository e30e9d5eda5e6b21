import Drt.Lib.Outcome
import Mathlib.Order.Nat

/-!
# Heaps of cells

The objects that a container allocates, by address. Finitely many addresses are in
use, so a new object always finds a free one; which one is the allocator's choice.
-/

universe u v

/-- The address of an object; NULL is the absent address. -/
abbrev Addr := Nat

/-- The live objects of one type. -/
structure Heap (α : Type u) where
  /-- The object at an address, if one is live there. -/
  cell : Addr → Option α
  /-- Only finitely many addresses are in use. -/
  finite : ∃ limit, ∀ a, limit ≤ a → cell a = none

namespace Heap

variable {α : Type u} {ε : Type v}

/-- The heap without objects. -/
def empty : Heap α := ⟨fun _ => none, 0, fun _ _ => rfl⟩

/-- Place or overwrite the object at an address. -/
def put (h : Heap α) (a : Addr) (x : α) : Heap α :=
  ⟨Function.update h.cell a (some x), by
    obtain ⟨limit, hlimit⟩ := h.finite
    refine ⟨max limit (a + 1), fun b hb => ?_⟩
    have hne : b ≠ a := Nat.ne_of_gt (Nat.le_trans (Nat.le_max_right limit (a + 1)) hb)
    rw [Function.update_of_ne hne]
    exact hlimit b (Nat.le_trans (Nat.le_max_left limit (a + 1)) hb)⟩

/-- Destroy the object at an address. -/
def erase (h : Heap α) (a : Addr) : Heap α :=
  ⟨Function.update h.cell a none, by
    obtain ⟨limit, hlimit⟩ := h.finite
    refine ⟨max limit (a + 1), fun b hb => ?_⟩
    have hne : b ≠ a := Nat.ne_of_gt (Nat.le_trans (Nat.le_max_right limit (a + 1)) hb)
    rw [Function.update_of_ne hne]
    exact hlimit b (Nat.le_trans (Nat.le_max_left limit (a + 1)) hb)⟩

/-- Read the object at an address; a dead one is a fault. -/
def load (h : Heap α) (a : Addr) : Outcome ε α := Outcome.ofOption (h.cell a)

@[simp] theorem cell_empty (a : Addr) : (empty : Heap α).cell a = none := rfl

@[simp] theorem cell_put (h : Heap α) (a : Addr) (x : α) :
    (h.put a x).cell = Function.update h.cell a (some x) := rfl

@[simp] theorem cell_erase (h : Heap α) (a : Addr) :
    (h.erase a).cell = Function.update h.cell a none := rfl

theorem load_of_cell {h : Heap α} {a : Addr} {x : α} (hx : h.cell a = some x) :
    (h.load a : Outcome ε α) = Outcome.ok x := by
  simp [load, hx]

theorem exists_free (h : Heap α) : ∃ a, h.cell a = none := by
  obtain ⟨limit, hlimit⟩ := h.finite
  exact ⟨limit, hlimit limit (Nat.le_refl limit)⟩

end Heap

/-- A choice of addresses for new objects. -/
structure Allocator (α : Type u) where
  /-- The address of the next object. -/
  addr : Heap α → Addr
  /-- It is not in use. -/
  fresh : ∀ h : Heap α, h.cell (addr h) = none

namespace Allocator

variable {α : Type u}

/-- The allocator that takes the lowest free address. -/
def lowest : Allocator α where
  addr h := Nat.find (p := fun a => (h.cell a).isNone = true)
    (h.exists_free.imp fun _ ha => by simp [ha])
  fresh h := by
    have hspec := Nat.find_spec (p := fun a => (h.cell a).isNone = true)
      (h.exists_free.imp fun _ ha => by simp [ha])
    simpa using hspec

end Allocator
