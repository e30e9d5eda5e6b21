import Drt.Lib.Outcome
import Mathlib.Data.Multiset.Range

/-!
# Blocks that are freed once

Memory as an account: which blocks are live and what they hold, how many were allocated, and
which were freed, in the order of the calls. If every block that was allocated either was freed
once or is owned once, its owner may free it, and when nothing is owned any more, all of them were
freed exactly once.
-/

universe u v

/-- The blocks that were allocated. The next one gets the next number. -/
structure Ledger (α : Type u) where
  cell : Nat → Option α
  next : Nat
  freed : List Nat

namespace Ledger

variable {α : Type u} {ε : Type v} {l : Ledger α} {refs : Multiset Nat} {a : Nat} {x : α}

/-- No block was allocated. -/
def new : Ledger α := ⟨fun _ => none, 0, []⟩

/-- A new block. Its number is `next`. -/
def alloc (l : Ledger α) (x : α) : Ledger α :=
  ⟨Function.update l.cell l.next (some x), l.next + 1, l.freed⟩

/-- What a block holds; a block that is not live must not be read. -/
def load (l : Ledger α) (a : Nat) : Outcome ε α := Outcome.ofOption (l.cell a)

/-- A block is freed; one that is not live must not be. -/
def free (l : Ledger α) (a : Nat) : Outcome ε (Ledger α) :=
  match l.cell a with
  | some _ => .ok ⟨Function.update l.cell a none, l.next, a :: l.freed⟩
  | none => .fault

/-- Every block was freed once or is owned once, and the owned ones are live. -/
structure Owned (l : Ledger α) (refs : Multiset Nat) : Prop where
  blocks : (l.freed : Multiset Nat) + refs = Multiset.range l.next
  live : ∀ a, (l.cell a).isSome ↔ a ∈ refs

namespace Owned

theorem new : (new : Ledger α).Owned 0 := ⟨rfl, fun a => by simp [Ledger.new]⟩

section

variable (h : l.Owned refs)
include h

theorem lt (ha : a ∈ refs) : a < l.next := by
  have hmem : a ∈ (l.freed : Multiset Nat) + refs := Multiset.mem_add.mpr (.inr ha)
  rwa [h.blocks, Multiset.mem_range] at hmem

theorem card_le : refs.card ≤ l.next := by
  have hcard := congrArg Multiset.card h.blocks
  rw [Multiset.card_add, Multiset.card_range] at hcard
  omega

theorem nodup : refs.Nodup := by
  have hnodup := Multiset.nodup_range l.next
  rw [← h.blocks] at hnodup
  exact (Multiset.nodup_add.mp hnodup).2.1

theorem alloc (x : α) : (l.alloc x).Owned (l.next ::ₘ refs) := by
  refine ⟨?_, fun a => ?_⟩
  · rw [Multiset.add_cons]
    exact (congrArg (l.next ::ₘ ·) h.blocks).trans (Multiset.range_succ l.next).symm
  · rw [Multiset.mem_cons, ← h.live]
    by_cases ha : a = l.next
    · simp [Ledger.alloc, ha]
    · simp [Ledger.alloc, ha]

theorem load (ha : a ∈ refs) : ∃ x, l.cell a = some x ∧ (l.load a : Outcome ε α) = .ok x := by
  obtain ⟨x, hx⟩ := Option.isSome_iff_exists.mp ((h.live a).mpr ha)
  exact ⟨x, hx, by rw [Ledger.load, hx]; rfl⟩

end

/-- An owned block can be freed, and is not owned any more. -/
theorem free (h : l.Owned (a ::ₘ refs)) :
    ∃ l', (l.free a : Outcome ε (Ledger α)) = .ok l' ∧ l'.Owned refs ∧
      l'.cell = Function.update l.cell a none := by
  obtain ⟨x, hx⟩ := Option.isSome_iff_exists.mp ((h.live a).mpr (Multiset.mem_cons_self a refs))
  refine ⟨_, by rw [Ledger.free, hx], ⟨?_, fun b => ?_⟩, rfl⟩
  · rw [← h.blocks, ← Multiset.cons_coe, Multiset.cons_add, Multiset.add_cons]
  · have hnot := (Multiset.nodup_cons.mp h.nodup).1
    by_cases hb : b = a
    · simp [hb, hnot]
    · simp [hb, h.live, Multiset.mem_cons]

/-- When nothing is owned any more, every block was freed exactly once. -/
theorem freed_once (h : l.Owned 0) : l.freed.Perm (List.range l.next) := by
  rw [← Multiset.coe_eq_coe, ← Multiset.range, ← h.blocks, Multiset.add_zero]

end Owned

end Ledger
