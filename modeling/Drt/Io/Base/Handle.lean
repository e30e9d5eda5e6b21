import Drt.Core.Types.BString
import Drt.Lib.Fuel

/-!
# Handles

A `Handle` delivers a byte string. How many octets a read or a write comes to, and
whether data come before the time limit, is up to the system: a schedule answers for
each call in turn. A read of a blocking handle gives no octets only at the end.
-/

namespace Drt

/-- The answers of the system. -/
structure Schedule where
  /-- The most octets the call takes or gives, at least one. -/
  size : Nat → Nat
  /-- Whether `waitData` finds data. -/
  ready : Nat → Bool
  size_pos : ∀ i, 0 < size i

/-- A system that always takes and gives up to `n` octets, and never waits. -/
def Schedule.every (n : Nat) (hn : 0 < n) : Schedule := ⟨fun _ => n, fun _ => true, fun _ => hn⟩

/-- An open handle. -/
structure Handle where
  schedule : Schedule
  /-- The number of calls up to now. -/
  turn : Nat
  /-- What is still to be delivered. -/
  pending : Blob
  /-- What was delivered. -/
  delivered : Blob
  /-- What was written. -/
  written : Blob

namespace Handle

/-- A handle that nothing was done with. -/
def fresh (schedule : Schedule) (pending : Blob) : Handle := ⟨schedule, 0, pending, [], []⟩

/-- The number of octets that `read` of up to `size` comes to. -/
def readSize (h : Handle) (size : Nat) : Nat := min size (h.schedule.size h.turn)

/-- `read(buf, size)`. -/
def read (h : Handle) (size : Nat) : Blob × Handle :=
  (h.pending.take (h.readSize size),
    { h with
      turn := h.turn + 1
      pending := h.pending.drop (h.readSize size)
      delivered := h.delivered ++ h.pending.take (h.readSize size) })

/-- `write(buf, size)`: the number of octets taken. -/
def write (h : Handle) (data : Blob) : Nat × Handle :=
  (min data.length (h.schedule.size h.turn),
    { h with
      turn := h.turn + 1
      written := h.written ++ data.take (min data.length (h.schedule.size h.turn)) })

/-- `waitData(M_READ, …)`. -/
def waitData (h : Handle) : Bool × Handle := (h.schedule.ready h.turn, { h with turn := h.turn + 1 })

theorem read_pending (h : Handle) (size : Nat) :
    (h.read size).1 ++ (h.read size).2.pending = h.pending ∧
      (h.read size).2.delivered = h.delivered ++ (h.read size).1 :=
  ⟨List.take_append_drop _ _, rfl⟩

theorem length_read_le (h : Handle) (size : Nat) : (h.read size).1.length ≤ size := by
  simp only [read, readSize, List.length_take]
  omega

theorem read_ne_nil {h : Handle} {size : Nat} (hsize : 0 < size) (hpending : h.pending ≠ []) :
    (h.read size).1 ≠ [] := by
  have hpos := h.schedule.size_pos h.turn
  simp only [read, readSize, ne_eq, List.take_eq_nil_iff, hpending, or_false]
  omega

end Handle

end Drt
