import Mathlib.Tactic.Common

/-!
# Chains of linked cells

Cells that carry the link of the list they are on. `Chain next head l` says that
following `next` from `head` goes through the cells of `l` and ends. Two chains
from the same head agree, and a chain does not notice writes to other cells.
-/

universe u

variable {α : Type u}

/-- Following `next` from a head goes through the cells of the list, to the end. -/
def Chain (next : α → Option α) : Option α → List α → Prop
  | head, [] => head = none
  | head, a :: l => head = some a ∧ Chain next (next a) l

namespace Chain

variable {next next' : α → Option α} {head : Option α} {a : α} {l l' : List α}

@[simp] theorem nil_iff : Chain next head [] ↔ head = none := Iff.rfl

@[simp] theorem cons_iff : Chain next head (a :: l) ↔ head = some a ∧ Chain next (next a) l :=
  Iff.rfl

@[simp] theorem none_iff : Chain next none l ↔ l = [] := by
  cases l <;> simp

theorem some_iff : Chain next (some a) l ↔ ∃ t, l = a :: t ∧ Chain next (next a) t := by
  cases l with
  | nil => simp
  | cons b t =>
    constructor
    · rintro ⟨hb, ht⟩
      obtain rfl : a = b := Option.some.inj hb
      exact ⟨t, rfl, ht⟩
    · rintro ⟨t', heq, ht⟩
      obtain ⟨rfl, rfl⟩ := List.cons.inj heq
      exact ⟨rfl, ht⟩

section

variable (h : Chain next head l)
include h

theorem unique (h' : Chain next head l') : l = l' := by
  induction l generalizing head l' with
  | nil =>
    rw [nil_iff] at h
    rw [h, none_iff] at h'
    exact h'.symm
  | cons a l ih =>
    obtain ⟨rfl, htail⟩ := h
    obtain ⟨t, rfl, ht⟩ := some_iff.mp h'
    rw [ih htail ht]

theorem congr (hnext : ∀ b ∈ l, next' b = next b) : Chain next' head l := by
  induction l generalizing head with
  | nil => exact h
  | cons b l ih =>
    refine ⟨h.1, ?_⟩
    rw [hnext b (by simp)]
    exact ih h.2 fun c hc => hnext c (by simp [hc])

theorem update [DecidableEq α] {v : Option α} (ha : a ∉ l) :
    Chain (Function.update next a v) head l := by
  refine h.congr fun b hb => ?_
  have hne : b ≠ a := fun heq => ha (heq ▸ hb)
  simp [hne]

theorem push (ha : next a = head) : Chain next (some a) (a :: l) :=
  ⟨rfl, by rw [ha]; exact h⟩

end

theorem tail_of_append {l₁ l₂ : List α} (h : Chain next head (l₁ ++ a :: l₂)) :
    Chain next (next a) l₂ := by
  induction l₁ generalizing head with
  | nil => exact h.2
  | cons b l₁ ih => exact ih h.2

/-- A write to the link of a cell replaces what comes after it. -/
theorem splice [DecidableEq α] {v : Option α} {l₁ l₂ l₂' : List α}
    (h : Chain next head (l₁ ++ a :: l₂)) (hv : Chain next v l₂')
    (hfront : a ∉ l₁) (hback : a ∉ l₂') :
    Chain (Function.update next a v) head (l₁ ++ a :: l₂') := by
  induction l₁ generalizing head with
  | nil =>
    refine ⟨h.1, ?_⟩
    rw [Function.update_self]
    exact hv.update hback
  | cons b l₁ ih =>
    simp only [List.mem_cons, not_or] at hfront
    refine ⟨h.1, ?_⟩
    rw [Function.update_of_ne (Ne.symm hfront.1)]
    exact ih h.2 hfront.2

/-- The cells of a chain are distinct: it would not end otherwise. -/
theorem nodup (h : Chain next head l) : l.Nodup := by
  induction l generalizing head with
  | nil => exact List.nodup_nil
  | cons b l ih =>
    refine List.nodup_cons.mpr ⟨fun hmem => ?_, ih h.2⟩
    -- the chain from `b` would be a proper part of itself
    obtain ⟨l₁, l₂, rfl⟩ := List.append_of_mem hmem
    have hlen := congrArg List.length (h.2.unique h.2.tail_of_append)
    simp only [List.length_append, List.length_cons] at hlen
    omega

end Chain
