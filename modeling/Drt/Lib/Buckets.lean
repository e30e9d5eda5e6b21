import Drt.Lib.Chain

/-!
# Buckets of chains

Slots that each head a chain of cells, with no cell on two of them. A link is a slot
or the link of a cell. A walk that keeps the link it came by can take the next
cell out by one write to that link, and put it on another chain by two more.
-/

open List Function

universe u v

/-- A place that holds a link: a slot, or a cell. -/
inductive Link (ι : Type u) (α : Type v) where
  | slot (i : ι)
  | next (a : α)

/-- What the slots and the cells point to. -/
structure Links (ι : Type u) (α : Type v) where
  /-- The first cell of a slot. -/
  slot : ι → Option α
  /-- The cell after a cell. -/
  next : α → Option α

namespace Links

variable {ι : Type u} {α : Type v}

/-- Read a link. -/
def get (ls : Links ι α) : Link ι α → Option α
  | .slot i => ls.slot i
  | .next a => ls.next a

/-- Write a link. -/
def set [DecidableEq ι] [DecidableEq α] (ls : Links ι α) : Link ι α → Option α → Links ι α
  | .slot i, v => { ls with slot := Function.update ls.slot i v }
  | .next a, v => { ls with next := Function.update ls.next a v }

@[simp] theorem get_slot (ls : Links ι α) (i : ι) : ls.get (.slot i) = ls.slot i := rfl

@[simp] theorem get_next (ls : Links ι α) (a : α) : ls.get (.next a) = ls.next a := rfl

end Links

/-- The link by which the cells after these hang in a slot. -/
def Link.after {ι : Type u} {α : Type v} (i : ι) (l : List α) : Link ι α :=
  match l.getLast? with
  | none => .slot i
  | some b => .next b

namespace Link

variable {ι : Type u} {α : Type v}

@[simp] theorem after_nil (i : ι) : (after i [] : Link ι α) = .slot i := rfl

@[simp] theorem after_append (i : ι) (l : List α) (b : α) : after i (l ++ [b]) = .next b := by
  simp [after]

end Link

/-- Each slot heads the chain of its cells, and no cell is on two chains. -/
structure Buckets {ι : Type u} {α : Type v} (ls : Links ι α) (chains : ι → List α) : Prop where
  /-- Following the links from a slot goes through its cells. -/
  chain : ∀ i, Chain ls.next (ls.slot i) (chains i)
  /-- The chains have no cell in common. -/
  disjoint : ∀ i j a, a ∈ chains i → a ∈ chains j → i = j

namespace Buckets

variable {ι : Type u} {α : Type v} {ls : Links ι α} {chains : ι → List α}
  {i j : ι} {a b : α} {l r : List α}

/-- The link after the first cells of a chain leads to the next one. -/
theorem get_after (h : Buckets ls chains) (hi : chains i = l ++ r) :
    ls.get (.after i l) = r.head? := by
  have hchain := h.chain i
  rw [hi] at hchain
  obtain rfl | ⟨l, b, rfl⟩ := l.eq_nil_or_concat
  · cases r with
    | nil => exact hchain
    | cons b r => exact hchain.1
  · simp only [concat_eq_append] at hi hchain ⊢
    rw [Link.after_append, Links.get_next]
    rw [append_assoc, singleton_append] at hchain
    have htail := hchain.tail_of_append
    cases r with
    | nil => exact htail
    | cons c r => exact htail.1

theorem next_of_mem (h : Buckets ls chains) (hi : chains i = l ++ a :: r) :
    ls.next a = r.head? := by
  have hget := h.get_after (i := i) (l := l ++ [a]) (r := r) (by simp [hi])
  rwa [Link.after_append] at hget

theorem nodup (h : Buckets ls chains) (i : ι) : (chains i).Nodup := (h.chain i).nodup

variable [DecidableEq ι]

theorem not_mem_unlink (h : Buckets ls chains) (hl : chains i = l ++ a :: r) (k : ι) :
    a ∉ update chains i (l ++ r) k := by
  intro hmem
  have hnodup := h.nodup i
  by_cases hik : k = i
  · subst hik
    rw [hl] at hnodup
    rw [update_self] at hmem
    obtain ⟨_, hback, hapart⟩ := nodup_append.mp hnodup
    rcases mem_append.mp hmem with hmem | hmem
    · exact hapart a hmem a (by simp) rfl
    · exact (nodup_cons.mp hback).1 hmem
  · rw [update_of_ne hik] at hmem
    exact hik (h.disjoint k i a hmem (by simp [hl]))

/-- The cells on the chains after one is taken out. -/
theorem mem_unlink (h : Buckets ls chains) (hl : chains i = l ++ a :: r) :
    (∃ k, b ∈ update chains i (l ++ r) k) ↔ b ≠ a ∧ ∃ k, b ∈ chains k := by
  constructor
  · rintro ⟨k, hk⟩
    have hne : b ≠ a := fun heq => h.not_mem_unlink hl k (heq ▸ hk)
    refine ⟨hne, k, ?_⟩
    by_cases hik : k = i
    · subst hik
      rw [update_self, mem_append] at hk
      simp only [hl, mem_append, mem_cons]
      tauto
    · rwa [update_of_ne hik] at hk
  · rintro ⟨hne, k, hk⟩
    refine ⟨k, ?_⟩
    by_cases hik : k = i
    · subst hik
      simp only [hl, mem_append, mem_cons, hne, false_or] at hk
      simpa using hk
    · rwa [update_of_ne hik]

variable [DecidableEq α]

/-- Writing the link after the first cells of a chain, so that it leads past the next one,
takes that one out. -/
theorem unlink (h : Buckets ls chains) (hi : chains i = l ++ a :: r) :
    Buckets (ls.set (.after i l) (ls.next a)) (update chains i (l ++ r)) := by
  have hchain := h.chain i
  have hnodup := h.nodup i
  rw [hi] at hchain hnodup
  have hrest : Chain ls.next (ls.next a) r := hchain.tail_of_append
  have hsub : ∀ b ∈ l ++ r, b ∈ chains i := fun b hb => by
    rw [hi]
    simp only [mem_append, mem_cons] at hb ⊢
    tauto
  refine ⟨fun j => ?_, fun j k b hj hk => ?_⟩
  · obtain rfl | ⟨l, c, rfl⟩ := l.eq_nil_or_concat
    · by_cases hij : j = i
      · subst hij
        simpa [Links.set] using hrest
      · simpa [Links.set, hij] using h.chain j
    · simp only [concat_eq_append] at hi hchain hnodup hsub ⊢
      rw [Link.after_append]
      have hc : c ∈ chains i := hsub c (by simp)
      by_cases hij : j = i
      · subst hij
        simp only [Links.set, update_self]
        rw [append_assoc, singleton_append] at hchain hnodup
        rw [append_assoc, singleton_append]
        obtain ⟨_, hback, hapart⟩ := nodup_append.mp hnodup
        have hfront : c ∉ l := fun hcl => hapart c hcl c (by simp) rfl
        simp only [nodup_cons, mem_cons, not_or] at hback
        exact hchain.splice hrest hfront hback.1.2
      · simp only [Links.set, update_of_ne hij]
        exact (h.chain j).update fun hcj => hij (h.disjoint j i c hcj hc)
  · have hmem : ∀ j, b ∈ update chains i (l ++ r) j → b ∈ chains j := by
      intro j hb
      by_cases hij : j = i
      · subst hij
        exact hsub b (by simpa using hb)
      · simpa [hij] using hb
    exact h.disjoint j k b (hmem j hj) (hmem k hk)

theorem set_next {v : Option α} (h : Buckets ls chains) (ha : ∀ k, a ∉ chains k) :
    Buckets (ls.set (.next a) v) chains :=
  ⟨fun j => (h.chain j).update (ha j), h.disjoint⟩

/-- A cell that is on no chain is pushed by linking it to the slot's first cell and the slot
to it. -/
theorem push (h : Buckets ls chains) (ha : ∀ k, a ∉ chains k) :
    Buckets ((ls.set (.next a) (ls.slot i)).set (.slot i) (some a))
      (update chains i (a :: chains i)) := by
  refine ⟨fun j => ?_, fun j k b hj hk => ?_⟩
  · have hkeep := (h.chain j).update (v := ls.slot i) (ha j)
    by_cases hij : j = i
    · subst hij
      simpa [Links.set] using hkeep
    · simpa [Links.set, hij] using hkeep
  · have hmem : ∀ j, b ∈ update chains i (a :: chains i) j →
        b = a ∧ j = i ∨ b ∈ chains j := by
      intro j hb
      by_cases hij : j = i
      · subst hij
        rw [update_self, mem_cons] at hb
        exact hb.imp_left fun heq => ⟨heq, rfl⟩
      · exact Or.inr (by simpa [hij] using hb)
    rcases hmem j hj with ⟨rfl, rfl⟩ | hbj
    · rcases hmem k hk with ⟨_, rfl⟩ | hbk
      · rfl
      · exact absurd hbk (ha k)
    · rcases hmem k hk with ⟨rfl, _⟩ | hbk
      · exact absurd hbj (ha j)
      · exact h.disjoint j k b hbj hbk

end Buckets
