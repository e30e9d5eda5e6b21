import Drt.Lib.Chain
import Drt.Lib.Heap
import Mathlib.Data.List.Basic
import Mathlib.Data.List.Induction

/-!
# Lists linked both ways

Nodes that carry the links to their neighbours. `Seg` says of a run of nodes that each link is
the right one inside, and which ones lead out of it at both ends; `Cut` says it of the two parts of a
list whose links across the gap are about to be changed. A write to a link at the gap changes one
end of one part, and everything else is as it was.
-/

universe u

namespace TwoWay

/-- A node of a list. -/
structure Node (V : Type u) where
  prev : Option Addr
  next : Option Addr
  v : V
  deriving DecidableEq, Repr

variable {V : Type u}

/-- Where a run of nodes begins. -/
def front (after : Option Addr) : List (Addr × V) → Option Addr
  | [] => after
  | x :: _ => some x.1

/-- Where a run of nodes ends. -/
def back (before : Option Addr) : List (Addr × V) → Option Addr
  | [] => before
  | x :: l => back (some x.1) l

/-- The addresses of some nodes. -/
abbrev addrs (l : List (Addr × V)) : List Addr := l.map Prod.fst

/-- These nodes are linked both ways, from one node before them to one after them. -/
def Seg (cell : Addr → Option (Node V)) : Option Addr → List (Addr × V) → Option Addr → Prop
  | _, [], _ => True
  | before, x :: l, after =>
    cell x.1 = some ⟨before, front after l, x.2⟩ ∧ Seg cell (some x.1) l after

section Ends

variable (p q : Option Addr) (l l₁ l₂ : List (Addr × V)) (x : Addr × V)

@[simp] theorem front_nil : front q ([] : List (Addr × V)) = q := rfl

@[simp] theorem front_cons : front q (x :: l) = some x.1 := rfl

@[simp] theorem back_nil : back p ([] : List (Addr × V)) = p := rfl

@[simp] theorem front_append : front q (l₁ ++ l₂) = front (front q l₂) l₁ := by
  cases l₁ <;> rfl

@[simp] theorem back_append : back p (l₁ ++ l₂) = back (back p l₁) l₂ := by
  induction l₁ generalizing p with
  | nil => rfl
  | cons x l₁ ih => exact ih (some x.1)

theorem back_concat : back p (l ++ [x]) = some x.1 := by
  rw [back_append]
  rfl

end Ends

variable {cell cell' : Addr → Option (Node V)} {p p' q q' : Option Addr}
  {l l' l₁ l₂ : List (Addr × V)} {x : Addr × V} {a : Addr}

theorem seg_append : Seg cell p (l₁ ++ l₂) q ↔
    Seg cell p l₁ (front q l₂) ∧ Seg cell (back p l₁) l₂ q := by
  induction l₁ generalizing p with
  | nil => simp [Seg]
  | cons x l₁ ih =>
    rw [List.cons_append, Seg, Seg, ih, front_append, and_assoc]
    rfl

theorem Seg.exists_cell (h : Seg cell p l q) (ha : a ∈ addrs l) : ∃ n, cell a = some n := by
  induction l generalizing p with
  | nil => simp at ha
  | cons x l ih =>
    rcases List.mem_cons.mp ha with rfl | ha
    · exact ⟨_, h.1⟩
    · exact ih h.2 ha

theorem Seg.congr (h : Seg cell p l q) (heq : ∀ a ∈ addrs l, cell' a = cell a) :
    Seg cell' p l q := by
  induction l generalizing p with
  | nil => trivial
  | cons x l ih =>
    refine ⟨?_, ih h.2 fun a ha => heq a (List.mem_cons_of_mem _ ha)⟩
    rw [heq x.1 (List.mem_cons_self ..)]
    exact h.1

/-- Two runs of nodes from the same one to the end are of the same values. -/
theorem Seg.values_unique (h : Seg cell p l none) (h' : Seg cell p' l' none)
    (hfront : front none l = front none l') : l.map Prod.snd = l'.map Prod.snd := by
  induction l generalizing p p' l' with
  | nil =>
    cases l' with
    | nil => rfl
    | cons y l' => cases hfront
  | cons x l ih =>
    cases l' with
    | nil => cases hfront
    | cons y l' =>
      have hxy : x.1 = y.1 := Option.some.inj hfront
      have hnode := h.1.symm.trans (hxy ▸ h'.1)
      simp only [Option.some.injEq, Node.mk.injEq] at hnode
      rw [List.map_cons, List.map_cons, hnode.2.2, ih h.2 h'.2 hnode.2.1]

theorem Seg.update (h : Seg cell p l q) (ha : a ∉ addrs l) (n : Option (Node V)) :
    Seg (Function.update cell a n) p l q := by
  refine h.congr fun b hb => Function.update_of_ne ?_ _ _
  rintro rfl
  exact ha hb

theorem Seg.relinkNext (h : Seg cell p (l ++ [x]) q) (heq : ∀ a ∈ addrs l, cell' a = cell a)
    (hx : cell' x.1 = some ⟨back p l, q', x.2⟩) : Seg cell' p (l ++ [x]) q' :=
  seg_append.mpr ⟨(seg_append.mp h).1.congr heq, hx, trivial⟩

theorem Seg.relinkPrev (h : Seg cell p (x :: l) q) (heq : ∀ a ∈ addrs l, cell' a = cell a)
    (hx : cell' x.1 = some ⟨p', front q l, x.2⟩) : Seg cell' p' (x :: l) q :=
  ⟨hx, h.2.congr heq⟩

theorem Seg.setNext (h : Seg cell p (l ++ [x]) q) (hx : x.1 ∉ addrs l) (q' : Option Addr) :
    Seg (Function.update cell x.1 (some ⟨back p l, q', x.2⟩)) p (l ++ [x]) q' :=
  h.relinkNext (fun _ ha => Function.update_of_ne (ne_of_mem_of_not_mem ha hx) ..)
    (Function.update_self ..)

theorem Seg.setPrev (h : Seg cell p (x :: l) q) (hx : x.1 ∉ addrs l) (p' : Option Addr) :
    Seg (Function.update cell x.1 (some ⟨p', front q l, x.2⟩)) p' (x :: l) q :=
  h.relinkPrev (fun _ ha => Function.update_of_ne (ne_of_mem_of_not_mem ha hx) ..)
    (Function.update_self ..)

/-- Following the links forward goes through all the nodes. -/
theorem Seg.chain_next (h : Seg cell p l none) :
    Chain (fun a => (cell a).bind Node.next) (front none l) (addrs l) := by
  induction l generalizing p with
  | nil => rfl
  | cons x l ih =>
    refine ⟨rfl, ?_⟩
    change Chain _ ((cell x.1).bind Node.next) (addrs l)
    rw [h.1]
    exact ih h.2

/-- Following the links backward goes through all the nodes, the other way round. -/
theorem Seg.chain_prev (h : Seg cell none l q) :
    Chain (fun a => (cell a).bind Node.prev) (back none l) (addrs l).reverse := by
  induction l using List.reverseRecOn generalizing q with
  | nil => rfl
  | append_singleton l x ih =>
    obtain ⟨hl, hx⟩ := seg_append.mp h
    rw [back_concat, addrs, List.map_append, List.reverse_append]
    refine ⟨rfl, ?_⟩
    change Chain _ ((cell x.1).bind Node.prev) (addrs l).reverse
    rw [hx.1]
    exact ih hl

/-- A node stands between two parts of the list, the first time that it does. -/
theorem exists_split (ha : a ∈ addrs l) :
    ∃ l₁ v l₂, l = l₁ ++ (a, v) :: l₂ ∧ a ∉ addrs l₁ := by
  induction l with
  | nil => simp at ha
  | cons x l ih =>
    by_cases hx : x.1 = a
    · exact ⟨[], x.2, l, by rw [← hx]; rfl, by simp⟩
    · obtain ⟨l₁, v, l₂, rfl, hl₁⟩ := ih ((List.mem_cons.mp ha).resolve_left (Ne.symm hx))
      exact ⟨x :: l₁, v, l₂, rfl, List.mem_cons.not.mpr (not_or.mpr ⟨Ne.symm hx, hl₁⟩)⟩

theorem Seg.prev_of_next (h : Seg cell p l none) (ha : a ∈ addrs l) {n : Node V}
    (hn : cell a = some n) {b : Addr} (hb : n.next = some b) :
    ∃ m, cell b = some m ∧ m.prev = some a := by
  obtain ⟨l₁, v, l₂, rfl, -⟩ := exists_split ha
  obtain ⟨-, hcell, hl₂⟩ := seg_append.mp h
  obtain rfl := Option.some.inj (hn.symm.trans hcell)
  cases l₂ with
  | nil => cases hb
  | cons y l₂ =>
    obtain rfl := Option.some.inj hb
    exact ⟨_, hl₂.1, rfl⟩

theorem Seg.next_of_prev (h : Seg cell none l q) (ha : a ∈ addrs l) {n : Node V}
    (hn : cell a = some n) {b : Addr} (hb : n.prev = some b) :
    ∃ m, cell b = some m ∧ m.next = some a := by
  obtain ⟨l₁, v, l₂, rfl, -⟩ := exists_split ha
  obtain ⟨hl₁, hcell, -⟩ := seg_append.mp h
  obtain rfl := Option.some.inj (hn.symm.trans hcell)
  obtain rfl | ⟨m, z, rfl⟩ := List.eq_nil_or_concat' l₁
  · cases hb
  · obtain rfl := Option.some.inj ((back_concat none m z).symm.trans hb)
    exact ⟨_, (seg_append.mp hl₁).2.1, rfl⟩

theorem Seg.exists_value (h : Seg cell p l q) (hx : x ∈ l) :
    ∃ n, cell x.1 = some n ∧ n.v = x.2 := by
  obtain ⟨l₁, l₂, rfl⟩ := List.append_of_mem hx
  exact ⟨_, (seg_append.mp h).2.1, rfl⟩

/-- A list in two parts: the first one and the link behind it, the link before the second one and
the second one. The links at the ends are those of the head where a part is empty. -/
structure Cut (cell : Addr → Option (Node V)) (first last : Option Addr) (l₁ : List (Addr × V))
    (after before : Option Addr) (l₂ : List (Addr × V)) : Prop where
  left : Seg cell none l₁ after
  right : Seg cell before l₂ none
  first_eq : first = front after l₁
  last_eq : last = back before l₂

/-- The nodes of a list, with the links of the head. -/
structure Linked (cell : Addr → Option (Node V)) (first last : Option Addr)
    (l : List (Addr × V)) : Prop where
  seg : Seg cell none l none
  first_eq : first = front none l
  last_eq : last = back none l

variable {first last : Option Addr}

theorem linked_append : Linked cell first last (l₁ ++ l₂) ↔
    Cut cell first last l₁ (front none l₂) (back none l₁) l₂ := by
  constructor
  · rintro ⟨hseg, hfirst, hlast⟩
    obtain ⟨hl, hr⟩ := seg_append.mp hseg
    exact ⟨hl, hr, by simpa using hfirst, by simpa using hlast⟩
  · rintro ⟨hl, hr, hfirst, hlast⟩
    exact ⟨seg_append.mpr ⟨hl, hr⟩, by simpa using hfirst, by simpa using hlast⟩

theorem linked_between : Linked cell first last (l₁ ++ x :: l₂) ↔
    Cut cell first last l₁ (some x.1) (some x.1) l₂ ∧
      cell x.1 = some ⟨back none l₁, front none l₂, x.2⟩ := by
  rw [linked_append]
  constructor
  · rintro ⟨hl, hr, hfirst, hlast⟩
    exact ⟨⟨hl, hr.2, hfirst, hlast⟩, hr.1⟩
  · rintro ⟨⟨hl, hr, hfirst, hlast⟩, hx⟩
    exact ⟨hl, ⟨hx, hr⟩, hfirst, hlast⟩

theorem Cut.congr {after before : Option Addr} (h : Cut cell first last l₁ after before l₂)
    (heq : ∀ a ∈ addrs l₁ ++ addrs l₂, cell' a = cell a) :
    Cut cell' first last l₁ after before l₂ :=
  ⟨h.left.congr fun a ha => heq a (List.mem_append_left _ ha),
    h.right.congr fun a ha => heq a (List.mem_append_right _ ha), h.first_eq, h.last_eq⟩

end TwoWay
