import Drt.Core.Base.Exception
import Drt.Lib.Fuel
import Drt.Lib.TwoWay

/-!
# Widgets

A widget has its children in a list that is linked both ways, the newest one first. A child that is
inserted into an empty list is its first one, but `child_last` takes the value that `child_first`
had before, which is NULL; from then on it stays NULL, until the oldest child is removed. If there
are others then, an assertion fails.
-/

open List Function Option

namespace Drt

/-- What a widget has to know of those above and below it. -/
structure WidgetTraits where
  /-- `TF_ReqDisabled`. -/
  reqDisabled : Bool
  /-- `TF_Disabled`. -/
  disabled : Bool
  /-- `TF_Focused`. -/
  focused : Bool
  parent : Option Addr
  focused_child : Option Addr
  deriving DecidableEq, Repr

/-- `Widget`, with its list of children and its own place in a list. -/
structure Widget extends WidgetTraits where
  child_first : Option Addr
  child_last : Option Addr
  child_prev : Option Addr
  child_next : Option Addr
  hold_layout : Option Addr
  /-- `gui` is not NULL. -/
  guiValid : Bool
  /-- The number of references. -/
  refcnt : Nat
  deriving DecidableEq, Repr

/-- `Gui`: the first of the shells, and the widgets in memory. -/
structure Gui where
  object_list : Option Addr
  widgets : Heap Widget

/-- What both constructors of a widget set; none of them sets `TF_ReqDisabled`. -/
def Widget.init (parent : Option Addr) : Widget where
  reqDisabled := false
  disabled := false
  focused := false
  parent := parent
  focused_child := none
  child_first := none
  child_last := none
  child_prev := none
  child_next := none
  hold_layout := none
  guiValid := true
  refcnt := 1

namespace Gui

/-- A widget is written. -/
def set (g : Gui) (a : Addr) (w : Widget) : Gui := { g with widgets := g.widgets.put a w }

/-- Fields of a widget are written. -/
def modify (g : Gui) (a : Addr) (f : Widget → Widget) : Call Gui := do
  let w ← g.widgets.load a
  .ok (g.set a (f w))

def ref (g : Gui) (this : Addr) : Call Gui :=
  g.modify this fun w => { w with refcnt := w.refcnt + 1 }

/-- `Gui::insertObject`. -/
def insertObject (g : Gui) (obj : Addr) : Call Gui := do
  let first := g.object_list
  let g ← g.modify obj fun w => { w with child_next := first }
  let g ← match first with
    | some first => g.modify first fun w => { w with child_prev := some obj }
    | none => .ok g
  let g ← g.modify obj fun w => { w with child_prev := none }
  .ok { g with object_list := some obj }

/-- `Gui::removeObject`. -/
def removeObject (g : Gui) (obj : Addr) : Call Gui := do
  let o ← g.widgets.load obj
  match o.child_prev with
  | none =>
    if g.object_list ≠ some obj then .fault
    else
      let g := { g with object_list := o.child_next }
      match o.child_next with
      | some next => g.modify next fun w => { w with child_prev := none }
      | none => .ok g
  | some prev =>
    let g ← g.modify prev fun w => { w with child_next := o.child_next }
    match o.child_next with
    | some next => g.modify next fun w => { w with child_prev := o.child_prev }
    | none => .ok g

def gui_insertChild (g : Gui) (this obj : Addr) : Call Gui := do
  let w ← g.widgets.load this
  let g ← g.modify obj fun o => { o with child_next := w.child_first }
  let g ← match w.child_first with
    | some first => g.modify first fun o => { o with child_prev := some obj }
    | none => g.modify this fun w => { w with child_last := w.child_first }
  let g ← g.modify obj fun o => { o with child_prev := none }
  let g ← g.modify this fun w => { w with child_first := some obj }
  g.ref obj

def onRemovingChild (g : Gui) (this child : Addr) : Call Gui :=
  g.modify this fun w =>
    { w with
      focused_child := if w.focused_child = some child then none else w.focused_child
      hold_layout := if w.hold_layout = some child then none else w.hold_layout }

/-- `gui_removeChild`, with its assertions. -/
def gui_removeChild (g : Gui) (this obj : Addr) : Call Gui := do
  let g ← g.onRemovingChild this obj
  let o ← g.widgets.load obj
  let w ← g.widgets.load this
  match o.child_prev with
  | none =>
    if w.child_first ≠ some obj then .fault
    else do
      let g ← g.modify this fun w => { w with child_first := o.child_next }
      match o.child_next with
      | some next => g.modify next fun w => { w with child_prev := none }
      | none => g.modify this fun w => { w with child_last := none }
  | some prev =>
    if w.child_first = some obj then .fault
    else do
      let g ← g.modify prev fun w => { w with child_next := o.child_next }
      match o.child_next with
      | some next => g.modify next fun w => { w with child_prev := o.child_prev }
      | none => do
        let w ← g.widgets.load this
        if w.child_last ≠ some obj then .fault
        else g.modify this fun w => { w with child_last := o.child_prev }

/-- `Widget(Gui *)`, at an address. -/
def createShell (g : Gui) (this : Addr) : Call Gui := (g.set this (.init none)).insertObject this

/-- `Widget(Widget *parent)`, at an address; it takes the style factory from the parent's `gui`. -/
def create (g : Gui) (this parent : Addr) : Call Gui := do
  let p ← g.widgets.load parent
  if p.guiValid then (g.set this (.init (some parent))).gui_insertChild parent this
  else .fault

/-- `unref`, with `unrefed` when it was the last reference; `removing` is `gui_removing`. -/
def unref (removing : Gui → Addr → Call Gui) (g : Gui) (this : Addr) : Call Gui := do
  let w ← g.widgets.load this
  if w.refcnt ≤ 1 then do
    let g ← if w.guiValid then removing g this else .ok g
    .ok { g with widgets := g.widgets.erase this }
  else g.modify this fun w => { w with refcnt := w.refcnt - 1 }

/-- The loop of `gui_removing`; `destroy` is `gui_destroy`. -/
def destroyChilds (destroy : Gui → Addr → Call Gui) : Nat → Gui → Addr → Call Gui
  | 0, _, _ => .outOfFuel
  | fuel + 1, g, this => do
    let w ← g.widgets.load this
    match w.child_first with
    | none => .ok g
    | some child => do
      let g ← destroy g child
      destroyChilds destroy fuel g this

def gui_removing : Nat → Gui → Addr → Call Gui
  | 0, _, _ => .outOfFuel
  | fuel + 1, g, this => do
    let g ← destroyChilds
      (fun g child => gui_removing fuel g child >>= fun g => g.unref (gui_removing fuel) child)
      fuel g this
    let w ← g.widgets.load this
    let g ← match w.parent with
      | some parent => g.gui_removeChild parent this
      | none => g.removeObject this
    g.modify this fun w => { w with guiValid := false }

def gui_destroy (fuel : Nat) (g : Gui) (this : Addr) : Call Gui := do
  let g ← g.gui_removing fuel this
  g.unref (gui_removing fuel) this

end Gui

/-! ### The children of a widget -/

namespace Gui

open Outcome TwoWay

/-- The links between widgets with the same parent. -/
def siblings (g : Gui) (a : Addr) : Option (Node Unit) :=
  (g.widgets.cell a).map fun w => ⟨w.child_prev, w.child_next, ()⟩

/-- The list of children, as far as the parent has to do with it. -/
def nodesOf (els : List Addr) : List (Addr × Unit) := els.map fun a => (a, ())

/-- A call of the program: a child of the parent is created at an address or removed, or the program
gives back the reference that it has from the constructor. -/
inductive ChildEvent where
  | create (a : Addr)
  | remove (a : Addr)
  | unref (a : Addr)
  deriving DecidableEq, Repr

namespace ChildEvent

/-- A new widget has memory of its own; a child is removed once, and its creator gives the reference
back once. -/
def Valid (g : Gui) (p : Addr) (els : List Addr) : ChildEvent → Prop
  | create a => g.widgets.cell a = none
  | remove a => a ∈ els
  | unref a => ∃ w, g.widgets.cell a = some w ∧ a ≠ p ∧
      (a ∈ els ∧ w.refcnt = 2 ∨ a ∉ els ∧ w.guiValid = false)

/-- What the code does. -/
def apply (g : Gui) (p : Addr) (fuel : Nat) : ChildEvent → Call Gui
  | create a => g.create a p
  | remove a => g.gui_destroy fuel a
  | unref a => g.unref (gui_removing fuel) a

/-- The live children after it, the newest one first. -/
def children (els : List Addr) : ChildEvent → List Addr
  | create a => a :: els
  | remove a => els.erase a
  | unref _ => els

end ChildEvent

/-- Runs of calls on the children of a widget that has none in the beginning. -/
inductive ChildRun (p : Addr) : Gui → List Addr → Prop where
  | nil {g : Gui} {w : Widget} (hw : g.widgets.cell p = some w) (hfirst : w.child_first = none)
      (hlast : w.child_last = none) (hvalid : w.guiValid = true) : ChildRun p g []
  | snoc {g g' : Gui} {els : List Addr} {event : ChildEvent} (run : ChildRun p g els)
      (valid : event.Valid g p els) (step : Returns (fun fuel => event.apply g p fuel) g') :
      ChildRun p g' (event.children els)

/-- Both chains of the parent go through the live children, one from the newest to the oldest and
the other one back. -/
structure Describes (g : Gui) (p : Addr) (els : List Addr) : Prop where
  next : Chain (fun a => (g.widgets.cell a).bind (·.child_next))
    ((g.widgets.cell p).bind (·.child_first)) els
  prev : Chain (fun a => (g.widgets.cell a).bind (·.child_prev))
    ((g.widgets.cell p).bind (·.child_last)) els.reverse

/-! ### What the code does to the list -/

variable {g g' : Gui} {a b p : Addr} {w : Widget} {els l₁ l₂ : List Addr}

@[simp] theorem cell_set :
    (g.set a w).widgets.cell = update g.widgets.cell a (some w) := rfl

theorem modify_of_cell (hw : g.widgets.cell a = some w) (f : Widget → Widget) :
    g.modify a f = .ok (g.set a (f w)) := by
  rw [modify, Heap.load_of_cell hw]
  rfl

@[simp] theorem addrs_nodesOf : TwoWay.addrs (nodesOf els) = els := by
  rw [TwoWay.addrs, nodesOf, List.map_map]
  exact List.map_id els

theorem nodesOf_append : nodesOf (l₁ ++ l₂) = nodesOf l₁ ++ nodesOf l₂ := map_append

theorem front_nodesOf (q : Option Addr) : front q (nodesOf els) = els.head?.or q := by
  cases els <;> rfl

theorem siblings_of_cell (hw : g.widgets.cell a = some w) :
    g.siblings a = some ⟨w.child_prev, w.child_next, ()⟩ := by
  rw [siblings, hw]
  rfl

theorem siblings_congr (h : g'.widgets.cell a = g.widgets.cell a) :
    g'.siblings a = g.siblings a := by
  rw [siblings, siblings, h]

/-- The links of a list are right, but the parent has no last child. -/
structure Kids (g : Gui) (p : Addr) (els : List Addr) : Prop where
  parent : ∃ w, g.widgets.cell p = some w ∧ w.child_first = els.head? ∧ w.child_last = none ∧
    w.guiValid = true
  seg : Seg g.siblings none (nodesOf els) none
  kid : ∀ a ∈ els, ∃ w, g.widgets.cell a = some w ∧ w.parent = some p ∧ w.child_first = none ∧
    w.guiValid = true
  nodup : els.Nodup
  other : p ∉ els

theorem Kids.congr (h : Kids g p els) (hp : g'.widgets.cell p = g.widgets.cell p)
    (heq : ∀ a ∈ els, g'.widgets.cell a = g.widgets.cell a) : Kids g' p els where
  parent := by
    rw [hp]
    exact h.parent
  seg := h.seg.congr fun a ha => siblings_congr (heq a (by simpa using ha))
  kid := by
    intro a ha
    rw [heq a ha]
    exact h.kid a ha
  nodup := h.nodup
  other := h.other

/-- The chains are those of the list exactly if it is empty: there is no last child. -/
theorem Kids.describes_iff (h : Kids g p els) : Describes g p els ↔ els = [] := by
  obtain ⟨w, hw, hfirst, hlast, -⟩ := h.parent
  constructor
  · intro hdescribes
    have hprev := hdescribes.prev
    rw [hw, bind_some, hlast, Chain.none_iff, reverse_eq_nil_iff] at hprev
    exact hprev
  · rintro rfl
    refine ⟨?_, ?_⟩
    · rw [hw]
      exact hfirst
    · rw [hw]
      exact hlast

/-- The chain from the first child is right in any case. -/
theorem Kids.chain_next (h : Kids g p els) :
    Chain (fun a => (g.widgets.cell a).bind (·.child_next))
      ((g.widgets.cell p).bind (·.child_first)) els := by
  obtain ⟨w, hw, hfirst, -, -⟩ := h.parent
  have hchain := h.seg.chain_next
  rw [addrs_nodesOf, front_nodesOf, or_none] at hchain
  rw [hw, bind_some, hfirst]
  refine hchain.congr fun a _ => ?_
  rw [siblings]
  cases g.widgets.cell a <;> rfl

/-- The widgets after one was created under another one. -/
theorem create_eq {q : Widget} (hp : g.widgets.cell p = some q) (hvalid : q.guiValid = true)
    (ha : g.widgets.cell a = none)
    (hfirst : ∀ f, q.child_first = some f → f ≠ p ∧ ∃ o, g.widgets.cell f = some o) :
    ∃ g', g.create a p = .ok g' ∧ ∀ b, g'.widgets.cell b =
      if b = a then
        some { Widget.init (some p) with
          child_next := q.child_first
          refcnt := 2 }
      else if b = p then
        some { q with
          child_first := some a
          child_last := if q.child_first = none then none else q.child_last }
      else if q.child_first = some b then
        (g.widgets.cell b).map fun o => { o with child_prev := some a }
      else g.widgets.cell b := by
  have hpa : p ≠ a := by
    rintro rfl
    rw [hp] at ha
    cases ha
  rw [create, Heap.load_of_cell hp, ok_bind, if_pos hvalid]
  cases hf : q.child_first with
  | none =>
    simp only [gui_insertChild, modify, ref, Heap.load, cell_set, update_self, hf, ok_bind,
      update_of_ne hpa, update_of_ne hpa.symm, hp, ofOption_some]
    refine ⟨_, rfl, fun b => ?_⟩
    simp only [cell_set, update_apply]
    split_ifs <;> simp_all [Widget.init]
  | some f =>
    obtain ⟨hfp, o, ho⟩ := hfirst f hf
    have hfa : f ≠ a := by
      rintro rfl
      rw [ha] at ho
      cases ho
    simp only [gui_insertChild, modify, ref, Heap.load, cell_set, update_self, hf, ok_bind,
      update_of_ne hpa, update_of_ne hpa.symm, hp, ofOption_some,
      update_of_ne hfa, update_of_ne hfa.symm, ho, update_of_ne hfp.symm]
    refine ⟨_, rfl, fun b => ?_⟩
    simp only [cell_set, update_apply]
    split_ifs <;> simp_all [Widget.init]

/-- The list with a new child. -/
theorem Kids.create (h : Kids g p els) (ha : g.widgets.cell a = none) :
    ∃ g', g.create a p = .ok g' ∧ Kids g' p (a :: els) := by
  obtain ⟨q, hp, hfirst, hlast, hvalid⟩ := h.parent
  have hlive : ∀ b ∈ els, b ≠ a ∧ b ≠ p ∧ ∃ o, g.widgets.cell b = some o := by
    intro b hb
    obtain ⟨o, ho, -⟩ := h.kid b hb
    refine ⟨?_, fun heq => h.other (heq ▸ hb), o, ho⟩
    rintro rfl
    rw [ha] at ho
    cases ho
  have hpa : p ≠ a := by
    rintro rfl
    rw [hp] at ha
    cases ha
  obtain ⟨g', hrun, hcell⟩ := create_eq hp hvalid ha fun f hf =>
    (hlive f (mem_of_mem_head? (hfirst ▸ hf))).2
  refine ⟨g', hrun, ?_, ?_, ?_, nodup_cons.mpr ⟨fun hmem => (hlive a hmem).1 rfl, h.nodup⟩, ?_⟩
  · refine ⟨_, (hcell p).trans ((if_neg hpa).trans (if_pos rfl)), rfl, ?_, hvalid⟩
    simp [hlast]
  · refine ⟨?_, ?_⟩
    · change g'.siblings a = some ⟨none, front none (nodesOf els), ()⟩
      rw [siblings_of_cell ((hcell a).trans (if_pos rfl)), front_nodesOf, or_none, ← hfirst]
      rfl
    · -- The child that was first is linked back to the new one.
      cases els with
      | nil => trivial
      | cons f t =>
        obtain ⟨hfa, hfp, o, ho⟩ := hlive f mem_cons_self
        have hnode := (siblings_of_cell ho).symm.trans h.seg.1
        have hfcell := hcell f
        rw [if_neg hfa, if_neg hfp, if_pos (show q.child_first = some f from hfirst), ho] at hfcell
        refine h.seg.relinkPrev (fun b hb => siblings_congr ?_) ?_
        · have hb : b ∈ t := by simpa using hb
          obtain ⟨hba, hbp, -⟩ := hlive b (mem_cons_of_mem f hb)
          have hbf : f ≠ b := fun heq => (nodup_cons.mp h.nodup).1 (heq ▸ hb)
          rw [hcell b, if_neg hba, if_neg hbp, if_neg (by simpa [hfirst] using hbf)]
        · simp only [Option.some.injEq, Node.mk.injEq] at hnode
          rw [siblings_of_cell hfcell, ← hnode.2.1]
  · intro b hb
    rcases mem_cons.mp hb with rfl | hb
    · exact ⟨_, (hcell b).trans (if_pos rfl), rfl, rfl, rfl⟩
    · obtain ⟨hba, hbp, -⟩ := hlive b hb
      obtain ⟨o, ho, hkid⟩ := h.kid b hb
      rw [hcell b, if_neg hba, if_neg hbp, ho]
      split_ifs
      · exact ⟨_, rfl, hkid⟩
      · exact ⟨o, rfl, hkid⟩
  · exact mem_cons.not.mpr (not_or.mpr ⟨hpa, h.other⟩)

section Remove

variable {q o : Widget} (hp : g.widgets.cell p = some q) (ho : g.widgets.cell a = some o)
  (hpa : p ≠ a)

include hp ho hpa

/-- The widgets after a child was removed that is not the oldest of several. -/
theorem gui_removeChild_eq (hfirst : q.child_first = some a ↔ o.child_prev = none)
    (hprev : ∀ b, o.child_prev = some b → b ≠ p ∧ b ≠ a ∧ ∃ w, g.widgets.cell b = some w)
    (hnext : ∀ b, o.child_next = some b →
      b ≠ p ∧ b ≠ a ∧ o.child_prev ≠ some b ∧ ∃ w, g.widgets.cell b = some w)
    (hlast : o.child_prev = none ∨ o.child_next ≠ none) :
    ∃ g', g.gui_removeChild p a = .ok g' ∧ ∀ b, g'.widgets.cell b =
      if b = p then
        some { q with
          focused_child := if q.focused_child = some a then none else q.focused_child
          hold_layout := if q.hold_layout = some a then none else q.hold_layout
          child_first := if o.child_prev = none then o.child_next else q.child_first
          child_last := if o.child_prev = none ∧ o.child_next = none then none else q.child_last }
      else if o.child_prev = some b then
        (g.widgets.cell b).map fun w => { w with child_next := o.child_next }
      else if o.child_next = some b then
        (g.widgets.cell b).map fun w => { w with child_prev := o.child_prev }
      else g.widgets.cell b := by
  cases hop : o.child_prev with
  | none =>
    have hqf := hfirst.mpr hop
    cases hon : o.child_next with
    | none =>
      simp only [gui_removeChild, onRemovingChild, modify, Heap.load, cell_set, hp, ok_bind,
        ofOption_some, update_self, update_of_ne hpa.symm, ho, hop, hqf, ne_eq,
        not_true, if_false, hon]
      refine ⟨_, rfl, fun b => ?_⟩
      simp only [cell_set, update_apply]
      split_ifs <;> simp_all
    | some n =>
      obtain ⟨hnp, hna, -, w, hw⟩ := hnext n hon
      simp only [gui_removeChild, onRemovingChild, modify, Heap.load, cell_set, hp, ok_bind,
        ofOption_some, update_self, update_of_ne hpa.symm, ho, hop, hqf, ne_eq,
        not_true, if_false, hon, update_of_ne hnp, hw]
      refine ⟨_, rfl, fun b => ?_⟩
      simp only [cell_set, update_apply]
      split_ifs <;> simp_all
  | some m =>
    obtain ⟨hmp, hma, v, hv⟩ := hprev m hop
    have hqf : q.child_first ≠ some a := fun heq => by
      rw [hfirst.mp heq] at hop
      cases hop
    cases hon : o.child_next with
    | none => exact absurd hon (hlast.resolve_left (by simp [hop]))
    | some n =>
      obtain ⟨hnp, hna, hmn, w, hw⟩ := hnext n hon
      have hnm : n ≠ m := fun heq => hmn (hop.trans (congrArg some heq.symm))
      simp only [gui_removeChild, onRemovingChild, modify, Heap.load, cell_set, hp, ok_bind,
        ofOption_some, update_self, update_of_ne hpa.symm, ho, hop, hqf,
        if_false, hon, update_of_ne hnp, hw, update_of_ne hmp, hv,
        update_of_ne hnm]
      refine ⟨_, rfl, fun b => ?_⟩
      simp only [cell_set, update_apply]
      split_ifs <;> simp_all

/-- The oldest of several children is not the last one of the parent: an assertion fails. -/
theorem gui_removeChild_fault (hfirst : q.child_first ≠ some a) (hlast : q.child_last ≠ some a)
    {m : Addr} {v : Widget} (hop : o.child_prev = some m) (hmp : m ≠ p)
    (hv : g.widgets.cell m = some v) (hon : o.child_next = none) :
    g.gui_removeChild p a = .fault := by
  simp only [gui_removeChild, onRemovingChild, modify, Heap.load, cell_set, hp, ok_bind,
    ofOption_some, update_self, update_of_ne hpa.symm, ho, hop, hfirst, if_false,
    hon, update_of_ne hmp, hv, update_of_ne hmp.symm, ne_eq, hlast,
    not_false_eq_true, if_true]

end Remove

theorem back_nodesOf (q : Option Addr) : back q (nodesOf els) = els.getLast?.or q := by
  obtain rfl | ⟨l, x, rfl⟩ := eq_nil_or_concat' els
  · rfl
  · rw [nodesOf_append]
    exact (back_concat q (nodesOf l) (x, ())).trans (by simp)

section

variable (h : Kids g p (l₁ ++ a :: l₂))
include h

theorem Kids.exists_child : ∃ o, g.widgets.cell a = some o ∧
    o.parent = some p ∧ o.child_first = none ∧ o.child_prev = l₁.getLast? ∧
      o.child_next = l₂.head? := by
  obtain ⟨o, ho, hparent, hfirst, -⟩ := h.kid a (by simp)
  have hseg := h.seg
  rw [nodesOf_append] at hseg
  have hnode := (siblings_of_cell ho).symm.trans (seg_append.mp hseg).2.1
  simp only [Option.some.injEq, Node.mk.injEq, back_nodesOf, or_none] at hnode
  refine ⟨o, ho, hparent, hfirst, hnode.1, hnode.2.1.trans ?_⟩
  exact (front_nodesOf none).trans or_none

/-- A child is on the list once, and all are live. -/
theorem Kids.apart : a ∉ l₁ ∧ a ∉ l₂ ∧ (∀ b ∈ l₁, b ∉ l₂) ∧
    ∀ b ∈ l₁ ++ l₂, b ≠ p ∧ b ≠ a ∧ ∃ w, g.widgets.cell b = some w := by
  obtain ⟨-, hright, hboth⟩ := nodup_append.mp h.nodup
  obtain ⟨ha₂, -⟩ := nodup_cons.mp hright
  have ha₁ : a ∉ l₁ := fun hmem => hboth a hmem a mem_cons_self rfl
  refine ⟨ha₁, ha₂, fun b hb hb' => hboth b hb b (mem_cons_of_mem a hb') rfl, ?_⟩
  intro b hb
  have hmem : b ∈ l₁ ++ a :: l₂ := by
    rcases mem_append.mp hb with hb | hb <;> simp [hb]
  obtain ⟨w, hw, -⟩ := h.kid b hmem
  refine ⟨fun heq => h.other (heq ▸ hmem), ?_, w, hw⟩
  rintro rfl
  exact (mem_append.mp hb).elim ha₁ ha₂

/-- The widgets after a child was removed from a list. -/
theorem Kids.removeChild_eq (hlast : l₁ = [] ∨ l₂ ≠ []) :
    ∃ g' q, g.gui_removeChild p a = .ok g' ∧ g'.widgets.cell p = some q ∧
      q.child_first = (l₁ ++ l₂).head? ∧ q.child_last = none ∧ q.guiValid = true ∧
      ∀ b, b ≠ p → g'.widgets.cell b =
        if l₁.getLast? = some b then
          (g.widgets.cell b).map fun w => { w with child_next := l₂.head? }
        else if l₂.head? = some b then
          (g.widgets.cell b).map fun w => { w with child_prev := l₁.getLast? }
        else g.widgets.cell b := by
  obtain ⟨q, hp, hfirst, hqlast, hvalid⟩ := h.parent
  obtain ⟨o, ho, -, -, hprev, hnext⟩ := h.exists_child
  obtain ⟨ha₁, ha₂, hdisjoint, hlive⟩ := h.apart
  have hpa : p ≠ a := fun heq => h.other (by simp [heq])
  have hiff : q.child_first = some a ↔ o.child_prev = none := by
    rw [hfirst, hprev, List.getLast?_eq_none_iff]
    cases l₁ with
    | nil => simp
    | cons z m => simpa using Ne.symm (ne_of_not_mem_cons ha₁)
  obtain ⟨g', hrun, hcell⟩ := gui_removeChild_eq hp ho hpa hiff
    (fun b hb => hlive b (mem_append_left l₂ (mem_of_getLast? (hprev ▸ hb))))
    (fun b hb => by
      have hmem : b ∈ l₂ := mem_of_mem_head? (hnext ▸ hb)
      obtain ⟨hbp, hba, hw⟩ := hlive b (mem_append_right l₁ hmem)
      exact ⟨hbp, hba, fun heq => hdisjoint b (mem_of_getLast? (hprev ▸ heq)) hmem, hw⟩)
    (hlast.imp (fun heq => by rw [hprev, heq]; rfl) fun hne heq =>
      hne (List.head?_eq_none_iff.mp (hnext ▸ heq)))
  rw [hprev, hnext] at hcell
  refine ⟨g', _, hrun, (hcell p).trans (if_pos rfl), ?_, ?_, hvalid, fun b hb => ?_⟩
  · cases l₁ with
    | nil => rfl
    | cons z m => simp [hfirst]
  · rw [hqlast]
    exact ite_self none
  · exact (hcell b).trans (if_neg hb)

end

/-- The last one of some nodes is linked to another one behind it. -/
theorem seg_linkNext {q q' : Option Addr} (h : Seg g.siblings none (nodesOf els) q)
    (hnodup : els.Nodup) (hcell : ∀ b ∈ els, g'.widgets.cell b =
      if els.getLast? = some b then (g.widgets.cell b).map fun w => { w with child_next := q' }
      else g.widgets.cell b) : Seg g'.siblings none (nodesOf els) q' := by
  obtain rfl | ⟨l, z, rfl⟩ := eq_nil_or_concat' els
  · trivial
  have hz : z ∉ l := fun hmem =>
    (nodup_append.mp hnodup).2.2 z hmem z (mem_singleton_self z) rfl
  rw [nodesOf_append] at h ⊢
  refine Seg.relinkNext (x := (z, ())) h (fun b hb => siblings_congr ?_) ?_
  · have hb : b ∈ l := by simpa using hb
    rw [hcell b (mem_append_left [z] hb), List.getLast?_concat,
      if_neg (by simpa using (ne_of_mem_of_not_mem hb hz).symm)]
  · have hnode := (seg_append.mp h).2.1
    obtain ⟨w, hw, -⟩ := map_eq_some_iff.mp hnode
    have hzcell := hcell z (by simp)
    rw [if_pos List.getLast?_concat, hw] at hzcell
    rw [siblings_of_cell hw] at hnode
    simp only [Option.some.injEq, Node.mk.injEq] at hnode
    rw [siblings_of_cell hzcell, ← hnode.1]

/-- The first one of some nodes is linked to another one before it. -/
theorem seg_linkPrev {q q' : Option Addr} (h : Seg g.siblings q (nodesOf els) none)
    (hnodup : els.Nodup) (hcell : ∀ b ∈ els, g'.widgets.cell b =
      if els.head? = some b then (g.widgets.cell b).map fun w => { w with child_prev := q' }
      else g.widgets.cell b) : Seg g'.siblings q' (nodesOf els) none := by
  cases els with
  | nil => trivial
  | cons n l =>
    have hn : n ∉ l := (nodup_cons.mp hnodup).1
    refine Seg.relinkPrev (x := (n, ())) h (fun b hb => siblings_congr ?_) ?_
    · have hb : b ∈ l := by simpa using hb
      rw [hcell b (mem_cons_of_mem n hb), List.head?_cons,
        if_neg (by simpa using (ne_of_mem_of_not_mem hb hn).symm)]
    · have hnode := h.1
      obtain ⟨w, hw, -⟩ := map_eq_some_iff.mp hnode
      have hncell := hcell n mem_cons_self
      rw [if_pos List.head?_cons, hw] at hncell
      rw [siblings_of_cell hw] at hnode
      simp only [Option.some.injEq, Node.mk.injEq] at hnode
      rw [siblings_of_cell hncell, ← hnode.2.1]

/-- A list without a child that is not the oldest of several. -/
theorem Kids.removeChild (h : Kids g p (l₁ ++ a :: l₂)) (hlast : l₁ = [] ∨ l₂ ≠ []) :
    ∃ g', g.gui_removeChild p a = .ok g' ∧ Kids g' p (l₁ ++ l₂) ∧
      g'.widgets.cell a = g.widgets.cell a := by
  obtain ⟨ha₁, ha₂, hdisjoint, hlive⟩ := h.apart
  obtain ⟨g', q, hrun, hq, hfirst, hqlast, hvalid, hcell⟩ := h.removeChild_eq hlast
  have hnodup : (l₁ ++ l₂).Nodup := h.nodup.sublist (by simp)
  have hseg := h.seg
  rw [nodesOf_append] at hseg
  obtain ⟨hleft, -, hright⟩ := seg_append.mp hseg
  refine ⟨g', hrun, ⟨⟨q, hq, hfirst, hqlast, hvalid⟩, ?_, ?_, hnodup, ?_⟩, ?_⟩
  · -- What was before the child is linked to what was behind it.
    rw [nodesOf_append]
    refine seg_append.mpr ⟨?_, ?_⟩
    · rw [front_nodesOf, or_none]
      refine seg_linkNext hleft (nodup_append.mp hnodup).1 fun b hb => ?_
      rw [hcell b (hlive b (mem_append_left l₂ hb)).1,
        if_neg (fun heq : l₂.head? = some b => hdisjoint b hb (mem_of_mem_head? heq))]
    · rw [back_nodesOf, or_none]
      refine seg_linkPrev hright (nodup_append.mp hnodup).2.1 fun b hb => ?_
      rw [hcell b (hlive b (mem_append_right l₁ hb)).1,
        if_neg fun heq => hdisjoint b (mem_of_getLast? heq) hb]
  · intro b hb
    obtain ⟨w, hw, hkid⟩ := h.kid b (by
      rcases mem_append.mp hb with hb | hb <;> simp [hb])
    rw [hcell b (hlive b hb).1, hw]
    split_ifs
    · exact ⟨_, rfl, hkid⟩
    · exact ⟨_, rfl, hkid⟩
    · exact ⟨w, rfl, hkid⟩
  · intro hmem
    exact (hlive p hmem).1 rfl
  · have hpa : a ≠ p := fun heq => h.other (by simp [heq])
    rw [hcell a hpa, if_neg fun heq => ha₁ (mem_of_getLast? heq),
      if_neg (fun heq : l₂.head? = some a => ha₂ (mem_of_mem_head? heq))]

/-- A child with one before it and none behind it is not removed: an assertion fails. -/
theorem Kids.removeChild_fault (h : Kids g p (l₁ ++ [a])) (hl : l₁ ≠ []) :
    g.gui_removeChild p a = .fault := by
  obtain ⟨q, hp, hfirst, hqlast, -⟩ := h.parent
  obtain ⟨o, ho, -, -, hprev, hnext⟩ := h.exists_child
  obtain ⟨ha₁, -, -, hlive⟩ := h.apart
  obtain ⟨m, z, rfl⟩ := (eq_nil_or_concat' l₁).resolve_left hl
  obtain ⟨hzp, -, v, hv⟩ := hlive z (by simp)
  have hpa : p ≠ a := fun heq => h.other (by simp [heq])
  refine gui_removeChild_fault hp ho hpa (fun heq => ?_) (by simp [hqlast])
    (hprev.trans List.getLast?_concat) hzp hv hnext
  obtain ⟨y, l, hm⟩ := exists_cons_of_ne_nil hl
  rw [hm] at hfirst ha₁
  exact ha₁ (by simpa [hfirst] using Or.inl heq.symm)

/-! ### Runs -/

/-- The number of references is no matter of the list. -/
theorem Kids.setRefcnt (h : Kids g p els) (hw : g.widgets.cell a = some w) (hpa : a ≠ p) (n : Nat) :
    Kids (g.set a { w with refcnt := n }) p els := by
  obtain ⟨q, hq, hparent⟩ := h.parent
  have hsiblings : (g.set a { w with refcnt := n }).siblings = g.siblings := by
    ext1 b
    by_cases hb : b = a
    · subst hb
      rw [siblings_of_cell hw, siblings, cell_set, update_self]
      rfl
    · exact siblings_congr (update_of_ne hb ..)
  refine ⟨⟨q, (update_of_ne hpa.symm ..).trans hq, hparent⟩, hsiblings ▸ h.seg, ?_,
    h.nodup, h.other⟩
  intro b hb
  obtain ⟨v, hv, hkid⟩ := h.kid b hb
  by_cases hba : b = a
  · subst hba
    obtain rfl := Option.some.inj (hv.symm.trans hw)
    exact ⟨_, update_self .., hkid⟩
  · exact ⟨v, (update_of_ne hba ..).trans hv, hkid⟩

/-- A reference is given back that is not the last one of a child. -/
theorem Kids.unref (h : Kids g p els) (hw : g.widgets.cell a = some w) (hpa : a ≠ p)
    (hlast : a ∈ els ∧ w.refcnt = 2 ∨ a ∉ els ∧ w.guiValid = false) :
    ∃ g', (∀ removing, g.unref removing a = .ok g') ∧ Kids g' p els := by
  by_cases hone : w.refcnt ≤ 1
  · obtain ⟨-, htwo⟩ | ⟨ha, hvalid⟩ := hlast
    · omega
    · refine ⟨{ g with widgets := g.widgets.erase a }, fun removing => ?_,
        h.congr (update_of_ne hpa.symm ..) fun b hb =>
          update_of_ne (ne_of_mem_of_not_mem hb ha) ..⟩
      rw [Gui.unref, Heap.load_of_cell hw, ok_bind, if_pos hone, hvalid]
      rfl
  · refine ⟨_, fun removing => ?_, h.setRefcnt hw hpa (w.refcnt - 1)⟩
    rw [Gui.unref, Heap.load_of_cell hw, ok_bind, if_neg hone, modify_of_cell hw]

theorem gui_removing_eq (hw : g.widgets.cell a = some w) (hparent : w.parent = some p)
    (hfirst : w.child_first = none) (fuel : Nat) :
    gui_removing (fuel + 2) g a = g.gui_removeChild p a >>= fun g =>
      g.modify a fun w => { w with guiValid := false } := by
  rw [gui_removing, destroyChilds, Heap.load_of_cell hw, ok_bind, hfirst]
  simp only [ok_bind, Heap.load_of_cell hw, hparent]

/-- A child that is not the oldest of several is destroyed. -/
theorem Kids.destroy (h : Kids g p (l₁ ++ a :: l₂)) (hlast : l₁ = [] ∨ l₂ ≠ []) :
    ∃ g', Returns (fun fuel => g.gui_destroy fuel a) g' ∧ Kids g' p (l₁ ++ l₂) := by
  obtain ⟨o, ho, hparent, hfirst, -⟩ := h.exists_child
  obtain ⟨ha₁, ha₂, -⟩ := h.apart
  have hpa : a ≠ p := fun heq => h.other (by simp [heq])
  have ha : a ∉ l₁ ++ l₂ := mem_append.not.mpr (not_or.mpr ⟨ha₁, ha₂⟩)
  obtain ⟨g₁, hrun, hkids, hcell⟩ := h.removeChild hlast
  rw [ho] at hcell
  have hinvalid : Kids (g₁.set a { o with guiValid := false }) p (l₁ ++ l₂) :=
    hkids.congr (update_of_ne hpa.symm ..) fun b hb =>
      update_of_ne (ne_of_mem_of_not_mem hb ha) ..
  obtain ⟨g', hunref, hkids'⟩ := hinvalid.unref (update_self ..) hpa (.inr ⟨ha, rfl⟩)
  refine ⟨g', Returns.of_add 2 fun fuel => ?_, hkids'⟩
  rw [gui_destroy, gui_removing_eq ho hparent hfirst, hrun, ok_bind, modify_of_cell hcell, ok_bind]
  exact hunref _

theorem Kids.destroy_fault (h : Kids g p (l₁ ++ [a])) (hl : l₁ ≠ []) (fuel : Nat) :
    g.gui_destroy (fuel + 2) a = .fault := by
  obtain ⟨o, ho, hparent, hfirst, -⟩ := h.exists_child
  rw [gui_destroy, gui_removing_eq ho hparent hfirst, h.removeChild_fault hl]
  rfl

/-- A child is destroyed exactly if there is none before it, or one behind it. -/
theorem Kids.destroy_iff (h : Kids g p (l₁ ++ a :: l₂)) :
    (∃ g', Returns (fun fuel => g.gui_destroy fuel a) g') ↔ l₁ = [] ∨ l₂ ≠ [] := by
  constructor
  · rintro ⟨g', least, hall⟩
    by_contra hnot
    obtain ⟨hl₁, hl₂⟩ := not_or.mp hnot
    obtain rfl := not_not.mp hl₂
    have hok : g.gui_destroy (least + 2) a = .ok g' := hall (least + 2) (by omega)
    rw [h.destroy_fault hl₁ least] at hok
    cases hok
  · intro hor
    obtain ⟨g', hdestroy, -⟩ := h.destroy hor
    exact ⟨g', hdestroy⟩

/-- A child with none before it is the newest one, one with none behind it the oldest one. -/
theorem Kids.ends_iff (h : Kids g p (l₁ ++ a :: l₂)) :
    ((l₁ ++ a :: l₂).head? = some a ∨ (l₁ ++ a :: l₂).getLast? ≠ some a) ↔ l₁ = [] ∨ l₂ ≠ [] := by
  obtain ⟨ha₁, ha₂, -⟩ := h.apart
  have hhead : (l₁ ++ a :: l₂).head? = some a ↔ l₁ = [] := by
    cases l₁ with
    | nil => simp
    | cons y l => simpa using Ne.symm (ne_of_not_mem_cons ha₁)
  have hlast : (l₁ ++ a :: l₂).getLast? = some a ↔ l₂ = [] := by
    obtain rfl | ⟨m, z, rfl⟩ := eq_nil_or_concat' l₂
    · simp
    · rw [← cons_append, ← append_assoc, List.getLast?_concat]
      have hza : z ≠ a := fun heq => ha₂ (by simp [heq])
      simpa using hza
  rw [hhead, Ne, hlast]

/-- In every state of a run the list is right but for the last child. -/
theorem ChildRun.kids (run : ChildRun p g els) : Kids g p els := by
  induction run with
  | nil hw hfirst hlast hvalid =>
    exact ⟨⟨_, hw, hfirst, hlast, hvalid⟩, trivial, by simp, nodup_nil, not_mem_nil⟩
  | @snoc g g' els event _ valid step ih =>
    cases event with
    | create a =>
      obtain ⟨g₁, hrun, hkids⟩ := ih.create valid
      obtain rfl := (Returns.of_eq fun _ => hrun).unique step
      exact hkids
    | remove a =>
      obtain ⟨l₁, l₂, rfl⟩ := append_of_mem (show a ∈ els from valid)
      obtain ⟨g₁, hdestroy, hkids⟩ := ih.destroy (ih.destroy_iff.mp ⟨g', step⟩)
      obtain rfl := hdestroy.unique step
      rw [ChildEvent.children, erase_append_right _ ih.apart.1, erase_cons_head]
      exact hkids
    | unref a =>
      obtain ⟨w, hw, hpa, hlast⟩ := valid
      obtain ⟨g₁, hrun, hkids⟩ := ih.unref hw hpa hlast
      obtain rfl := (Returns.of_eq fun _ => hrun _).unique step
      exact hkids

/-- After any run, the chain from the first child goes through the live children, but that from the
last child only if there are none. A child is destroyed, without a failing assertion, exactly if it
is the newest one or not the oldest one. -/
theorem childRun_describes_iff (run : ChildRun p g els) :
    Chain (fun a => (g.widgets.cell a).bind (·.child_next))
        ((g.widgets.cell p).bind (·.child_first)) els ∧
      (Describes g p els ↔ els = []) ∧
      ∀ a ∈ els, (∃ g', Returns (fun fuel => g.gui_destroy fuel a) g') ↔
        els.head? = some a ∨ els.getLast? ≠ some a := by
  refine ⟨run.kids.chain_next, run.kids.describes_iff, fun a ha => ?_⟩
  obtain ⟨l₁, l₂, rfl⟩ := append_of_mem ha
  exact run.kids.destroy_iff.trans run.kids.ends_iff.symm

theorem ChildRun.create (run : ChildRun p g els) : ∃ a g', ChildRun p g' (a :: els) := by
  obtain ⟨a, ha⟩ := g.widgets.exists_free
  obtain ⟨g', hrun, -⟩ := run.kids.create ha
  exact ⟨a, g', run.snoc (show (ChildEvent.create a).Valid g p els from ha)
    (Returns.of_eq fun _ => hrun)⟩

/-- A shell. -/
def shellOf (p : Addr) : Gui := ⟨some p, Heap.empty.put p (.init none)⟩

theorem childRun_shell (p : Addr) : ChildRun p (shellOf p) [] :=
  .nil (update_self ..) rfl rfl rfl

theorem ChildRun.remove (run : ChildRun p g els) (ha : a ∈ els)
    (h : ∃ g', Returns (fun fuel => g.gui_destroy fuel a) g') :
    ∃ g', ChildRun p g' (els.erase a) := by
  obtain ⟨g', hdestroy⟩ := h
  exact ⟨g', run.snoc (show (ChildEvent.remove a).Valid g p els from ha) hdestroy⟩

/-- Three children are created. The middle one is destroyed, then the newest one, and at last the
only one that is left. -/
theorem childRun_describes_three : ∃ g₃ g₂ g₁ g₀ a b c, ChildRun 0 g₃ [c, b, a] ∧
    ChildRun 0 g₂ [c, a] ∧ ChildRun 0 g₁ [a] ∧ ChildRun 0 g₀ [] ∧ Describes g₀ 0 [] := by
  obtain ⟨a, _, run₁⟩ := (childRun_shell 0).create
  obtain ⟨b, _, run₂⟩ := run₁.create
  obtain ⟨c, g₃, run₃⟩ := run₂.create
  have hcb : c ≠ b := by
    have hnodup := run₃.kids.nodup
    simp only [nodup_cons, mem_cons, not_or] at hnodup
    exact hnodup.1.1
  -- The middle child is not the oldest one.
  have hab : [c, b, a].getLast? ≠ some b := by
    have hnodup := run₂.kids.nodup
    simp only [nodup_cons, mem_singleton] at hnodup
    simpa using Ne.symm hnodup.1
  obtain ⟨g₂, run₄⟩ := run₃.remove (by simp)
    (((childRun_describes_iff run₃).2.2 b (by simp)).mpr (.inr hab))
  rw [erase_cons_tail (by simpa using hcb), erase_cons_head] at run₄
  obtain ⟨g₁, run₅⟩ := run₄.remove (by simp)
    (((childRun_describes_iff run₄).2.2 c (by simp)).mpr (.inl rfl))
  rw [erase_cons_head] at run₅
  obtain ⟨g₀, run₆⟩ := run₅.remove (by simp)
    (((childRun_describes_iff run₅).2.2 a (by simp)).mpr (.inl rfl))
  rw [erase_cons_head] at run₆
  exact ⟨g₃, g₂, g₁, g₀, a, b, c, run₃, run₄, run₅, run₆,
    (childRun_describes_iff run₆).2.1.mpr rfl⟩

/-- Two children are created: the older one is not the parent's last one, and is not removed. -/
theorem not_describes_two : ∃ g a b, ChildRun 0 g [b, a] ∧ ¬ Describes g 0 [b, a] ∧
    ∀ fuel, gui_destroy (fuel + 2) g a = .fault := by
  obtain ⟨a, g, run⟩ := (childRun_shell 0).create
  obtain ⟨b, g', run'⟩ := run.create
  refine ⟨g', a, b, run', fun h => ?_, ?_⟩
  · cases run'.kids.describes_iff.mp h
  · exact Kids.destroy_fault (show Kids g' 0 ([b] ++ [a]) from run'.kids) (by simp)

end Gui

end Drt
