import Drt.Gui.Widget

/-!
# Trees of widgets

Whether a widget is disabled is kept in the widget, though it depends on all that are above it. A
widget that is created does not look at its parent, and one that is enabled or disabled does not
tell those below it.

The focus is kept twice, by links from the shell down to the widget and as a flag of the widget. The
links may go on below the widget that has the flag, and the flag is taken from where they end.
-/

open List Function Option

namespace Drt

namespace Gui

/-- `setEnabled`; the notifiers that `onEnabledChanged` calls are the program's. -/
def setEnabled (g : Gui) (this : Addr) (enabled : Bool) : Call Gui := do
  let w ← g.widgets.load this
  if (!w.reqDisabled) = enabled then .ok g
  else do
    let g ← g.modify this fun w => { w with reqDisabled := !enabled }
    let w ← g.widgets.load this
    match w.parent with
    | some parent => do
      let p ← g.widgets.load parent
      g.modify this fun w => { w with disabled := w.reqDisabled || p.disabled }
    | none => g.modify this fun w => { w with disabled := w.reqDisabled }

/-- `loosingFocus`, unless it is overridden. -/
def loosingFocus (g : Gui) (this : Addr) : Call (Bool × Gui) := do
  let g ← g.modify this fun w => { w with focused := false }
  .ok (true, g)

/-- `settingFocus`, unless it is overridden. -/
def settingFocus (g : Gui) (this : Addr) : Call (Bool × Gui) := do
  let g ← g.modify this fun w => { w with focused := true }
  .ok (true, g)

/-- The first loop of `setFocus`: the last widget on the way up that its parent has not as the
focused one. -/
def climb : Nat → Gui → Addr → Addr → Call Addr
  | 0, _, _, _ => .outOfFuel
  | fuel + 1, g, cur_focus, change_focus => do
    let w ← g.widgets.load cur_focus
    match w.parent with
    | none => .ok change_focus
    | some parent => do
      let p ← g.widgets.load parent
      climb fuel g parent (if p.focused_child ≠ some cur_focus then cur_focus else change_focus)

/-- The second loop: the end of the links. -/
def descend : Nat → Gui → Addr → Call Addr
  | 0, _, _ => .outOfFuel
  | fuel + 1, g, cur_focus => do
    let w ← g.widgets.load cur_focus
    match w.focused_child with
    | none => .ok cur_focus
    | some child => descend fuel g child

/-- The last loop: links down from `change_focus`. -/
def relink : Nat → Gui → Addr → Addr → Call Gui
  | 0, _, _, _ => .outOfFuel
  | fuel + 1, g, cur_focus, change_focus =>
    if cur_focus = change_focus then .ok g
    else do
      let w ← g.widgets.load cur_focus
      match w.parent with
      | none => .fault
      | some parent => do
        let g ← g.modify parent fun p => { p with focused_child := some cur_focus }
        relink fuel g parent change_focus

def setFocus (fuel : Nat) (g : Gui) (this : Addr) : Call (Bool × Gui) := do
  let change_focus ← climb fuel g this this
  let c ← g.widgets.load change_focus
  let change_focus := c.parent.getD change_focus
  let cur_focus ← descend fuel g change_focus
  let (ready, g) ← g.loosingFocus cur_focus
  if !ready then .ok (false, g)
  else do
    let (ready, g) ← g.settingFocus this
    if !ready then do
      let (_, g) ← g.settingFocus cur_focus
      .ok (false, g)
    else do
      let g ← relink fuel g this change_focus
      .ok (true, g)

end Gui

/-- A call of the program: a widget is created at an address under another one, or one is enabled,
disabled or given the focus. -/
inductive WidgetEvent where
  | create (a parent : Addr)
  | setEnabled (a : Addr) (enabled : Bool)
  | setFocus (a : Addr)
  deriving DecidableEq, Repr

/-- The widgets, and the one that was given the focus last. -/
structure FocusState where
  gui : Gui
  last : Option Addr

namespace WidgetEvent

/-- A new widget has memory of its own; the others are live. -/
def Valid (g : Gui) : WidgetEvent → Prop
  | create a parent => g.widgets.cell a = none ∧ g.widgets.cell parent ≠ none
  | setEnabled a _ => g.widgets.cell a ≠ none
  | setFocus a => g.widgets.cell a ≠ none

/-- What the code does. -/
def apply (g : Gui) (fuel : Nat) : WidgetEvent → Call Gui
  | create a parent => g.create a parent
  | setEnabled a enabled => g.setEnabled a enabled
  | setFocus a => do
    let (_, g) ← g.setFocus fuel a
    .ok g

/-- The widget that was given the focus last. -/
def last (l : Option Addr) : WidgetEvent → Option Addr
  | setFocus a => some a
  | _ => l

end WidgetEvent

/-- Runs of calls on the widgets of a shell, with the states before each call. -/
inductive TreeRun (root : Addr) : List (FocusState × WidgetEvent) → FocusState → Prop where
  | nil {g : Gui} (start : (⟨none, .empty⟩ : Gui).createShell root = .ok g) :
      TreeRun root [] ⟨g, none⟩
  | snoc {steps : List (FocusState × WidgetEvent)} {s : FocusState} {g' : Gui} {event : WidgetEvent}
      (run : TreeRun root steps s) (valid : event.Valid s.gui)
      (step : Outcome.Returns (fun fuel => event.apply s.gui fuel) g') :
      TreeRun root (steps ++ [(s, event)]) ⟨g', event.last s.last⟩

/-- What widgets know of each other. -/
abbrev Traits := Addr → Option WidgetTraits

/-- What the widgets in memory know of each other. -/
def Gui.traits (g : Gui) : Traits := fun a => (g.widgets.cell a).map Widget.toWidgetTraits

namespace Traits

open Relation

/-- `b` is the parent of `a`. -/
def Up (t : Traits) (a b : Addr) : Prop := (t a).bind (·.parent) = some b

/-- `b` is the focused child of `a`. -/
def Down (t : Traits) (a b : Addr) : Prop := (t a).bind (·.focused_child) = some b

/-- Following `focused_child` leads from `a` through `b`. -/
abbrev Leads (t : Traits) (a b : Addr) : Prop := ReflTransGen t.Down a b

/-- Each widget is disabled exactly if it or one above it has been requested to be. -/
def Inherits (t : Traits) : Prop := ∀ a w, t a = some w →
  (w.disabled = true ↔ ∃ b v, ReflTransGen t.Up a b ∧ t b = some v ∧ v.reqDisabled = true)

/-- There is a height at which each widget is, below that of its parent, and a limit to it. -/
structure Ranked (t : Traits) (rank : Addr → Nat) (n : Nat) : Prop where
  lt : ∀ a w, t a = some w → rank a < n
  parent : ∀ a w p, t a = some w → w.parent = some p → (∃ v, t p = some v) ∧ rank p < rank a

/-- A tree: every widget but the shell has a parent, and a focused child is a child. -/
structure Tree (root : Addr) (t : Traits) : Prop where
  shell : ∃ w, t root = some w ∧ w.parent = none
  only : ∀ a w, t a = some w → w.parent = none → a = root
  ranked : ∃ rank n, t.Ranked rank n
  focus : ∀ a w c, t a = some w → w.focused_child = some c → ∃ v, t c = some v ∧ v.parent = some a

variable {t t' : Traits} {root a b c p : Addr} {w : WidgetTraits} {rank : Addr → Nat} {n : Nat}

theorem up_iff : t.Up a b ↔ ∃ w, t a = some w ∧ w.parent = some b := bind_eq_some_iff

theorem down_iff : t.Down a b ↔ ∃ w, t a = some w ∧ w.focused_child = some b :=
  bind_eq_some_iff

/-- The links of a widget. -/
def links (w : WidgetTraits) : Option Addr × Option Addr := (w.parent, w.focused_child)

section SameLinks

variable (heq : ∀ a, (t' a).map links = (t a).map links)

include heq

theorem up_congr : t'.Up = t.Up := by
  ext a b
  have hparent : (t' a).bind (·.parent) = (t a).bind (·.parent) := by
    have hfst := congrArg (fun o => o.bind Prod.fst) (heq a)
    simpa [bind_map, comp_def, links] using hfst
  rw [Up, Up, hparent]

theorem down_congr : t'.Down = t.Down := by
  ext a b
  have hchild : (t' a).bind (·.focused_child) = (t a).bind (·.focused_child) := by
    have hsnd := congrArg (fun o => o.bind Prod.snd) (heq a)
    simpa [bind_map, comp_def, links] using hsnd
  rw [Down, Down, hchild]

theorem exists_of_links (hw : t' a = some w) :
    ∃ v, t a = some v ∧ v.parent = w.parent ∧ v.focused_child = w.focused_child := by
  have hmap := heq a
  rw [hw, map_some] at hmap
  obtain ⟨v, hv, hlinks⟩ := map_eq_some_iff.mp hmap.symm
  exact ⟨v, hv, (Prod.mk.inj hlinks).1, (Prod.mk.inj hlinks).2⟩

/-- A tree is made by the links. -/
theorem Tree.congr (h : t.Tree root) : t'.Tree root := by
  have hback : ∀ {b v}, t b = some v →
      ∃ w, t' b = some w ∧ w.parent = v.parent ∧ w.focused_child = v.focused_child := fun hv =>
    exists_of_links (fun a => (heq a).symm) hv
  obtain ⟨rank, n, hr⟩ := h.ranked
  refine ⟨?_, ?_, ⟨rank, n, ?_, ?_⟩, ?_⟩
  · obtain ⟨v, hv, hparent⟩ := h.shell
    obtain ⟨w, hw, hw', -⟩ := hback hv
    exact ⟨w, hw, hw'.trans hparent⟩
  · intro a w hw hparent
    obtain ⟨v, hv, hv', -⟩ := exists_of_links heq hw
    exact h.only a v hv (hv'.trans hparent)
  · intro a w hw
    obtain ⟨v, hv, -⟩ := exists_of_links heq hw
    exact hr.lt a v hv
  · intro a w p hw hparent
    obtain ⟨v, hv, hv', -⟩ := exists_of_links heq hw
    obtain ⟨⟨u, hu⟩, hlt⟩ := hr.parent a v p hv (hv'.trans hparent)
    obtain ⟨u', hu', -⟩ := hback hu
    exact ⟨⟨u', hu'⟩, hlt⟩
  · intro a w c hw hc
    obtain ⟨v, hv, -, hv'⟩ := exists_of_links heq hw
    obtain ⟨u, hu, hparent⟩ := h.focus a v c hv (hv'.trans hc)
    obtain ⟨u', hu', hu'', -⟩ := hback hu
    exact ⟨u', hu', hu''.trans hparent⟩

end SameLinks

variable {v : WidgetTraits}

theorem links_update (hw : t a = some w) (hv : links v = links w) (b : Addr) :
    (update t a (some v) b).map links = (t b).map links := by
  by_cases hb : b = a
  · rw [hb, update_self, hw, map_some, map_some, hv]
  · rw [update_of_ne hb]

/-! ### Widgets that are disabled -/

/-- The widget or one above it has been requested to be disabled. -/
def Asked (t : Traits) (a : Addr) : Prop :=
  ∃ b v, ReflTransGen t.Up a b ∧ t b = some v ∧ v.reqDisabled = true

/-- The parent is disabled. -/
def UnderDisabled (t : Traits) (w : WidgetTraits) : Prop :=
  ∃ p v, w.parent = some p ∧ t p = some v ∧ v.disabled = true

theorem asked_iff (hw : t a = some w) :
    t.Asked a ↔ w.reqDisabled = true ∨ ∃ p, w.parent = some p ∧ t.Asked p := by
  constructor
  · rintro ⟨b, v, hab, hv, hreq⟩
    rcases ReflTransGen.cases_head hab with rfl | ⟨p, hap, hpb⟩
    · obtain rfl := Option.some.inj (hw.symm.trans hv)
      exact .inl hreq
    · obtain ⟨w', hw', hparent⟩ := up_iff.mp hap
      obtain rfl := Option.some.inj (hw.symm.trans hw')
      exact .inr ⟨p, hparent, b, v, hpb, hv, hreq⟩
  · rintro (hreq | ⟨p, hparent, b, v, hpb, hv, hreq⟩)
    · exact ⟨a, w, .refl, hw, hreq⟩
    · exact ⟨b, v, .head (up_iff.mpr ⟨w, hw, hparent⟩) hpb, hv, hreq⟩

/-- Each widget has to agree with its parent only. -/
theorem Tree.inherits_iff (h : t.Tree root) : t.Inherits ↔ ∀ a w, t a = some w →
    (w.disabled = true ↔ w.reqDisabled = true ∨ t.UnderDisabled w) := by
  obtain ⟨rank, n, hr⟩ := h.ranked
  constructor
  · intro hall a w hw
    rw [hall a w hw]
    change t.Asked a ↔ _
    rw [asked_iff hw]
    refine or_congr_right (exists_congr fun p => ?_)
    constructor
    · rintro ⟨hparent, hasked⟩
      obtain ⟨v, hv⟩ := (hr.parent a w p hw hparent).1
      exact ⟨v, hparent, hv, (hall p v hv).mpr hasked⟩
    · rintro ⟨v, hparent, hv, hdisabled⟩
      exact ⟨hparent, (hall p v hv).mp hdisabled⟩
  · intro hlocal a
    induction hn : rank a using Nat.strong_induction_on generalizing a with
    | _ n ih =>
      intro w hw
      rw [hlocal a w hw]
      change _ ↔ t.Asked a
      rw [asked_iff hw]
      refine or_congr_right (exists_congr fun p => ?_)
      constructor
      · rintro ⟨v, hparent, hv, hdisabled⟩
        have hlt := (hr.parent a w p hw hparent).2
        exact ⟨hparent, (ih (rank p) (hn ▸ hlt) p rfl v hv).mp hdisabled⟩
      · rintro ⟨hparent, hasked⟩
        obtain ⟨⟨v, hv⟩, hlt⟩ := hr.parent a w p hw hparent
        exact ⟨v, hparent, hv, (ih (rank p) (hn ▸ hlt) p rfl v hv).mpr hasked⟩

/-- What a call has to find so that it does not leave a widget with an old flag: a new widget is
disabled by none above it; and where a request changes what is below it, all of that is disabled on
its own. -/
def Refreshes (t : Traits) : WidgetEvent → Prop
  | .create _ parent => ∀ v, t parent = some v → v.disabled = false
  | .setEnabled a enabled => ∀ w, t a = some w → w.reqDisabled = !enabled ∨ t.UnderDisabled w ∨
      ∀ c v, t c = some v → v.parent = some a → v.reqDisabled = true
  | .setFocus _ => True

/-- The widgets after one was created. -/
def created (t : Traits) (a p : Addr) : Traits :=
  Function.update t a (some (Widget.init (some p)).toWidgetTraits)

theorem created_self : t.created a p a = some (Widget.init (some p)).toWidgetTraits :=
  update_self ..

theorem created_of_ne (hb : b ≠ a) : t.created a p b = t b := update_of_ne hb ..

theorem ne_of_fresh (ha : t a = none) (hb : t b = some w) : b ≠ a := by
  rintro rfl
  rw [ha] at hb
  cases hb

theorem underDisabled_congr (h : ∀ p, w.parent = some p → t' p = t p) :
    t'.UnderDisabled w ↔ t.UnderDisabled w := by
  refine exists_congr fun p => exists_congr fun v => ?_
  constructor
  · rintro ⟨hparent, hv, hdisabled⟩
    exact ⟨hparent, h p hparent ▸ hv, hdisabled⟩
  · rintro ⟨hparent, hv, hdisabled⟩
    exact ⟨hparent, (h p hparent).symm ▸ hv, hdisabled⟩

theorem underDisabled_iff (hparent : w.parent = some p) (hv : t p = some v) :
    t.UnderDisabled w ↔ v.disabled = true := by
  constructor
  · rintro ⟨q, u, hq, hu, hdisabled⟩
    obtain rfl := Option.some.inj (hparent.symm.trans hq)
    obtain rfl := Option.some.inj (hv.symm.trans hu)
    exact hdisabled
  · intro hdisabled
    exact ⟨p, v, hparent, hv, hdisabled⟩

section Created

variable (h : t.Tree root) (ha : t a = none)

include h ha

/-- A widget that is created has no children yet. -/
theorem Tree.created (hp : ∃ v, t p = some v) : (t.created a p).Tree root := by
  obtain ⟨v, hv⟩ := hp
  obtain ⟨rank, n, hr⟩ := h.ranked
  have hpa : p ≠ a := ne_of_fresh ha hv
  have hlive : ∀ {b}, (∃ w, t b = some w) → ∃ w, t.created a p b = some w := by
    rintro b ⟨w, hw⟩
    exact ⟨w, (created_of_ne (ne_of_fresh ha hw)).trans hw⟩
  have hold : ∀ {b w}, t.created a p b = some w →
      b = a ∧ w = (Widget.init (some p)).toWidgetTraits ∨ b ≠ a ∧ t b = some w := by
    intro b w hw
    by_cases hb : b = a
    · rw [hb, created_self] at hw
      exact .inl ⟨hb, (Option.some.inj hw).symm⟩
    · exact .inr ⟨hb, (created_of_ne hb).symm.trans hw⟩
  refine ⟨?_, ?_, ⟨update rank a n, n + 1, ?_, ?_⟩, ?_⟩
  · obtain ⟨w, hw, hparent⟩ := h.shell
    exact ⟨w, (created_of_ne (ne_of_fresh ha hw)).trans hw, hparent⟩
  · intro b w hw hparent
    obtain ⟨-, rfl⟩ | ⟨-, hw⟩ := hold hw
    · cases hparent
    · exact h.only b w hw hparent
  · intro b w hw
    obtain ⟨rfl, -⟩ | ⟨hb, hw⟩ := hold hw
    · rw [update_self]
      exact Nat.lt_succ_self n
    · rw [update_of_ne hb]
      exact Nat.lt_succ_of_lt (hr.lt b w hw)
  · intro b w q hw hparent
    obtain ⟨rfl, rfl⟩ | ⟨hb, hw⟩ := hold hw
    · obtain rfl := Option.some.inj hparent
      rw [update_self, update_of_ne hpa]
      exact ⟨hlive ⟨v, hv⟩, hr.lt p v hv⟩
    · obtain ⟨⟨u, hu⟩, hlt⟩ := hr.parent b w q hw hparent
      rw [update_of_ne hb, update_of_ne (ne_of_fresh ha hu)]
      exact ⟨hlive ⟨u, hu⟩, hlt⟩
  · intro b w c hw hc
    obtain ⟨-, rfl⟩ | ⟨-, hw⟩ := hold hw
    · cases hc
    · obtain ⟨u, hu, hparent⟩ := h.focus b w c hw hc
      exact ⟨u, (created_of_ne (ne_of_fresh ha hu)).trans hu, hparent⟩

/-- A new widget is not disabled, whatever its parent is. -/
theorem Tree.inherits_created {v : WidgetTraits} (hp : t p = some v) (hall : t.Inherits) :
    (t.created a p).Inherits ↔ v.disabled = false := by
  obtain ⟨rank, n, hr⟩ := h.ranked
  rw [(h.created ha ⟨v, hp⟩).inherits_iff]
  have hpcreated := (created_of_ne (p := p) (ne_of_fresh ha hp)).trans hp
  constructor
  · intro hlocal
    by_contra hdisabled
    have hnew := (hlocal a _ created_self).mpr
      (.inr ⟨p, v, rfl, hpcreated, by simpa using hdisabled⟩)
    cases hnew
  · intro hdisabled b w hw
    by_cases hb : b = a
    · rw [hb, created_self] at hw
      obtain rfl := Option.some.inj hw
      refine ⟨fun htrue => (by cases htrue), ?_⟩
      rintro (hreq | ⟨q, u, hparent, hu, htrue⟩)
      · cases hreq
      · obtain rfl := Option.some.inj hparent
        obtain rfl := Option.some.inj (hpcreated.symm.trans hu)
        rw [hdisabled] at htrue
        cases htrue
    · rw [created_of_ne hb] at hw
      rw [h.inherits_iff.mp hall b w hw]
      refine or_congr_right (underDisabled_congr fun q hparent => ?_).symm
      obtain ⟨u, hu⟩ := (hr.parent b w q hw hparent).1
      exact created_of_ne (ne_of_fresh ha hu)

end Created

/-- The widgets after one was enabled or disabled. -/
def requested (t : Traits) (a : Addr) (w : WidgetTraits) (enabled disabled : Bool) : Traits :=
  Function.update t a (some { w with
    reqDisabled := !enabled
    disabled := disabled })

section Requested

variable (h : t.Tree root) (hw : t a = some w) {enabled disabled : Bool}

include h hw

omit h in
theorem links_requested (b : Addr) :
    (t.requested a w enabled disabled b).map links = (t b).map links := by
  revert b
  exact links_update hw rfl

theorem Tree.requested : (t.requested a w enabled disabled).Tree root :=
  h.congr (links_requested hw)

/-- What is below a widget is told nothing. -/
theorem Tree.inherits_requested (hreq : w.reqDisabled = enabled)
    (hdisabled : disabled = true ↔ enabled = false ∨ t.UnderDisabled w) (hall : t.Inherits) :
    (t.requested a w enabled disabled).Inherits ↔ t.UnderDisabled w ∨
      ∀ c v, t c = some v → v.parent = some a → v.reqDisabled = true := by
  obtain ⟨rank, n, hr⟩ := h.ranked
  have hlocal := h.inherits_iff.mp hall
  have hself : t.requested a w enabled disabled a = some { w with
      reqDisabled := !enabled
      disabled := disabled } := update_self ..
  have hother : ∀ {b}, b ≠ a → t.requested a w enabled disabled b = t b := fun hb =>
    update_of_ne hb ..
  have hne : ∀ {b v p}, t b = some v → v.parent = some p → p ≠ b := by
    rintro b v p hv hparent rfl
    exact Nat.lt_irrefl _ (hr.parent p v p hv hparent).2
  have hflag : w.disabled = true ↔ enabled = true ∨ t.UnderDisabled w := by
    rw [hlocal a w hw, hreq]
  rw [(h.requested hw).inherits_iff]
  constructor
  · intro hlocal'
    by_cases hunder : t.UnderDisabled w
    · exact .inl hunder
    refine .inr fun c v hv hparent => ?_
    -- The flag of the widget has changed, but not that of its child.
    have hbefore := hlocal c v hv
    have hafter := hlocal' c v ((hother (hne hv hparent).symm).trans hv)
    rw [underDisabled_iff hparent hw] at hbefore
    rw [underDisabled_iff hparent hself] at hafter
    simp only [hunder, or_false] at hflag hdisabled
    by_contra hv'
    simp only [hv', false_or] at hbefore hafter
    rw [hbefore, hflag, hdisabled] at hafter
    cases enabled <;> simp at hafter
  · intro hor b v hv
    by_cases hb : b = a
    · subst hb
      obtain rfl := Option.some.inj (hself.symm.trans hv)
      have hunder : (t.requested b w enabled disabled).UnderDisabled
          { w with reqDisabled := !enabled, disabled := disabled } ↔ t.UnderDisabled w :=
        underDisabled_congr (w := w) fun p hparent => hother (hne hw hparent)
      rw [hunder]
      simpa using hdisabled
    · rw [hother hb] at hv
      rw [hlocal b v hv]
      by_cases hparent : v.parent = some a
      · rw [underDisabled_iff hparent hw, underDisabled_iff hparent hself]
        obtain hunder | hall' := hor
        · rw [hflag, hdisabled]
          simp [hunder]
        · simp [hall' b v hv hparent]
      · refine or_congr_right (underDisabled_congr fun p hp => hother ?_).symm
        rintro rfl
        exact hparent hp

end Requested

/-! ### The focus -/

/-- The widgets after one was given the flag, or lost it. -/
def flagged (t : Traits) (a : Addr) (focused : Bool) : Traits :=
  Function.update t a ((t a).map fun w => { w with focused := focused })

/-- The widgets after one was given a focused child. -/
def linked (t : Traits) (p c : Addr) : Traits :=
  Function.update t p ((t p).map fun w => { w with focused_child := some c })

theorem links_flagged (t : Traits) (a : Addr) (focused : Bool) (b : Addr) :
    (t.flagged a focused b).map links = (t b).map links := by
  by_cases hb : b = a
  · rw [hb, flagged, Function.update_self, Option.map_map]
    rfl
  · rw [flagged, Function.update_of_ne hb]

theorem up_linked (t : Traits) (p c : Addr) : (t.linked p c).Up = t.Up := by
  ext a b
  rw [Up, Up]
  by_cases ha : a = p
  · rw [ha, linked, update_self]
    cases t p <;> rfl
  · rw [linked, update_of_ne ha]

theorem down_linked_self (hw : t p = some w) : (t.linked p c).Down p c := by
  rw [Down, linked, update_self, hw]
  rfl

theorem down_linked_of_ne (ha : a ≠ p) : (t.linked p c).Down a = t.Down a := by
  ext b
  rw [Down, Down, linked, update_of_ne ha]

/-- A widget without its focused child. -/
def unlinked (w : WidgetTraits) : WidgetTraits := { w with focused_child := none }

theorem unlinked_linked (t : Traits) (p c a : Addr) :
    (t.linked p c a).map unlinked = (t a).map unlinked := by
  by_cases ha : a = p
  · rw [ha, linked, Function.update_self, Option.map_map]
    rfl
  · rw [linked, Function.update_of_ne ha]

theorem exists_of_linked (hv : t.linked p c a = some v) :
    ∃ w, t a = some w ∧ w.parent = v.parent ∧
      (w.focused_child = v.focused_child ∨ a = p ∧ v.focused_child = some c) := by
  by_cases ha : a = p
  · subst ha
    rw [linked, update_self] at hv
    obtain ⟨w, hw, rfl⟩ := map_eq_some_iff.mp hv
    exact ⟨w, hw, rfl, .inr ⟨rfl, rfl⟩⟩
  · rw [linked, update_of_ne ha] at hv
    exact ⟨v, hv, rfl, .inl rfl⟩

theorem exists_linked (hw : t a = some w) :
    ∃ v, t.linked p c a = some v ∧ v.parent = w.parent := by
  by_cases ha : a = p
  · subst ha
    rw [linked, update_self, hw]
    exact ⟨_, rfl, rfl⟩
  · rw [linked, update_of_ne ha]
    exact ⟨w, hw, rfl⟩

theorem Ranked.linked (hr : t.Ranked rank n) : (t.linked p c).Ranked rank n where
  lt := by
    intro a v hv
    obtain ⟨w, hw, -⟩ := exists_of_linked hv
    exact hr.lt a w hw
  parent := by
    intro a v q hv hparent
    obtain ⟨w, hw, hw', -⟩ := exists_of_linked hv
    obtain ⟨⟨u, hu⟩, hlt⟩ := hr.parent a w q hw (hw'.trans hparent)
    obtain ⟨u', hu', -⟩ := exists_linked hu
    exact ⟨⟨u', hu'⟩, hlt⟩

/-- A child becomes the focused one. -/
theorem Tree.linked (h : t.Tree root) (hup : t.Up c p) : (t.linked p c).Tree root := by
  obtain ⟨rank, n, hr⟩ := h.ranked
  refine ⟨?_, ?_, ⟨rank, n, hr.linked⟩, ?_⟩
  · obtain ⟨w, hw, hparent⟩ := h.shell
    obtain ⟨v, hv, hv'⟩ := exists_linked hw
    exact ⟨v, hv, hv'.trans hparent⟩
  · intro a v hv hparent
    obtain ⟨w, hw, hw', -⟩ := exists_of_linked hv
    exact h.only a w hw (hw'.trans hparent)
  · intro a v b hv hb
    obtain ⟨w, hw, -, hchild | ⟨rfl, hchild⟩⟩ := exists_of_linked hv
    · obtain ⟨u, hu, hparent⟩ := h.focus a w b hw (hchild.trans hb)
      obtain ⟨u', hu', hu''⟩ := exists_linked hu
      exact ⟨u', hu', hu''.trans hparent⟩
    · obtain rfl := Option.some.inj (hchild.symm.trans hb)
      obtain ⟨u, hu, hparent⟩ := up_iff.mp hup
      obtain ⟨u', hu', hu''⟩ := exists_linked hu
      exact ⟨u', hu', hu''.trans hparent⟩

section Focus

variable (h : t.Tree root) (hr : t.Ranked rank n)

include hr in
theorem Ranked.lt_of_up (hup : t.Up a b) : rank b < rank a := by
  obtain ⟨w, hw, hparent⟩ := up_iff.mp hup
  exact (hr.parent a w b hw hparent).2

include hr in
theorem Ranked.le_of_ups (hup : ReflTransGen t.Up a b) : rank b ≤ rank a := by
  induction hup with
  | refl => exact Nat.le_refl _
  | tail _ hup ih => exact Nat.le_trans (Nat.le_of_lt (hr.lt_of_up hup)) ih

include h in
theorem Tree.up_of_down (hdown : t.Down a b) : t.Up b a := by
  obtain ⟨w, hw, hchild⟩ := down_iff.mp hdown
  exact up_iff.mpr (h.focus a w b hw hchild)

include h hr in
/-- The links of the widgets above the end are all that matters. -/
theorem Tree.leads_congr (hlead : t.Leads a b)
    (heq : ∀ c, rank c < rank b → t'.Down c = t.Down c) : t'.Leads a b := by
  induction hlead with
  | refl => exact .refl
  | @tail c d _ hdown ih =>
    have hlt := hr.lt_of_up (h.up_of_down hdown)
    refine .tail (ih fun x hx => heq x (Nat.lt_trans hx hlt)) ?_
    rw [heq c hlt]
    exact hdown

theorem leads_end_unique (hb : t.Leads a b) (hc : t.Leads a c) (hb' : ∀ d, ¬ t.Down b d)
    (hc' : ∀ d, ¬ t.Down c d) : b = c := by
  have hfun : Relator.RightUnique t.Down := fun x y z hy hz =>
    Option.some.inj (hy.symm.trans hz)
  have hend : ∀ {x y}, (∀ d, ¬ t.Down x d) → t.Leads x y → x = y := by
    intro x y hx hxy
    rcases ReflTransGen.cases_head hxy with rfl | ⟨d, hd, -⟩
    · rfl
    · exact absurd hd (hx d)
  rcases ReflTransGen.total_of_right_unique hfun hb hc with hbc | hcb
  · exact hend hb' hbc
  · exact (hend hc' hcb).symm

end Focus

/-- What decides which widgets are to be disabled, and which ones are. -/
def requests (w : WidgetTraits) : Bool × Bool × Option Addr :=
  (w.reqDisabled, w.disabled, w.parent)

theorem requests_flagged (t : Traits) (a : Addr) (focused : Bool) (b : Addr) :
    (t.flagged a focused b).map requests = (t b).map requests := by
  by_cases hb : b = a
  · rw [hb, flagged, Function.update_self, Option.map_map]
    rfl
  · rw [flagged, Function.update_of_ne hb]

theorem Inherits.congr (h : t.Inherits) (heq : ∀ a, (t' a).map requests = (t a).map requests) :
    t'.Inherits := by
  have hup : t'.Up = t.Up := by
    ext a b
    have hparent : (t' a).bind (·.parent) = (t a).bind (·.parent) := by
      have hthird := congrArg (fun o => o.bind fun r => r.2.2) (heq a)
      simpa [bind_map, comp_def, requests] using hthird
    rw [Up, Up, hparent]
  have hsame : ∀ {a w}, t' a = some w → ∃ v, t a = some v ∧ requests v = requests w := by
    intro a w hw
    have hmap := heq a
    rw [hw, map_some] at hmap
    exact map_eq_some_iff.mp hmap.symm
  have hback : ∀ {a v}, t a = some v → ∃ w, t' a = some w ∧ requests w = requests v := by
    intro a v hv
    have hmap := heq a
    rw [hv, map_some] at hmap
    exact map_eq_some_iff.mp hmap
  intro a w hw
  obtain ⟨v, hv, heqv⟩ := hsame hw
  obtain ⟨-, hdisabled, -⟩ : v.reqDisabled = w.reqDisabled ∧ v.disabled = w.disabled ∧
    v.parent = w.parent := by simpa [requests] using heqv
  rw [← hdisabled, h a v hv, hup]
  constructor
  · rintro ⟨b, u, hab, hu, hreq⟩
    obtain ⟨u', hu', heqr⟩ := hback hu
    exact ⟨b, u', hab, hu', (congrArg Prod.fst heqr).trans hreq⟩
  · rintro ⟨b, u, hab, hu, hreq⟩
    obtain ⟨u', hu', heqr⟩ := hsame hu
    exact ⟨b, u', hab, hu', (congrArg Prod.fst heqr).trans hreq⟩

/-- The flag after the focus went from one widget to another. -/
theorem exists_of_flagged {e : Addr} (hv : (t.flagged e false).flagged a true b = some v) :
    ∃ w, t b = some w ∧ (v.focused = true ↔ b = a ∨ w.focused = true ∧ b ≠ e) := by
  by_cases hba : b = a
  · subst hba
    rw [flagged, update_self] at hv
    obtain ⟨u, hu, rfl⟩ := map_eq_some_iff.mp hv
    by_cases hbe : b = e
    · subst hbe
      rw [flagged, update_self] at hu
      obtain ⟨w, hw, -⟩ := map_eq_some_iff.mp hu
      exact ⟨w, hw, by simp⟩
    · rw [flagged, update_of_ne hbe] at hu
      exact ⟨u, hu, by simp⟩
  · rw [flagged, update_of_ne hba] at hv
    by_cases hbe : b = e
    · subst hbe
      rw [flagged, update_self] at hv
      obtain ⟨w, hw, rfl⟩ := map_eq_some_iff.mp hv
      exact ⟨w, hw, by simp [hba]⟩
    · rw [flagged, update_of_ne hbe] at hv
      exact ⟨v, hv, by simp [hba, hbe]⟩

theorem Tree.exists_of_leads (h : t.Tree root) (hlead : t.Leads root a) : ∃ w, t a = some w := by
  rcases ReflTransGen.cases_tail hlead with rfl | ⟨b, -, hdown⟩
  · obtain ⟨w, hw, -⟩ := h.shell
    exact ⟨w, hw⟩
  · obtain ⟨w, hw, hchild⟩ := down_iff.mp hdown
    obtain ⟨v, hv, -⟩ := h.focus b w a hw hchild
    exact ⟨v, hv⟩

/-- The shell alone. -/
def shell (root : Addr) : Traits :=
  Function.update (fun _ => none) root (some (Widget.init none).toWidgetTraits)

theorem eq_of_shell (hw : shell root a = some w) :
    a = root ∧ w = (Widget.init none).toWidgetTraits := by
  by_cases ha : a = root
  · rw [ha, shell, update_self] at hw
    exact ⟨ha, (Option.some.inj hw).symm⟩
  · rw [shell, update_of_ne ha] at hw
    cases hw

theorem tree_shell (root : Addr) : (shell root).Tree root where
  shell := ⟨_, update_self .., rfl⟩
  only a w hw _ := (eq_of_shell hw).1
  ranked := by
    refine ⟨fun _ => 0, 1, fun _ _ _ => Nat.zero_lt_one, fun a w p hw hparent => ?_⟩
    rw [(eq_of_shell hw).2] at hparent
    cases hparent
  focus a w c hw hchild := by
    rw [(eq_of_shell hw).2] at hchild
    cases hchild

theorem inherits_shell (root : Addr) : (shell root).Inherits := by
  rw [(tree_shell root).inherits_iff]
  intro a w hw
  rw [(eq_of_shell hw).2]
  refine ⟨fun h => (by cases h), ?_⟩
  rintro (hreq | ⟨p, v, hparent, -⟩)
  · cases hreq
  · cases hparent

end Traits

namespace Gui

open Outcome Traits

variable {g g' : Gui} {root a b p : Addr} {w : WidgetTraits} {u : Widget}

theorem traits_of_cell (hu : g.widgets.cell a = some u) :
    g.traits a = some u.toWidgetTraits := by
  rw [traits, hu]
  rfl

theorem exists_cell (hw : g.traits a = some w) :
    ∃ u, g.widgets.cell a = some u ∧ u.toWidgetTraits = w :=
  map_eq_some_iff.mp hw

@[simp] theorem traits_set :
    (g.set a u).traits = update g.traits a (some u.toWidgetTraits) := by
  ext1 b
  by_cases hb : b = a
  · rw [hb, update_self, traits, cell_set, update_self]
    rfl
  · rw [update_of_ne hb, traits, cell_set, update_of_ne hb]
    rfl

theorem traits_modify {f : Widget → Widget} (h : g.modify a f = .ok g')
    (hf : ∀ u, (f u).toWidgetTraits = u.toWidgetTraits) : g'.traits = g.traits := by
  obtain ⟨u, hload, hset⟩ := bind_eq_ok.mp h
  obtain rfl := Outcome.ok.inj hset
  have hu : g.widgets.cell a = some u := by
    cases hcell : g.widgets.cell a with
    | none => simp [Heap.load, hcell] at hload
    | some v => simpa [Heap.load, hcell] using hload
  rw [traits_set, hf, update_eq_self_iff]
  exact (traits_of_cell hu).symm

/-- Inserting a child leaves what the widgets know of each other. -/
theorem traits_insertChild (h : g.gui_insertChild p a = .ok g') : g'.traits = g.traits := by
  obtain ⟨q, -, h⟩ := bind_eq_ok.mp h
  obtain ⟨g₁, h₁, h⟩ := bind_eq_ok.mp h
  cases hfirst : q.child_first
  all_goals
    simp only [hfirst] at h
    obtain ⟨g₂, h₂, h⟩ := bind_eq_ok.mp h
    obtain ⟨g₃, h₃, h⟩ := bind_eq_ok.mp h
    obtain ⟨g₄, h₄, h₅⟩ := bind_eq_ok.mp h
    calc g'.traits = g₄.traits := traits_modify h₅ fun _ => rfl
      _ = g₃.traits := traits_modify h₄ fun _ => rfl
      _ = g₂.traits := traits_modify h₃ fun _ => rfl
      _ = g₁.traits := traits_modify h₂ fun _ => rfl
      _ = g.traits := traits_modify h₁ fun _ => rfl

theorem traits_create (h : g.create a p = .ok g') : g'.traits = g.traits.created a p := by
  obtain ⟨q, -, h⟩ := bind_eq_ok.mp h
  by_cases hvalid : q.guiValid = true
  · rw [if_pos hvalid] at h
    rw [traits_insertChild h, traits_set]
    rfl
  · rw [if_neg hvalid] at h
    cases h

theorem traits_setEnabled (h : g.traits.Tree root) (hw : g.traits a = some w) (enabled : Bool) :
    ∃ g', g.setEnabled a enabled = .ok g' ∧ (w.reqDisabled = !enabled ∧ g' = g ∨
      w.reqDisabled = enabled ∧ ∃ disabled,
        (disabled = true ↔ enabled = false ∨ g.traits.UnderDisabled w) ∧
          g'.traits = g.traits.requested a w enabled disabled) := by
  obtain ⟨u, hu, rfl⟩ := exists_cell hw
  obtain ⟨rank, n, hr⟩ := h.ranked
  by_cases hsame : (!u.reqDisabled) = enabled
  · refine ⟨g, ?_, .inl ⟨by simp [← hsame], rfl⟩⟩
    rw [setEnabled, Heap.load_of_cell hu, ok_bind, if_pos hsame]
  have hreq : u.reqDisabled = enabled := by
    cases enabled <;> simpa using hsame
  cases hparent : u.parent with
  | none =>
    simp only [setEnabled, modify, Heap.load, hu, ofOption_some, ok_bind, if_neg hsame, cell_set,
      update_self, hparent]
    refine ⟨_, rfl, .inr ⟨hreq, !enabled, ?_, ?_⟩⟩
    · simp [UnderDisabled, hparent]
    · simp [requested, hparent]
  | some p =>
    obtain ⟨⟨v, hv⟩, hlt⟩ := hr.parent a u.toWidgetTraits p hw hparent
    obtain ⟨q, hq, rfl⟩ := exists_cell hv
    have hpa : p ≠ a := by
      rintro rfl
      exact Nat.lt_irrefl _ hlt
    simp only [setEnabled, modify, Heap.load, hu, ofOption_some, ok_bind, if_neg hsame, cell_set,
      update_self, hparent, update_of_ne hpa, hq]
    refine ⟨_, rfl, .inr ⟨hreq, !enabled || q.disabled, ?_, ?_⟩⟩
    · rw [underDisabled_iff hparent hv]
      simp
    · simp [requested, hparent]

theorem load_of_traits (hw : g.traits a = some w) : ∃ u : Widget,
    (g.widgets.load a : Call Widget) = .ok u ∧ u.toWidgetTraits = w := by
  obtain ⟨u, hu, rfl⟩ := exists_cell hw
  exact ⟨u, Heap.load_of_cell hu, rfl⟩

theorem traits_flag (hw : g.traits a = some w) {f : Widget → Widget} {x : Bool}
    (hf : ∀ u, (f u).toWidgetTraits = { u.toWidgetTraits with focused := x }) :
    ∃ g', g.modify a f = .ok g' ∧ g'.traits = g.traits.flagged a x := by
  obtain ⟨u, hu, rfl⟩ := exists_cell hw
  refine ⟨_, modify_of_cell hu f, ?_⟩
  rw [traits_set, hf, flagged, hw]
  rfl

theorem traits_link (hw : g.traits p = some w) (c : Addr) :
    ∃ g', g.modify p (fun u => { u with focused_child := some c }) = .ok g' ∧
      g'.traits = g.traits.linked p c := by
  obtain ⟨u, hu, rfl⟩ := exists_cell hw
  refine ⟨_, modify_of_cell hu _, ?_⟩
  rw [traits_set, linked, hw]
  rfl

section Focus

open Relation

variable {rank : Addr → Nat} {n : Nat} (h : g.traits.Tree root) (hr : g.traits.Ranked rank n)

include h hr

/-- Either all links down to the widget are right, or those to the parent of the widget that is
found. -/
theorem climb_returns (hw : g.traits a = some w) (change : Addr) :
    ∃ c, Returns (fun fuel => climb fuel g a change) c ∧
      (c = change ∧ g.traits.Leads root a ∨
        ∃ q, g.traits.Up c q ∧ g.traits.Leads root q ∧ ReflTransGen g.traits.Up a c) := by
  induction hk : rank a using Nat.strong_induction_on generalizing a w change with
  | _ k ih =>
    obtain ⟨u, hu, rfl⟩ := load_of_traits hw
    cases hparent : u.parent with
    | none =>
      refine ⟨change, Returns.of_succ_ok fun fuel => ?_, .inl ⟨rfl, ?_⟩⟩
      · rw [climb, hu, ok_bind, hparent]
      · rw [h.only a _ hw hparent]
    | some p =>
      obtain ⟨⟨v, hv⟩, hlt⟩ := hr.parent a _ p hw hparent
      obtain ⟨q, hq, rfl⟩ := load_of_traits hv
      have hup : g.traits.Up a p := up_iff.mpr ⟨_, hw, hparent⟩
      have hpass : ∀ fuel, climb (fuel + 1) g a change =
          climb fuel g p (if q.focused_child ≠ some a then a else change) := by
        intro fuel
        rw [climb, hu, ok_bind, hparent]
        simp only [hq, ok_bind]
      obtain ⟨c, hclimb, hc⟩ := ih (rank p) (hk ▸ hlt) hv
        (if q.focused_child ≠ some a then a else change) rfl
      refine ⟨c, hclimb.of_succ hpass, ?_⟩
      obtain ⟨rfl, hlead⟩ | ⟨r, hcr, hlead, hpc⟩ := hc
      · by_cases hchild : q.focused_child = some a
        · rw [if_neg (not_not.mpr hchild)]
          exact .inl ⟨rfl, hlead.tail (down_iff.mpr ⟨_, hv, hchild⟩)⟩
        · rw [if_pos hchild]
          exact .inr ⟨p, hup, hlead, .refl⟩
      · exact .inr ⟨r, hcr, hlead, .head hup hpc⟩

/-- The links are followed to their end. -/
theorem descend_returns (hw : g.traits a = some w) : ∃ e v,
    Returns (fun fuel => descend fuel g a) e ∧ g.traits.Leads a e ∧ g.traits e = some v ∧
      v.focused_child = none := by
  induction hk : n - rank a using Nat.strong_induction_on generalizing a w with
  | _ k ih =>
    obtain ⟨u, hu, rfl⟩ := load_of_traits hw
    cases hchild : u.focused_child with
    | none =>
      refine ⟨a, _, Returns.of_succ_ok fun fuel => ?_, .refl, hw, hchild⟩
      rw [descend, hu, ok_bind, hchild]
    | some c =>
      obtain ⟨v, hv, hparent⟩ := h.focus a _ c hw hchild
      have hlt := (hr.parent c v a hv hparent).2
      have hlimit := hr.lt c v hv
      obtain ⟨e, v', hdescend, hlead, hend⟩ := ih (n - rank c) (by omega) hv rfl
      refine ⟨e, v', hdescend.of_succ fun fuel => ?_,
        .head (down_iff.mpr ⟨_, hw, hchild⟩) hlead, hend⟩
      rw [descend, hu, ok_bind, hchild]

end Focus

open Relation in
/-- Links are set from the widget up to another one, and to no other widgets. -/
theorem relink_returns {up : Addr → Addr → Prop} {rank : Addr → Nat} {n : Nat} {change : Addr}
    (hups : ReflTransGen up a change) :
    ∀ {g : Gui}, g.traits.Up = up → g.traits.Tree root → g.traits.Ranked rank n →
      ∃ g', Returns (fun fuel => relink fuel g a change) g' ∧ g'.traits.Tree root ∧
        g'.traits.Leads change a ∧
        (∀ x, rank x < rank change ∨ rank a ≤ rank x → g'.traits.Down x = g.traits.Down x) ∧
        ∀ x, (g'.traits x).map unlinked = (g.traits x).map unlinked := by
  induction hups using ReflTransGen.head_induction_on with
  | refl =>
    intro g hup h hr
    refine ⟨g, Returns.of_succ_ok fun fuel => ?_, h, .refl, fun _ _ => rfl, fun _ => rfl⟩
    rw [relink, if_pos rfl]
  | @head a p hap hpc ih =>
    intro g hup h hr
    subst hup
    have hlt := hr.lt_of_up hap
    have hle := hr.le_of_ups hpc
    obtain ⟨w, hw, hparent⟩ := up_iff.mp hap
    obtain ⟨v, hv⟩ := (hr.parent a w p hw hparent).1
    obtain ⟨u, hu, rfl⟩ := load_of_traits hw
    obtain ⟨g₁, hlink, htraits⟩ := traits_link hv a
    have hne : a ≠ change := by
      rintro rfl
      omega
    have hpass : ∀ fuel, relink (fuel + 1) g a change = relink fuel g₁ p change := by
      intro fuel
      rw [relink, if_neg hne, hu, ok_bind, hparent]
      simp only [hlink, ok_bind]
    obtain ⟨g', hrun, htree, hlead, hdown, hflags⟩ := ih (g := g₁)
      (by rw [htraits, up_linked]) (htraits ▸ h.linked hap) (htraits ▸ hr.linked)
    refine ⟨g', hrun.of_succ hpass, htree, hlead.tail ?_, fun x hx => ?_, fun x => ?_⟩
    · rw [hdown p (.inr (Nat.le_refl _)), htraits]
      exact down_linked_self hv
    · have hxp : x ≠ p := by
        rintro rfl
        omega
      rw [hdown x (by omega), htraits, down_linked_of_ne hxp]
    · rw [hflags x, htraits, unlinked_linked]

open Relation in
/-- The widget at which the links are changed is on the way to the focus, and above the new one. -/
theorem change_focus_eq (h : g.traits.Tree root) (hw : g.traits a = some w) :
    ∃ c, ∃ u : Widget, Returns (fun fuel => climb fuel g a a) c ∧
      (g.widgets.load c : Call Widget) = .ok u ∧ g.traits.Leads root (u.parent.getD c) ∧
        ReflTransGen g.traits.Up a (u.parent.getD c) ∧
          ∃ v, g.traits (u.parent.getD c) = some v := by
  obtain ⟨rank, n, hr⟩ := h.ranked
  obtain ⟨c, hclimb, ⟨rfl, hlead⟩ | ⟨q, hcq, hlead, hups⟩⟩ := climb_returns h hr hw a
  · obtain ⟨u, hu, rfl⟩ := load_of_traits hw
    refine ⟨c, u, hclimb, hu, ?_⟩
    cases hparent : u.parent with
    | none => exact ⟨hlead, .refl, _, hw⟩
    | some p =>
      have hup : g.traits.Up c p := up_iff.mpr ⟨_, hw, hparent⟩
      refine ⟨?_, .single hup, (hr.parent c _ p hw hparent).1⟩
      rcases ReflTransGen.cases_tail hlead with rfl | ⟨x, hlead, hdown⟩
      · obtain ⟨v, hv, hroot⟩ := h.shell
        obtain rfl := Option.some.inj (hw.symm.trans hv)
        rw [hparent] at hroot
        cases hroot
      · obtain rfl : p = x := Option.some.inj (hup.symm.trans (h.up_of_down hdown))
        exact hlead
  · obtain ⟨v, hv, hparent⟩ := up_iff.mp hcq
    obtain ⟨u, hu, rfl⟩ := load_of_traits hv
    refine ⟨c, u, hclimb, hu, ?_⟩
    rw [hparent]
    exact ⟨hlead, hups.tail hcq, (hr.parent c _ q hv hparent).1⟩

/-- The flag goes from the widget where the links end to the one that is given the focus, and the
links lead through that one. -/
theorem setFocus_returns (h : g.traits.Tree root) (hw : g.traits a = some w) : ∃ g' e v,
    Returns (fun fuel => g.setFocus fuel a) (true, g') ∧ g'.traits.Tree root ∧
      g'.traits.Leads root a ∧ g.traits.Leads root e ∧ g.traits e = some v ∧
        v.focused_child = none ∧ ∀ x, (g'.traits x).map unlinked =
          ((g.traits.flagged e false).flagged a true x).map unlinked := by
  obtain ⟨rank, n, hr⟩ := h.ranked
  obtain ⟨c, u, hclimb, hload, hchange, hups, x, hx⟩ := change_focus_eq h hw
  obtain ⟨e, v, hdescend, hend, hv, hchild⟩ := descend_returns h hr hx
  obtain ⟨g₁, hloosing, h₁⟩ := traits_flag (f := fun w => { w with focused := false })
    (x := false) hv fun _ => rfl
  have hlinks₁ : ∀ b, (g₁.traits b).map links = (g.traits b).map links := by
    intro b
    rw [h₁, links_flagged]
  obtain ⟨w₁, hw₁, -⟩ := exists_of_links (fun b => (hlinks₁ b).symm) hw
  obtain ⟨g₂, hsetting, h₂⟩ := traits_flag (f := fun w => { w with focused := true })
    (x := true) hw₁ fun _ => rfl
  have hlinks₂ : ∀ b, (g₂.traits b).map links = (g.traits b).map links := by
    intro b
    rw [h₂, links_flagged, hlinks₁]
  have htree₂ := h.congr hlinks₂
  obtain ⟨rank₂, n₂, hr₂⟩ := htree₂.ranked
  obtain ⟨g', hrelink, htree, hlead, hdown, hflags⟩ :=
    relink_returns hups (up_congr hlinks₂) htree₂ hr₂
  refine ⟨g', e, v, ?_, htree, ?_, hchange.trans hend, hv, hchild, fun b => ?_⟩
  · refine hclimb.bind ?_
    simp only [hload, ok_bind]
    refine hdescend.bind ?_
    simp only [loosingFocus, hloosing, ok_bind, settingFocus, hsetting, Bool.not_true,
      Bool.false_eq_true, if_false]
    exact hrelink.bind (Returns.ok _)
  · have hbefore : g₂.traits.Leads root (u.parent.getD c) := by
      rw [Leads, down_congr hlinks₂]
      exact hchange
    exact (htree₂.leads_congr hr₂ hbefore fun c hc => hdown c (.inl hc)).trans hlead
  · rw [hflags b, h₂, h₁]

theorem traits_createShell (h : (⟨none, .empty⟩ : Gui).createShell root = .ok g) :
    g.traits = shell root := by
  obtain ⟨g₁, h₁, h⟩ := bind_eq_ok.mp h
  obtain ⟨g₂, h₂, h⟩ := bind_eq_ok.mp h
  obtain rfl := Outcome.ok.inj h₂
  obtain ⟨g₃, h₃, h⟩ := bind_eq_ok.mp h
  obtain rfl := Outcome.ok.inj h
  have hbefore : ((⟨none, .empty⟩ : Gui).set root (.init none)).traits = shell root := traits_set
  calc g₃.traits = g₁.traits := traits_modify h₃ fun _ => rfl
    _ = _ := traits_modify h₁ fun _ => rfl
    _ = shell root := hbefore

theorem exists_traits (ha : g.widgets.cell a ≠ none) : ∃ w, g.traits a = some w := by
  obtain ⟨u, hu⟩ := ne_none_iff_exists'.mp ha
  exact ⟨_, traits_of_cell hu⟩

theorem traits_fresh (ha : g.widgets.cell a = none) : g.traits a = none := by
  rw [traits, ha]
  rfl

end Gui

/-! ### Runs -/

open Outcome Relation Traits

namespace WidgetEvent

variable {g g' : Gui} {root a p : Addr} {enabled : Bool}

theorem step_create (valid : (create a p).Valid g)
    (step : Returns (fun fuel => (create a p).apply g fuel) g') :
    g.traits a = none ∧ (∃ v, g.traits p = some v) ∧ g'.traits = g.traits.created a p := by
  obtain ⟨least, hall⟩ := step
  exact ⟨Gui.traits_fresh valid.1, Gui.exists_traits valid.2,
    Gui.traits_create (hall least (Nat.le_refl least))⟩

theorem step_setEnabled (h : g.traits.Tree root) (valid : (setEnabled a enabled).Valid g)
    (step : Returns (fun fuel => (setEnabled a enabled).apply g fuel) g') :
    ∃ w, g.traits a = some w ∧ (w.reqDisabled = !enabled ∧ g' = g ∨
      w.reqDisabled = enabled ∧ ∃ disabled,
        (disabled = true ↔ enabled = false ∨ g.traits.UnderDisabled w) ∧
          g'.traits = g.traits.requested a w enabled disabled) := by
  obtain ⟨w, hw⟩ := Gui.exists_traits valid
  obtain ⟨g₁, hrun, hcases⟩ := Gui.traits_setEnabled h hw enabled
  obtain rfl := (Returns.of_eq fun _ => hrun).unique step
  exact ⟨w, hw, hcases⟩

theorem step_setFocus (h : g.traits.Tree root) (valid : (setFocus a).Valid g)
    (step : Returns (fun fuel => (setFocus a).apply g fuel) g') : ∃ e v,
      g'.traits.Tree root ∧ g'.traits.Leads root a ∧ g.traits.Leads root e ∧
        g.traits e = some v ∧ v.focused_child = none ∧ ∀ x, (g'.traits x).map unlinked =
          ((g.traits.flagged e false).flagged a true x).map unlinked := by
  obtain ⟨w, hw⟩ := Gui.exists_traits valid
  obtain ⟨g₁, e, v, hrun, hrest⟩ := Gui.setFocus_returns h hw
  have hgo : Returns (fun fuel => g.setFocus fuel a >>= fun r => Outcome.ok r.2) g' := step
  obtain rfl := (Returns.ok g₁).unique (hgo.of_bind hrun)
  exact ⟨e, v, hrest⟩

theorem tree_step {event : WidgetEvent} (h : g.traits.Tree root) (valid : event.Valid g)
    (step : Returns (fun fuel => event.apply g fuel) g') : g'.traits.Tree root := by
  cases event with
  | create a p =>
    obtain ⟨ha, hp, htraits⟩ := step_create valid step
    exact htraits ▸ h.created ha hp
  | setEnabled a enabled =>
    obtain ⟨w, hw, ⟨-, rfl⟩ | ⟨-, disabled, -, htraits⟩⟩ := step_setEnabled h valid step
    · exact h
    · exact htraits ▸ h.requested hw
  | setFocus a =>
    obtain ⟨e, v, htree, -⟩ := step_setFocus h valid step
    exact htree

/-- A call leaves all flags as they should be exactly if it needs none but its own to change. -/
theorem inherits_step {event : WidgetEvent} (h : g.traits.Tree root) (valid : event.Valid g)
    (step : Returns (fun fuel => event.apply g fuel) g') (hall : g.traits.Inherits) :
    g'.traits.Inherits ↔ g.traits.Refreshes event := by
  cases event with
  | create a p =>
    obtain ⟨ha, ⟨v, hv⟩, htraits⟩ := step_create valid step
    rw [htraits, h.inherits_created ha hv hall]
    constructor
    · intro hdisabled u hu
      obtain rfl := Option.some.inj (hv.symm.trans hu)
      exact hdisabled
    · intro hrefreshes
      exact hrefreshes v hv
  | setEnabled a enabled =>
    obtain ⟨w, hw, ⟨hsame, rfl⟩ | ⟨hreq, disabled, hdisabled, htraits⟩⟩ :=
      step_setEnabled h valid step
    · refine iff_of_true hall fun u hu => .inl ?_
      obtain rfl := Option.some.inj (hw.symm.trans hu)
      exact hsame
    · rw [htraits, h.inherits_requested hw hreq hdisabled hall]
      constructor
      · intro hor u hu
        obtain rfl := Option.some.inj (hw.symm.trans hu)
        exact .inr hor
      · intro hrefreshes
        refine (hrefreshes w hw).resolve_left fun hnot => ?_
        rw [hreq] at hnot
        cases enabled <;> cases hnot
  | setFocus a =>
    obtain ⟨e, v, -, -, -, -, -, hflags⟩ := step_setFocus h valid step
    refine iff_of_true (hall.congr fun b => ?_) trivial
    have hmap := congrArg (Option.map requests) (hflags b)
    rw [Option.map_map, Option.map_map] at hmap
    exact hmap.trans ((requests_flagged ..).trans (requests_flagged ..))

end WidgetEvent

namespace FocusState

/-- The links lead through the widget that was given the focus last, and it alone has the flag. -/
structure Focuses (root : Addr) (s : FocusState) : Prop where
  leads : ∀ f, s.last = some f → s.gui.traits.Leads root f
  flag : ∀ a w, s.gui.traits a = some w → (w.focused = true ↔ s.last = some a)

/-- When the focus goes to another widget, the links end at the one that has it. -/
def EndsAtFocus (s : FocusState) : WidgetEvent → Prop
  | .setFocus a => ∀ f w, s.last = some f → f ≠ a → s.gui.traits f = some w →
      w.focused_child = none
  | _ => True

variable {root a : Addr} {s : FocusState} {g' : Gui}

theorem focuses_create {p : Addr} (h : s.gui.traits.Tree root)
    (valid : (WidgetEvent.create a p).Valid s.gui)
    (step : Returns (fun fuel => (WidgetEvent.create a p).apply s.gui fuel) g')
    (hfocus : s.Focuses root) : Focuses root ⟨g', s.last⟩ := by
  obtain ⟨ha, -, htraits⟩ := WidgetEvent.step_create valid step
  refine ⟨fun f hf => ?_, fun b w hw => ?_⟩
  · refine ReflTransGen.mono (fun x y hdown => ?_) _ _ (hfocus.leads f hf)
    obtain ⟨w, hw, hchild⟩ := down_iff.mp hdown
    rw [htraits]
    exact down_iff.mpr ⟨w, (created_of_ne (ne_of_fresh ha hw)).trans hw, hchild⟩
  · have hw : s.gui.traits.created a p b = some w := htraits ▸ hw
    by_cases hb : b = a
    · subst hb
      obtain rfl := Option.some.inj (created_self.symm.trans hw)
      refine iff_of_false (fun htrue => (by cases htrue)) fun hlast => ?_
      obtain ⟨v, hv⟩ := h.exists_of_leads (hfocus.leads b hlast)
      rw [ha] at hv
      cases hv
    · exact hfocus.flag b w ((created_of_ne hb).symm.trans hw)

theorem focuses_setEnabled {enabled : Bool} (h : s.gui.traits.Tree root)
    (valid : (WidgetEvent.setEnabled a enabled).Valid s.gui)
    (step : Returns (fun fuel => (WidgetEvent.setEnabled a enabled).apply s.gui fuel) g')
    (hfocus : s.Focuses root) : Focuses root ⟨g', s.last⟩ := by
  obtain ⟨w, hw, ⟨-, rfl⟩ | ⟨-, disabled, -, htraits⟩⟩ := WidgetEvent.step_setEnabled h valid step
  · exact hfocus
  have hlinks : ∀ b, (g'.traits b).map links = (s.gui.traits b).map links := by
    intro b
    rw [htraits, links_requested hw]
  refine ⟨fun f hf => ?_, fun b v hv => ?_⟩
  · change ReflTransGen g'.traits.Down root f
    rw [down_congr hlinks]
    exact hfocus.leads f hf
  · have hv : s.gui.traits.requested a w enabled disabled b = some v := htraits ▸ hv
    by_cases hb : b = a
    · subst hb
      rw [requested, update_self] at hv
      obtain rfl := Option.some.inj hv
      exact hfocus.flag b w hw
    · rw [requested, update_of_ne hb] at hv
      exact hfocus.flag b v hv

/-- The flag is taken from where the links end. -/
theorem focuses_setFocus (h : s.gui.traits.Tree root)
    (valid : (WidgetEvent.setFocus a).Valid s.gui)
    (step : Returns (fun fuel => (WidgetEvent.setFocus a).apply s.gui fuel) g')
    (hfocus : s.Focuses root) :
    Focuses root ⟨g', some a⟩ ↔ s.EndsAtFocus (.setFocus a) := by
  obtain ⟨e, v, htree, hlead, hend, hv, hchild, hflags⟩ := WidgetEvent.step_setFocus h valid step
  have hflag : ∀ {b u}, g'.traits b = some u → ∃ w, s.gui.traits b = some w ∧
      (u.focused = true ↔ b = a ∨ s.last = some b ∧ b ≠ e) := by
    intro b u hu
    have hmap := hflags b
    rw [hu, map_some] at hmap
    obtain ⟨u', hu', heq⟩ := map_eq_some_iff.mp hmap.symm
    obtain ⟨w, hw, hiff⟩ := exists_of_flagged hu'
    have hsame : (unlinked u').focused = (unlinked u).focused := by rw [heq]
    have hsame : u'.focused = u.focused := hsame
    exact ⟨w, hw, by rw [← hsame, hiff, hfocus.flag b w hw]⟩
  have hlive : ∀ {b w}, s.gui.traits b = some w → ∃ u, g'.traits b = some u := by
    intro b w hw
    have hlinks := (links_flagged (s.gui.traits.flagged e false) a true b).trans
      (links_flagged s.gui.traits e false b)
    rw [hw] at hlinks
    obtain ⟨u', hu', -⟩ := map_eq_some_iff.mp hlinks
    have hmap := hflags b
    rw [hu'] at hmap
    obtain ⟨u, hu, -⟩ := map_eq_some_iff.mp hmap
    exact ⟨u, hu⟩
  have hend' : ∀ d, ¬ s.gui.traits.Down e d := by
    intro d hd
    obtain ⟨u, hu, hd⟩ := down_iff.mp hd
    obtain rfl := Option.some.inj (hv.symm.trans hu)
    rw [hchild] at hd
    cases hd
  constructor
  · intro hafter f w hf hfa hw
    -- The widget with the flag has lost it, so that it is the one where the links end.
    obtain ⟨u, hu⟩ := hlive hw
    obtain ⟨w', hw', hiff⟩ := hflag hu
    obtain rfl := Option.some.inj (hw.symm.trans hw')
    have hfe : f = e := by
      by_contra hne
      exact hfa (Option.some.inj ((hafter.flag f u hu).mp (hiff.mpr (.inr ⟨hf, hne⟩)))).symm
    subst hfe
    obtain rfl := Option.some.inj (hw.symm.trans hv)
    exact hchild
  · intro hends
    refine ⟨fun f hf => Option.some.inj hf ▸ hlead, fun b u hu => ?_⟩
    obtain ⟨w, hw, hiff⟩ := hflag hu
    rw [hiff]
    constructor
    · rintro (rfl | ⟨hlast, hbe⟩)
      · rfl
      · by_contra hba
        refine hbe (leads_end_unique (hfocus.leads b hlast) hend (fun d hd => ?_) hend')
        obtain ⟨u', hu', hd⟩ := down_iff.mp hd
        rw [hends b u' hlast (fun heq => hba (congrArg some heq.symm)) hu'] at hd
        cases hd
    · intro heq
      exact .inl (Option.some.inj heq).symm

/-- A call leaves the focus as it should be exactly if the links end at the one that had it. -/
theorem focuses_step {event : WidgetEvent} (h : s.gui.traits.Tree root)
    (valid : event.Valid s.gui) (step : Returns (fun fuel => event.apply s.gui fuel) g')
    (hfocus : s.Focuses root) : Focuses root ⟨g', event.last s.last⟩ ↔ s.EndsAtFocus event := by
  cases event with
  | create a p => exact iff_of_true (focuses_create h valid step hfocus) trivial
  | setEnabled a enabled => exact iff_of_true (focuses_setEnabled h valid step hfocus) trivial
  | setFocus a => exact focuses_setFocus h valid step hfocus

end FocusState

namespace TreeRun

variable {root : Addr} {steps : List (FocusState × WidgetEvent)} {s : FocusState}

theorem tree (run : TreeRun root steps s) : s.gui.traits.Tree root := by
  induction run with
  | nil start =>
    rw [Gui.traits_createShell start]
    exact tree_shell root
  | snoc _ valid step ih => exact WidgetEvent.tree_step ih valid step

/-- What each call keeps under a condition, and loses without it, holds in all states of a run
exactly if all calls meet the condition. -/
theorem all_iff {P : FocusState → Prop} {C : FocusState → WidgetEvent → Prop}
    (start : ∀ {g}, g.traits = shell root → P ⟨g, none⟩)
    (keep : ∀ {s : FocusState} {event : WidgetEvent} {g'}, s.gui.traits.Tree root →
      event.Valid s.gui → Returns (fun fuel => event.apply s.gui fuel) g' → P s →
        (P ⟨g', event.last s.last⟩ ↔ C s event))
    (run : TreeRun root steps s) :
    ((∀ x ∈ steps, P x.1) ∧ P s) ↔ ∀ x ∈ steps, C x.1 x.2 := by
  induction run with
  | nil hstart => simp [start (Gui.traits_createShell hstart)]
  | @snoc steps s g' event run valid step ih =>
    rw [forall_mem_append, forall_mem_append, forall_mem_singleton,
      forall_mem_singleton, ih]
    constructor
    · rintro ⟨hcond, hnext⟩
      have hbefore := (ih.mpr hcond).2
      exact ⟨hcond, (keep run.tree valid step hbefore).mp hnext⟩
    · rintro ⟨hcond, hevent⟩
      have hbefore := (ih.mpr hcond).2
      exact ⟨hcond, (keep run.tree valid step hbefore).mpr hevent⟩

end TreeRun

section Runs

variable {root : Addr} {steps : List (FocusState × WidgetEvent)} {s : FocusState}

/-- Each widget is disabled as those above it are, in every state of a run, exactly if no widget is
created under a disabled one and none is enabled or disabled with a change to those below it. -/
theorem treeRun_inherits_iff (run : TreeRun root steps s) :
    ((∀ x ∈ steps, x.1.gui.traits.Inherits) ∧ s.gui.traits.Inherits) ↔
      ∀ x ∈ steps, x.1.gui.traits.Refreshes x.2 :=
  run.all_iff (P := fun s => s.gui.traits.Inherits)
    (C := fun s event => s.gui.traits.Refreshes event)
    (fun htraits => htraits ▸ inherits_shell root) WidgetEvent.inherits_step

theorem focuses_shell {g : Gui} (htraits : g.traits = shell root) :
    FocusState.Focuses root ⟨g, none⟩ where
  leads f hf := by cases hf
  flag a w hw := by
    have hw : shell root a = some w := htraits ▸ hw
    rw [(eq_of_shell hw).2]
    exact iff_of_false (fun htrue => (by cases htrue)) fun hlast => (by cases hlast)

/-- The links lead through the widget that was given the focus last, and it alone has the flag, in
every state of a run, exactly if the focus is taken from no widget that has a focused child. Each
widget can be given the focus. -/
theorem treeRun_focuses_iff (run : TreeRun root steps s) :
    (((∀ x ∈ steps, x.1.Focuses root) ∧ s.Focuses root) ↔ ∀ x ∈ steps, x.1.EndsAtFocus x.2) ∧
      ∀ a, s.gui.widgets.cell a ≠ none →
        ∃ g', Returns (fun fuel => s.gui.setFocus fuel a) (true, g') := by
  refine ⟨run.all_iff focuses_shell FocusState.focuses_step, fun a ha => ?_⟩
  obtain ⟨w, hw⟩ := Gui.exists_traits ha
  obtain ⟨g', e, v, hrun, -⟩ := Gui.setFocus_returns run.tree hw
  exact ⟨g', hrun⟩

end Runs

/-- A widget is disabled, then the one above it, and at last it is enabled, with no effect: it stays
disabled as the one above it is. -/
theorem treeRun_inherits_nested : ∃ steps s w, TreeRun 0 steps s ∧
    steps.map Prod.snd = [.create 1 0, .create 2 1, .setEnabled 2 false, .setEnabled 1 false,
      .setEnabled 2 true] ∧
    s.gui.traits.Inherits ∧ s.gui.traits 2 = some w ∧ w.reqDisabled = false ∧
      w.disabled = true := by
  have start : TreeRun 0 [] ⟨_, none⟩ := .nil rfl
  have first := start.snoc
    (show (WidgetEvent.create 1 0).Valid _ from ⟨rfl, some_ne_none _⟩)
    (Returns.of_eq fun _ => rfl)
  have second := first.snoc
    (show (WidgetEvent.create 2 1).Valid _ from ⟨rfl, some_ne_none _⟩)
    (Returns.of_eq fun _ => rfl)
  have third := second.snoc
    (show (WidgetEvent.setEnabled 2 false).Valid _ from some_ne_none _)
    (Returns.of_eq fun _ => rfl)
  have fourth := third.snoc
    (show (WidgetEvent.setEnabled 1 false).Valid _ from some_ne_none _)
    (Returns.of_eq fun _ => rfl)
  have fifth := fourth.snoc
    (show (WidgetEvent.setEnabled 2 true).Valid _ from some_ne_none _)
    (Returns.of_eq fun _ => rfl)
  refine ⟨_, _, _, fifth, rfl, ((treeRun_inherits_iff fifth).mpr ?_).2, rfl, rfl, rfl⟩
  simp only [forall_mem_append, forall_mem_singleton]
  refine ⟨⟨⟨⟨⟨by simp, fun v hv => ?_⟩, fun v hv => ?_⟩, fun w _ => .inr (.inr fun c v hv hp => ?_)⟩,
    fun w _ => .inr (.inr fun c v hv hp => ?_)⟩, fun w hw => .inr (.inl ?_)⟩
  · obtain rfl := Option.some.inj hv
    rfl
  · obtain rfl := Option.some.inj hv
    rfl
  · -- There is nothing below the second widget.
    obtain rfl | rfl | rfl | ⟨hc, hc', hc''⟩ : c = 2 ∨ c = 1 ∨ c = 0 ∨ c ≠ 2 ∧ c ≠ 1 ∧ c ≠ 0 := by
      tauto
    · obtain rfl := Option.some.inj hv
      cases hp
    · obtain rfl := Option.some.inj hv
      cases hp
    · obtain rfl := Option.some.inj hv
      cases hp
    · simp [Gui.traits, Gui.cell_set, update_of_ne, hc, hc', hc''] at hv
  · -- The only one below the first widget asks to be disabled itself.
    obtain rfl | rfl | rfl | ⟨hc, hc', hc''⟩ : c = 2 ∨ c = 1 ∨ c = 0 ∨ c ≠ 2 ∧ c ≠ 1 ∧ c ≠ 0 := by
      tauto
    · obtain rfl := Option.some.inj hv
      rfl
    · obtain rfl := Option.some.inj hv
      cases hp
    · obtain rfl := Option.some.inj hv
      cases hp
    · simp [Gui.traits, Gui.cell_set, update_of_ne, hc, hc', hc''] at hv
  · obtain rfl := Option.some.inj hw
    exact ⟨1, _, rfl, rfl, rfl⟩

/-- A widget is created under a shell that is disabled then. -/
theorem not_inherits_below : ∃ steps s, TreeRun 0 steps s ∧
    steps.map Prod.snd = [.create 1 0, .setEnabled 0 false] ∧ ¬ s.gui.traits.Inherits := by
  have start : TreeRun 0 [] ⟨_, none⟩ := .nil rfl
  have first := start.snoc
    (show (WidgetEvent.create 1 0).Valid _ from ⟨rfl, some_ne_none _⟩)
    (Returns.of_eq fun _ => rfl)
  have second := first.snoc
    (show (WidgetEvent.setEnabled 0 false).Valid _ from some_ne_none _)
    (Returns.of_eq fun _ => rfl)
  refine ⟨_, _, second, rfl, fun h => ?_⟩
  have hdisabled := (h 1 _ rfl).mpr ⟨0, _, .single rfl, rfl, rfl⟩
  cases hdisabled

/-- The focus goes to a widget, and back to the shell. -/
theorem treeRun_focuses_back : ∃ steps s, TreeRun 0 steps s ∧
    steps.map Prod.snd = [.create 1 0, .setFocus 1, .setFocus 0] ∧ s.Focuses 0 := by
  have start : TreeRun 0 [] ⟨_, none⟩ := .nil rfl
  have first := start.snoc
    (show (WidgetEvent.create 1 0).Valid _ from ⟨rfl, some_ne_none _⟩)
    (Returns.of_eq fun _ => rfl)
  have second := first.snoc
    (show (WidgetEvent.setFocus 1).Valid _ from some_ne_none _)
    (Returns.of_add 3 fun _ => rfl)
  have third := second.snoc
    (show (WidgetEvent.setFocus 0).Valid _ from some_ne_none _)
    (Returns.of_add 3 fun _ => rfl)
  refine ⟨_, _, third, rfl, ((treeRun_focuses_iff third).1.mpr ?_).2⟩
  simp only [forall_mem_append, forall_mem_singleton]
  refine ⟨⟨⟨by simp, trivial⟩, ?_⟩, ?_⟩
  · intro f w hf
    cases hf
  · intro f w hf _ hw
    obtain rfl := Option.some.inj hf
    obtain rfl := Option.some.inj hw
    rfl

/-- The focus goes to a widget, to the shell, and to another widget. -/
theorem not_focuses_sibling : ∃ steps s, TreeRun 0 steps s ∧ steps.map Prod.snd =
    [.create 1 0, .create 2 0, .setFocus 1, .setFocus 0, .setFocus 2] ∧ ¬ s.Focuses 0 := by
  have start : TreeRun 0 [] ⟨_, none⟩ := .nil rfl
  have first := start.snoc
    (show (WidgetEvent.create 1 0).Valid _ from ⟨rfl, some_ne_none _⟩)
    (Returns.of_eq fun _ => rfl)
  have second := first.snoc
    (show (WidgetEvent.create 2 0).Valid _ from ⟨rfl, some_ne_none _⟩)
    (Returns.of_eq fun _ => rfl)
  have third := second.snoc
    (show (WidgetEvent.setFocus 1).Valid _ from some_ne_none _)
    (Returns.of_add 3 fun _ => rfl)
  have fourth := third.snoc
    (show (WidgetEvent.setFocus 0).Valid _ from some_ne_none _)
    (Returns.of_add 3 fun _ => rfl)
  have fifth := fourth.snoc
    (show (WidgetEvent.setFocus 2).Valid _ from some_ne_none _)
    (Returns.of_add 3 fun _ => rfl)
  refine ⟨_, _, fifth, rfl, fun h => ?_⟩
  have hlast := (h.flag 0 _ rfl).mp rfl
  cases hlast

end Drt
