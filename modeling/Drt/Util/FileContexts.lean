import Drt.Lib.Chain
import Drt.Lib.Fuel
import Mathlib.Data.List.Perm.Basic
import Mathlib.Tactic.Ring

/-!
# Contexts of a file writer

The pieces of a writer are linked one way, and the writer prints behind the last one. A context is
a place among the pieces: it prints into one piece of its own, and what is spliced in comes right
behind that piece. A splice at the end of the list would be lost with the next piece that the writer
prints; before each one the writer prints an empty piece, so that there is always one behind.
-/

open List Function Option

namespace Drt

/-- A text of octets. -/
abbrev Octets := List UInt8

/-- `FileWriter::Context`. -/
structure WriterContext where
  indent : Octets
  /-- The piece that is printed to. -/
  context : Nat
  deriving DecidableEq, Repr

/-- `FileWriter`, with its pieces in memory and the contexts that were made. -/
structure ContextWriter where
  content : Nat → Octets
  next : Nat → Option Nat
  /-- The number of pieces that were made, and so the name of the next one. -/
  made : Nat
  pieces : Nat
  current : Nat
  indent : Octets
  contexts : List WriterContext

namespace ContextWriter

/-- `s/^(.+)$/$indent$1/gm`, from the start of a line or from inside one. -/
def substitute (indent : Octets) : Bool → Octets → Octets
  | _, [] => []
  | start, c :: rest =>
    if c = 10 then 10 :: substitute indent true rest
    else if start then indent ++ c :: substitute indent false rest
    else c :: substitute indent false rest

def new : ContextWriter where
  content _ := []
  next _ := none
  made := 1
  pieces := 0
  current := 0
  indent := []
  contexts := []

/-- A piece is made. -/
def make (w : ContextWriter) (content : Octets) (next : Option Nat) : ContextWriter :=
  { w with
    content := Function.update w.content w.made content
    next := Function.update w.next w.made next
    made := w.made + 1 }

def print (w : ContextWriter) (content : Octets) : ContextWriter :=
  let piece := w.made
  let w := w.make content none
  { w with next := Function.update w.next w.current (some piece), current := piece }

def rememberContext (w : ContextWriter) : ContextWriter :=
  let w := w.print []
  { w with contexts := w.contexts ++ [⟨w.indent, w.current⟩] }

/-- `print` of a context. -/
def printAt (w : ContextWriter) (c : WriterContext) (content : Octets) : ContextWriter :=
  { w with
    content := Function.update w.content c.context
      (w.content c.context ++ substitute c.indent true content) }

/-- `subContext` of the context with this number; `indent` is that of the new context. -/
def subContext (w : ContextWriter) (k : Nat) (c : WriterContext) (indent : Octets) :
    ContextWriter :=
  let w := w.print []
  let new_context := w.made
  let w := w.make [] (w.next c.context)
  let piece := w.made
  let w := w.make [] (some new_context)
  { w with
    next := Function.update w.next c.context (some piece)
    contexts := w.contexts.set k ⟨c.indent, new_context⟩ ++ [⟨indent, piece⟩] }

def subAfterContext (w : ContextWriter) (c : WriterContext) : ContextWriter :=
  let w := w.print []
  let piece := w.made
  let w := w.make [] (w.next c.context)
  { w with
    next := Function.update w.next c.context (some piece)
    contexts := w.contexts ++ [⟨c.indent, piece⟩] }

/-- The indentation of `indentContext`: a level that is missing or zero is one. -/
def indentOf (c : WriterContext) (level : Option Int) : Octets :=
  let level := if level.getD 0 = 0 then 1 else level.getD 0
  c.indent ++ List.replicate level.toNat 9

/-- The loop of `flush`: what is written from a piece on. -/
def writeFrom (w : ContextWriter) : Nat → Option Nat → Outcome Empty Octets
  | 0, _ => .outOfFuel
  | _ + 1, none => .ok []
  | fuel + 1, some piece => do
    let behind ← w.writeFrom fuel (w.next piece)
    .ok (w.content piece ++ behind)

/-- What the first `flush` writes. -/
def flush (w : ContextWriter) (fuel : Nat) : Outcome Empty Octets := w.writeFrom fuel (some w.pieces)

/-- A call on the writer, or on a context by its number. -/
inductive Event where
  | print (content : Octets)
  | rememberContext
  | printAt (k : Nat) (content : Octets)
  | subContext (k : Nat)
  | subAfterContext (k : Nat)
  | indentContext (k : Nat) (level : Option Int)
  deriving DecidableEq, Repr

/-- The step of a call; a context has to be there. -/
def step (w : ContextWriter) : Event → Option ContextWriter
  | .print content => some (w.print content)
  | .rememberContext => some w.rememberContext
  | .printAt k content => w.contexts[k]?.map fun c => w.printAt c content
  | .subContext k => w.contexts[k]?.map fun c => w.subContext k c c.indent
  | .subAfterContext k => w.contexts[k]?.map fun c => w.subAfterContext c
  | .indentContext k level => w.contexts[k]?.map fun c => w.subContext k c (indentOf c level)

end ContextWriter

/-! ### What is to be written

A document has the texts of the writer and its contexts in order. A context has a body, of its own
texts and of the contexts made in it, and the contexts made behind it. -/

/-- A document, from its first text or context on. -/
inductive WriterDoc where
  | nil
  | text (content : Octets) (rest : WriterDoc)
  | context (k : Nat) (body after rest : WriterDoc)
  deriving DecidableEq, Repr

namespace WriterDoc

/-- What is written for a document. -/
def render : WriterDoc → Octets
  | nil => []
  | text content rest => content ++ rest.render
  | context _ body after rest => body.render ++ (after.render ++ rest.render)

def append : WriterDoc → WriterDoc → WriterDoc
  | nil, e => e
  | text content rest, e => text content (rest.append e)
  | context k body after rest, e => context k body after (rest.append e)

/-- At the end of the body of a context. -/
def inside (k : Nat) : WriterDoc → WriterDoc → WriterDoc
  | nil, _ => nil
  | text content rest, e => text content (rest.inside k e)
  | context j body after rest, e =>
    context j (if j = k then (body.inside k e).append e else body.inside k e) (after.inside k e)
      (rest.inside k e)

/-- Right behind the body of a context. -/
def behind (k : Nat) : WriterDoc → WriterDoc → WriterDoc
  | nil, _ => nil
  | text content rest, e => text content (rest.behind k e)
  | context j body after rest, e =>
    context j (body.behind k e)
      (if j = k then e.append (after.behind k e) else after.behind k e) (rest.behind k e)

/-- A context without anything in it. -/
def fresh (k : Nat) : WriterDoc := context k nil nil nil

end WriterDoc

/-- A text with each line that is not empty indented. -/
def indentLines (indent text : Octets) : Octets :=
  List.intercalate [10] ((text.splitOn 10).map fun line =>
    if line = [] then [] else indent ++ line)

/-- The document, the indentation of each context, and what was printed: by the writer, or to a
context, with its indentation. -/
structure WriterPlan where
  doc : WriterDoc
  indents : List Octets
  printed : List (Option Nat × Octets)

namespace WriterPlan

open ContextWriter (Event)

def new : WriterPlan := ⟨.nil, [], []⟩

/-- What a call does to the document. -/
def step (p : WriterPlan) : Event → Option WriterPlan
  | .print content =>
    some { p with
      doc := p.doc.append (.text content .nil)
      printed := p.printed ++ [(none, content)] }
  | .rememberContext =>
    some { p with
      doc := p.doc.append (.fresh p.indents.length)
      indents := p.indents ++ [[]] }
  | .printAt k content => p.indents[k]?.map fun indent =>
    { p with
      doc := p.doc.inside k (.text (indentLines indent content) .nil)
      printed := p.printed ++ [(some k, indentLines indent content)] }
  | .subContext k => p.indents[k]?.map fun indent =>
    { p with
      doc := p.doc.inside k (.fresh p.indents.length)
      indents := p.indents ++ [indent] }
  | .subAfterContext k => p.indents[k]?.map fun indent =>
    { p with
      doc := p.doc.behind k (.fresh p.indents.length)
      indents := p.indents ++ [indent] }
  | .indentContext k level => p.indents[k]?.map fun indent =>
    { p with
      doc := p.doc.inside k (.fresh p.indents.length)
      indents := p.indents ++ [ContextWriter.indentOf ⟨indent, 0⟩ level] }

end WriterPlan

/-! ### Marks

A document in one line, with a mark where each context goes on. What a call does to the document is a
replacement of one mark. -/

/-- A text, or the place where a context goes on. -/
inductive WriterMark where
  | text (content : Octets)
  | cursor (k : Nat)
  deriving DecidableEq, Repr

namespace WriterMark

/-- What is written for a mark. -/
def render : WriterMark → Octets
  | text content => content
  | cursor _ => []

/-- The mark of a context is replaced. -/
def replace (k : Nat) (new : List WriterMark) (m : WriterMark) : List WriterMark :=
  if m = cursor k then new else [m]

theorem flatMap_replace {k : Nat} {l : List WriterMark} (h : cursor k ∉ l)
    (new : List WriterMark) : l.flatMap (replace k new) = l := by
  induction l with
  | nil => rfl
  | cons m l ih =>
    rw [mem_cons, not_or] at h
    rw [flatMap_cons, replace, if_neg (Ne.symm h.1), ih h.2]
    rfl

end WriterMark

namespace WriterDoc

variable (k j : Nat) (content : Octets) (d e : WriterDoc)

/-- The texts and the contexts in the order in which they are written. -/
def marks : WriterDoc → List WriterMark
  | nil => []
  | text content rest => .text content :: rest.marks
  | context k body after rest => body.marks ++ .cursor k :: (after.marks ++ rest.marks)

theorem render_eq : d.render = d.marks.flatMap WriterMark.render := by
  induction d with
  | nil => rfl
  | text content rest ih => rw [render, marks, flatMap_cons, ih]; rfl
  | context k body after rest ihb iha ihr =>
    rw [render, marks, flatMap_append, flatMap_cons, flatMap_append, ihb, iha, ihr]
    rfl

theorem marks_append : (d.append e).marks = d.marks ++ e.marks := by
  induction d with
  | nil => rfl
  | text content rest ih => rw [append, marks, ih]; rfl
  | context k body after rest _ _ ih =>
    rw [append, marks, ih, marks, append_assoc, cons_append, append_assoc]

theorem marks_inside :
    (d.inside k e).marks = d.marks.flatMap (WriterMark.replace k (e.marks ++ [.cursor k])) := by
  induction d with
  | nil => rfl
  | text content rest ih => rw [inside, marks, marks, flatMap_cons, ih]; rfl
  | context j body after rest ihb iha ihr =>
    rw [inside, marks, marks, flatMap_append, flatMap_cons, flatMap_append, iha, ihr]
    by_cases hj : j = k
    · rw [if_pos hj, marks_append, ihb, hj, WriterMark.replace, if_pos rfl]
      simp
    · rw [if_neg hj, ihb, WriterMark.replace, if_neg (by simpa using hj)]
      rfl

theorem marks_behind :
    (d.behind k e).marks = d.marks.flatMap (WriterMark.replace k (.cursor k :: e.marks)) := by
  induction d with
  | nil => rfl
  | text content rest ih => rw [behind, marks, marks, flatMap_cons, ih]; rfl
  | context j body after rest ihb iha ihr =>
    rw [behind, marks, marks, flatMap_append, flatMap_cons, flatMap_append, ihb, ihr]
    by_cases hj : j = k
    · rw [if_pos hj, marks_append, iha, hj, WriterMark.replace, if_pos rfl]
      simp
    · rw [if_neg hj, iha, WriterMark.replace, if_neg (by simpa using hj)]
      rfl

@[simp] theorem marks_text : (text content nil).marks = [.text content] := rfl

@[simp] theorem marks_fresh : (fresh k).marks = [.cursor k] := rfl

end WriterDoc

/-! ### Lines -/

theorem splitOn_cons (c : UInt8) (rest : Octets) : List.splitOn 10 (c :: rest) =
    if c = 10 then [] :: rest.splitOn 10 else (rest.splitOn 10).modifyHead (c :: ·) := by
  rw [List.splitOn, splitOnP_cons_eq_if_modifyHead]
  simp only [beq_iff_eq]
  rfl

theorem intercalate_append (sep front x : Octets) (l : List Octets) :
    List.intercalate sep ((front ++ x) :: l) = front ++ List.intercalate sep (x :: l) := by
  cases l <;> simp [List.intercalate]

theorem intercalate_cons (x y : Octets) (l : List Octets) :
    List.intercalate [10] (x :: y :: l) = x ++ 10 :: List.intercalate [10] (y :: l) := by
  simp [List.intercalate]

/-- From the start of a line all lines are indented, and from inside one all but the first. -/
theorem exists_substitute (indent text : Octets) : ∃ l ls, text.splitOn 10 = l :: ls ∧
    ContextWriter.substitute indent true text = List.intercalate [10]
      ((l :: ls).map fun line => if line = [] then [] else indent ++ line) ∧
    ContextWriter.substitute indent false text = List.intercalate [10]
      (l :: ls.map fun line => if line = [] then [] else indent ++ line) := by
  induction text with
  | nil => exact ⟨[], [], rfl, rfl, rfl⟩
  | cons c rest ih =>
    obtain ⟨l, ls, hsplit, hstart, hinside⟩ := ih
    rw [splitOn_cons, hsplit, ContextWriter.substitute, ContextWriter.substitute]
    by_cases hc : c = 10
    · simp only [if_pos hc]
      refine ⟨[], l :: ls, rfl, ?_, ?_⟩
      · rw [hstart, map_cons, map_cons, map_cons, intercalate_cons]
        rfl
      · rw [hstart, map_cons, intercalate_cons]
        rfl
    · simp only [if_neg hc, if_true]
      refine ⟨c :: l, ls, rfl, ?_, ?_⟩
      · rw [hinside, map_cons, if_neg (cons_ne_nil c l)]
        have hfront : indent ++ c :: l = (indent ++ [c]) ++ l := by simp
        rw [hfront, intercalate_append, append_assoc, singleton_append]
      · rw [hinside]
        exact (intercalate_append [10] [c] l _).symm

/-- Indenting at the start of each line is indenting each line that is not empty. -/
theorem substitute_eq (indent text : Octets) :
    ContextWriter.substitute indent true text = indentLines indent text := by
  obtain ⟨l, ls, hsplit, hstart, -⟩ := exists_substitute indent text
  rw [hstart, indentLines, hsplit]

/-! ### Pieces -/

/-- A piece with the texts that were printed to it, and the context that prints to it. -/
structure WriterPiece where
  piece : Nat
  texts : List Octets
  cursor : Option Nat

namespace WriterPiece

/-- The part of the document that is in the piece. -/
def marks (s : WriterPiece) : List WriterMark :=
  s.texts.map .text ++ s.cursor.toList.map .cursor

/-- The pieces that a context is the cursor of. -/
def places (k : Nat) (segs : List WriterPiece) : List Nat :=
  (segs.filter (·.cursor = some k)).map (·.piece)

section Places

variable {k piece : Nat} {segs l m : List WriterPiece} {s : WriterPiece}

@[simp] theorem places_append : places k (l ++ m) = places k l ++ places k m := by simp [places]

@[simp] theorem places_cons :
    places k (s :: m) = (if s.cursor = some k then [s.piece] else []) ++ places k m := by
  by_cases hs : s.cursor = some k <;> simp [places, hs]

@[simp] theorem places_nil : places k [] = [] := rfl

theorem exists_of_places (h : places k segs = [piece]) : ∃ l texts m,
    segs = l ++ ⟨piece, texts, some k⟩ :: m ∧ places k l = [] ∧ places k m = [] := by
  induction segs with
  | nil => cases h
  | cons s segs ih =>
    rw [places_cons] at h
    by_cases hs : s.cursor = some k
    · rw [if_pos hs] at h
      obtain ⟨hpiece, hplaces⟩ := List.cons.inj h
      refine ⟨[], s.texts, segs, ?_, rfl, hplaces⟩
      rw [← hpiece, ← hs]
      rfl
    · rw [if_neg hs] at h
      obtain ⟨l, texts, m, rfl, hl, hm⟩ := ih h
      exact ⟨s :: l, texts, m, rfl, by simp [hs, hl], hm⟩

theorem cursor_notMem (h : places k segs = []) : .cursor k ∉ segs.flatMap marks := by
  intro hmem
  obtain ⟨s, hs, hcursor⟩ := mem_flatMap.mp hmem
  have hk : s.cursor = some k := by simpa [marks] using hcursor
  have hplace : s.piece ∈ places k segs :=
    mem_map_of_mem (mem_filter.mpr ⟨hs, by simpa using hk⟩)
  rw [h] at hplace
  cases hplace

/-- The mark of a context is replaced in its piece only. -/
theorem replace_marks (hl : places k l = []) (hm : places k m = []) (texts : List Octets)
    (new : List WriterMark) :
    ((l ++ ⟨piece, texts, some k⟩ :: m).flatMap marks).flatMap (WriterMark.replace k new) =
      l.flatMap marks ++ (texts.map .text ++ new) ++ m.flatMap marks := by
  have htexts : WriterMark.cursor k ∉ texts.map WriterMark.text := by simp
  rw [flatMap_append, flatMap_cons, flatMap_append, flatMap_append,
    WriterMark.flatMap_replace (cursor_notMem hl), WriterMark.flatMap_replace (cursor_notMem hm),
    marks, flatMap_append, WriterMark.flatMap_replace htexts]
  simp [WriterMark.replace]

end Places

end WriterPiece

namespace ContextWriter

variable {w : ContextWriter} {segs l m : List WriterPiece} {s : WriterPiece}

/-- These pieces are linked in this order, the last one being the one that is printed last. -/
structure Linked (w : ContextWriter) (segs : List WriterPiece) : Prop where
  chain : Chain w.next (some w.pieces) (segs.map (·.piece))
  content : ∀ s ∈ segs, w.content s.piece = s.texts.flatten
  made : ∀ s ∈ segs, s.piece < w.made
  last : (segs.map (·.piece)).getLast? = some w.current

theorem linked_new : Linked new [⟨0, [], none⟩] where
  chain := ⟨rfl, rfl⟩
  content := by simp [new]
  made := by simp [new]
  last := rfl

theorem Linked.fresh (h : Linked w segs) : w.made ∉ segs.map (·.piece) := by
  intro hmem
  obtain ⟨s, hs, heq⟩ := mem_map.mp hmem
  exact absurd (h.made s hs) (by omega)

/-- A piece that is printed comes last. -/
theorem Linked.print (h : Linked w segs) (texts : List Octets) (cursor : Option Nat) :
    Linked (w.print texts.flatten) (segs ++ [⟨w.made, texts, cursor⟩]) where
  chain := by
    obtain ⟨init, hinit⟩ := List.getLast?_eq_some_iff.mp h.last
    have hnodup := h.chain.nodup
    have hfresh := h.fresh
    have hchain := h.chain.update (v := none) hfresh
    rw [hinit] at hchain hnodup hfresh
    have hcurrent : w.current ∉ init := fun hmem =>
      (nodup_append.mp hnodup).2.2 _ hmem _ (mem_singleton_self _) rfl
    have hne : w.current ≠ w.made := by
      intro heq
      exact hfresh (by simp [heq])
    have hend : Chain (update w.next w.made none) (some w.made) [w.made] :=
      ⟨rfl, update_self ..⟩
    have hsplice := hchain.splice hend hcurrent (by simpa using hne)
    rw [map_append, hinit, append_assoc]
    exact hsplice
  content := by
    intro s hs
    rcases mem_append.mp hs with hs | hs
    · have hne : s.piece ≠ w.made := Nat.ne_of_lt (h.made s hs)
      exact (update_of_ne hne ..).trans (h.content s hs)
    · obtain rfl := mem_singleton.mp hs
      exact update_self ..
  made := by
    intro s hs
    rcases mem_append.mp hs with hs | hs
    · exact Nat.lt_succ_of_lt (h.made s hs)
    · obtain rfl := mem_singleton.mp hs
      exact Nat.lt_succ_self _
  last := by simp [ContextWriter.print]

/-- A context prints to its piece. -/
theorem Linked.printAt (h : Linked w (l ++ s :: m)) {c : WriterContext} (hc : c.context = s.piece)
    (content : Octets) :
    Linked (w.printAt c content)
      (l ++ ⟨s.piece, s.texts ++ [substitute c.indent true content], s.cursor⟩ :: m) where
  chain := by simpa [ContextWriter.printAt] using h.chain
  content := by
    have hnodup := h.chain.nodup
    rw [map_append, map_cons] at hnodup
    obtain ⟨hl, hm⟩ : s.piece ∉ l.map (·.piece) ∧ s.piece ∉ m.map (·.piece) := by
      refine ⟨fun hmem => ?_, (nodup_cons.mp (nodup_append.mp hnodup).2.1).1⟩
      exact (nodup_append.mp hnodup).2.2 _ hmem _ mem_cons_self rfl
    have hother : ∀ t ∈ l ++ m, (w.printAt c content).content t.piece = t.texts.flatten := by
      intro t ht
      have hne : t.piece ≠ s.piece := by
        intro heq
        rcases mem_append.mp ht with ht | ht
        · exact hl (heq ▸ mem_map_of_mem ht)
        · exact hm (heq ▸ mem_map_of_mem ht)
      have htmem : t ∈ l ++ s :: m := by
        rcases mem_append.mp ht with ht | ht <;> simp [ht]
      rw [ContextWriter.printAt, hc]
      exact (update_of_ne hne ..).trans (h.content t htmem)
    intro t ht
    rcases mem_append.mp ht with ht | ht
    · exact hother t (mem_append_left _ ht)
    · rcases mem_cons.mp ht with rfl | ht
      · simp [ContextWriter.printAt, hc, h.content s (by simp)]
      · exact hother t (mem_append_right _ ht)
  made := by
    intro t ht
    rcases mem_append.mp ht with ht | ht
    · exact h.made t (mem_append_left _ ht)
    · rcases mem_cons.mp ht with rfl | ht
      · exact h.made s (by simp)
      · exact h.made t (by simp [ht])
  last := by simpa [ContextWriter.printAt] using h.last

/-- A new piece comes right behind another one. -/
def insertBehind (w : ContextWriter) (piece : Nat) : ContextWriter :=
  let made := w.make [] (w.next piece)
  { made with next := Function.update made.next piece (some w.made) }

/-- A piece that is inserted before the last one. -/
theorem Linked.insertBehind (h : Linked w (l ++ s :: m)) (hm : m ≠ []) (here new : Option Nat) :
    Linked (w.insertBehind s.piece) (l ++ ⟨s.piece, s.texts, here⟩ :: ⟨w.made, [], new⟩ :: m) where
  chain := by
    have hnodup := h.chain.nodup
    have hfresh := h.fresh
    have hchain := h.chain
    rw [map_append, map_cons] at hnodup hfresh hchain
    obtain ⟨hl, hback⟩ : s.piece ∉ l.map (·.piece) ∧ s.piece ∉ m.map (·.piece) := by
      refine ⟨fun hmem => ?_, (nodup_cons.mp (nodup_append.mp hnodup).2.1).1⟩
      exact (nodup_append.mp hnodup).2.2 _ hmem _ mem_cons_self rfl
    have hnew : w.made ∉ m.map (·.piece) := fun hmem =>
      hfresh (mem_append_right _ (mem_cons_of_mem _ hmem))
    have hne : s.piece ≠ w.made := by
      rintro heq
      exact hfresh (by simp [heq])
    have hrest := (hchain.tail_of_append.update (v := w.next s.piece) hnew).push
      (a := w.made) (update_self ..)
    have hsplice := (hchain.update (v := w.next s.piece) hfresh).splice hrest hl
      (mem_cons.not.mpr (not_or.mpr ⟨hne, hback⟩))
    rw [map_append]
    exact hsplice
  content := by
    have hold : ∀ t ∈ l ++ s :: m, (w.insertBehind s.piece).content t.piece = t.texts.flatten :=
      fun t ht => (update_of_ne (Nat.ne_of_lt (h.made t ht)) ..).trans (h.content t ht)
    intro t ht
    rcases mem_append.mp ht with ht | ht
    · exact hold t (mem_append_left _ ht)
    rcases mem_cons.mp ht with rfl | ht
    · exact hold s (by simp)
    rcases mem_cons.mp ht with rfl | ht
    · exact update_self ..
    · exact hold t (by simp [ht])
  made := by
    intro t ht
    rcases mem_append.mp ht with ht | ht
    · exact Nat.lt_succ_of_lt (h.made t (mem_append_left _ ht))
    rcases mem_cons.mp ht with rfl | ht
    · exact Nat.lt_succ_of_lt (h.made s (by simp))
    rcases mem_cons.mp ht with rfl | ht
    · exact Nat.lt_succ_self _
    · exact Nat.lt_succ_of_lt (h.made t (by simp [ht]))
  last := by
    obtain ⟨z, m, rfl⟩ := exists_cons_of_ne_nil hm
    have hlast := h.last
    simp only [map_append, map_cons, List.getLast?_append, List.getLast?_cons_cons]
      at hlast ⊢
    exact hlast

/-- `subContext` splices two pieces in behind that of the context. -/
theorem subContext_eq (w : ContextWriter) (k : Nat) {c : WriterContext} (indent : Octets)
    (hc : c.context < w.made) : w.subContext k c indent =
      { ((w.print []).insertBehind c.context).insertBehind c.context with
        contexts := w.contexts.set k ⟨c.indent, w.made + 1⟩ ++ [⟨indent, w.made + 2⟩] } := by
  have hne : c.context ≠ w.made + 1 := by omega
  have hne' : c.context ≠ w.made + 2 := by omega
  have hnext : (w.subContext k c indent).next =
      (((w.print []).insertBehind c.context).insertBehind c.context).next := by
    simp only [subContext, ContextWriter.insertBehind, make, print]
    rw [update_self, update_comm hne', update_idem,
      update_comm hne'.symm]
  simp only [subContext, ContextWriter.insertBehind, make, print] at hnext ⊢
  rw [hnext]

@[simp] theorem contexts_print (w : ContextWriter) (content : Octets) :
    (w.print content).contexts = w.contexts := rfl

@[simp] theorem made_print (w : ContextWriter) (content : Octets) :
    (w.print content).made = w.made + 1 := rfl

@[simp] theorem made_insertBehind (w : ContextWriter) (piece : Nat) :
    (w.insertBehind piece).made = w.made + 1 := rfl

/-! ### Calls -/

/-- The pieces show the document. -/
structure Shows (w : ContextWriter) (p : WriterPlan) (segs : List WriterPiece) : Prop where
  linked : Linked w segs
  places : ∀ k, WriterPiece.places k segs = (w.contexts[k]?.map (·.context)).toList
  marks : p.doc.marks = segs.flatMap WriterPiece.marks
  indents : p.indents = w.contexts.map (·.indent)
  indent : w.indent = []

theorem shows_new : Shows new WriterPlan.new [⟨0, [], none⟩] where
  linked := linked_new
  places _ := rfl
  marks := rfl
  indents := rfl
  indent := rfl

section Step

variable {p : WriterPlan} (h : Shows w p segs) {k : Nat} {c : WriterContext}

include h

theorem Shows.exists_piece (hc : w.contexts[k]? = some c) : ∃ l texts m,
    segs = l ++ ⟨c.context, texts, some k⟩ :: m ∧ WriterPiece.places k l = [] ∧
      WriterPiece.places k m = [] := by
  have hplaces := h.places k
  rw [hc] at hplaces
  exact WriterPiece.exists_of_places hplaces

theorem Shows.getElem?_indents (hc : w.contexts[k]? = some c) : p.indents[k]? = some c.indent := by
  rw [h.indents, List.getElem?_map, hc]
  rfl

theorem Shows.length_indents : p.indents.length = w.contexts.length := by
  rw [h.indents, length_map]

theorem Shows.places_new : WriterPiece.places w.contexts.length segs = [] := by
  rw [h.places, List.getElem?_eq_none (Nat.le_refl _)]
  rfl

theorem Shows.print (content : Octets) (printed : List (Option Nat × Octets)) :
    Shows (w.print content) ⟨p.doc.append (.text content .nil), p.indents, printed⟩
      (segs ++ [⟨w.made, [content], none⟩]) where
  linked := by simpa using h.linked.print [content] none
  places j := by
    rw [WriterPiece.places_append, h.places j]
    simp
  marks := by
    rw [WriterDoc.marks_append, h.marks]
    simp [WriterPiece.marks]
  indents := h.indents
  indent := h.indent

theorem Shows.printEmpty : Shows (w.print []) p (segs ++ [⟨w.made, [], none⟩]) where
  linked := h.linked.print [] none
  places j := by
    rw [WriterPiece.places_append, h.places j]
    simp
  marks := by
    rw [h.marks]
    simp [WriterPiece.marks]
  indents := h.indents
  indent := h.indent

theorem Shows.rememberContext :
    Shows w.rememberContext ⟨p.doc.append (.fresh p.indents.length), p.indents ++ [[]], p.printed⟩
      (segs ++ [⟨w.made, [], some w.contexts.length⟩]) where
  linked := by
    obtain ⟨chain, content, made, last⟩ := h.linked.print [] (some w.contexts.length)
    exact ⟨chain, content, made, last⟩
  places j := by
    have hcontexts : w.rememberContext.contexts = w.contexts ++ [⟨w.indent, w.made⟩] := rfl
    rw [hcontexts, WriterPiece.places_append, WriterPiece.places_cons, WriterPiece.places_nil,
      append_nil]
    by_cases hj : w.contexts.length = j
    · subst hj
      rw [h.places_new]
      simp
    · rw [h.places, if_neg (by simpa using hj), append_nil, List.getElem?_append]
      by_cases hlt : j < w.contexts.length
      · rw [if_pos hlt]
      · rw [if_neg hlt, List.getElem?_eq_none (by omega), List.getElem?_eq_none (by simp; omega)]
  marks := by
    rw [WriterDoc.marks_append, h.marks, h.length_indents]
    simp [WriterPiece.marks]
  indents := by
    rw [h.indents]
    simp [ContextWriter.rememberContext, ContextWriter.print, make, h.indent]
  indent := h.indent

theorem Shows.printAt (hc : w.contexts[k]? = some c) (content : Octets)
    (printed : List (Option Nat × Octets)) :
    ∃ segs', Shows (w.printAt c content)
      ⟨p.doc.inside k (.text (indentLines c.indent content) .nil), p.indents, printed⟩ segs' := by
  obtain ⟨l, texts, m, rfl, hl, hm⟩ := h.exists_piece hc
  have hlinked := h.linked.printAt (c := c) rfl content
  refine ⟨_, hlinked, fun j => ?_, ?_, h.indents, h.indent⟩
  · have hplaces := h.places j
    simp only [WriterPiece.places_append, WriterPiece.places_cons] at hplaces ⊢
    exact hplaces
  · rw [WriterDoc.marks_inside, h.marks, WriterPiece.replace_marks hl hm, substitute_eq]
    simp [WriterPiece.marks]

theorem Shows.subContext (hc : w.contexts[k]? = some c) (indent : Octets) :
    ∃ segs', Shows (w.subContext k c indent)
      ⟨p.doc.inside k (.fresh p.indents.length), p.indents ++ [indent], p.printed⟩ segs' := by
  obtain ⟨l, texts, m, rfl, hl, hm⟩ := h.exists_piece hc
  have hmade : c.context < w.made := h.linked.made ⟨c.context, texts, some k⟩ (by simp)
  have hk : k < w.contexts.length := (List.getElem?_eq_some_iff.mp hc).1
  have hfirst := h.printEmpty.linked
  rw [append_assoc, cons_append] at hfirst
  have hsecond := hfirst.insertBehind (by simp) none (some k)
  have hthird := hsecond.insertBehind (by simp) none (some w.contexts.length)
  rw [subContext_eq w k indent hmade]
  refine ⟨_, ⟨hthird.chain, hthird.content, hthird.made, hthird.last⟩, fun j => ?_, ?_, ?_,
    h.indent⟩
  · -- The first new piece is the place of the context, the second one that of the new context.
    have hplaces := h.places j
    have hnew := h.places_new
    simp only [WriterPiece.places_append, WriterPiece.places_cons] at hplaces hnew
    simp only [WriterPiece.places_append, WriterPiece.places_cons, WriterPiece.places_nil]
    by_cases hj : j = k
    · subst hj
      rw [hl, hm, List.getElem?_append_left (by simpa using hk), List.getElem?_set_self hk]
      simp [Nat.ne_of_gt hk]
    by_cases hlen : j = w.contexts.length
    · subst hlen
      obtain ⟨hl', hm'⟩ := append_eq_nil_iff.mp hnew
      rw [hl', (append_eq_nil_iff.mp hm').2, List.getElem?_append_right (by simp)]
      simp [Nat.ne_of_lt hk]
    · rw [if_neg (by simpa using Ne.symm hj), nil_append] at hplaces
      have hother : (w.contexts.set k ⟨c.indent, w.made + 1⟩ ++ [⟨indent, w.made + 2⟩])[j]? =
          w.contexts[j]? := by
        rw [List.getElem?_append, length_set]
        by_cases hlt : j < w.contexts.length
        · rw [if_pos hlt, List.getElem?_set_ne (Ne.symm hj)]
        · rw [if_neg hlt, List.getElem?_eq_none (by simp; omega),
            List.getElem?_eq_none (by omega)]
      rw [hother, ← hplaces]
      simp [Ne.symm hj, Ne.symm hlen]
  · rw [WriterDoc.marks_inside, h.marks, WriterPiece.replace_marks hl hm, h.length_indents]
    simp [WriterPiece.marks]
  · have hset : (w.contexts.set k ⟨c.indent, w.made + 1⟩).map (·.indent) =
        w.contexts.map (·.indent) := by
      apply ext_getElem?
      intro j
      rw [map_set]
      by_cases hj : j = k
      · subst hj
        rw [List.getElem?_set_self (by simpa using hk), List.getElem?_map, hc]
        rfl
      · rw [List.getElem?_set_ne (Ne.symm hj)]
    rw [h.indents, map_append, hset]
    rfl

theorem Shows.subAfterContext (hc : w.contexts[k]? = some c) :
    ∃ segs', Shows (w.subAfterContext c)
      ⟨p.doc.behind k (.fresh p.indents.length), p.indents ++ [c.indent], p.printed⟩ segs' := by
  obtain ⟨l, texts, m, rfl, hl, hm⟩ := h.exists_piece hc
  have hk : k ≠ w.contexts.length := Nat.ne_of_lt (List.getElem?_eq_some_iff.mp hc).1
  have hfirst := h.printEmpty.linked
  rw [append_assoc, cons_append] at hfirst
  have hsecond := hfirst.insertBehind (by simp) (some k) (some w.contexts.length)
  refine ⟨_, ⟨hsecond.chain, hsecond.content, hsecond.made, hsecond.last⟩, fun j => ?_, ?_, ?_,
    h.indent⟩
  · have hplaces := h.places j
    have hnew := h.places_new
    have hcontexts : (w.subAfterContext c).contexts =
        w.contexts ++ [⟨c.indent, w.made + 1⟩] := rfl
    simp only [WriterPiece.places_append, WriterPiece.places_cons] at hplaces hnew
    simp only [WriterPiece.places_append, WriterPiece.places_cons, WriterPiece.places_nil]
    rw [hcontexts]
    by_cases hlen : j = w.contexts.length
    · subst hlen
      obtain ⟨hl', hm'⟩ := append_eq_nil_iff.mp hnew
      rw [hl', (append_eq_nil_iff.mp hm').2, List.getElem?_append_right (by simp)]
      simp [hk]
    · have hother : (w.contexts ++ [⟨c.indent, w.made + 1⟩])[j]? = w.contexts[j]? := by
        rw [List.getElem?_append]
        by_cases hlt : j < w.contexts.length
        · rw [if_pos hlt]
        · rw [if_neg hlt, List.getElem?_eq_none (by simp; omega),
            List.getElem?_eq_none (by omega)]
      rw [hother, ← hplaces]
      simp [Ne.symm hlen]
  · rw [WriterDoc.marks_behind, h.marks, WriterPiece.replace_marks hl hm, h.length_indents]
    simp [WriterPiece.marks]
  · rw [h.indents]
    simp [ContextWriter.subAfterContext, ContextWriter.print, make]

end Step

/-- A call on the writer does to the pieces what it does to the document. -/
theorem Shows.step {p : WriterPlan} (h : Shows w p segs) {event : Event} {w' : ContextWriter}
    (hstep : w.step event = some w') :
    ∃ p' segs', p.step event = some p' ∧ Shows w' p' segs' := by
  cases event with
  | print content =>
    obtain rfl := Option.some.inj hstep
    exact ⟨_, _, rfl, h.print content _⟩
  | rememberContext =>
    obtain rfl := Option.some.inj hstep
    exact ⟨_, _, rfl, h.rememberContext⟩
  | printAt k content =>
    obtain ⟨c, hc, rfl⟩ := map_eq_some_iff.mp hstep
    obtain ⟨segs', h'⟩ := h.printAt hc content (p.printed ++ [(some k, indentLines c.indent content)])
    refine ⟨_, segs', ?_, h'⟩
    rw [WriterPlan.step, h.getElem?_indents hc]
    rfl
  | subContext k =>
    obtain ⟨c, hc, rfl⟩ := map_eq_some_iff.mp hstep
    obtain ⟨segs', h'⟩ := h.subContext hc c.indent
    refine ⟨_, segs', ?_, h'⟩
    rw [WriterPlan.step, h.getElem?_indents hc]
    rfl
  | subAfterContext k =>
    obtain ⟨c, hc, rfl⟩ := map_eq_some_iff.mp hstep
    obtain ⟨segs', h'⟩ := h.subAfterContext hc
    refine ⟨_, segs', ?_, h'⟩
    rw [WriterPlan.step, h.getElem?_indents hc]
    rfl
  | indentContext k level =>
    obtain ⟨c, hc, rfl⟩ := map_eq_some_iff.mp hstep
    obtain ⟨segs', h'⟩ := h.subContext hc (indentOf c level)
    refine ⟨_, segs', ?_, h'⟩
    rw [WriterPlan.step, h.getElem?_indents hc]
    rfl

/-- Calls one after another. -/
def run (w : ContextWriter) : List Event → Option ContextWriter
  | [] => some w
  | event :: events => w.step event >>= fun w => w.run events

end ContextWriter

/-- What calls one after another do to the document. -/
def WriterPlan.run (p : WriterPlan) : List ContextWriter.Event → Option WriterPlan
  | [] => some p
  | event :: events => p.step event >>= fun p => p.run events

namespace ContextWriter

variable {w : ContextWriter} {segs : List WriterPiece}

theorem Shows.run {p : WriterPlan} (h : Shows w p segs) {events : List Event}
    {w' : ContextWriter} (hrun : w.run events = some w') :
    ∃ p' segs', p.run events = some p' ∧ Shows w' p' segs' := by
  induction events generalizing w p segs with
  | nil =>
    obtain rfl := Option.some.inj hrun
    exact ⟨p, segs, rfl, h⟩
  | cons event events ih =>
    obtain ⟨w₁, hstep, hrun⟩ := bind_eq_some_iff.mp hrun
    obtain ⟨p₁, segs₁, hplan, h₁⟩ := h.step hstep
    obtain ⟨p', segs', hplans, h'⟩ := ih h₁ hrun
    refine ⟨p', segs', ?_, h'⟩
    rw [WriterPlan.run, hplan]
    exact hplans

theorem writeFrom_returns {head : Option Nat} {l : List Nat} (h : Chain w.next head l) :
    Outcome.Returns (fun fuel => w.writeFrom fuel head) (l.flatMap w.content) := by
  induction l generalizing head with
  | nil =>
    obtain rfl := h
    exact Outcome.Returns.of_succ_ok fun _ => rfl
  | cons piece l ih =>
    obtain ⟨rfl, h⟩ := h
    refine Outcome.Returns.of_succ ((ih h).bind ?_) fun _ => rfl
    exact Outcome.Returns.ok _

theorem Shows.flush_returns {p : WriterPlan} (h : Shows w p segs) :
    Outcome.Returns w.flush p.doc.render := by
  have hwritten : (segs.map (·.piece)).flatMap w.content = p.doc.render := by
    rw [WriterDoc.render_eq, h.marks, flatMap_map, flatMap_assoc]
    refine flatMap_congr fun s hs => ?_
    rw [h.linked.content s hs, WriterPiece.marks, flatMap_append, flatMap_map]
    cases s.cursor <;> simp [WriterMark.render, flatMap_def]
  rw [← hwritten]
  exact writeFrom_returns h.linked.chain

end ContextWriter

/-! ### The texts of a document

Each text that is printed is in the document once, those of the writer and those of each context in
the order in which they are printed. -/

namespace WriterDoc

variable {k j x : Nat} {content : Octets} {d e : WriterDoc}

/-- The contexts of a document. -/
def names : WriterDoc → List Nat
  | nil => []
  | text _ rest => rest.names
  | context k body after rest => k :: (body.names ++ (after.names ++ rest.names))

/-- All texts. -/
def texts : WriterDoc → List Octets
  | nil => []
  | text content rest => content :: rest.texts
  | context _ body after rest => body.texts ++ (after.texts ++ rest.texts)

/-- The texts that are in no context. -/
def own : WriterDoc → List Octets
  | nil => []
  | text content rest => content :: rest.own
  | context _ _ _ rest => rest.own

/-- The texts of a context, without those of the contexts in it. -/
def textsOf (k : Nat) : WriterDoc → List Octets
  | nil => []
  | text _ rest => rest.textsOf k
  | context j body after rest =>
    (if j = k then body.own else []) ++ (body.textsOf k ++ (after.textsOf k ++ rest.textsOf k))

section Append

theorem names_append : (d.append e).names = d.names ++ e.names := by
  induction d with
  | nil => rfl
  | text content rest ih => exact ih
  | context k body after rest _ _ ih => simp [append, names, ih]

theorem texts_append : (d.append e).texts = d.texts ++ e.texts := by
  induction d with
  | nil => rfl
  | text content rest ih | context k body after rest _ _ ih => simp [append, texts, ih]

theorem own_append : (d.append e).own = d.own ++ e.own := by
  induction d with
  | nil => rfl
  | text content rest ih => simp [append, own, ih]
  | context k body after rest _ _ ih => exact ih

theorem textsOf_append : (d.append e).textsOf k = d.textsOf k ++ e.textsOf k := by
  induction d with
  | nil => rfl
  | text content rest ih => exact ih
  | context j body after rest _ _ ih => simp [append, textsOf, ih]

end Append

section Inside

/-- What is put into a context is in the document as often as the context is. -/
theorem count_names_inside : (d.inside k e).names.count x =
    d.names.count x + d.names.count k * e.names.count x := by
  induction d with
  | nil => simp [inside, names]
  | text content rest ih => exact ih
  | context j body after rest ihb iha ihr =>
    by_cases hj : j = k
    · simp only [inside, names, hj, if_true, names_append, count_cons, count_append, ihb,
        iha, ihr, beq_self_eq_true]
      ring
    · have hne : (j == k) = false := by simpa using hj
      simp only [inside, names, if_neg hj, count_cons, count_append, ihb, iha, ihr, hne,
        Bool.false_eq_true, if_false, Nat.add_zero]
      ring

theorem count_names_behind : (d.behind k e).names.count x =
    d.names.count x + d.names.count k * e.names.count x := by
  induction d with
  | nil => simp [behind, names]
  | text content rest ih => exact ih
  | context j body after rest ihb iha ihr =>
    by_cases hj : j = k
    · simp only [behind, names, hj, if_true, names_append, count_cons, count_append, ihb,
        iha, ihr, beq_self_eq_true]
      ring
    · have hne : (j == k) = false := by simpa using hj
      simp only [behind, names, if_neg hj, count_cons, count_append, ihb, iha, ihr, hne,
        Bool.false_eq_true, if_false, Nat.add_zero]
      ring

theorem count_texts_inside : (d.inside k e).texts.count content =
    d.texts.count content + d.names.count k * e.texts.count content := by
  induction d with
  | nil => simp [inside, names]
  | text content rest ih => simp [inside, texts, names, ih, count_cons, Nat.add_right_comm]
  | context j body after rest ihb iha ihr =>
    by_cases hj : j = k
    · simp only [inside, names, texts, hj, if_true, texts_append, count_cons,
        count_append, ihb, iha, ihr, beq_self_eq_true]
      ring
    · have hne : (j == k) = false := by simpa using hj
      simp only [inside, names, texts, if_neg hj, count_cons, count_append, ihb, iha, ihr,
        hne, Bool.false_eq_true, if_false, Nat.add_zero]
      ring

theorem texts_behind (he : e.texts = []) : (d.behind k e).texts = d.texts := by
  induction d with
  | nil => rfl
  | text content rest ih => simp [behind, texts, ih]
  | context j body after rest ihb iha ihr =>
    simp only [behind, texts, ihb, ihr]
    split_ifs <;> simp [texts_append, he, iha]

theorem own_inside : (d.inside k e).own = d.own := by
  induction d with
  | nil => rfl
  | text content rest ih => simp [inside, own, ih]
  | context j body after rest _ _ ih => exact ih

theorem own_behind : (d.behind k e).own = d.own := by
  induction d with
  | nil => rfl
  | text content rest ih => simp [behind, own, ih]
  | context j body after rest _ _ ih => exact ih

/-- A context that is put into another one has no texts yet. -/
theorem textsOf_inside (h : j ≠ k ∨ e.own = []) (he : e.textsOf j = []) :
    (d.inside k e).textsOf j = d.textsOf j := by
  induction d with
  | nil => rfl
  | text content rest ih => exact ih
  | context i body after rest ihb iha ihr =>
    by_cases hi : i = k
    · have hown : i = j → e.own = [] := fun hij =>
        h.resolve_left (not_not.mpr (hij.symm.trans hi))
      simp only [inside, textsOf, if_pos hi, textsOf_append, own_append, own_inside, ihb, iha, ihr,
        he, append_nil]
      split_ifs with hij
      · rw [hown hij, append_nil]
      · rfl
    · simp only [inside, textsOf, if_neg hi, own_inside, ihb, iha, ihr]

theorem textsOf_behind (he : e.textsOf j = []) : (d.behind k e).textsOf j = d.textsOf j := by
  induction d with
  | nil => rfl
  | text content rest ih => exact ih
  | context i body after rest ihb iha ihr =>
    simp only [behind, textsOf, own_behind, ihb, ihr]
    split_ifs <;> simp [textsOf_append, he, iha]

theorem inside_of_notMem (h : k ∉ d.names) : d.inside k e = d := by
  induction d with
  | nil => rfl
  | text content rest ih => rw [inside, ih h]
  | context j body after rest ihb iha ihr =>
    simp only [names, mem_cons, mem_append, not_or] at h
    obtain ⟨hj, hb, ha, hr⟩ := h
    rw [inside, if_neg (Ne.symm hj), ihb hb, iha ha, ihr hr]

theorem textsOf_of_notMem (h : k ∉ d.names) : d.textsOf k = [] := by
  induction d with
  | nil => rfl
  | text content rest ih => exact ih h
  | context j body after rest ihb iha ihr =>
    simp only [names, mem_cons, mem_append, not_or] at h
    obtain ⟨hj, hb, ha, hr⟩ := h
    rw [textsOf, if_neg (Ne.symm hj), ihb hb, iha ha, ihr hr]
    rfl

/-- A text that is put into the one context of a name is the last one of it. -/
theorem textsOf_inside_text (h : d.names.count k = 1) :
    (d.inside k (.text content .nil)).textsOf k = d.textsOf k ++ [content] := by
  induction d with
  | nil => simp [names] at h
  | text content rest ih => exact ih h
  | context j body after rest ihb iha ihr =>
    simp only [names, count_cons, count_append, beq_iff_eq] at h
    by_cases hj : j = k
    · -- The context itself: there is none of the name elsewhere.
      rw [if_pos hj] at h
      have hb : k ∉ body.names := count_eq_zero.mp (by omega)
      have ha : k ∉ after.names := count_eq_zero.mp (by omega)
      have hr : k ∉ rest.names := count_eq_zero.mp (by omega)
      rw [inside, if_pos hj, inside_of_notMem hb, inside_of_notMem ha, inside_of_notMem hr, textsOf,
        textsOf, if_pos hj, if_pos hj, own_append, textsOf_append, textsOf_of_notMem hb,
        textsOf_of_notMem ha, textsOf_of_notMem hr]
      simp [own, textsOf]
    rw [if_neg hj] at h
    rw [inside, if_neg hj, textsOf, textsOf, if_neg hj, if_neg hj]
    -- Otherwise it is in one of the three parts.
    by_cases hb : k ∈ body.names
    · have hpos := count_pos_iff.mpr hb
      have ha : k ∉ after.names := count_eq_zero.mp (by omega)
      have hr : k ∉ rest.names := count_eq_zero.mp (by omega)
      rw [ihb (by omega), inside_of_notMem ha, inside_of_notMem hr, textsOf_of_notMem ha,
        textsOf_of_notMem hr]
      simp
    rw [inside_of_notMem hb, textsOf_of_notMem hb]
    by_cases ha : k ∈ after.names
    · have hpos := count_pos_iff.mpr ha
      have hr : k ∉ rest.names := count_eq_zero.mp (by omega)
      rw [iha (by omega), inside_of_notMem hr, textsOf_of_notMem hr]
      simp
    · have hzero := count_eq_zero.mpr hb
      have hzero' := count_eq_zero.mpr ha
      rw [inside_of_notMem ha, textsOf_of_notMem ha, ihr (by omega)]
      simp

end Inside

end WriterDoc

namespace WriterPlan

variable {p : WriterPlan} {k : Nat} {indent : Octets}

/-- The texts that were printed by the writer, or to a context. -/
def printedBy (p : WriterPlan) (who : Option Nat) : List Octets :=
  (p.printed.filter (·.1 = who)).map (·.2)

/-- Every context and every printed text is in the document once, the texts of the writer and those
of each context in the order in which they were printed. -/
structure Exact (p : WriterPlan) : Prop where
  names : ∀ x, p.doc.names.count x = if x < p.indents.length then 1 else 0
  texts : p.doc.texts.Perm (p.printed.map (·.2))
  own : p.doc.own = p.printedBy none
  textsOf : ∀ k, p.doc.textsOf k = p.printedBy (some k)

theorem exact_new : Exact new where
  names _ := rfl
  texts := .refl _
  own := rfl
  textsOf _ := rfl

theorem count_fresh (n x : Nat) : (WriterDoc.fresh n).names.count x = if x = n then 1 else 0 := by
  by_cases hx : x = n
  · rw [if_pos hx, hx]
    exact count_singleton_self
  · rw [if_neg hx]
    exact count_eq_zero.mpr (by simpa [WriterDoc.fresh, WriterDoc.names] using hx)

theorem count_add (n x : Nat) : (if x < n then 1 else 0) + (if x = n then 1 else 0) =
    if x < n + 1 then 1 else 0 := by
  split_ifs <;> omega

section Step

variable (h : p.Exact)

include h

theorem Exact.count_eq (hk : p.indents[k]? = some indent) : p.doc.names.count k = 1 := by
  rw [h.names, if_pos (List.getElem?_eq_some_iff.mp hk).1]

theorem Exact.print (content : Octets) :
    Exact ⟨p.doc.append (.text content .nil), p.indents, p.printed ++ [(none, content)]⟩ where
  names x := by
    rw [WriterDoc.names_append, count_append, h.names]
    rfl
  texts := by
    rw [WriterDoc.texts_append, map_append]
    exact h.texts.append_right _
  own := by
    rw [WriterDoc.own_append, h.own]
    simp [printedBy, WriterDoc.own]
  textsOf k := by
    rw [WriterDoc.textsOf_append, h.textsOf]
    simp [printedBy, WriterDoc.textsOf]

theorem Exact.rememberContext :
    Exact ⟨p.doc.append (.fresh p.indents.length), p.indents ++ [indent], p.printed⟩ where
  names x := by
    rw [WriterDoc.names_append, count_append, h.names, count_fresh, count_add,
      length_append]
    rfl
  texts := by
    rw [WriterDoc.texts_append]
    exact (append_nil _).symm ▸ h.texts
  own := by
    rw [WriterDoc.own_append, h.own]
    exact append_nil _
  textsOf k := by
    rw [WriterDoc.textsOf_append, h.textsOf]
    simp [WriterDoc.fresh, WriterDoc.textsOf, WriterDoc.own, printedBy]

section

variable (hk : p.indents[k]? = some indent)
include hk

/-- A text that is printed to a context. -/
theorem Exact.printAt (content : Octets) :
    Exact ⟨p.doc.inside k (.text content .nil), p.indents, p.printed ++ [(some k, content)]⟩ where
  names x := by
    rw [WriterDoc.count_names_inside, h.names]
    rfl
  texts := by
    apply perm_iff_count.mpr
    intro text
    rw [WriterDoc.count_texts_inside, h.count_eq hk, Nat.one_mul, h.texts.count_eq, map_append,
      count_append]
    rfl
  own := by
    rw [WriterDoc.own_inside, h.own]
    simp [printedBy]
  textsOf j := by
    by_cases hj : j = k
    · subst hj
      rw [WriterDoc.textsOf_inside_text (h.count_eq hk), h.textsOf]
      simp [printedBy]
    · rw [WriterDoc.textsOf_inside (.inl hj) rfl, h.textsOf]
      simp [printedBy, Ne.symm hj]

/-- A context that is made in another one. -/
theorem Exact.subContext (new : Octets) :
    Exact ⟨p.doc.inside k (.fresh p.indents.length), p.indents ++ [new], p.printed⟩ where
  names x := by
    rw [WriterDoc.count_names_inside, h.count_eq hk, Nat.one_mul, h.names, count_fresh, count_add,
      length_append]
    rfl
  texts := by
    refine .trans (perm_iff_count.mpr fun text => ?_) h.texts
    rw [WriterDoc.count_texts_inside]
    rfl
  own := by
    rw [WriterDoc.own_inside, h.own]
    rfl
  textsOf j := by
    have hfresh : (WriterDoc.fresh p.indents.length).textsOf j = [] := by
      simp [WriterDoc.fresh, WriterDoc.textsOf, WriterDoc.own]
    rw [WriterDoc.textsOf_inside (.inr rfl) hfresh, h.textsOf]
    rfl

/-- A context that is made behind another one. -/
theorem Exact.subAfterContext (new : Octets) :
    Exact ⟨p.doc.behind k (.fresh p.indents.length), p.indents ++ [new], p.printed⟩ where
  names x := by
    rw [WriterDoc.count_names_behind, h.count_eq hk, Nat.one_mul, h.names, count_fresh, count_add,
      length_append]
    rfl
  texts := by
    rw [WriterDoc.texts_behind rfl]
    exact h.texts
  own := by
    rw [WriterDoc.own_behind, h.own]
    rfl
  textsOf j := by
    have hfresh : (WriterDoc.fresh p.indents.length).textsOf j = [] := by
      simp [WriterDoc.fresh, WriterDoc.textsOf, WriterDoc.own]
    rw [WriterDoc.textsOf_behind hfresh, h.textsOf]
    rfl

end

end Step

/-- Every call keeps the document exact. -/
theorem Exact.step (h : p.Exact) {event : ContextWriter.Event} {p' : WriterPlan}
    (hstep : p.step event = some p') : p'.Exact := by
  cases event with
  | print content =>
    obtain rfl := Option.some.inj hstep
    exact h.print content
  | rememberContext =>
    obtain rfl := Option.some.inj hstep
    exact h.rememberContext
  | printAt k content =>
    obtain ⟨indent, hk, rfl⟩ := map_eq_some_iff.mp hstep
    exact h.printAt hk (indentLines indent content)
  | subContext k =>
    obtain ⟨indent, hk, rfl⟩ := map_eq_some_iff.mp hstep
    exact h.subContext hk indent
  | subAfterContext k =>
    obtain ⟨indent, hk, rfl⟩ := map_eq_some_iff.mp hstep
    exact h.subAfterContext hk indent
  | indentContext k level =>
    obtain ⟨indent, hk, rfl⟩ := map_eq_some_iff.mp hstep
    exact h.subContext hk (ContextWriter.indentOf ⟨indent, 0⟩ level)

theorem Exact.run (h : p.Exact) {events : List ContextWriter.Event} {p' : WriterPlan}
    (hrun : p.run events = some p') : p'.Exact := by
  induction events generalizing p with
  | nil => exact Option.some.inj hrun ▸ h
  | cons event events ih =>
    obtain ⟨p₁, hstep, hrun⟩ := bind_eq_some_iff.mp hrun
    exact ih (h.step hstep) hrun

end WriterPlan

namespace ContextWriter

/-- After any calls on the writer and its contexts, the first flush writes the document that the
calls describe: each printed text once, the texts of the writer and of each context in order, at the
place of the context, and with its lines indented. -/
theorem run_flush {events : List Event} {w : ContextWriter} (h : new.run events = some w) :
    ∃ p, WriterPlan.new.run events = some p ∧ Outcome.Returns w.flush p.doc.render ∧ p.Exact := by
  obtain ⟨p, segs, hplan, hshows⟩ := shows_new.run h
  exact ⟨p, hplan, hshows.flush_returns, WriterPlan.exact_new.run hplan⟩

/-- A context is split by one that is made in it, while the writer goes on. -/
theorem run_flush_split : ∃ w, ∃ p : WriterPlan,
    new.run [.print [97], .rememberContext, .print [98], .printAt 0 [99], .indentContext 0 none,
      .printAt 0 [100], .printAt 1 [101, 10, 10, 102]] = some w ∧
    Outcome.Returns w.flush p.doc.render ∧ p.Exact ∧
    p.doc.render = [97, 99, 9, 101, 10, 10, 9, 102, 100, 98] := by
  obtain ⟨w, hw⟩ : ∃ w, new.run [.print [97], .rememberContext, .print [98], .printAt 0 [99],
      .indentContext 0 none, .printAt 0 [100], .printAt 1 [101, 10, 10, 102]] = some w := ⟨_, rfl⟩
  obtain ⟨p, hplan, hflush, hexact⟩ := run_flush hw
  refine ⟨w, p, hw, hflush, hexact, ?_⟩
  rw [← Option.some.inj hplan]
  decide

end ContextWriter

end Drt
