import Drt.Core.Types.Number
import Drt.Sql.InsertValues

/-!
# Tuples of a dump

What `mysqldump` writes for the rows of a table, and what the scanner makes of it. A
string is written character by character, each as itself, behind a backslash, or as two
apostrophes. The scanner takes two apostrophes for the end of one string and the start of
another, which makes no difference to the end of the column.
-/

open List

namespace Drt

open Outcome

/-- How a character of a string is written. -/
inductive Quoted where
  /-- A character other than the apostrophe and the backslash, as itself. -/
  | plain (c : UInt8) (h : c ≠ 39 ∧ c ≠ 92)
  /-- Any octet behind a backslash. -/
  | escaped (c : UInt8)
  /-- An apostrophe, as two of them. -/
  | doubled
  deriving DecidableEq

/-- A character that numbers are written with. -/
def isNumberChar (c : UInt8) : Bool := isdigit c ∨ c ∈ [43, 45, 46, 69, 101]

/-- A column of a row. -/
inductive Column where
  | null
  | number (text : Blob) (h : ∀ c ∈ text, isNumberChar c = true)
  | string (chars : List Quoted)

namespace Quoted

/-- The octets of a character in a quoted string. -/
def text : Quoted → Blob
  | plain c _ => [c]
  | escaped c => [92, c]
  | doubled => [39, 39]

end Quoted

namespace Column

/-- The text of a column. -/
def text : Column → Blob
  | null => Drt.ascii "NULL"
  | number text _ => text
  | string chars => 39 :: (chars.flatMap Quoted.text ++ [39])

end Column

/-- The columns of a tuple, with commas in between, and its right parenthesis. -/
def columnsText : List Column → Blob
  | [] => [41]
  | [c] => c.text ++ [41]
  | c :: cs => c.text ++ 44 :: columnsText cs

/-- The text of a tuple. -/
def tupleText (tuple : List Column) : Blob := 40 :: columnsText tuple

/-- A VALUES list, up to the end of its line. -/
def insertValues : List (List Column) → Blob
  | [] => [59, 10]
  | [tuple] => tupleText tuple ++ [59, 10]
  | tuple :: tuples => tupleText tuple ++ 44 :: insertValues tuples

namespace QueueManager

/-- The calls, from the start of the list on, give the tuples with their texts and the texts of
their columns, and then -1. -/
def ReturnsTuples (before : Blob) (tuples : List (List Column)) : Prop :=
  Returns (fun fuel => allValues (before ++ insertValues tuples) fuel before.length)
    (tuples.map fun tuple => ⟨tupleText tuple, tuple.map Column.text⟩)

variable {ahead behind line : Blob}

theorem lineAt_append {c : UInt8} (hline : line = behind ++ c :: ahead) :
    lineAt line behind.length = .ok c := by
  rw [hline, lineAt, if_neg (by simp), List.getElem?_append_right (le_refl _)]
  simp

theorem not_end_append {c : UInt8} (hline : line = behind ++ c :: ahead) (P : Prop) :
    ¬ (P ∧ behind.length = line.length) := by
  rintro ⟨-, h⟩
  simp [hline] at h

section Columns

variable (behind ahead : Blob)

variable {r : Nat × Bool} {line : Blob}

theorem columnEnd_plain {c : UInt8} (h : c ≠ 44 ∧ c ≠ 41 ∧ c ≠ 39)
    (hrest : Returns (fun fuel => columnEnd ((behind ++ [c]) ++ ahead) fuel (behind ++ [c]).length) r) :
    Returns (fun fuel => columnEnd (behind ++ c :: ahead) fuel behind.length) r := by
  refine hrest.of_succ fun fuel => ?_
  rw [columnEnd, lineAt_append rfl, ok_bind, if_neg h.1, if_neg h.2.1, if_neg h.2.2,
    if_neg (not_end_append rfl _)]
  simp

theorem columnEnd_run {run : Blob} (h : ∀ c ∈ run, c ≠ 44 ∧ c ≠ 41 ∧ c ≠ 39)
    (hrest : Returns (fun fuel => columnEnd ((behind ++ run) ++ ahead) fuel (behind ++ run).length) r) :
    Returns (fun fuel => columnEnd (behind ++ (run ++ ahead)) fuel behind.length) r := by
  induction run generalizing behind with
  | nil => simpa using hrest
  | cons c run ih =>
    refine columnEnd_plain behind (run ++ ahead) (h c mem_cons_self) ?_
    refine ih (behind ++ [c]) (fun x hx => h x (mem_cons_of_mem c hx)) ?_
    simpa using hrest

theorem columnEnd_apostrophe (hline : line = behind ++ 39 :: ahead) {pos : Nat}
    (hquoted : Returns (fun fuel => skipQuoted line fuel (behind.length + 1)) pos)
    (hrest : Returns (fun fuel => columnEnd line fuel pos) r) :
    Returns (fun fuel => columnEnd line fuel behind.length) r := by
  refine (hquoted.bind hrest).of_succ fun fuel => ?_
  rw [columnEnd, lineAt_append hline, ok_bind, if_neg (by decide), if_neg (by decide), if_pos rfl]

/-- The rest of a quoted string is passed, in one string or in several. -/
theorem skipQuoted_chars (chars : List Quoted)
    (hline : line = behind ++ (chars.flatMap Quoted.text ++ 39 :: ahead))
    (hrest : Returns (fun fuel => columnEnd line fuel
      (behind.length + (chars.flatMap Quoted.text).length + 1)) r) :
    ∃ pos, Returns (fun fuel => skipQuoted line fuel behind.length) pos ∧
      Returns (fun fuel => columnEnd line fuel pos) r := by
  induction chars generalizing behind with
  | nil =>
    refine ⟨behind.length + 1, Returns.of_succ_ok fun fuel => ?_, hrest⟩
    rw [skipQuoted, lineAt_append hline, ok_bind, if_pos rfl]
  | cons c chars ih =>
    have hlength : ((c :: chars).flatMap Quoted.text).length =
        c.text.length + (chars.flatMap Quoted.text).length := by simp
    have htail : line = (behind ++ c.text) ++ (chars.flatMap Quoted.text ++ 39 :: ahead) := by
      rw [hline]
      simp
    obtain ⟨pos, hquoted, hcolumn⟩ := ih (behind ++ c.text) htail (by
      rw [hlength, ← Nat.add_assoc] at hrest
      rwa [length_append])
    rw [length_append] at hquoted
    cases c with
    | plain c h =>
      refine ⟨pos, hquoted.of_succ fun fuel => ?_, hcolumn⟩
      have hat : line = behind ++ c :: (chars.flatMap Quoted.text ++ 39 :: ahead) := hline
      rw [skipQuoted, lineAt_append hat, ok_bind, if_neg h.1, if_neg h.2,
        if_neg (not_end_append hat _)]
      rfl
    | escaped c =>
      refine ⟨pos, hquoted.of_succ fun fuel => ?_, hcolumn⟩
      have hat : line = behind ++ 92 :: c :: (chars.flatMap Quoted.text ++ 39 :: ahead) := hline
      have hend : behind.length + 1 ≠ line.length := by simp [hat]
      rw [skipQuoted, lineAt_append hat, ok_bind, if_neg (by decide), if_pos rfl, if_neg hend]
      rfl
    | doubled =>
      -- the first apostrophe ends a string, and the second one starts another
      have hat : line = behind ++ 39 :: 39 :: (chars.flatMap Quoted.text ++ 39 :: ahead) := hline
      have hline' : line = (behind ++ [39]) ++ 39 :: (chars.flatMap Quoted.text ++ 39 :: ahead) := by
        simp [hat]
      refine ⟨behind.length + 1, Returns.of_succ_ok fun fuel => ?_, ?_⟩
      · rw [skipQuoted, lineAt_append hat, ok_bind, if_pos rfl]
      · have hquoted' : Returns (fun fuel => skipQuoted line fuel ((behind ++ [39]).length + 1))
            pos := by
          rw [length_append]
          exact hquoted
        have hnext := columnEnd_apostrophe (behind ++ [39]) _ hline' hquoted' hcolumn
        rwa [length_append] at hnext

theorem plain_of_numberChar {c : UInt8} (h : isNumberChar c = true) :
    c ≠ 44 ∧ c ≠ 41 ∧ c ≠ 39 := by
  refine ⟨?_, ?_, ?_⟩ <;> rintro rfl <;> revert h <;> decide

/-- The text of a column is passed up to what ends it. -/
theorem columnEnd_text (c : Column) (hline : line = behind ++ (c.text ++ ahead))
    (hrest : Returns (fun fuel => columnEnd line fuel (behind.length + c.text.length)) r) :
    Returns (fun fuel => columnEnd line fuel behind.length) r := by
  cases c with
  | null =>
    subst hline
    exact columnEnd_run behind ahead (by decide) (by simpa [Column.text] using hrest)
  | number text h =>
    subst hline
    exact columnEnd_run behind ahead (fun c hc => plain_of_numberChar (h c hc))
      (by simpa [Column.text] using hrest)
  | string chars =>
    have hstart : line = behind ++ 39 :: (chars.flatMap Quoted.text ++ 39 :: ahead) := by
      rw [hline]
      simp [Column.text]
    have hquote : line = (behind ++ [39]) ++ (chars.flatMap Quoted.text ++ 39 :: ahead) := by
      rw [hstart]
      simp
    have hbehind : Returns (fun fuel => columnEnd line fuel
        ((behind ++ [39]).length + (chars.flatMap Quoted.text).length + 1)) r := by
      simpa [Column.text, Nat.add_assoc, Nat.add_comm, Nat.add_left_comm] using hrest
    obtain ⟨pos, hquoted, hcolumn⟩ := skipQuoted_chars (behind ++ [39]) ahead chars hquote hbehind
    refine columnEnd_apostrophe behind _ hstart ?_ hcolumn
    rwa [length_append] at hquoted

/-- The scanner passes a text up to what ends the column. -/
def Passes (text : Blob) : Prop :=
  ∀ (behind ahead line : Blob) (r : Nat × Bool), line = behind ++ (text ++ ahead) →
    Returns (fun fuel => columnEnd line fuel (behind.length + text.length)) r →
    Returns (fun fuel => columnEnd line fuel behind.length) r

theorem passes_column (c : Column) : Passes c.text := fun behind ahead _ _ hline hrest =>
  columnEnd_text behind ahead c hline hrest

theorem passes_nil : Passes [] := fun _ _ _ _ _ hrest => hrest

end Columns

/-- What the scanner takes for the columns of a tuple: it finds one also where there is none. -/
def columnTexts (tuple : List Column) : List Blob :=
  if tuple = [] then [[]] else tuple.map Column.text

/-- What the scanner makes of a tuple. -/
def scanned (tuple : List Column) : InsertTuple :=
  ⟨tupleText tuple, SArray.appendAll 8 [] (columnTexts tuple)⟩

section Texts

/-- Texts of columns, with commas in between, and the right parenthesis. -/
def joinColumns : List Blob → Blob
  | [] => [41]
  | [text] => text ++ [41]
  | text :: texts => text ++ 44 :: joinColumns texts

/-- The text of a tuple with these columns. -/
def joinTuple (texts : List Blob) : Blob := 40 :: joinColumns texts

/-- Tuples with commas in between, and what comes behind them. -/
def joinTuples (tail : Blob) : List (List Blob) → Blob
  | [] => tail
  | [texts] => joinTuple texts ++ tail
  | texts :: tuples => joinTuple texts ++ 44 :: joinTuples tail tuples

/-- What the scanner makes of a tuple with these columns. -/
def scannedTexts (texts : List Blob) : InsertTuple :=
  ⟨joinTuple texts, SArray.appendAll 8 [] (if texts = [] then [[]] else texts)⟩

theorem columnsText_eq (tuple : List Column) :
    columnsText tuple = joinColumns (tuple.map Column.text) := by
  induction tuple with
  | nil => rfl
  | cons c cs ih =>
    cases cs with
    | nil => rfl
    | cons c' cs => exact congrArg (c.text ++ 44 :: ·) ih

theorem tupleText_eq (tuple : List Column) : tupleText tuple = joinTuple (tuple.map Column.text) :=
  congrArg (40 :: ·) (columnsText_eq tuple)

theorem insertValues_eq (tuples : List (List Column)) :
    insertValues tuples = joinTuples [59, 10] (tuples.map (List.map Column.text)) := by
  induction tuples with
  | nil => rfl
  | cons tuple tuples ih =>
    cases tuples with
    | nil => exact congrArg (· ++ [59, 10]) (tupleText_eq tuple)
    | cons tuple' tuples =>
      rw [insertValues, tupleText_eq, ih]
      · rfl
      · simp

theorem scanned_eq (tuple : List Column) :
    scanned tuple = scannedTexts (tuple.map Column.text) := by
  simp only [scanned, scannedTexts, columnTexts, tupleText_eq, map_eq_nil_iff]

end Texts

section Tuples

variable (behind ahead : Blob) {line : Blob}

variable {tail text : Blob} {pos spos : Nat}

/-- The text of a column and what ends it. -/
theorem columnEnd_ends (htext : Passes text) {last : UInt8} (hlast : last = 44 ∨ last = 41)
    (hline : line = behind ++ (text ++ last :: ahead)) :
    Returns (fun fuel => columnEnd line fuel behind.length)
      (behind.length + text.length, decide (last = 41)) := by
  refine htext behind (last :: ahead) line _ hline (Returns.of_succ_ok fun fuel => ?_)
  have hline' : line = (behind ++ text) ++ last :: ahead := by simp [hline]
  have hat := lineAt_append hline'
  rw [length_append] at hat
  rw [columnEnd, hat, ok_bind]
  obtain rfl | rfl := hlast
  · rw [if_pos rfl]
    rfl
  · rw [if_neg (by decide), if_pos rfl]
    rfl

theorem mid_append (hline : line = behind ++ (text ++ ahead)) :
    (line.drop behind.length).take (behind.length + text.length - behind.length) = text := by
  rw [hline, drop_left, Nat.add_sub_cancel_left, take_left]

theorem readColumns_last (values : List Blob)
    (hend : Returns (fun fuel => columnEnd line fuel spos) (pos, true))
    (htext : (line.drop spos).take (pos - spos) = text) :
    Returns (fun fuel => readColumns line fuel spos values)
      (SArray.append 8 values text, pos + 1) := by
  subst htext
  have hpass : ∀ fuel, readColumns line (fuel + 1) spos values = columnEnd line fuel spos >>= _ :=
    fun fuel => rfl
  refine (hend.bind ?_).of_succ hpass
  exact Returns.of_eq fun _ => rfl

theorem readColumns_more {values : List Blob} {r : List Blob × Nat}
    (hend : Returns (fun fuel => columnEnd line fuel spos) (pos, false))
    (htext : (line.drop spos).take (pos - spos) = text) (hrest :
      Returns (fun fuel => readColumns line fuel (pos + 1) (SArray.append 8 values text)) r) :
    Returns (fun fuel => readColumns line fuel spos values) r := by
  subst htext
  exact (hend.bind hrest).of_succ fun fuel => rfl

/-- All columns, up to the right parenthesis. -/
theorem readColumns_columns (text : Blob) (texts : List Blob) (values : List Blob)
    (hpasses : ∀ t ∈ text :: texts, Passes t)
    (hline : line = behind ++ (joinColumns (text :: texts) ++ ahead)) :
    Returns (fun fuel => readColumns line fuel behind.length values)
      (SArray.appendAll 8 values (text :: texts),
        behind.length + (joinColumns (text :: texts)).length) := by
  have htext := hpasses text mem_cons_self
  induction texts generalizing text behind values with
  | nil =>
    have hline' : line = behind ++ (text ++ 41 :: ahead) := by simp [hline, joinColumns]
    have hend := columnEnd_ends behind ahead htext (.inr rfl) hline'
    have hlast := readColumns_last values hend (mid_append behind _ hline')
    simpa [SArray.appendAll, joinColumns, Nat.add_assoc] using hlast
  | cons text' texts ih =>
    have hline' : line = behind ++ (text ++ 44 :: (joinColumns (text' :: texts) ++ ahead)) := by
      simp [hline, joinColumns]
    have hend := columnEnd_ends behind _ htext (.inl rfl) hline'
    refine readColumns_more hend (mid_append behind _ hline') ?_
    have hpasses' : ∀ t ∈ text' :: texts, Passes t := fun t ht =>
      hpasses t (mem_cons_of_mem text ht)
    have hrest := ih (behind ++ (text ++ [44])) text' (SArray.append 8 values text) hpasses'
      (by simp [hline']) (hpasses' text' mem_cons_self)
    simpa [SArray.appendAll, joinColumns, Nat.add_assoc, Nat.add_comm,
      Nat.add_left_comm] using hrest

theorem readColumns_tuple (texts : List Blob) (hpasses : ∀ t ∈ texts, Passes t)
    (hline : line = behind ++ (joinColumns texts ++ ahead)) :
    Returns (fun fuel => readColumns line fuel behind.length [])
      (SArray.appendAll 8 [] (if texts = [] then [[]] else texts),
        behind.length + (joinColumns texts).length) := by
  cases texts with
  | nil =>
    refine readColumns_columns behind ahead [] [] [] (fun t ht => ?_) hline
    rw [mem_singleton.mp ht]
    exact passes_nil
  | cons text texts => exact readColumns_columns behind ahead text texts [] hpasses hline

/-- A call at a tuple. -/
theorem getNextValues_tuple (texts : List Blob) (hpasses : ∀ t ∈ texts, Passes t) {c : UInt8}
    (hline : line = behind ++ (joinTuple texts ++ c :: ahead)) :
    Returns (fun fuel => getNextValues line fuel behind.length)
      (some (scannedTexts texts,
        behind.length + (joinTuple texts).length + if c = 44 then 1 else 0)) := by
  have hstart : line = behind ++ 40 :: (joinColumns texts ++ c :: ahead) := by
    simp [hline, joinTuple]
  have hinside : line = (behind ++ [40]) ++ (joinColumns texts ++ c :: ahead) := by simp [hstart]
  have hcolumns := readColumns_tuple (behind ++ [40]) (c :: ahead) texts hpasses hinside
  have hlength : behind.length + (joinTuple texts).length =
      (behind ++ [40]).length + (joinColumns texts).length := by
    simp only [joinTuple, length_cons, length_append, length_nil]
    omega
  have hbehind : line = (behind ++ joinTuple texts) ++ c :: ahead := by simp [hline]
  have hnext := lineAt_append hbehind
  rw [length_append, hlength] at hnext
  rw [length_append, length_singleton] at hcolumns
  have hcall : ∀ fuel, getNextValues line fuel behind.length =
      readColumns line fuel (behind.length + 1) [] >>= _ := fun fuel => by
    rw [getNextValues, lineAt_append hstart, ok_bind, if_neg (by decide), if_pos rfl]
  refine (hcolumns.bind ?_).congr hcall
  refine Returns.of_eq fun fuel => ?_
  have hmid := mid_append behind (c :: ahead) hline
  rw [hlength, length_append, length_singleton] at hmid
  rw [length_append, length_singleton] at hnext
  simp only [hnext, ok_bind, hmid, hlength, length_append, length_singleton,
    scannedTexts]
  by_cases hcomma : c = 44
  · simp only [if_pos hcomma]
  · simp only [if_neg hcomma, Nat.add_zero]

/-- A call at the end of the list, with or without a line break. -/
theorem getNextValues_end (htail : tail = [59, 10] ∨ tail = [59]) (hline : line = behind ++ tail) :
    Returns (fun fuel => getNextValues line fuel behind.length) none := by
  obtain rfl | rfl := htail
  · have hline' : line = (behind ++ [59]) ++ 10 :: [] := by simp [hline]
    have hnewline := lineAt_append hline'
    rw [length_append, length_singleton] at hnewline
    refine Returns.of_eq fun fuel => ?_
    rw [getNextValues, lineAt_append hline, ok_bind, if_pos rfl, if_neg (by simp [hline]), hnewline,
      ok_bind, if_neg (by simp [hline])]
  · refine Returns.of_eq fun fuel => ?_
    rw [getNextValues, lineAt_append hline, ok_bind, if_pos rfl, if_pos (by simp [hline])]

/-- The calls from `pos` on find these tuples, and then the end. -/
inductive Scans (line : Blob) : Nat → List InsertTuple → Prop
  | finish {pos : Nat} (hcall : Returns (fun fuel => getNextValues line fuel pos) none) :
    Scans line pos []
  | tuple {pos next : Nat} {tuple : InsertTuple} {tuples : List InsertTuple}
    (hcall : Returns (fun fuel => getNextValues line fuel pos) (some (tuple, next)))
    (hrest : Scans line next tuples) : Scans line pos (tuple :: tuples)

/-- The tuples that the calls find are those that come back. -/
theorem Scans.returns_allValues {tuples : List InsertTuple} (h : Scans line pos tuples) :
    Returns (fun fuel => allValues line fuel pos) tuples := by
  induction h with
  | @finish pos hcall =>
    have hpass : ∀ fuel, allValues line (fuel + 1) pos = getNextValues line fuel pos >>= _ :=
      fun fuel => rfl
    refine (hcall.bind ?_).of_succ hpass
    exact Returns.of_eq fun _ => rfl
  | @tuple pos next tuple tuples hcall _ ih =>
    have hpass : ∀ fuel, allValues line (fuel + 1) pos = getNextValues line fuel pos >>= _ :=
      fun fuel => rfl
    refine (hcall.bind ?_).of_succ hpass
    refine ih.bind ?_
    exact Returns.of_eq fun _ => rfl

/-- The calls make something of every tuple, one after the other. -/
theorem scans_tuples (tuples : List (List Blob)) (hpasses : ∀ texts ∈ tuples, ∀ t ∈ texts, Passes t)
    (htail : tail = [59, 10] ∨ tail = [59]) (hline : line = behind ++ joinTuples tail tuples) :
    Scans line behind.length (tuples.map scannedTexts) := by
  induction tuples generalizing behind with
  | nil => exact .finish (getNextValues_end behind htail hline)
  | cons texts tuples ih =>
    have htexts := hpasses texts mem_cons_self
    cases tuples with
    | nil =>
      obtain ⟨rest, htail'⟩ : ∃ rest, tail = 59 :: rest := by
        obtain rfl | rfl := htail
        · exact ⟨[10], rfl⟩
        · exact ⟨[], rfl⟩
      have hline' : line = (behind ++ joinTuple texts) ++ tail := by simp [hline, joinTuples]
      rw [htail'] at hline
      have hcall := getNextValues_tuple behind rest texts htexts (c := 59) hline
      have hend := getNextValues_end (behind ++ joinTuple texts) htail hline'
      rw [length_append] at hend
      exact .tuple hcall (.finish hend)
    | cons texts' tuples =>
      have hcall := getNextValues_tuple behind (joinTuples tail (texts' :: tuples)) texts htexts
        (c := 44) hline
      refine .tuple hcall ?_
      have hrest := ih (behind ++ (joinTuple texts ++ [44]))
        (fun t ht => hpasses t (mem_cons_of_mem texts ht)) (by simp [hline, joinTuples])
      rwa [length_append, length_append, ← Nat.add_assoc] at hrest

end Tuples

/-- The columns of a tuple are seen as they are when there are columns, and not too many. -/
theorem scanned_iff (tuple : List Column) :
    scanned tuple = ⟨tupleText tuple, tuple.map Column.text⟩ ↔
      tuple ≠ [] ∧ tuple.length < 2 ^ 29 := by
  have hiff : scanned tuple = ⟨tupleText tuple, tuple.map Column.text⟩ ↔
      SArray.appendAll 8 [] (columnTexts tuple) = tuple.map Column.text := by
    simp [scanned]
  rw [hiff]
  constructor
  · intro h
    refine ⟨?_, ?_⟩
    · rintro rfl
      exact absurd h (by decide)
    · have hnone : ([] : List Blob).length * 8 < 2 ^ 32 := by simp
      have hlt := SArray.length_appendAll_lt hnone (columnTexts tuple)
      rw [h, length_map] at hlt
      omega
  · rintro ⟨hne, hlt⟩
    rw [columnTexts, if_neg hne]
    refine SArray.appendAll_of_lt (by decide) ?_
    rw [length_map, length_nil]
    omega

/-- The scanner returns the tuples of a dump exactly when each of them has columns, fewer than
`2 ^ 29`. -/
theorem returnsTuples_iff (before : Blob) (tuples : List (List Column)) :
    ReturnsTuples before tuples ↔ ∀ tuple ∈ tuples, tuple ≠ [] ∧ tuple.length < 2 ^ 29 := by
  have hpasses : ∀ texts ∈ tuples.map (List.map Column.text), ∀ t ∈ texts, Passes t := by
    intro texts htexts t ht
    obtain ⟨tuple, -, rfl⟩ := mem_map.mp htexts
    obtain ⟨c, -, rfl⟩ := mem_map.mp ht
    exact passes_column c
  have hscanned : (tuples.map (List.map Column.text)).map scannedTexts = tuples.map scanned := by
    rw [map_map]
    exact map_congr_left fun tuple _ => (scanned_eq tuple).symm
  have hreturns : Returns (fun fuel => allValues (before ++ insertValues tuples) fuel before.length)
      (tuples.map scanned) := by
    rw [← hscanned]
    rw [insertValues_eq]
    exact (scans_tuples before _ hpasses (.inl rfl) rfl).returns_allValues
  have hiff : ReturnsTuples before tuples ↔
      tuples.map scanned = tuples.map fun tuple => ⟨tupleText tuple, tuple.map Column.text⟩ := by
    constructor
    · exact fun h => hreturns.unique h
    · intro h
      rw [h] at hreturns
      exact hreturns
  rw [hiff, map_inj_left]
  exact forall₂_congr fun tuple _ => scanned_iff tuple

/-- The tuples of a dump come back one by one, exactly when each has columns, fewer than `2 ^ 29`;
whatever the line is, the calls come to an end and look no further than its terminator. -/
theorem getNextValues_exact (before : Blob) (tuples : List (List Column)) (line : Blob)
    (pos : Nat) :
    (ReturnsTuples before tuples ↔ ∀ tuple ∈ tuples, tuple ≠ [] ∧ tuple.length < 2 ^ 29) ∧
      (pos ≤ line.length → Completes (fun fuel => allValues line fuel pos) fun _ => True) :=
  ⟨returnsTuples_iff before tuples, completes_allValues line pos⟩

/-- A tuple of `2 ^ 29` columns does not come back. -/
theorem not_returnsTuples_wide : ¬ ReturnsTuples [] [List.replicate (2 ^ 29) .null] := by
  rw [returnsTuples_iff]
  intro h
  have hlt := (h _ (mem_singleton.mpr rfl)).2
  rw [length_replicate] at hlt
  exact lt_irrefl _ hlt

end QueueManager

end Drt
