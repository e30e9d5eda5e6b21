import Drt.Core.Types.BString
import Drt.Sql.InsertRules
import Drt.Sql.InsertTuples

/-!
# The filter of INSERT lines

`processOneData` keeps the tuples of an INSERT line that a rule of its table selects, with
their texts as they are, and writes a new line of them. It sees the columns of a tuple as
they are bound, which is not always as they should be.
-/

open List

namespace Drt

open Outcome IntEvaluator

namespace QueueManager

/-- `line[pos]` moves over blanks. -/
def skipBlanks (line : Blob) (pos : Nat) : Nat := pos + ((line.drop pos).takeWhile isspace).length

/-- What stands in front of the first tuple of the output. -/
def insertInto (tname : DrString) : Blob :=
  Drt.ascii "INSERT INTO " ++ tname.utf8 ++ Drt.ascii " VALUES "

/-- What the loop does with a tuple: `val_count` and `output` after it. -/
def takeTuple (constants : Blob → Option Int64) (tname : DrString) (tev : List Rule)
    (state : Nat × Blob) (tuple : InsertTuple) : Call (Nat × Blob) := do
  if ← anyRule constants (boundValues tuple.values) tev then
    -- `val_count++` counts in an `int`
    if state.1 = 2 ^ 31 - 1 then .fault
    else
      .ok (state.1 + 1,
        state.2 ++ (if state.1 = 0 then insertInto tname else [44]) ++ tuple.ins_string)
  else .ok state

/-- The loop over the tuples. -/
def filterValues (constants : Blob → Option Int64) (tname : DrString) (tev : List Rule)
    (line_data : Blob) : Nat → Nat → Nat × Blob → Call (Nat × Blob)
  | 0, _, _ => .outOfFuel
  | fuel + 1, pos, state => do
    match ← getNextValues line_data fuel pos with
    | none => .ok state
    | some (tuple, pos) =>
      let state ← takeTuple constants tname tev state tuple
      filterValues constants tname tev line_data fuel pos state

/-- `processOneData`. A line that it does not know is dropped. -/
def processOneData (constants : Blob → Option Int64) (evaluators : DrString → Option (List Rule))
    (line_data : Blob) (fuel : Nat) : Call Blob :=
  if line_data.take 13 ≠ Drt.ascii "INSERT INTO `" then .ok []
  else
    match BString.findChar line_data 96 13 with
    | none => .ok []
    | some tend_p =>
      let tname := DrString.setUtf8 ((line_data.drop 13).take (tend_p - 13))
      let pos := skipBlanks line_data (tend_p + 1)
      if (line_data.drop pos).take 6 ≠ Drt.ascii "VALUES" then .ok []
      else
        let pos := skipBlanks line_data (pos + 6)
        match evaluators tname with
        | none => .ok []
        | some tev => do
          let (val_count, output) ← filterValues constants tname tev line_data fuel pos (0, [])
          .ok (if val_count ≠ 0 then output ++ [59, 10] else output)

section Columns

/-- A part of a column: an octet that is not in a string, or a string. -/
inductive ColumnPart where
  | plain (c : UInt8) (h : c ≠ 44 ∧ c ≠ 41 ∧ c ≠ 39)
  | string (chars : List Quoted)

/-- The octets of a part. -/
def ColumnPart.text : ColumnPart → Blob
  | plain c _ => [c]
  | string chars => (Column.string chars).text

/-- The text of a column. -/
def partsText (parts : List ColumnPart) : Blob := parts.flatMap ColumnPart.text

/-- Each part is passed, and so are all of them. -/
theorem passes_partsText (parts : List ColumnPart) : Passes (partsText parts) := by
  induction parts with
  | nil => exact passes_nil
  | cons part parts ih =>
    rintro behind ahead line r rfl hrest
    have hparts := ih (behind ++ part.text) ahead (behind ++ (partsText (part :: parts) ++ ahead)) r
      (by simp [partsText])
    rw [length_append, Nat.add_assoc, ← length_append] at hparts
    have hpart := hparts hrest
    cases part with
    | plain c h =>
      refine columnEnd_plain behind (partsText parts ++ ahead) h ?_
      simpa [partsText, ColumnPart.text] using hpart
    | string chars =>
      refine passes_column (.string chars) behind (partsText parts ++ ahead) _ r ?_ hpart
      simp [partsText, ColumnPart.text]

/-- Columns with texts that the scanner passes. -/
def Scannable (texts : List Blob) : Prop := texts ≠ [] ∧ ∀ t ∈ texts, Passes t

variable {texts texts' : List Blob}

theorem joinColumns_cons (text : Blob) (texts : List Blob) :
    ∃ last ahead, (last = 44 ∨ last = 41) ∧ joinColumns (text :: texts) = text ++ last :: ahead ∧
      (last = 41 → texts = []) ∧ (last = 44 → texts ≠ [] ∧ ahead = joinColumns texts) := by
  cases texts with
  | nil => exact ⟨41, [], .inr rfl, rfl, fun _ => rfl, fun h => absurd h (by decide)⟩
  | cons text' texts =>
    refine ⟨44, joinColumns (text' :: texts), .inl rfl, rfl, fun h => absurd h (by decide), ?_⟩
    exact fun _ => ⟨cons_ne_nil _ _, rfl⟩

/-- The text of the columns says what they are. -/
theorem joinColumns_inj (h : Scannable texts) (h' : Scannable texts')
    (heq : joinColumns texts = joinColumns texts') : texts = texts' := by
  induction texts generalizing texts' with
  | nil => exact absurd rfl h.1
  | cons text texts ih =>
    obtain ⟨text', texts', rfl⟩ := exists_cons_of_ne_nil h'.1
    obtain ⟨last, ahead, hlast, hline, hone, hmore⟩ := joinColumns_cons text texts
    obtain ⟨last', ahead', hlast', hline', hone', hmore'⟩ := joinColumns_cons text' texts'
    -- the scanner finds the end of the first column in one place
    have hend := columnEnd_ends [] ahead (h.2 text mem_cons_self) hlast hline
    have hend' := columnEnd_ends [] ahead' (h'.2 text' mem_cons_self) hlast' hline'
    rw [heq] at hend
    have hunique := Prod.mk.inj (hend.unique hend')
    rw [hline, hline'] at heq
    obtain ⟨rfl, hbehind⟩ := append_inj heq (by simpa using hunique.1)
    obtain ⟨rfl, rfl⟩ := List.cons.inj hbehind
    congr 1
    obtain hcomma | hparen := hlast
    · obtain ⟨hne, hcolumns⟩ := hmore hcomma
      obtain ⟨hne', hcolumns'⟩ := hmore' hcomma
      have hrest : Scannable texts := ⟨hne, fun t ht => h.2 t (mem_cons_of_mem _ ht)⟩
      have hrest' : Scannable texts' := ⟨hne', fun t ht => h'.2 t (mem_cons_of_mem _ ht)⟩
      exact ih hrest hrest' (hcolumns.symm.trans hcolumns')
    · rw [hone hparen, hone' hparen]

/-- The text of the tuples says what they are. -/
theorem joinTuples_inj {tuples tuples' : List (List Blob)} (h : ∀ texts ∈ tuples, Scannable texts)
    (h' : ∀ texts ∈ tuples', Scannable texts)
    (heq : joinTuples [59, 10] tuples = joinTuples [59, 10] tuples') : tuples = tuples' := by
  have hscans : Scans (joinTuples [59, 10] tuples) 0 (tuples.map scannedTexts) :=
    scans_tuples [] tuples (fun texts hmem => (h texts hmem).2) (.inl rfl) rfl
  have hscans' : Scans (joinTuples [59, 10] tuples') 0 (tuples'.map scannedTexts) :=
    scans_tuples [] tuples' (fun texts hmem => (h' texts hmem).2) (.inl rfl) rfl
  rw [← heq] at hscans'
  have hscanned := hscans.returns_allValues.unique hscans'.returns_allValues
  have htexts := congrArg (List.map InsertTuple.ins_string) hscanned
  simp only [map_map] at htexts
  clear heq hscans hscans' hscanned
  induction tuples generalizing tuples' with
  | nil => exact (map_eq_nil_iff.mp htexts.symm).symm
  | cons texts tuples ih =>
    obtain ⟨texts', tuples', rfl⟩ : ∃ texts' rest, tuples' = texts' :: rest := by
      cases tuples' with
      | nil => cases htexts
      | cons texts' rest => exact ⟨texts', rest, rfl⟩
    obtain ⟨hfirst, hrest⟩ := List.cons.inj htexts
    have hcolumns := (List.cons.inj (show joinTuple texts = joinTuple texts' from hfirst)).2
    obtain ⟨htuple, htuples⟩ := forall_mem_cons.mp h
    obtain ⟨htuple', htuples'⟩ := forall_mem_cons.mp h'
    rw [joinColumns_inj htuple htuple' hcolumns, ih htuples htuples' hrest]

end Columns

section Kept

/-- What the rules see of these columns. -/
def seenValues (texts : List Blob) : UInt32 → Option Int64 :=
  boundValues (scannedTexts texts).values

/-- The tuples that the rules select when their columns have these values. -/
noncomputable def keptTuples (constants : Blob → Option Int64) (rules : List Rule)
    (valuesOf : List Blob → UInt32 → Option Int64) (tuples : List (List Blob)) :
    List (List Blob) :=
  open Classical in tuples.filter fun texts => Selected constants (valuesOf texts) rules

/-- The line of these tuples, or nothing. -/
def outputLine (tname : DrString) (kept : List (List Blob)) : Blob :=
  if kept = [] then [] else insertInto tname ++ joinTuples [59, 10] kept

/-- What the loop has written of these tuples. -/
def written (tname : DrString) : List (List Blob) → Blob
  | [] => []
  | texts :: kept => insertInto tname ++ joinTuple texts ++ kept.flatMap (44 :: joinTuple ·)

section Written

variable {tname : DrString}

theorem written_concat (kept : List (List Blob)) (texts : List Blob) :
    written tname (kept ++ [texts]) =
      written tname kept ++ (if kept.length = 0 then insertInto tname else [44]) ++
        joinTuple texts := by
  cases kept with
  | nil => simp [written]
  | cons first kept => simp [written]

theorem joinTuples_cons (tail : Blob) (texts : List Blob) (tuples : List (List Blob)) :
    joinTuples tail (texts :: tuples) =
      joinTuple texts ++ tuples.flatMap (44 :: joinTuple ·) ++ tail := by
  induction tuples generalizing texts with
  | nil => simp [joinTuples]
  | cons texts' tuples ih => simp [joinTuples, ih]

theorem written_end (kept : List (List Blob)) :
    (if kept.length ≠ 0 then written tname kept ++ [59, 10] else written tname kept) =
      outputLine tname kept := by
  cases kept with
  | nil => rfl
  | cons texts kept =>
    rw [outputLine, if_pos (by simp), if_neg (cons_ne_nil _ _), joinTuples_cons]
    simp [written]

end Written

variable (constants : Blob → Option Int64) (tname : DrString) (rules : List Rule)

/-- The loop is done with a tuple when the rules have answered, and either none selects it or there
is still a number for it. -/
theorem takeTuple_iff (kept : List (List Blob)) (texts : List Blob) (state : Nat × Blob) :
    takeTuple constants tname rules (kept.length, written tname kept) (scannedTexts texts) =
        .ok state ↔
      Answered constants (seenValues texts) rules ∧
        (Selected constants (seenValues texts) rules → kept.length ≠ 2 ^ 31 - 1) ∧
        ∃ kept', kept' = kept ++ keptTuples constants rules seenValues [texts] ∧
          state = (kept'.length, written tname kept') := by
  classical
  have hbound : boundValues (scannedTexts texts).values = seenValues texts := rfl
  unfold takeTuple
  rw [hbound]
  obtain ⟨hanswered, b, hb, hselected⟩ | ⟨hnot, hfault⟩ := anyRule_spec rules
  · rw [hb, ok_bind, and_iff_right hanswered, exists_eq_left]
    cases b with
    | true =>
      have hkept : keptTuples constants rules seenValues [texts] = [texts] := by
        simp [keptTuples, hselected.mp rfl]
      rw [if_pos rfl, forall_prop_of_true (hselected.mp rfl), hkept, written_concat]
      by_cases hlast : kept.length = 2 ^ 31 - 1
      · rw [if_pos hlast]
        refine iff_of_false (fun h => ?_) fun h => h.1 hlast
        cases h
      · rw [if_neg hlast, and_iff_right hlast, ok.injEq, length_append]
        exact eq_comm
    | false =>
      have hnone : ¬ Selected constants (seenValues texts) rules := by
        rw [← hselected]
        exact Bool.false_ne_true
      have hkept : keptTuples constants rules seenValues [texts] = [] := by
        simp [keptTuples, hnone]
      rw [if_neg Bool.false_ne_true, hkept, append_nil, ok.injEq,
        and_iff_right fun h => absurd h hnone]
      exact eq_comm
  · rw [hfault, fault_bind]
    refine iff_of_false (fun h => ?_) fun h => hnot h.1
    cases h

/-- The loop goes over all tuples when the rules have answered on each of them, and there are
numbers for those that are kept. -/
theorem foldlM_takeTuple_iff (tuples kept : List (List Blob)) (hkept : kept.length < 2 ^ 31)
    (state : Nat × Blob) :
    (tuples.map scannedTexts).foldlM (takeTuple constants tname rules)
        (kept.length, written tname kept) = .ok state ↔
      (∀ texts ∈ tuples, Answered constants (seenValues texts) rules) ∧
        ∃ kept', kept' = kept ++ keptTuples constants rules seenValues tuples ∧
          kept'.length < 2 ^ 31 ∧ state = (kept'.length, written tname kept') := by
  classical
  induction tuples generalizing kept with
  | nil =>
    have hnone : keptTuples constants rules seenValues [] = [] := rfl
    rw [hnone, exists_eq_left, append_nil, and_iff_right (forall_mem_nil _),
      and_iff_right hkept]
    change Outcome.ok (kept.length, written tname kept) = .ok state ↔ _
    rw [ok.injEq]
    exact eq_comm
  | cons texts tuples ih =>
    have hsplit : keptTuples constants rules seenValues (texts :: tuples) =
        keptTuples constants rules seenValues [texts] ++
          keptTuples constants rules seenValues tuples := by
      rw [keptTuples, keptTuples, keptTuples, ← filter_append]
      rfl
    have hlength : (kept ++ keptTuples constants rules seenValues [texts]).length < 2 ^ 31 ↔
        (Selected constants (seenValues texts) rules → kept.length ≠ 2 ^ 31 - 1) := by
      by_cases hselected : Selected constants (seenValues texts) rules
      · have hone : (keptTuples constants rules seenValues [texts]).length = 1 := by
          simp [keptTuples, hselected]
        rw [length_append, hone, forall_prop_of_true hselected]
        omega
      · have hzero : (keptTuples constants rules seenValues [texts]).length = 0 := by
          simp [keptTuples, hselected]
        rw [length_append, hzero]
        exact iff_of_true hkept fun h => absurd h hselected
    rw [map_cons, foldlM_cons, bind_eq_ok, forall_mem_cons, exists_eq_left, hsplit,
      ← append_assoc]
    constructor
    · rintro ⟨next, htake, hrest⟩
      obtain ⟨hanswered, hnumber, kept', rfl, rfl⟩ :=
        (takeTuple_iff constants tname rules kept texts next).mp htake
      obtain ⟨hall, kept', rfl, hlt, rfl⟩ := (ih _ (hlength.mpr hnumber)).mp hrest
      exact ⟨⟨hanswered, hall⟩, hlt, rfl⟩
    · rintro ⟨⟨hanswered, hall⟩, hlt, rfl⟩
      have hfirst : (kept ++ keptTuples constants rules seenValues [texts]).length < 2 ^ 31 := by
        rw [length_append] at hlt
        omega
      have htake := (takeTuple_iff constants tname rules kept texts _).mpr
        ⟨hanswered, hlength.mp hfirst, _, rfl, rfl⟩
      refine ⟨_, htake, ?_⟩
      exact (ih _ hfirst).mpr ⟨hall, _, rfl, hlt, rfl⟩

/-- The loop over the tuples goes as they are scanned. -/
theorem endsAs_filterValues {line : Blob} {pos : Nat} {tuples : List InsertTuple}
    (h : Scans line pos tuples) (state : Nat × Blob) :
    EndsAs (fun fuel => filterValues constants tname rules line fuel pos state)
      (tuples.foldlM (takeTuple constants tname rules) state) := by
  induction h generalizing state with
  | @finish pos hcall =>
    have hpass : ∀ fuel, filterValues constants tname rules line (fuel + 1) pos state =
        getNextValues line fuel pos >>= _ := fun fuel => rfl
    exact (EndsAs.of_returns hcall (.of_eq fun _ => rfl)).of_succ hpass
  | @tuple pos next tuple tuples hcall _ ih =>
    have hpass : ∀ fuel, filterValues constants tname rules line (fuel + 1) pos state =
        getNextValues line fuel pos >>= _ := fun fuel => rfl
    refine (EndsAs.of_returns hcall ?_).of_succ hpass
    rw [foldlM_cons]
    exact EndsAs.of_step _ ih

end Kept

section Lines

/-- A tuple: one column at least, which may be empty. -/
structure InsertRow where
  columns : List (List ColumnPart)
  nonempty : columns ≠ []

/-- The texts of the columns. -/
def InsertRow.texts (row : InsertRow) : List Blob := row.columns.map partsText

/-- An INSERT line: the name of the table between backticks, `VALUES` between blanks, and the
tuples, with a line break at the end or without. -/
structure InsertLine where
  name : Blob
  backtick_notMem : 96 ∉ name
  name_blanks : Blob
  values_blanks : Blob
  blanks : ∀ c ∈ name_blanks ++ values_blanks, isspace c = true
  rows : List InsertRow
  newline : Bool

namespace InsertLine

variable (line : InsertLine)

/-- The columns of the tuples. -/
def tuples : List (List Blob) := line.rows.map InsertRow.texts

/-- What comes behind the tuples. -/
def tail : Blob := if line.newline then [59, 10] else [59]

/-- The line up to `VALUES`. -/
def front : Blob :=
  Drt.ascii "INSERT INTO `" ++ (line.name ++ [96]) ++ line.name_blanks

/-- The octets of the line. -/
def text : Blob :=
  line.front ++ Drt.ascii "VALUES" ++ line.values_blanks ++ joinTuples line.tail line.tuples

/-- The output that is due: the tuples that a rule selects by the values which their columns have to
be bound to, as a line. -/
noncomputable def dueOutput (constants : Blob → Option Int64) (rules : List Rule) : Blob :=
  if keptTuples constants rules dueValues line.tuples = [] then []
  else
    Drt.ascii "INSERT INTO " ++ line.name ++ Drt.ascii " VALUES " ++
      joinTuples [59, 10] (keptTuples constants rules dueValues line.tuples)

end InsertLine

/-- The line of a table with these rules is filtered as it has to be. -/
def FiltersExactly (constants : Blob → Option Int64) (evaluators : DrString → Option (List Rule))
    (rules : List Rule) (line : InsertLine) : Prop :=
  Returns
    (fun fuel => processOneData constants
      (Function.update evaluators (.setUtf8 line.name) (some rules)) line.text fuel)
    (line.dueOutput constants rules)

theorem skipBlanks_append {line behind blanks ahead : Blob}
    (hline : line = behind ++ blanks ++ ahead) (hblanks : ∀ c ∈ blanks, isspace c = true)
    (hahead : ahead.takeWhile isspace = []) :
    skipBlanks line behind.length = (behind ++ blanks).length := by
  rw [skipBlanks, hline, append_assoc, drop_left, takeWhile_append_of_pos hblanks,
    hahead, append_nil, length_append]

theorem takeWhile_joinTuples (line : InsertLine) :
    (joinTuples line.tail line.tuples).takeWhile isspace = [] := by
  cases line.tuples with
  | nil =>
    rw [joinTuples, InsertLine.tail]
    split_ifs
    · rfl
    · rfl
  | cons texts tuples =>
    rw [joinTuples_cons]
    rfl

theorem scannable_tuples (line : InsertLine) : ∀ texts ∈ line.tuples, Scannable texts := by
  intro texts htexts
  obtain ⟨row, -, rfl⟩ := mem_map.mp htexts
  refine ⟨fun h => row.nonempty (map_eq_nil_iff.mp h), fun t ht => ?_⟩
  obtain ⟨parts, -, rfl⟩ := mem_map.mp ht
  exact passes_partsText parts

section

variable (constants : Blob → Option Int64) (evaluators : DrString → Option (List Rule))
  (rules : List Rule) (line : InsertLine)

/-- In front of the tuples, the line is as the code expects it. -/
theorem processOneData_line (fuel : Nat) :
    processOneData constants (Function.update evaluators (.setUtf8 line.name) (some rules))
        line.text fuel =
      filterValues constants (.setUtf8 line.name) rules line.text fuel
        (line.front ++ Drt.ascii "VALUES" ++ line.values_blanks).length (0, []) >>= fun state =>
          .ok (if state.1 ≠ 0 then state.2 ++ [59, 10] else state.2) := by
  have hstart : line.text = Drt.ascii "INSERT INTO `" ++ (line.name ++ 96 :: (line.name_blanks ++
      (Drt.ascii "VALUES" ++ (line.values_blanks ++ joinTuples line.tail line.tuples)))) := by
    simp [InsertLine.text, InsertLine.front]
  have hthirteen : (Drt.ascii "INSERT INTO `").length = 13 := by decide
  have htake : line.text.take 13 = Drt.ascii "INSERT INTO `" := by
    rw [hstart, ← hthirteen, take_left]
  have hfind : BString.findChar line.text 96 13 = some (13 + line.name.length) := by
    rw [hstart, ← hthirteen]
    exact BString.findChar_behind _ line.backtick_notMem
  have hname : (line.text.drop 13).take (13 + line.name.length - 13) = line.name := by
    rw [hstart, ← hthirteen, drop_left, Nat.add_sub_cancel_left, take_left]
  have hblanks : skipBlanks line.text (13 + line.name.length + 1) = line.front.length := by
    have hfront : (Drt.ascii "INSERT INTO `" ++ (line.name ++ [96])).length =
        13 + line.name.length + 1 := by
      rw [length_append, hthirteen, length_append, length_singleton, Nat.add_assoc]
    rw [← hfront]
    have hbehind : line.text =
        Drt.ascii "INSERT INTO `" ++ (line.name ++ [96]) ++ line.name_blanks ++
          (Drt.ascii "VALUES" ++ (line.values_blanks ++ joinTuples line.tail line.tuples)) := by
      simp [InsertLine.text, InsertLine.front]
    refine skipBlanks_append hbehind ?_ rfl
    exact fun c hc => line.blanks c (mem_append_left _ hc)
  have hsix : (Drt.ascii "VALUES").length = 6 := by decide
  have hvalues : (line.text.drop line.front.length).take 6 = Drt.ascii "VALUES" := by
    rw [InsertLine.text, append_assoc, append_assoc, drop_left, ← hsix,
      take_left]
  have htuples : skipBlanks line.text (line.front.length + 6) =
      (line.front ++ Drt.ascii "VALUES" ++ line.values_blanks).length := by
    rw [← hsix, ← length_append]
    refine skipBlanks_append rfl ?_ (takeWhile_joinTuples line)
    exact fun c hc => line.blanks c (mem_append_right _ hc)
  rw [processOneData, if_neg (not_not.mpr htake), hfind]
  simp only [hname, hblanks, htuples, Function.update_self]
  rw [if_neg (not_not.mpr hvalues)]

/-- What the code makes of a line: it comes back when the rules have answered on each tuple as its
columns are seen, and there are numbers for the tuples that are kept. -/
theorem returns_processOneData_iff (output : Blob) :
    Returns
        (fun fuel => processOneData constants
          (Function.update evaluators (.setUtf8 line.name) (some rules)) line.text fuel)
        output ↔
      (∀ texts ∈ line.tuples, Answered constants (seenValues texts) rules) ∧
        (keptTuples constants rules seenValues line.tuples).length < 2 ^ 31 ∧
        output = outputLine (.setUtf8 line.name)
          (keptTuples constants rules seenValues line.tuples) := by
  have htail : line.tail = [59, 10] ∨ line.tail = [59] := by
    rw [InsertLine.tail]
    split_ifs
    · exact .inl rfl
    · exact .inr rfl
  have hscans : Scans line.text (line.front ++ Drt.ascii "VALUES" ++ line.values_blanks).length
      (line.tuples.map scannedTexts) :=
    scans_tuples _ line.tuples (fun texts hmem => (scannable_tuples line texts hmem).2) htail rfl
  have hends := (endsAs_filterValues constants (.setUtf8 line.name) rules hscans (0, [])).bind
    fun state => .ok (if state.1 ≠ 0 then state.2 ++ [59, 10] else state.2)
  simp only [processOneData_line]
  rw [hends.returns_iff, bind_eq_ok]
  have hfold := foldlM_takeTuple_iff constants (.setUtf8 line.name) rules line.tuples [] (by decide)
  constructor
  · rintro ⟨state, hstate, houtput⟩
    obtain ⟨hanswered, kept, rfl, hlt, rfl⟩ := (hfold state).mp hstate
    rw [nil_append] at hlt houtput
    refine ⟨hanswered, hlt, ?_⟩
    rw [← written_end]
    exact (ok.inj houtput).symm
  · rintro ⟨hanswered, hlt, rfl⟩
    refine ⟨_, (hfold _).mpr ⟨hanswered, _, rfl, hlt, rfl⟩, ?_⟩
    rw [← written_end]
    rfl

variable {constants rules} in
/-- The same tuples are kept exactly when the rules select alike. -/
theorem keptTuples_eq_iff {valuesOf valuesOf' : List Blob → UInt32 → Option Int64}
    (tuples : List (List Blob)) :
    keptTuples constants rules valuesOf tuples = keptTuples constants rules valuesOf' tuples ↔
      ∀ texts ∈ tuples, (Selected constants (valuesOf texts) rules ↔
        Selected constants (valuesOf' texts) rules) := by
  classical
  constructor
  · intro heq texts hmem
    have hiff : texts ∈ keptTuples constants rules valuesOf tuples ↔
        texts ∈ keptTuples constants rules valuesOf' tuples := by rw [heq]
    simpa only [keptTuples, mem_filter, hmem, true_and, decide_eq_true_eq] using hiff
  · intro h
    refine filter_congr fun texts hmem => ?_
    exact decide_eq_decide.mpr (h texts hmem)

/-- The line of some tuples says which they are. -/
theorem outputLine_inj {tname : DrString} {kept kept' : List (List Blob)}
    (h : ∀ texts ∈ kept, Scannable texts) (h' : ∀ texts ∈ kept', Scannable texts)
    (heq : outputLine tname kept = outputLine tname kept') : kept = kept' := by
  have hne (tuples : List (List Blob)) : insertInto tname ++ joinTuples [59, 10] tuples ≠ [] := by
    rw [insertInto]
    exact cons_ne_nil _ _
  rw [outputLine, outputLine] at heq
  by_cases hnone : kept = []
  · by_cases hnone' : kept' = []
    · rw [hnone, hnone']
    · rw [if_pos hnone, if_neg hnone'] at heq
      exact absurd heq.symm (hne kept')
  · by_cases hnone' : kept' = []
    · rw [if_neg hnone, if_pos hnone'] at heq
      exact absurd heq (hne kept)
    · rw [if_neg hnone, if_neg hnone'] at heq
      exact joinTuples_inj h h' (append_cancel_left heq)

/-- A line is filtered as it has to be exactly when the rules answer on all of its tuples, and
select alike by the values that are seen and those that are due. -/
theorem filtersExactly_iff :
    FiltersExactly constants evaluators rules line ↔
      (∀ texts ∈ line.tuples, Answered constants (seenValues texts) rules ∧
        (Selected constants (seenValues texts) rules ↔
          Selected constants (dueValues texts) rules)) ∧
        (keptTuples constants rules dueValues line.tuples).length < 2 ^ 31 := by
  have hdue : line.dueOutput constants rules = outputLine (.setUtf8 line.name)
      (keptTuples constants rules dueValues line.tuples) := rfl
  have hkept (valuesOf : List Blob → UInt32 → Option Int64) :
      ∀ texts ∈ keptTuples constants rules valuesOf line.tuples, Scannable texts := by
    classical
    exact fun texts hmem => scannable_tuples line texts (mem_filter.mp hmem).1
  rw [FiltersExactly, returns_processOneData_iff, hdue]
  constructor
  · rintro ⟨hanswered, hlt, heq⟩
    have htuples := outputLine_inj (hkept dueValues) (hkept seenValues) heq
    have hselected := (keptTuples_eq_iff line.tuples).mp htuples
    rw [htuples]
    exact ⟨fun texts hmem => ⟨hanswered texts hmem, (hselected texts hmem).symm⟩, hlt⟩
  · rintro ⟨hall, hlt⟩
    have htuples := (keptTuples_eq_iff line.tuples).mpr fun texts hmem => (hall texts hmem).2
    rw [htuples]
    exact ⟨fun texts hmem => (hall texts hmem).1, hlt, rfl⟩

theorem seenValues_eq {texts : List Blob} (hne : texts ≠ []) (hlt : texts.length < 2 ^ 29) :
    seenValues texts = boundValues texts := by
  have hall : SArray.appendAll 8 [] texts = texts := by
    refine SArray.appendAll_of_lt (by decide) ?_
    rw [length_nil]
    omega
  rw [seenValues, scannedTexts, if_neg hne, hall]

/-- A line is filtered as it has to be exactly when, on each of its tuples, the rules come to no
undefined operation up to the first that fires, and select alike by the values that are seen and
those that are due, and fewer than `2 ^ 31` tuples are kept. Below `2 ^ 29` columns, all rules
select a tuple alike exactly when each of its columns is read right. -/
theorem processOneData_filters_iff :
    (FiltersExactly constants evaluators rules line ↔
      (∀ texts ∈ line.tuples, Answered constants (seenValues texts) rules ∧
        (Selected constants (seenValues texts) rules ↔
          Selected constants (dueValues texts) rules)) ∧
        (keptTuples constants rules dueValues line.tuples).length < 2 ^ 31) ∧
      ∀ texts ∈ line.tuples, texts.length < 2 ^ 29 →
        ((∀ (constants : Blob → Option Int64) (rules : List Rule),
            Selected constants (seenValues texts) rules ↔
              Selected constants (dueValues texts) rules) ↔
          ∀ text ∈ texts, ReadRight text) := by
  refine ⟨filtersExactly_iff constants evaluators rules line, fun texts hmem hlt => ?_⟩
  rw [selected_alike_iff, seenValues_eq (scannable_tuples line texts hmem).1 hlt]
  exact boundValues_eq_iff (by omega)

end

/-- A row with a negative number. -/
def negativeRow : InsertRow where
  columns := [[.plain 45 (by decide), .plain 53 (by decide)]]
  nonempty := List.cons_ne_nil _ _

/-- A line with it: INSERT INTO t VALUES (-5); -/
def negativeLine : InsertLine where
  name := Drt.ascii "t"
  backtick_notMem := by decide
  name_blanks := [32]
  values_blanks := [32]
  blanks := by decide
  rows := [negativeRow]
  newline := true

/-- The rule `\0 == -5` does not select the row, since the column is not bound. -/
theorem negative_not_filtered :
    ¬ ∀ (constants : Blob → Option Int64) (evaluators : DrString → Option (List Rule))
      (rules : List Rule) (line : InsertLine), FiltersExactly constants evaluators rules line := by
  intro h
  have hfilters := h (fun _ => none) (fun _ => none) [columnIs 0 (-5)] negativeLine
  rw [filtersExactly_iff] at hfilters
  have hrow := (hfilters.1 negativeRow.texts mem_cons_self).2
  simp only [Selected, mem_singleton, exists_eq_left, fires_columnIs] at hrow
  have hdue : dueValues negativeRow.texts 0 = some (-5) := by decide
  have hseen : seenValues negativeRow.texts 0 = none := by decide
  rw [hseen] at hrow
  exact absurd (hrow.mpr hdue) (by decide)

end Lines

end QueueManager

end Drt
