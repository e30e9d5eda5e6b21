import Drt.Util.ModelStore

/-!
# Reading a list of classes

A list file has a location and a class on each line, or a comment. `getNext` is to pass over
the classes that are in none of the packages asked for. The condition of its `return` is a
`return` itself, so that the answer of `checkPackage` is all that is returned.
-/

open List

namespace Drt

/-- The last dot of a text, with what is before and after it. -/
theorem splitLastDot_eq {conv init last : List Char} (h : splitLastDot conv = some (init, last)) :
    conv = init ++ '.' :: last := by
  induction conv generalizing init with
  | nil => cases h
  | cons c rest ih =>
    rw [splitLastDot] at h
    cases hrest : splitLastDot rest with
    | some parts =>
      obtain ⟨before, after⟩ := parts
      rw [hrest] at h
      cases h
      rw [ih hrest, cons_append]
    | none =>
      rw [hrest] at h
      by_cases hc : c = '.'
      · rw [if_pos hc] at h
        cases h
        rw [hc, nil_append]
      · rw [if_neg hc] at h
        cases h

theorem splitLastDot_of_notMem {conv : List Char} (h : '.' ∉ conv) : splitLastDot conv = none := by
  induction conv with
  | nil => rfl
  | cons c rest ih =>
    rw [mem_cons, not_or] at h
    rw [splitLastDot, ih h.2]
    exact if_neg (Ne.symm h.1)

theorem splitLastDot_append {last : List Char} (h : '.' ∉ last) (init : List Char) :
    splitLastDot (init ++ '.' :: last) = some (init, last) := by
  induction init with
  | nil => rw [nil_append, splitLastDot, splitLastDot_of_notMem h]; rfl
  | cons c init ih => rw [cons_append, splitLastDot, ih]

namespace GenmapReader

/-- The characters of `\w`. -/
def isWord (c : Char) : Bool := c.isAlphanum || c = '_'

/-- `s/::/./g`. -/
def dotted : List Char → List Char
  | ':' :: ':' :: rest => '.' :: dotted rest
  | c :: rest => c :: dotted rest
  | [] => []

/-- The loop of `checkPackage`, from a name on to those before its dots. -/
def checkDotted (packages : List (List Char)) (conv : List Char) : Bool :=
  if conv = [] then false
  else if conv ∈ packages then true
  else
    match _h : splitLastDot conv with
    | none => false
    | some (init, _) => checkDotted packages init
termination_by conv.length
decreasing_by
  rw [splitLastDot_eq _h, List.length_append, List.length_cons]
  omega

def checkPackage (packages : Option (List (List Char))) (cls : List Char) : Bool :=
  match packages with
  | some names => checkDotted names (dotted cls)
  | none => true

/-- The lines that `getline` gives, each with its end. -/
def getlines : List Char → List (List Char)
  | [] => []
  | c :: rest =>
    if c = '\n' then [c] :: getlines rest
    else
      match getlines rest with
      | [] => [[c]]
      | line :: more => (c :: line) :: more

def chomp (line : List Char) : List Char :=
  if line.getLast? = some '\n' then line.dropLast else line

/-- `m/^\s*(#.*|)$/`. -/
def matchNote (line : List Char) : Bool :=
  match line.dropWhile isBlank with
  | [] => true
  | c :: _ => c = '#'

/-- `(\w+::)*\w+$`; the flag says whether a character of a word was just read. -/
def matchClass : Bool → List Char → Bool
  | started, ':' :: ':' :: rest => started && matchClass false rest
  | _, c :: rest => isWord c && matchClass true rest
  | started, [] => started

/-- `m/^(\S+)\s+((\w+::)*\w+)$/`: the location and the class. -/
def matchPair (line : List Char) : Option (List Char × List Char) :=
  let loc := line.takeWhile (!isBlank ·)
  let rest := line.dropWhile (!isBlank ·)
  let cls := rest.dropWhile isBlank
  if loc ≠ [] ∧ rest ≠ [] ∧ matchClass false cls then some (loc, cls) else none

/-- `GenmapReader::List`. -/
structure ListReader where
  packages : Option (List (List Char))
  /-- The lines of `list_fd` that are still to be read. -/
  list_fd : List (List Char)
  lineno : Nat

/-- A truth value as a scalar. -/
def truth (b : Bool) : List Char := if b then ['1'] else ['0']

namespace ListReader

/-- `new`, of a file with this text. -/
def new (packages : Option (List (List Char))) (text : List Char) : ListReader :=
  ⟨packages, getlines text, 0⟩

/-- The loop of `getNext`. -/
def nextOf (packages : Option (List (List Char))) :
    List (List Char) → Nat → Outcome String (List (List Char) × ListReader)
  | [], lineno => .ok ([], ⟨packages, [], lineno⟩)
  | raw :: more, lineno =>
    if matchNote (chomp raw) then nextOf packages more (lineno + 1)
    else
      match matchPair (chomp raw) with
      | none => .raise "invalid format, need \"location classname\""
      | some (_, cls) => .ok ([truth (checkPackage packages cls)], ⟨packages, more, lineno + 1⟩)

/-- `getNext`: the list that is returned, and the reader after it. -/
def getNext (r : ListReader) : Outcome String (List (List Char) × ListReader) :=
  nextOf r.packages r.list_fd r.lineno

/-- `getNext` is called until it returns nothing: the lists that came before. -/
def readAll : Nat → ListReader → Outcome String (List (List (List Char)))
  | 0, _ => .outOfFuel
  | fuel + 1, r => do
    let (pair, r) ← r.getNext
    if pair = [] then .ok [] else do
      let more ← readAll fuel r
      .ok (pair :: more)

end ListReader

/-! ### Names of classes -/

/-- The name of a class: the packages around it and its own. -/
def className (parts : List (List Char)) : List Char := [':', ':'].intercalate parts

/-- The same name as the packages to choose from are written. -/
def dottedName (parts : List (List Char)) : List Char := ['.'].intercalate parts

/-- A class is wanted if its name or that of a package around it is among the names. -/
def wanted (packages : Option (List (List Char))) (parts : List (List Char)) : Bool :=
  match packages with
  | none => true
  | some names => parts.inits.any fun part => part ≠ [] ∧ dottedName part ∈ names

/-- The parts of a name are words. -/
def Words (parts : List (List Char)) : Prop := ∀ word ∈ parts, word ≠ [] ∧ ∀ c ∈ word, isWord c

instance (parts : List (List Char)) : Decidable (Words parts) :=
  inferInstanceAs (Decidable (∀ word ∈ parts, word ≠ [] ∧ ∀ c ∈ word, isWord c))

theorem ne_of_isWord {c : Char} (h : isWord c) : c ≠ ':' ∧ c ≠ '.' ∧ c ≠ '\n' := by
  refine ⟨?_, ?_, ?_⟩ <;> rintro rfl <;> exact absurd h (by decide)

theorem isBlank_of_isWord {c : Char} (h : isWord c) : isBlank c = false := by
  rw [Bool.eq_false_iff]
  intro hblank
  simp only [isBlank, mem_cons, not_mem_nil, or_false, decide_eq_true_eq] at hblank
  rcases hblank with rfl | rfl | rfl | rfl | rfl | rfl <;> exact absurd h (by decide)

theorem dotted_cons {c : Char} (h : c ≠ ':') (rest : List Char) :
    dotted (c :: rest) = c :: dotted rest := by
  rw [dotted]
  intro _ hc _
  exact h hc

theorem dotted_append {word : List Char} (h : ':' ∉ word) (rest : List Char) :
    dotted (word ++ rest) = word ++ dotted rest := by
  induction word with
  | nil => rfl
  | cons c word ih =>
    rw [mem_cons, not_or] at h
    rw [cons_append, dotted_cons (Ne.symm h.1), ih h.2, cons_append]

variable {parts : List (List Char)} {line : List Char}

/-- The separators of a name are exchanged, and nothing else is. -/
theorem dotted_className (h : ∀ word ∈ parts, ':' ∉ word) :
    dotted (className parts) = dottedName parts := by
  induction parts with
  | nil => rfl
  | cons word parts ih =>
    have hword := h word mem_cons_self
    have hrest := ih fun other hother => h other (mem_cons_of_mem _ hother)
    cases parts with
    | nil =>
      have happend := dotted_append hword []
      rw [append_nil, dotted, append_nil] at happend
      rw [className, dottedName, intercalate_singleton, intercalate_singleton, happend]
    | cons next parts =>
      rw [className, dottedName, intercalate_cons_cons, intercalate_cons_cons,
        append_assoc, append_assoc, dotted_append hword]
      exact congrArg (word ++ '.' :: ·) hrest

theorem dottedName_append {init : List (List Char)} (h : init ≠ []) (word : List Char) :
    dottedName (init ++ [word]) = dottedName init ++ '.' :: word := by
  induction init with
  | nil => exact absurd rfl h
  | cons first init ih =>
    cases init with
    | nil => simp [dottedName]
    | cons next init =>
      have hrest := ih (cons_ne_nil next init)
      rw [dottedName, dottedName] at *
      rw [cons_append, cons_append, intercalate_cons_cons,
        intercalate_cons_cons, ← cons_append, hrest]
      simp only [append_assoc]

theorem dottedName_ne_nil (hparts : parts ≠ []) (h : [] ∉ parts) : dottedName parts ≠ [] := by
  cases parts with
  | nil => exact absurd rfl hparts
  | cons word parts =>
    have hword : word ≠ [] := fun hnil => h (hnil ▸ mem_cons_self)
    cases parts with
    | nil => rwa [dottedName, intercalate_singleton]
    | cons next parts =>
      rw [dottedName, intercalate_cons_cons, append_assoc]
      exact fun hnil => hword (append_eq_nil_iff.mp hnil).1

/-- The loop of `checkPackage` comes to the class and to every package around it. -/
theorem checkDotted_dottedName {names : List (List Char)}
    (h : ∀ word ∈ parts, word ≠ [] ∧ '.' ∉ word) :
    checkDotted names (dottedName parts) =
      parts.inits.any fun part => part ≠ [] ∧ dottedName part ∈ names := by
  induction parts using List.reverseRecOn with
  | nil => rw [checkDotted]; simp [dottedName]
  | append_singleton init word ih =>
    have hword := h word (by simp)
    have hinit := ih fun other hother => h other (mem_append_left _ hother)
    have hne : dottedName (init ++ [word]) ≠ [] :=
      dottedName_ne_nil (by simp) fun hnil => (h [] hnil).1 rfl
    have hinits : (init ++ [word]).inits = init.inits ++ [init ++ [word]] := by
      rw [inits_append]
      simp
    rw [checkDotted, if_neg hne, hinits, any_append, any_cons, any_nil]
    by_cases hmem : dottedName (init ++ [word]) ∈ names
    · rw [if_pos hmem]
      simp [hmem]
    · rw [if_neg hmem]
      by_cases hnil : init = []
      · subst hnil
        have hnone : splitLastDot (dottedName ([] ++ [word])) = none := by
          rw [nil_append, dottedName, intercalate_singleton]
          exact splitLastDot_of_notMem hword.2
        split
        · rw [nil_append] at hmem ⊢
          simp [hmem]
        · next heq => rw [hnone] at heq; cases heq
      · have hlast := splitLastDot_append hword.2 (dottedName init)
        rw [← dottedName_append hnil word] at hlast
        split
        · next heq => rw [hlast] at heq; cases heq
        · next before after heq =>
          rw [hlast] at heq
          cases heq
          rw [hinit]
          simp [hmem]

theorem checkPackage_className (h : Words parts) (packages : Option (List (List Char))) :
    checkPackage packages (className parts) = wanted packages parts := by
  cases packages with
  | none => rfl
  | some names =>
    have hcolon : ∀ word ∈ parts, ':' ∉ word :=
      fun word hword hmem => (ne_of_isWord ((h word hword).2 _ hmem)).1 rfl
    have hdot : ∀ word ∈ parts, word ≠ [] ∧ '.' ∉ word :=
      fun word hword =>
        ⟨(h word hword).1, fun hmem => (ne_of_isWord ((h word hword).2 _ hmem)).2.1 rfl⟩
    rw [checkPackage, dotted_className hcolon, checkDotted_dottedName hdot]
    rfl

/-! ### Lines of a list file -/

/-- A line: blanks and maybe a comment, or a location and a class. -/
inductive ListLine where
  | note (indent : List Char) (comment : Option (List Char))
  | pair (loc gap : List Char) (parts : List (List Char))

namespace ListLine

/-- The text of a line, without its end. -/
def text : ListLine → List Char
  | note indent none => indent
  | note indent (some comment) => indent ++ '#' :: comment
  | pair loc gap parts => loc ++ (gap ++ className parts)

/-- A line that the format allows. -/
def WellFormed : ListLine → Prop
  | note indent comment =>
    (∀ c ∈ indent, isBlank c ∧ c ≠ '\n') ∧ ∀ text, comment = some text → '\n' ∉ text
  | pair loc gap parts =>
    (loc ≠ [] ∧ loc.head? ≠ some '#' ∧ ∀ c ∈ loc, isBlank c = false) ∧
      (gap ≠ [] ∧ ∀ c ∈ gap, isBlank c ∧ c ≠ '\n') ∧ parts ≠ [] ∧ Words parts

/-- The location and the class, if they are wanted. -/
def wantedPair (packages : Option (List (List Char))) : ListLine → Option (List (List Char))
  | note _ _ => none
  | pair loc _ parts => if wanted packages parts then some [loc, className parts] else none

/-- What is returned for a line. -/
def answer (packages : Option (List (List Char))) : ListLine → Option (List (List Char))
  | note _ _ => none
  | pair _ _ parts => some [truth (wanted packages parts)]

theorem matchNote_note {indent : List Char} {comment : Option (List Char)}
    (h : (note indent comment).WellFormed) : matchNote (note indent comment).text := by
  have hindent : ∀ c ∈ indent, isBlank c := fun c hc => (h.1 c hc).1
  cases comment with
  | none =>
    have hdrop : (indent ++ []).dropWhile isBlank = [] := dropWhile_append_of_pos hindent
    rw [append_nil] at hdrop
    rw [text, matchNote, hdrop]
  | some comment =>
    rw [text, matchNote, dropWhile_append_of_pos hindent]
    rfl

variable {parts : List (List Char)}

theorem className_eq_cons (hparts : parts ≠ []) (h : Words parts) :
    ∃ c rest, className parts = c :: rest ∧ isWord c := by
  cases parts with
  | nil => exact absurd rfl hparts
  | cons word parts =>
    obtain ⟨hne, hword⟩ := h word mem_cons_self
    cases word with
    | nil => exact absurd rfl hne
    | cons c word =>
      refine ⟨c, className (word :: parts), ?_, hword c mem_cons_self⟩
      rw [className, intercalate_cons_cons_left]
      rfl

theorem matchClass_append {word : List Char} (h : ∀ c ∈ word, isWord c) (hne : word ≠ [])
    (started : Bool) (rest : List Char) :
    matchClass started (word ++ rest) = matchClass true rest := by
  induction word generalizing started with
  | nil => exact absurd rfl hne
  | cons c word ih =>
    have hc := h c mem_cons_self
    have hstep : matchClass started (c :: (word ++ rest)) = matchClass true (word ++ rest) := by
      rw [matchClass, hc, Bool.true_and]
      intro _ hcolon _
      exact (ne_of_isWord hc).1 hcolon
    rw [cons_append, hstep]
    cases word with
    | nil => rfl
    | cons d word =>
      exact ih (fun e he => h e (mem_cons_of_mem _ he)) (cons_ne_nil _ _) true

/-- The name of a class matches. -/
theorem matchClass_className (hparts : parts ≠ []) (h : Words parts) :
    matchClass false (className parts) := by
  induction parts with
  | nil => exact absurd rfl hparts
  | cons word parts ih =>
    obtain ⟨hne, hword⟩ := h word mem_cons_self
    cases parts with
    | nil =>
      have happend := matchClass_append hword hne false []
      rw [append_nil] at happend
      rw [className, intercalate_singleton, happend]
      rfl
    | cons next parts =>
      have hrest :=
        ih (cons_ne_nil _ _) fun other hother => h other (mem_cons_of_mem _ hother)
      rw [className, intercalate_cons_cons, append_assoc, matchClass_append hword hne]
      exact hrest

/-- A line with a location and a class is no comment, and both are read. -/
theorem matchPair_pair {loc gap : List Char} (h : (pair loc gap parts).WellFormed) :
    matchNote (pair loc gap parts).text = false ∧
      matchPair (pair loc gap parts).text = some (loc, className parts) := by
  obtain ⟨⟨hloc, hhead, hlocblank⟩, ⟨hgap, hgapblank⟩, hparts, hwords⟩ := h
  obtain ⟨d, rest, hname, hd⟩ := className_eq_cons hparts hwords
  have hnotblank : ∀ c ∈ loc, (!isBlank c) = true := fun c hc => by rw [hlocblank c hc]; rfl
  have hblank : ∀ c ∈ gap, isBlank c = true := fun c hc => (hgapblank c hc).1
  constructor
  · cases loc with
    | nil => exact absurd rfl hloc
    | cons c loc =>
      have hc := hlocblank c mem_cons_self
      have hne : c ≠ '#' := fun heq => hhead (congrArg some heq)
      rw [text, matchNote, cons_append, dropWhile_cons_of_neg (by simp [hc])]
      exact decide_eq_false hne
  · have hstart : (gap ++ className parts).takeWhile (!isBlank ·) = [] ∧
        (gap ++ className parts).dropWhile (!isBlank ·) = gap ++ className parts := by
      cases gap with
      | nil => exact absurd rfl hgap
      | cons c gap => simp [hblank c mem_cons_self]
    have hdrop : (gap ++ className parts).dropWhile isBlank = className parts := by
      rw [dropWhile_append_of_pos hblank, hname,
        dropWhile_cons_of_neg (by simp [isBlank_of_isWord hd])]
    rw [text, matchPair, takeWhile_append_of_pos hnotblank,
      dropWhile_append_of_pos hnotblank, hstart.1, hstart.2, hdrop, append_nil]
    refine if_pos ⟨hloc, ?_, matchClass_className hparts hwords⟩
    exact fun hnil => hgap (append_eq_nil_iff.mp hnil).1

/-- The characters of a name. -/
theorem mem_className (h : Words parts) {c : Char} (hc : c ∈ className parts) :
    c = ':' ∨ isWord c := by
  induction parts with
  | nil => cases hc
  | cons word parts ih =>
    obtain ⟨-, hword⟩ := h word mem_cons_self
    cases parts with
    | nil =>
      rw [className, intercalate_singleton] at hc
      exact .inr (hword c hc)
    | cons next parts =>
      rw [className, intercalate_cons_cons] at hc
      rcases mem_append.mp hc with hfirst | hrest
      · rcases mem_append.mp hfirst with hmem | hsep
        · exact .inr (hword c hmem)
        · exact .inl (by simpa using hsep)
      · exact ih (fun other hother => h other (mem_cons_of_mem _ hother)) hrest

/-- A line has its end only behind it. -/
theorem newline_notMem_text {line : ListLine} (h : line.WellFormed) : '\n' ∉ line.text := by
  cases line with
  | note indent comment =>
    have hindent : '\n' ∉ indent := fun hmem => (h.1 _ hmem).2 rfl
    cases comment with
    | none => exact hindent
    | some comment => simp [text, hindent, h.2 comment rfl]
  | pair loc gap parts =>
    obtain ⟨⟨-, -, hloc⟩, ⟨-, hgap⟩, -, hwords⟩ := h
    have hname : '\n' ∉ className parts := by
      intro hmem
      rcases mem_className hwords hmem with hcolon | hword
      · exact absurd hcolon (by decide)
      · exact (ne_of_isWord hword).2.2 rfl
    simp only [text, mem_append, not_or]
    exact ⟨fun hmem => absurd (hloc _ hmem) (by decide), fun hmem => (hgap _ hmem).2 rfl, hname⟩

end ListLine

/-- A list file: its lines, and whether the last one has an end. -/
structure ListFile where
  lines : List ListLine
  ended : Bool
  wellFormed : ∀ line ∈ lines, line.WellFormed

/-- Lines with their ends. -/
def rawLines (lines : List ListLine) : List (List Char) := lines.map (·.text ++ ['\n'])

namespace ListFile

/-- The text of the file. -/
def text (f : ListFile) : List Char :=
  if f.ended then (rawLines f.lines).flatten else (rawLines f.lines).flatten.dropLast

end ListFile

theorem getlines_append (h : '\n' ∉ line) (rest : List Char) :
    getlines (line ++ '\n' :: rest) = (line ++ ['\n']) :: getlines rest := by
  induction line with
  | nil => simp [getlines]
  | cons c line ih =>
    rw [mem_cons, not_or] at h
    rw [cons_append, getlines, if_neg (Ne.symm h.1), ih h.2]
    rfl

theorem getlines_last (h : '\n' ∉ line) (hne : line ≠ []) : getlines line = [line] := by
  induction line with
  | nil => exact absurd rfl hne
  | cons c line ih =>
    rw [mem_cons, not_or] at h
    rw [getlines, if_neg (Ne.symm h.1)]
    cases line with
    | nil => rfl
    | cons d line => rw [ih h.2 (cons_ne_nil d line)]

/-- Behind whole lines, the lines of the rest are read. -/
theorem getlines_rawLines {lines : List ListLine} (h : ∀ line ∈ lines, line.WellFormed)
    (rest : List Char) :
    getlines ((rawLines lines).flatten ++ rest) = rawLines lines ++ getlines rest := by
  induction lines with
  | nil => rfl
  | cons line lines ih =>
    have hline := ListLine.newline_notMem_text (h line mem_cons_self)
    have hrest := ih fun other hother => h other (mem_cons_of_mem _ hother)
    rw [rawLines, map_cons, flatten_cons, append_assoc, append_assoc,
      singleton_append, getlines_append hline]
    exact congrArg _ hrest

theorem chomp_append (line : List Char) : chomp (line ++ ['\n']) = line := by
  simp [chomp]

theorem chomp_of_notMem (h : '\n' ∉ line) : chomp line = line := by
  rw [chomp, if_neg]
  exact fun hlast => h (mem_of_getLast? hlast)

theorem eq_note_of_text {line : ListLine} (hline : line.WellFormed) (h : line.text = []) :
    line = .note [] none := by
  cases line with
  | note indent comment =>
    cases comment with
    | none => rw [ListLine.text] at h; rw [h]
    | some comment => simp [ListLine.text] at h
  | pair loc gap parts =>
    rw [ListLine.text] at h
    exact absurd (append_eq_nil_iff.mp h).1 hline.1.1

/-- The lines that are read of a file: an empty rest behind the last end is none. -/
theorem exists_getlines (f : ListFile) :
    ∃ lines, List.Forall₂ (fun raw line => chomp raw = ListLine.text line) (getlines f.text) lines ∧
      (f.lines = lines ∨ f.lines = lines ++ [.note [] none]) := by
  have hraw : ∀ lines, List.Forall₂ (fun raw line => chomp raw = ListLine.text line)
      (rawLines lines) lines := by
    intro lines
    rw [rawLines, List.forall₂_map_left_iff, List.forall₂_same]
    exact fun line _ => chomp_append line.text
  obtain ⟨lines, ended, hwell⟩ := f
  cases ended with
  | true =>
    have hlines := getlines_rawLines hwell []
    rw [append_nil, getlines, append_nil] at hlines
    refine ⟨lines, ?_, .inl rfl⟩
    rw [ListFile.text, if_pos rfl, hlines]
    exact hraw lines
  | false =>
    rcases eq_nil_or_concat lines with rfl | ⟨init, line, hconcat⟩
    · exact ⟨[], .nil, .inl rfl⟩
    · rw [concat_eq_append] at hconcat
      subst hconcat
      have hinit : ∀ other ∈ init, other.WellFormed :=
        fun other hother => hwell other (mem_append_left _ hother)
      have hline := hwell line (by simp)
      have htext : ((rawLines (init ++ [line])).flatten).dropLast =
          (rawLines init).flatten ++ line.text := by
        simp [rawLines, ← append_assoc]
      rw [ListFile.text, if_neg Bool.false_ne_true, htext, getlines_rawLines hinit]
      by_cases hnil : line.text = []
      · refine ⟨init, ?_, .inr (congrArg (init ++ [·]) (eq_note_of_text hline hnil))⟩
        rw [hnil, getlines, append_nil]
        exact hraw init
      · refine ⟨init ++ [line], ?_, .inl rfl⟩
        have hnewline := ListLine.newline_notMem_text hline
        rw [getlines_last hnewline hnil]
        exact rel_append (hraw init) (.cons (chomp_of_notMem hnewline) .nil)

/-! ### Reading a whole file -/

namespace ListReader

variable {packages : Option (List (List Char))} {raw : List Char} {raws : List (List Char)}

theorem getNext_note {indent : List Char} {comment : Option (List Char)}
    (hchomp : chomp raw = (ListLine.note indent comment).text)
    (hline : (ListLine.note indent comment).WellFormed) (lineno : Nat) :
    getNext ⟨packages, raw :: raws, lineno⟩ = getNext ⟨packages, raws, lineno + 1⟩ := by
  rw [getNext, getNext, nextOf, hchomp, if_pos (ListLine.matchNote_note hline)]

/-- For a class, whether it is wanted is returned, and neither the location nor the class. -/
theorem getNext_pair {loc gap : List Char} {parts : List (List Char)}
    (hchomp : chomp raw = (ListLine.pair loc gap parts).text)
    (hline : (ListLine.pair loc gap parts).WellFormed) (lineno : Nat) :
    getNext ⟨packages, raw :: raws, lineno⟩ =
      .ok ([truth (wanted packages parts)], ⟨packages, raws, lineno + 1⟩) := by
  obtain ⟨hnote, hpair⟩ := ListLine.matchPair_pair hline
  rw [← checkPackage_className hline.2.2.2]
  simp only [getNext, nextOf, hchomp, hnote, hpair, Bool.false_eq_true, if_false]

/-- What the calls of `getNext` return for the lines of a file, in their order. -/
theorem readAll_raws {lines : List ListLine}
    (hraws : List.Forall₂ (fun raw line => chomp raw = ListLine.text line) raws lines)
    (h : ∀ line ∈ lines, line.WellFormed) (lineno : Nat) :
    Outcome.Returns (fun fuel => readAll fuel ⟨packages, raws, lineno⟩)
      (lines.filterMap (ListLine.answer packages)) := by
  induction hraws generalizing lineno with
  | nil => exact .of_succ_ok fun fuel => rfl
  | @cons raw line raws lines hchomp _ ih =>
    have hrest := ih (fun other hother => h other (mem_cons_of_mem _ hother)) (lineno + 1)
    have hline := h line mem_cons_self
    cases line with
    | note indent comment =>
      refine hrest.congr_succ fun fuel => ?_
      rw [readAll, readAll, getNext_note hchomp hline]
    | pair loc gap parts =>
      have hmore : Outcome.Returns (fun fuel =>
          readAll fuel ⟨packages, raws, lineno + 1⟩ >>= fun more =>
            .ok ([truth (wanted packages parts)] :: more))
          ([truth (wanted packages parts)] :: lines.filterMap (ListLine.answer packages)) :=
        hrest.bind (.ok _)
      refine hmore.of_succ fun fuel => ?_
      rw [readAll, getNext_pair hchomp hline]
      rfl

/-- The calls of `getNext` for a file come to its end. -/
theorem readAll_answers (packages : Option (List (List Char))) (f : ListFile) :
    Outcome.Returns (fun fuel => readAll fuel (new packages f.text))
      (f.lines.filterMap (ListLine.answer packages)) := by
  obtain ⟨lines, hraws, hlines⟩ := exists_getlines f
  have hwell : ∀ line ∈ lines, line.WellFormed := by
    intro line hline
    rcases hlines with heq | heq
    · exact f.wellFormed line (heq ▸ hline)
    · exact f.wellFormed line (heq ▸ mem_append_left _ hline)
  have hread : Outcome.Returns (fun fuel => readAll fuel (new packages f.text)) _ :=
    readAll_raws hraws hwell 0
  rcases hlines with heq | heq
  · rwa [heq]
  · rwa [heq, filterMap_append, filterMap_cons_none rfl, filterMap_nil,
      append_nil]

/-- Reading a file gives one answer for each class, and the pairs that are wanted exactly if the
file has no class at all. -/
theorem readAll_wantedPairs_iff (packages : Option (List (List Char))) (f : ListFile) :
    Outcome.Returns (fun fuel => readAll fuel (new packages f.text))
        (f.lines.filterMap (ListLine.answer packages)) ∧
      (Outcome.Returns (fun fuel => readAll fuel (new packages f.text))
          (f.lines.filterMap (ListLine.wantedPair packages)) ↔
        ∀ line ∈ f.lines, ∃ indent comment, line = .note indent comment) := by
  have hread := readAll_answers packages f
  refine ⟨hread, ?_, ?_⟩
  · intro hpairs line hline
    cases line with
    | note indent comment => exact ⟨indent, comment, rfl⟩
    | pair loc gap parts =>
      have hmem : [truth (wanted packages parts)] ∈ f.lines.filterMap (ListLine.answer packages) :=
        mem_filterMap.mpr ⟨_, hline, rfl⟩
      rw [hread.unique hpairs, mem_filterMap] at hmem
      obtain ⟨other, -, hother⟩ := hmem
      cases other with
      | note indent comment => cases hother
      | pair loc gap parts =>
        rw [ListLine.wantedPair] at hother
        split at hother <;> cases hother
  · intro hnotes
    convert hread using 1
    refine filterMap_congr fun line hline => ?_
    obtain ⟨indent, comment, rfl⟩ := hnotes line hline
    rfl

/-- A file with one class, in the package that is asked for. -/
def serverList : ListFile where
  lines := [.pair "lib".toList [' '] ["net".toList, "Server".toList]]
  ended := true
  wellFormed := by
    intro line hline
    rw [List.mem_singleton] at hline
    subst hline
    refine ⟨⟨?_, ?_, ?_⟩, ⟨?_, ?_⟩, ?_, ?_⟩ <;> decide

/-- The class of the file is wanted, but the first call returns something else. -/
theorem serverList_not_read :
    serverList.text = "lib net::Server\n".toList ∧
      ¬ Outcome.Returns (fun fuel => readAll fuel (new (some ["net".toList]) serverList.text))
        [["lib".toList, "net::Server".toList]] := by
  refine ⟨by decide, fun hread => ?_⟩
  have heq := (readAll_answers (some ["net".toList]) serverList).unique hread
  exact absurd heq (by decide)

end ListReader

end GenmapReader

end Drt
