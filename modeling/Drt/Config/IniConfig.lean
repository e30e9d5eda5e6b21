import Drt.Core.Struct.THash
import Drt.Core.Types.Number
import Drt.Core.Types.StringViews
import Drt.Io.Stream.StreamAhead

/-!
# Ini files

`IniConfig` reads a file line by line into a hash of sections. The `String` made from the
octets of a line ends before the first zero. A section is known by its name, where the
source has a pointer to its hash.
-/

open List

namespace Drt

open BString Finmap

/-- The field of `IniConfig`. -/
structure IniConfig where
  values : THash Blob (THash Blob Blob)

def trimSpaces (line : Blob) : Blob := ((line.dropWhile isspace).reverse.dropWhile isspace).reverse

namespace StringData

/-- The octets of the string that a string is equal to, by `beq`, if it is equal to one of octets
below 128: no other octets come into question. -/
def asciiKey (s : StringData) : Option Blob :=
  if ((ofOctets s.views.octets).beq s).1 then some s.views.octets else none

end StringData

/-- `accValue` of a hash whose keys are made of octets below 128. A null string has a hash value of
its own, and is none of the keys. A key may get wide characters when it is compared, the ones that
are made of its octets. -/
def THash.accValue {ν : Type} (h : THash Blob ν) (key : Option StringData) : Option ν :=
  key.bind StringData.asciiKey |>.bind h.lookup

namespace IniConfig

universe v

variable {ε : Type v}

/-- `section = values[name]`, with a new hash where there was none. -/
def openSection (c : IniConfig) (name : Blob) : Outcome ε IniConfig :=
  if name ∈ c.values then .ok c
  else do
    let values ← c.values.set name ∅
    .ok ⟨values⟩

/-- `(*section)[key] = value`. -/
def assign (c : IniConfig) (sec key value : Blob) : Outcome ε IniConfig := do
  let h ← Outcome.ofOption (c.values.lookup sec)
  let h ← h.set key value
  .ok ⟨c.values.insert sec h⟩

/-- The end of a pass: `key = value`. -/
def parseAssign (c : IniConfig) (sec line : Blob) : Outcome ε (IniConfig × Blob) :=
  match BString.findChar line 61 0 with
  | none => .ok (c, sec)
  | some p => do
    let c ← c.assign sec (trimSpaces (line.take p)) (trimSpaces (line.drop (p + 1)))
    .ok (c, sec)

/-- The start of a pass: the comment is removed. -/
def removeComment (line : Blob) : Blob :=
  match BString.findChar line 35 0 with
  | none => line
  | some p => line.take p

/-- One pass of the loop of `initialize`: the line, and the section it stands in. -/
def parseLine (c : IniConfig) (sec line : Blob) : Outcome ε (IniConfig × Blob) :=
  let line := trimSpaces (removeComment line)
  if line.length = 0 then .ok (c, sec)
  else if (line)[0]? = some 91 then
    match BString.findChar line 93 0 with
    | none => c.parseAssign sec line
    | some e => do
      let line := (line.drop 1).take (e - 1)
      let name := line.takeWhile (· ≠ 0)
      let c ← c.openSection name
      .ok (c, name)
  else c.parseAssign sec line

/-- The loop of `initialize`. -/
def readLines : Nat → StreamBuffer → IniConfig → Blob → StreamCall IniConfig
  | 0, _, _, _ => .outOfFuel
  | fuel + 1, stream, c, sec => do
    match ← stream.tryReadLine fuel with
    | (none, _) => .ok c
    | (some line, stream) =>
      let (c, sec) ← c.parseLine sec line
      readLines fuel stream c sec

/-- `initialize`, a keyword of Lean. -/
def doInitialize (fuel : Nat) (stream : StreamBuffer) : StreamCall IniConfig := do
  let c ← openSection ⟨∅⟩ []
  readLines fuel stream c []

/-- `getValue(section, key, default_val)`, from the first pass on. -/
def getValue (c : IniConfig) (key : Option StringData) (default_val : Option DrString) :
    Nat → Option StringData → Call (Option DrString)
  | 0, _ => .outOfFuel
  | fuel + 1, partial_sec =>
    match (c.values.accValue partial_sec).bind fun s => s.accValue key with
    | some v => .ok (some (.bytes v))
    | none =>
      -- `find` and `mid` leave these octets in the data of the caller
      let octets := (partial_sec.map fun s => s.views.octets).getD []
      if octets.length = 0 then .ok default_val
      else
        match BString.findChar octets 47 0 with
        | none => getValue c key default_val fuel (some .zero)
        | some p => getValue c key default_val fuel (some (.ofOctets (octets.drop (p + 1))))

end IniConfig

/-! ### The lines of an ini file

What an ini file says, line by line, and that `IniConfig` reads just this, as long as there
are nodes for all sections and keys. -/

open Outcome

/-- What a line says. -/
inductive IniLine where
  | nothing
  | opens (name : Blob)
  | assigns (key value : Blob)
  deriving DecidableEq, Repr

namespace IniLine

/-- A line up to its comment, without the blanks around it. -/
def text (line : Blob) : Blob := trimSpaces (line.takeWhile (· ≠ 35))

/-- The name in brackets at the start of a text. -/
def sectionName : Blob → Option Blob
  | [] => none
  | c :: rest => if c = 91 ∧ 93 ∈ rest then some (rest.takeWhile (· ≠ 93)) else none

/-- A key and its value, on the two sides of the first "=". -/
def assignment (text : Blob) : IniLine :=
  if 61 ∈ text then
    assigns (trimSpaces (text.takeWhile (· ≠ 61))) (trimSpaces (text.dropWhile (· ≠ 61)).tail)
  else nothing

/-- The meaning of a line. -/
def read (line : Blob) : IniLine :=
  match sectionName (text line) with
  | some name => opens name
  | none => assignment (text line)

end IniLine

/-- The sections of an ini file up to some line, and the section that the next line is in. -/
structure IniText where
  sections : THash Blob (THash Blob Blob)
  current : Blob

namespace IniText

/-- Before the first line there is the section without a name. -/
def start : IniText := ⟨Finmap.singleton [] ∅, []⟩

/-- The sections after one more line. A section that was there goes on, and the last value of a key
counts. -/
def step (t : IniText) : IniLine → IniText
  | .nothing => t
  | .opens name => ⟨if name ∈ t.sections then t.sections else t.sections.insert name ∅, name⟩
  | .assigns key value =>
    { t with
      sections := t.sections.insert t.current
        (((t.sections.lookup t.current).getD ∅).insert key value) }

/-- The sections of a file. -/
def meaning (content : Blob) : THash Blob (THash Blob Blob) :=
  (((content.splitOn 10).map IniLine.read).foldl step start).sections

/-- There are nodes for all sections, and for the keys of each. -/
def SectionsFit (sections : THash Blob (THash Blob Blob)) : Prop :=
  THash.Fits sections ∧ ∀ name h, sections.lookup name = some h → THash.Fits h

end IniText

section Characters

variable {c : UInt8} {line pre rest : Blob}

theorem takeWhile_ne (hpre : c ∉ pre) : (pre ++ c :: rest).takeWhile (· ≠ c) = pre := by
  have hall : ∀ x ∈ pre, (decide (x ≠ c)) = true := fun x hx =>
    decide_eq_true fun heq => hpre (heq ▸ hx)
  rw [takeWhile_append_of_pos hall]
  simp

theorem dropWhile_ne (hpre : c ∉ pre) : (pre ++ c :: rest).dropWhile (· ≠ c) = c :: rest := by
  have hall : ∀ x ∈ pre, (decide (x ≠ c)) = true := fun x hx =>
    decide_eq_true fun heq => hpre (heq ▸ hx)
  rw [dropWhile_append_of_pos hall]
  simp

theorem takeWhile_ne_self (hline : c ∉ line) : line.takeWhile (· ≠ c) = line :=
  takeWhile_eq_self_iff.mpr fun _ hx => decide_eq_true fun heq => hline (heq ▸ hx)

theorem findChar_split (hmem : c ∈ line) :
    ∃ pre rest, line = pre ++ c :: rest ∧ c ∉ pre ∧
      findChar line c 0 = some pre.length := by
  obtain ⟨pre, rest, rfl, hpre⟩ := eq_append_cons_of_mem hmem
  exact ⟨pre, rest, rfl, hpre, findChar_eq hpre (Nat.zero_le _)⟩

/-- The newline at the end of a line makes no difference. -/
theorem IniLine.text_newline (line : Blob) : text (line ++ [10]) = text line := by
  have hblank : ∀ b : Blob, trimSpaces (b ++ [10]) = trimSpaces b := fun b => by
    unfold trimSpaces
    by_cases hall : ∀ x ∈ b, isspace x = true
    · rw [dropWhile_append_of_pos hall, dropWhile_eq_nil_iff.mpr hall]
      rfl
    · have hne : b.dropWhile isspace ≠ [] := fun h => hall (dropWhile_eq_nil_iff.mp h)
      rw [dropWhile_append, if_neg (by simpa using hne), reverse_append]
      rfl
  unfold text
  by_cases hmem : (35 : UInt8) ∈ line
  · obtain ⟨pre, rest, rfl, hpre⟩ := eq_append_cons_of_mem hmem
    rw [append_assoc, cons_append, takeWhile_ne hpre, takeWhile_ne hpre]
  · rw [takeWhile_ne_self hmem, takeWhile_ne_self (by simpa using hmem), hblank]

end Characters

namespace IniConfig

universe v

variable {ε : Type v} {c : IniConfig} {sec : Blob}

/-- What is done for a line with this meaning. -/
def perform (c : IniConfig) (sec : Blob) : IniLine → Outcome ε (IniConfig × Blob)
  | .nothing => .ok (c, sec)
  | .opens name => c.openSection name >>= fun c => .ok (c, name)
  | .assigns key value => c.assign sec key value >>= fun c => .ok (c, sec)

theorem parseAssign_eq (text : Blob) :
    (c.parseAssign sec text : Outcome ε (IniConfig × Blob)) =
      c.perform sec (IniLine.assignment text) := by
  unfold parseAssign IniLine.assignment
  by_cases hmem : (61 : UInt8) ∈ text
  · obtain ⟨pre, rest, rfl, hpre, hfind⟩ := findChar_split hmem
    rw [hfind, if_pos hmem, takeWhile_ne hpre, dropWhile_ne hpre]
    simp only [take_left', tail_cons]
    rw [drop_append, drop_of_length_le (by omega)]
    simp [perform]
  · rw [findChar_none hmem, if_neg hmem]
    rfl

theorem text_eq (line : Blob) : trimSpaces (removeComment line) = IniLine.text line := by
  unfold removeComment IniLine.text
  by_cases hmem : (35 : UInt8) ∈ line
  · obtain ⟨pre, rest, rfl, hpre, hfind⟩ := findChar_split hmem
    rw [hfind, takeWhile_ne hpre]
    simp
  · rw [findChar_none hmem, takeWhile_ne_self hmem]

theorem mem_trimSpaces {text : Blob} {x : UInt8} (hx : x ∈ trimSpaces text) : x ∈ text := by
  unfold trimSpaces at hx
  rw [mem_reverse] at hx
  exact (dropWhile_suffix _).mem (mem_reverse.mp ((dropWhile_suffix _).mem hx))

/-- The characters of a text are characters of its line, and none of them starts a comment. -/
theorem mem_text {line : Blob} {x : UInt8} (hx : x ∈ IniLine.text line) : x ∈ line ∧ x ≠ 35 := by
  have hfront := mem_trimSpaces hx
  have hne := mem_takeWhile_imp hfront
  exact ⟨(List.takeWhile_prefix _).mem hfront, by simpa using hne⟩

/-- One pass does what the line says. -/
theorem parseLine_eq {line : Blob} (hzero : 0 ∉ line) :
    (c.parseLine sec line : Outcome ε (IniConfig × Blob)) =
      c.perform sec (IniLine.read line) := by
  unfold parseLine IniLine.read
  rw [text_eq]
  have hzero' : 0 ∉ IniLine.text line := fun hmem => hzero (mem_text hmem).1
  generalize IniLine.text line = text at hzero'
  cases text with
  | nil => rfl
  | cons a rest =>
    rw [if_neg (by simp), IniLine.sectionName]
    by_cases hbracket : a = 91
    · subst hbracket
      rw [List.getElem?_cons_zero, if_pos rfl]
      by_cases hmem : (93 : UInt8) ∈ rest
      · obtain ⟨name, behind, rfl, hname⟩ := eq_append_cons_of_mem hmem
        have hpre : (93 : UInt8) ∉ 91 :: name := by
          rw [mem_cons, not_or]
          exact ⟨by decide, hname⟩
        have hfind : findChar (91 :: (name ++ 93 :: behind)) 93 0 =
            some (91 :: name).length := findChar_eq hpre (Nat.zero_le _)
        have hnozero : 0 ∉ name := fun hin => hzero' (by simp [hin])
        rw [hfind, if_pos ⟨rfl, hmem⟩, takeWhile_ne hname]
        simp only [drop_succ_cons, drop_zero, length_cons, Nat.add_sub_cancel,
          take_left, takeWhile_ne_self hnozero, perform]
      · have hnone : findChar (91 :: rest) 93 0 = none :=
          findChar_none (by simp [hmem]) 0
        rw [hnone, if_neg fun h => hmem h.2]
        exact parseAssign_eq _
    · rw [List.getElem?_cons_zero, if_neg fun h => hbracket (Option.some.inj h),
        if_neg fun h => hbracket h.1]
      exact parseAssign_eq _

end IniConfig

namespace IniText

variable {sections : THash Blob (THash Blob Blob)} {t : IniText}

/-- One more section, or another content of one. -/
theorem sectionsFit_insert (hfits : SectionsFit sections) {name : Blob} {h : THash Blob Blob} :
    SectionsFit (sections.insert name h) ↔
      THash.Fits (sections.insert name h) ∧ THash.Fits h := by
  constructor
  · intro hnew
    exact ⟨hnew.1, hnew.2 name h (lookup_insert sections)⟩
  · rintro ⟨hnames, hkeys⟩
    refine ⟨hnames, fun name' h' hlookup => ?_⟩
    by_cases heq : name' = name
    · subst heq
      rw [lookup_insert] at hlookup
      obtain rfl := Option.some.inj hlookup
      exact hkeys
    · rw [lookup_insert_of_ne sections heq] at hlookup
      exact hfits.2 name' h' hlookup

theorem current_step (hcurrent : t.current ∈ t.sections) (l : IniLine) :
    (t.step l).current ∈ (t.step l).sections := by
  cases l with
  | nothing => exact hcurrent
  | opens name =>
    simp only [step]
    split_ifs with hmem
    · exact hmem
    · exact mem_insert.mpr (.inl rfl)
  | assigns key value => exact mem_insert.mpr (.inl rfl)

/-- What fits after a line fits before it. -/
theorem SectionsFit.of_step {l : IniLine} (hfits : SectionsFit (t.step l).sections) :
    SectionsFit t.sections := by
  cases l with
  | nothing => exact hfits
  | opens name =>
    simp only [step] at hfits
    split_ifs at hfits with hmem
    · exact hfits
    · refine ⟨hfits.1.of_insert, fun name' h hlookup => hfits.2 name' h ?_⟩
      have hne : name' ≠ name := fun heq =>
        hmem (heq ▸ mem_of_lookup_eq_some hlookup)
      rw [lookup_insert_of_ne _ hne]
      exact hlookup
  | assigns key value =>
    simp only [step] at hfits
    refine ⟨hfits.1.of_insert, fun name' h hlookup => ?_⟩
    by_cases heq : name' = t.current
    · subst heq
      have hkeys := hfits.2 t.current _ (lookup_insert t.sections)
      rw [hlookup] at hkeys
      exact hkeys.of_insert
    · refine hfits.2 name' h ?_
      rw [lookup_insert_of_ne _ heq]
      exact hlookup

theorem SectionsFit.of_foldl {ls : List IniLine} (hfits : SectionsFit (ls.foldl step t).sections) :
    SectionsFit t.sections := by
  induction ls generalizing t with
  | nil => exact hfits
  | cons l ls ih => exact (ih hfits).of_step

end IniText

namespace IniConfig

open IniText

universe v

variable {t : IniText}

/-- What is done for a line gives the sections that the line leads to, unless there is no node. -/
theorem perform_step (ε : Type v) (hcurrent : t.current ∈ t.sections)
    (hfits : SectionsFit t.sections) (l : IniLine) :
    (SectionsFit (t.step l).sections → (perform ⟨t.sections⟩ t.current l : Outcome ε _) =
      .ok (⟨(t.step l).sections⟩, (t.step l).current)) ∧
    (¬ SectionsFit (t.step l).sections →
      (perform ⟨t.sections⟩ t.current l : Outcome ε _) = .outOfFuel) := by
  cases l with
  | nothing => exact ⟨fun _ => rfl, fun hnot => absurd hfits hnot⟩
  | opens name =>
    simp only [perform, openSection, step]
    by_cases hmem : name ∈ t.sections
    · rw [if_pos hmem, if_pos hmem]
      exact ⟨fun _ => rfl, fun hnot => absurd hfits hnot⟩
    · rw [if_neg hmem, if_neg hmem, sectionsFit_insert hfits, THash.set_eq hfits.1]
      have hempty : THash.Fits (∅ : THash Blob Blob) := Nat.zero_le _
      refine ⟨fun hnew => ?_, fun hnot => ?_⟩
      · rw [if_pos hnew.1]
        rfl
      · rw [if_neg fun hnew => hnot ⟨hnew, hempty⟩]
        rfl
  | assigns key value =>
    obtain ⟨h, hlookup⟩ := mem_iff.mp hcurrent
    have hnames : THash.Fits (t.sections.insert t.current (h.insert key value)) :=
      (THash.fits_insert_iff hfits.1).mpr (.inl hcurrent)
    simp only [perform, assign, step, hlookup, Option.getD_some, ofOption_some, ok_bind]
    rw [sectionsFit_insert hfits, THash.set_eq (hfits.2 _ h hlookup)]
    refine ⟨fun hnew => ?_, fun hnot => ?_⟩
    · rw [if_pos hnew.2]
      rfl
    · rw [if_neg fun hnew => hnot ⟨hnames, hnew⟩]
      rfl

/-- The run comes to these sections, or to no end if there are not enough nodes. -/
def ComesTo (run : Nat → StreamCall IniConfig) (sections : THash Blob (THash Blob Blob)) : Prop :=
  (SectionsFit sections → Returns run ⟨sections⟩) ∧ (¬ SectionsFit sections → Diverges run)

variable {stream : StreamBuffer} {content : Blob}

/-- One pass of the loop. -/
theorem readLines_pass {next : StreamBuffer} {line : Blob}
    (hline : Returns (fun fuel => stream.tryReadLine fuel) (some line, next)) (hzero : 0 ∉ line)
    (hcurrent : t.current ∈ t.sections) (hfits : SectionsFit t.sections)
    {final : THash Blob (THash Blob Blob)}
    (hmono : SectionsFit final → SectionsFit (t.step (IniLine.read line)).sections)
    (hrest : SectionsFit (t.step (IniLine.read line)).sections →
      ComesTo (fun fuel => readLines fuel next ⟨(t.step (IniLine.read line)).sections⟩
        (t.step (IniLine.read line)).current) final) :
    ComesTo (fun fuel => readLines fuel stream ⟨t.sections⟩ t.current) final := by
  have hpass : ∀ fuel, readLines (fuel + 1) stream ⟨t.sections⟩ t.current =
      stream.tryReadLine fuel >>= _ := fun fuel => rfl
  obtain ⟨hdone, hstuck⟩ :=
    perform_step (Exception × StreamBuffer) hcurrent hfits (IniLine.read line)
  rw [← parseLine_eq hzero] at hdone hstuck
  by_cases hstep : SectionsFit (t.step (IniLine.read line)).sections
  · obtain ⟨hreturns, hdiverges⟩ := hrest hstep
    refine ⟨fun hfinal => ?_, fun hfinal => ?_⟩
    · refine (hline.bind ?_).of_succ hpass
      simp only [hdone hstep, ok_bind]
      exact hreturns hfinal
    · refine (Diverges.after hline ?_).of_succ hpass
      simp only [hdone hstep, ok_bind]
      exact hdiverges hfinal
  · refine ⟨fun hfinal => absurd (hmono hfinal) hstep, fun _ => ?_⟩
    refine (Diverges.after hline ?_).of_succ hpass
    simp only [hstuck hstep, outOfFuel_bind]
    exact Diverges.of_ne fun _ _ heq => by cases heq

theorem readLines_end (h : stream.Holds []) (hfits : SectionsFit t.sections) :
    ComesTo (fun fuel => readLines fuel stream ⟨t.sections⟩ t.current) t.sections := by
  obtain ⟨next, hline⟩ := StreamBuffer.tryReadLine_end h
  have hpass : ∀ fuel, readLines (fuel + 1) stream ⟨t.sections⟩ t.current =
      stream.tryReadLine fuel >>= _ := fun fuel => rfl
  refine ⟨fun _ => ?_, fun hnot => absurd hfits hnot⟩
  refine (hline.bind ?_).of_succ hpass
  exact Returns.of_eq fun _ => rfl

/-- The loop goes through the lines that lie ahead. -/
theorem readLines_content (h : stream.Holds content) (hzero : 0 ∉ content)
    (hcurrent : t.current ∈ t.sections) (hfits : SectionsFit t.sections) :
    ComesTo (fun fuel => readLines fuel stream ⟨t.sections⟩ t.current)
      (((content.splitOn 10).map IniLine.read).foldl step t).sections := by
  induction hn : content.length using Nat.strongRecOn generalizing stream content t with
  | ind n ih =>
    by_cases hmem : (10 : UInt8) ∈ content
    · obtain ⟨line, rest, rfl, hline⟩ := eq_append_cons_of_mem hmem
      have hlinezero : 0 ∉ line ++ [10] := fun hin => hzero (by
        rcases mem_append.mp hin with hin | hin
        · exact mem_append_left _ hin
        · exact absurd (mem_singleton.mp hin) (by decide))
      have hread : IniLine.read (line ++ [10]) = IniLine.read line := by
        rw [IniLine.read, IniLine.text_newline, IniLine.read]
      obtain ⟨next, hfound, hnext⟩ := StreamBuffer.tryReadLine_line h hline
      rw [splitOn_append_cons_self_of_not_mem hline, map_cons, foldl_cons]
      refine readLines_pass hfound hlinezero hcurrent hfits ?_ ?_
      · rw [hread]
        exact fun hfinal => hfinal.of_foldl
      · rw [hread]
        exact fun hstep => ih rest.length (by rw [← hn, length_append, length_cons]; omega)
          hnext (fun hin => hzero (by simp [hin])) (current_step hcurrent _) hstep rfl
    · rw [splitOn_eq_singleton hmem, map_singleton, foldl_cons, foldl_nil]
      by_cases hnil : content = []
      · subst hnil
        exact readLines_end h hfits
      · obtain ⟨next, hfound, hnext⟩ := StreamBuffer.tryReadLine_last h hmem hnil
        exact readLines_pass hfound hzero hcurrent hfits id fun hstep => readLines_end hnext hstep

theorem sectionsFit_start : SectionsFit start.sections := by
  refine ⟨?_, fun name h hlookup => ?_⟩
  · rw [start, THash.Fits, keys_singleton, Finset.card_singleton]
    decide
  · have hname : name = [] := (mem_singleton _ _ _).mp (mem_of_lookup_eq_some hlookup)
    rw [start, hname, lookup_singleton_eq] at hlookup
    obtain rfl := Option.some.inj hlookup
    exact Nat.zero_le _

/-- `initialize` comes to what the file says. -/
theorem doInitialize_content (h : stream.Holds content) (hzero : 0 ∉ content) :
    ComesTo (fun fuel => doInitialize fuel stream) (meaning content) := by
  have hopen : (openSection ⟨∅⟩ [] : StreamCall IniConfig) = .ok ⟨start.sections⟩ := by
    have hfits : THash.Fits (insert [] ∅ (∅ : THash Blob (THash Blob Blob))) :=
      sectionsFit_start.1
    rw [openSection, if_neg notMem_empty, THash.set_eq (Nat.zero_le _), if_pos hfits]
    rfl
  have hcurrent : start.current ∈ start.sections := (mem_singleton _ _ _).mpr rfl
  obtain ⟨hreturns, hdiverges⟩ := readLines_content h hzero hcurrent sectionsFit_start
  have hcall : ∀ fuel, doInitialize fuel stream =
      readLines fuel stream ⟨start.sections⟩ start.current := fun fuel => by
    rw [doInitialize, hopen, ok_bind]
    rfl
  exact ⟨fun hfits => (hreturns hfits).congr hcall, fun hfits => (hdiverges hfits).congr hcall⟩

/-- `initialize` returns the sections of a file exactly when there are nodes for them. -/
theorem doInitialize_iff (schedule : Schedule) (hzero : 0 ∉ content) :
    Returns (fun fuel => doInitialize fuel (.new (.fresh schedule content)))
      ⟨meaning content⟩ ↔ SectionsFit (meaning content) := by
  obtain ⟨hreturns, hdiverges⟩ :=
    doInitialize_content (StreamBuffer.holds_new schedule content) hzero
  refine ⟨fun h => ?_, hreturns⟩
  by_contra hfits
  exact (hdiverges hfits).not_returns h

end IniConfig

end Drt
