import Drt.Util.GenmapReader

/-!
# Reading indented pairs

A file of pairs has one on each line, with as many tabs before it as it is deep. The levelers of all
depths share one pending line, which is consumed only by the leveler of its own depth: a shallower
line is left for a leveler further up, and a deeper one is an error.
-/

open List

namespace Drt

open Outcome GenmapReader

/-- `dr::IndentReader`. -/
structure IndentReader where
  /-- The lines of `fd` that are still to be read, with their ends. -/
  fd : List (List Char)
  lineno : Nat
  pending : Option (List Char)
  deriving DecidableEq, Repr

/-- A forest of nodes, as its first node with the children of that, and the other ones. -/
inductive Forest (α : Type) where
  | nil
  | node (entry : α) (children siblings : Forest α)
  deriving DecidableEq, Repr

namespace IndentReader

/-- A key and a value. -/
abbrev Pair := List Char × List Char

/-- `new`, of a file with this text. -/
def new (text : List Char) : IndentReader := ⟨getlines text, 0, none⟩

def cacheLine (r : IndentReader) : Option (List Char) × IndentReader :=
  match r.pending with
  | some line => (some line, r)
  | none =>
    match r.fd with
    | [] => (none, r)
    | line :: more => (some line, ⟨more, r.lineno + 1, some line⟩)

def resetLine (r : IndentReader) : IndentReader := { r with pending := none }

/-- `m/^(\t*)(\w+)\s+(.*)$/`, with the number of the tabs. All parts are as long as they can be: what
comes behind each one cannot belong to it. -/
def matchLine (line : List Char) : Option (Nat × Pair) :=
  let tabs := line.takeWhile (· = '\t')
  let word := line.dropWhile (· = '\t')
  let key := word.takeWhile isWord
  let gap := word.dropWhile isWord
  let text := gap.dropWhile isBlank
  let value := text.takeWhile (· ≠ '\n')
  let behind := text.dropWhile (· ≠ '\n')
  if key ≠ [] ∧ gap.head?.any isBlank ∧ (behind = [] ∨ behind = ['\n']) then
    some (tabs.length, key, value)
  else none

/-- `getPair` of a leveler. -/
def getPair (level : Nat) (r : IndentReader) : Outcome String (Option Pair × IndentReader) :=
  match r.cacheLine with
  | (none, r) => .ok (none, r)
  | (some line, r) =>
    match matchLine line with
    | none => .raise ("invalid format: " ++ String.ofList line)
    | some (depth, pair) =>
      if depth < level then .ok (none, r)
      else if level < depth then .raise "sub level not read"
      else .ok (some pair, r.resetLine)

/-- `skipRecursive` of a leveler. -/
def skipRecursive : Nat → Nat → IndentReader → Outcome String IndentReader
  | 0, _, _ => .outOfFuel
  | fuel + 1, level, r => do
    let (pair, r) ← r.getPair level
    match pair with
    | none => .ok r
    | some _ => do
      let r ← skipRecursive fuel (level + 1) r
      skipRecursive fuel level r

/-- A reader that goes through all the pairs of a leveler, with `getSubLeveler` after each one. -/
def readForest : Nat → Nat → IndentReader → Outcome String (Forest Pair × IndentReader)
  | 0, _, _ => .outOfFuel
  | fuel + 1, level, r => do
    let (pair, r) ← r.getPair level
    match pair with
    | none => .ok (.nil, r)
    | some pair => do
      let (children, r) ← readForest fuel (level + 1) r
      let (siblings, r) ← readForest fuel level r
      .ok (.node pair children siblings, r)

/-- The lines from the pending one on. -/
def remaining (r : IndentReader) : List (List Char) := r.pending.toList ++ r.fd

end IndentReader

/-! ### Files of pairs -/

namespace IndentReader

/-- A pair with what is between its parts. -/
structure PairLine where
  key : List Char
  gap : List Char
  value : List Char
  key_ne : key ≠ []
  key_word : ∀ c ∈ key, isWord c
  gap_ne : gap ≠ []
  gap_blank : ∀ c ∈ gap, isBlank c ∧ c ≠ '\n'
  value_line : '\n' ∉ value
  value_start : ∀ c, value.head? = some c → isBlank c = false

namespace PairLine

def pair (e : PairLine) : Pair := (e.key, e.value)

/-- The line of an entry, without its end. -/
def text (e : PairLine) (level : Nat) : List Char :=
  List.replicate level '\t' ++ (e.key ++ (e.gap ++ e.value))

end PairLine

end IndentReader

open IndentReader

namespace Forest

variable {α β : Type}

def map (f : α → β) : Forest α → Forest β
  | nil => nil
  | node entry children siblings => node (f entry) (children.map f) (siblings.map f)

/-- The lines of a forest, one for each node, with the level in tabs. -/
def lines (level : Nat) : Forest PairLine → List (List Char)
  | nil => []
  | node entry children siblings =>
    (entry.text level ++ ['\n']) :: (children.lines (level + 1) ++ siblings.lines level)

/-- The text of a file. -/
def text (forest : Forest PairLine) : List Char := (forest.lines 0).flatten

end Forest

namespace IndentReader

/-! ### One line -/

namespace PairLine

variable (e : PairLine) (level : Nat)

theorem key_head : ∃ c key, e.key = c :: key ∧ isWord c := by
  obtain ⟨c, key, hkey⟩ := exists_cons_of_ne_nil e.key_ne
  exact ⟨c, key, hkey, e.key_word c (by simp [hkey])⟩

theorem gap_head : ∃ c gap, e.gap = c :: gap ∧ isBlank c := by
  obtain ⟨c, gap, hgap⟩ := exists_cons_of_ne_nil e.gap_ne
  exact ⟨c, gap, hgap, (e.gap_blank c (by simp [hgap])).1⟩

theorem newline_notMem_text : '\n' ∉ e.text level := by
  have hkey : '\n' ∉ e.key := fun hmem => absurd (e.key_word _ hmem) (by decide)
  have hgap : '\n' ∉ e.gap := fun hmem => (e.gap_blank _ hmem).2 rfl
  simp [text, hkey, hgap, e.value_line, mem_replicate]

/-- The parts of a line that are matched are those of the entry. -/
theorem matchLine_text : matchLine (e.text level ++ ['\n']) = some (level, e.pair) := by
  obtain ⟨c, key, hkey, hc⟩ := e.key_head
  obtain ⟨b, gap, hgap, hb⟩ := e.gap_head
  have hbword : isWord b = false := by
    by_contra hword
    rw [isBlank_of_isWord (by simpa using hword)] at hb
    cases hb
  have htab : ¬ (c = '\t') := by
    rintro rfl
    exact absurd hc (by decide)
  have hall : ∀ t ∈ List.replicate level '\t', decide (t = '\t') = true := fun t ht => by
    simp [eq_of_mem_replicate ht]
  have hblank : ∀ t ∈ e.gap, isBlank t = true := fun t ht => (e.gap_blank t ht).1
  have hline : ∀ t ∈ e.value, decide (t ≠ '\n') = true := by
    intro t ht
    rw [decide_eq_true_iff]
    rintro rfl
    exact e.value_line ht
  -- What is behind each part does not go on with it.
  have hvalue : (e.value ++ ['\n']).dropWhile isBlank = e.value ++ ['\n'] ∨
      e.value = [] ∧ (e.value ++ ['\n']).dropWhile isBlank = [] := by
    cases hv : e.value with
    | nil => exact .inr ⟨rfl, rfl⟩
    | cons v value =>
      have hv := e.value_start v (by simp [hv])
      exact .inl (by simp [hv])
  have htabs : e.text level ++ ['\n'] =
      List.replicate level '\t' ++ (c :: (key ++ (e.gap ++ (e.value ++ ['\n'])))) := by
    simp [text, hkey]
  have hword : c :: (key ++ (e.gap ++ (e.value ++ ['\n']))) =
      e.key ++ (b :: (gap ++ (e.value ++ ['\n']))) := by simp [hkey, hgap]
  have hgaps : b :: (gap ++ (e.value ++ ['\n'])) = e.gap ++ (e.value ++ ['\n']) := by
    simp [hgap]
  simp only [matchLine]
  rw [htabs, takeWhile_append_of_pos hall, dropWhile_append_of_pos hall,
    takeWhile_cons_of_neg (by simpa using htab), dropWhile_cons_of_neg (by simpa using htab),
    hword, takeWhile_append_of_pos e.key_word, dropWhile_append_of_pos e.key_word,
    takeWhile_cons_of_neg (by simp [hbword]), dropWhile_cons_of_neg (by simp [hbword]),
    hgaps, dropWhile_append_of_pos hblank]
  rcases hvalue with hvalue | ⟨hnil, hvalue⟩
  · rw [hvalue, takeWhile_append_of_pos hline, dropWhile_append_of_pos hline]
    simp [hgap, hb, e.key_ne, pair]
  · rw [hvalue]
    simp [hgap, hb, e.key_ne, pair, hnil]

end PairLine

/-! ### Levelers -/

variable {r r' : IndentReader} {line : List Char} {rest : List (List Char)} {level depth : Nat}
  {pair : Pair}

theorem cacheLine_nil (h : r.remaining = []) : r.cacheLine = (none, r) := by
  obtain ⟨hpending, hfd⟩ := append_eq_nil_iff.mp h
  have hnone : r.pending = none := by simpa using hpending
  rw [cacheLine, hnone, hfd]

theorem cacheLine_cons (h : r.remaining = line :: rest) :
    ∃ r', r.cacheLine = (some line, r') ∧ r'.pending = some line ∧ r'.fd = rest := by
  unfold cacheLine
  cases hpending : r.pending with
  | some cached =>
    rw [remaining, hpending] at h
    obtain ⟨rfl, hfd⟩ := List.cons.inj h
    exact ⟨r, rfl, hpending, hfd⟩
  | none =>
    rw [remaining, hpending] at h
    have hfd : r.fd = line :: rest := h
    rw [hfd]
    exact ⟨_, rfl, rfl, rfl⟩

theorem getPair_nil (h : r.remaining = []) : r.getPair level = .ok (none, r) := by
  rw [getPair, cacheLine_nil h]

section Line

variable (h : r.remaining = line :: rest) (hmatch : matchLine line = some (depth, pair))

include h hmatch

theorem getPair_shallower (hlt : depth < level) :
    ∃ r', r.getPair level = .ok (none, r') ∧ r'.remaining = line :: rest := by
  obtain ⟨r', hcache, hpending, hfd⟩ := cacheLine_cons h
  refine ⟨r', ?_, by rw [remaining, hpending, hfd]; rfl⟩
  simp only [getPair, hcache, hmatch, if_pos hlt]

theorem getPair_level (heq : depth = level) :
    ∃ r', r.getPair level = .ok (some pair, r') ∧ r'.remaining = rest := by
  obtain ⟨r', hcache, hpending, hfd⟩ := cacheLine_cons h
  refine ⟨r'.resetLine, ?_, hfd⟩
  simp only [getPair, hcache, hmatch, if_neg (by omega : ¬ depth < level),
    if_neg (by omega : ¬ level < depth)]

theorem getPair_deeper (hlt : level < depth) : r.getPair level = .raise "sub level not read" := by
  obtain ⟨r', hcache, hpending, hfd⟩ := cacheLine_cons h
  simp only [getPair, hcache, hmatch, if_neg (by omega : ¬ depth < level), if_pos hlt]

end Line

/-- No line of this level or a deeper one comes next. -/
def Above (level : Nat) (rest : List (List Char)) : Prop :=
  rest = [] ∨ ∃ line more depth pair, rest = line :: more ∧ matchLine line = some (depth, pair) ∧
    depth < level

theorem getPair_above (h : Above level rest) (hr : r.remaining = rest) :
    ∃ r', r.getPair level = .ok (none, r') ∧ r'.remaining = rest := by
  rcases h with rfl | ⟨line, more, depth, pair, rfl, hmatch, hlt⟩
  · exact ⟨r, getPair_nil hr, hr⟩
  · exact getPair_shallower hr hmatch hlt

section

variable (forest : Forest PairLine)
include forest

/-- What follows a forest is above the levels of its children, too. -/
theorem above_lines (h : Above level rest) : Above (level + 1) (forest.lines level ++ rest) := by
  cases forest with
  | nil =>
    rcases h with rfl | ⟨line, more, depth, pair, rfl, hmatch, hlt⟩
    · exact .inl rfl
    · exact .inr ⟨line, more, depth, pair, rfl, hmatch, Nat.lt_succ_of_lt hlt⟩
  | node e children siblings =>
    exact .inr ⟨_, _, level, e.pair, rfl, e.matchLine_text level, Nat.lt_succ_self level⟩

/-- The reader of a level reads the forest of this level, and leaves what comes after it. -/
theorem readForest_returns (h : Above level rest) (hr : r.remaining = forest.lines level ++ rest) :
    ∃ r', Returns (fun fuel => readForest fuel level r) (forest.map PairLine.pair, r') ∧
      r'.remaining = rest := by
  induction forest generalizing level rest r with
  | nil =>
    obtain ⟨r', hpair, hr'⟩ := getPair_above h hr
    refine ⟨r', Returns.of_succ_ok fun fuel => ?_, hr'⟩
    rw [readForest, hpair]
    rfl
  | node e children siblings ihc ihs =>
    rw [Forest.lines, cons_append, append_assoc] at hr
    obtain ⟨r₁, hpair, hr₁⟩ := getPair_level hr (e.matchLine_text level) rfl
    obtain ⟨r₂, hchildren, hr₂⟩ := ihc (above_lines siblings h) hr₁
    obtain ⟨r₃, hsiblings, hr₃⟩ := ihs h hr₂
    have hnode : Returns (fun fuel => readForest fuel level r₂ >>= fun x =>
        Outcome.ok (Forest.node e.pair (children.map PairLine.pair) x.1, x.2))
        ((Forest.node e children siblings).map PairLine.pair, r₃) := by
      refine hsiblings.bind ?_
      exact Returns.ok _
    have hpass : Returns (fun fuel => readForest fuel (level + 1) r₁ >>= fun x =>
        readForest fuel level x.2 >>= fun y => Outcome.ok (Forest.node e.pair x.1 y.1, y.2))
        ((Forest.node e children siblings).map PairLine.pair, r₃) := by
      refine hchildren.bind ?_
      exact hnode
    refine ⟨r₃, hpass.of_succ fun fuel => ?_, hr₃⟩
    rw [readForest, hpair]
    rfl

/-- Skipping a level consumes the forest of this level, and nothing else. -/
theorem skipRecursive_returns (h : Above level rest)
    (hr : r.remaining = forest.lines level ++ rest) :
    ∃ r', Returns (fun fuel => skipRecursive fuel level r) r' ∧ r'.remaining = rest := by
  induction forest generalizing level rest r with
  | nil =>
    obtain ⟨r', hpair, hr'⟩ := getPair_above h hr
    refine ⟨r', Returns.of_succ_ok fun fuel => ?_, hr'⟩
    rw [skipRecursive, hpair]
    rfl
  | node e children siblings ihc ihs =>
    rw [Forest.lines, cons_append, append_assoc] at hr
    obtain ⟨r₁, hpair, hr₁⟩ := getPair_level hr (e.matchLine_text level) rfl
    obtain ⟨r₂, hchildren, hr₂⟩ := ihc (above_lines siblings h) hr₁
    obtain ⟨r₃, hsiblings, hr₃⟩ := ihs h hr₂
    refine ⟨r₃, Returns.of_succ (hchildren.bind hsiblings) fun fuel => ?_, hr₃⟩
    rw [skipRecursive, hpair]
    rfl

theorem getlines_flatten (level : Nat) (rest : List Char) :
    getlines ((forest.lines level).flatten ++ rest) = forest.lines level ++ getlines rest := by
  induction forest generalizing level rest with
  | nil => rfl
  | node e children siblings ihc ihs =>
    rw [Forest.lines, flatten_cons, flatten_append, append_assoc, append_assoc,
      append_assoc, singleton_append, getlines_append (e.newline_notMem_text level), ihc,
      ihs, cons_append, append_assoc]

end

/-- What a call that returns does to the lines: it consumes the one that it returns, which is as deep
as the leveler, or none. -/
theorem getPair_returns {found : Option Pair} (h : r.getPair level = .ok (found, r')) :
    found = none ∧ r'.remaining = r.remaining ∧ Above level r.remaining ∨
      ∃ line pair, found = some pair ∧ matchLine line = some (level, pair) ∧
        r.remaining = line :: r'.remaining := by
  cases hr : r.remaining with
  | nil =>
    rw [getPair_nil hr] at h
    obtain ⟨rfl, rfl⟩ := Prod.mk.inj (Outcome.ok.inj h)
    exact .inl ⟨rfl, hr, .inl rfl⟩
  | cons line rest =>
    cases hmatch : matchLine line with
    | none =>
      obtain ⟨r₁, hcache, -⟩ := cacheLine_cons hr
      simp only [getPair, hcache, hmatch] at h
      cases h
    | some found' =>
      obtain ⟨depth, pair⟩ := found'
      rcases Nat.lt_trichotomy depth level with hlt | heq | hgt
      · obtain ⟨r₁, hpair, hr₁⟩ := getPair_shallower hr hmatch hlt
        rw [hpair] at h
        obtain ⟨rfl, rfl⟩ := Prod.mk.inj (Outcome.ok.inj h)
        exact .inl ⟨rfl, hr₁, .inr ⟨line, rest, depth, pair, rfl, hmatch, hlt⟩⟩
      · obtain ⟨r₁, hpair, hr₁⟩ := getPair_level hr hmatch heq
        rw [hpair] at h
        obtain ⟨rfl, rfl⟩ := Prod.mk.inj (Outcome.ok.inj h)
        exact .inr ⟨line, pair, rfl, heq ▸ hmatch, by rw [hr₁]⟩
      · rw [getPair_deeper hr hmatch hgt] at h
        cases h

/-- The file of a forest is read as the forest. Wherever a reader stands in front of the subtrees of a
node that are left, skipping them leaves what comes after them. A call in front of a deeper line
raises an exception, and one that returns drops no line. -/
theorem readForest_text (forest : Forest PairLine) :
    (∃ r, Returns (fun fuel => readForest fuel 0 (new forest.text))
      (forest.map PairLine.pair, r) ∧ r.remaining = []) ∧
    (∀ (level : Nat) (r : IndentReader) rest, Above level rest → r.remaining = forest.lines level ++ rest →
      ∃ r', Returns (fun fuel => skipRecursive fuel level r) r' ∧ r'.remaining = rest) ∧
    (∀ (level : Nat) (r : IndentReader) line rest depth pair, r.remaining = line :: rest →
      matchLine line = some (depth, pair) → level < depth →
        r.getPair level = .raise "sub level not read") ∧
    ∀ (level : Nat) (r : IndentReader) found r', r.getPair level = .ok (found, r') →
      found = none ∧ r'.remaining = r.remaining ∧ Above level r.remaining ∨
        ∃ line pair, found = some pair ∧ matchLine line = some (level, pair) ∧
          r.remaining = line :: r'.remaining := by
  refine ⟨readForest_returns forest (.inl rfl) ?_,
    fun _ _ _ habove hr => skipRecursive_returns forest habove hr,
    fun _ _ _ _ _ _ hr hmatch hlt => getPair_deeper hr hmatch hlt,
    fun _ _ _ _ h => getPair_returns h⟩
  have hlines := getlines_flatten forest 0 []
  rwa [append_nil] at hlines

/-- Two ports, the first one with a note that has blanks in it. -/
def ports : Forest PairLine :=
  .node ⟨"port".toList, ['\t', ' '], "80".toList, by decide, by decide, by decide, by decide,
      by decide, by decide⟩
    (.node ⟨"note".toList, [' '], "is open ".toList, by decide, by decide, by decide, by decide,
      by decide, by decide⟩ .nil .nil)
    (.node ⟨"port".toList, [' '], "443".toList, by decide, by decide, by decide, by decide,
      by decide, by decide⟩ .nil .nil)

/-- A host with these ports, and one without a name. -/
def hosts : Forest PairLine :=
  .node ⟨"host".toList, [' '], "net".toList, by decide, by decide, by decide, by decide,
      by decide, by decide⟩
    ports
    (.node ⟨"host".toList, [' '], [], by decide, by decide, by decide, by decide, by decide,
      by decide⟩ .nil .nil)

/-- They are read. The ports are skipped up to the other host, and are an error for a reader of
hosts. -/
theorem readForest_hosts :
    hosts.text = "host net\n\tport\t 80\n\t\tnote is open \n\tport 443\nhost \n".toList ∧
      (∃ r, Returns (fun fuel => readForest fuel 0 (new hosts.text))
        (.node ("host".toList, "net".toList)
          (.node ("port".toList, "80".toList)
            (.node ("note".toList, "is open ".toList) .nil .nil)
            (.node ("port".toList, "443".toList) .nil .nil))
          (.node ("host".toList, []) .nil .nil), r) ∧ r.remaining = []) ∧
      (∃ r, Returns (fun fuel => skipRecursive fuel 1 ⟨(hosts.lines 0).tail, 1, none⟩) r ∧
        r.remaining = ["host \n".toList]) ∧
      getPair 0 ⟨(hosts.lines 0).tail, 1, none⟩ = .raise "sub level not read" := by
  obtain ⟨hread, -, hdeeper, -⟩ := readForest_text hosts
  obtain ⟨-, hskip, -⟩ := readForest_text ports
  have habove : Above 1 ["host \n".toList] := .inr ⟨_, [], 0, _, rfl, rfl, Nat.one_pos⟩
  exact ⟨by decide, hread, hskip 1 _ _ habove rfl, hdeeper 0 _ _ _ 1 _ rfl rfl Nat.one_pos⟩

end IndentReader

end Drt
