import Drt.Core.Base.Exception
import Drt.Core.Types.Number
import Drt.Io.Base.Handle
import Drt.Lib.Occurrences
import Mathlib.Tactic.IntervalCases

/-!
# Files with several XML documents

`multiDocFromFile` takes a file apart where a new document begins, while it reads. Its first look at
the buffer starts behind the terminator, as the buffer is empty then. After each `<?xml` that does
not begin a document it goes on to read, so that at the end of the file documents are left together.
-/

open List

namespace Drt

namespace XmlDoc

open List (MatchesAt)

/-- What is looked for. -/
def declaration : Blob := ascii "<?xml"

/-- What each document begins with. -/
def header : Blob := ascii "<?xml version="

/-- `strstr(b+basep, "<?xml")`, counted from `b`. Behind the terminator there are zeros. -/
def findDeclaration (buffer : Blob) (basep : Nat) : Option Nat :=
  let text := (buffer.drop basep).takeWhile (· ≠ 0)
  ((List.range text.length).find? fun i => MatchesAt declaration text i).map (basep + ·)

/-- What a look at the buffer comes to. -/
inductive Look where
  /-- More is to be read; the next look starts at this place. -/
  | more (basep : Nat)
  /-- A document begins here. -/
  | split (basep : Nat)
  deriving DecidableEq, Repr

/-- The code from `check_xml` on. The test for the equals sign and the quote sets a `basep` that is
overwritten in any case. -/
def look (buffer : Blob) (basep : Nat) : Look :=
  match findDeclaration buffer basep with
  | none => .more basep
  | some n =>
    match buffer[n + 5]? with
    | none => .more basep
    | some c =>
      if ¬ isspace c then .more (n + 5)
      else
        let p := n + 6 + ((buffer.drop (n + 6)).takeWhile isspace).length
        let p := p + ((buffer.drop p).takeWhile isalnum).length
        if p + 1 ≥ buffer.length then .more basep else .split n

/-- The file and the variables, and whether an octet beyond the terminator was examined. -/
structure Scan where
  file : Handle
  buffer : Blob
  basep : Nat
  beyond : Bool

/-- The inner loop. -/
def scan : Nat → Scan → Call Scan
  | fuel, s =>
    let beyond := s.beyond || s.buffer.length < s.basep
    match look s.buffer s.basep with
    | .split basep => .ok ⟨s.file, s.buffer, basep, beyond⟩
    | .more basep =>
      match fuel with
      | 0 => .outOfFuel
      | fuel + 1 =>
        let (data, file) := s.file.read 4096
        if data = [] then .ok ⟨file, s.buffer, s.buffer.length, beyond⟩
        else scan fuel ⟨file, s.buffer ++ data, basep, beyond⟩

/-- The outer loop: the documents that were passed to `fromBlob`. Each pass of the inner one reads
something, or is the last one. -/
def splitFrom : Nat → Scan → List Blob → Call (List Blob × Bool)
  | 0, _, _ => .outOfFuel
  | fuel + 1, s, docs => do
    let s ← scan (s.file.pending.length + 1) s
    let doc := s.buffer.take s.basep
    let behind : Scan := ⟨s.file, s.buffer.drop s.basep, 1, s.beyond⟩
    if s.basep = 0 then .ok (docs, s.beyond) else splitFrom fuel behind (docs ++ [doc])

/-- `multiDocFromFile`: the documents, and whether an octet beyond the terminator was examined. -/
def multiDocFromFile (schedule : Schedule) (content : Blob) : Call (List Blob × Bool) :=
  splitFrom (content.length + 1) ⟨.fresh schedule content, [], 1, false⟩ []

/-- The documents come out as they went in, and no octet beyond the terminator is examined. -/
def SplitsExactly (schedule : Schedule) (docs : List Blob) : Prop :=
  multiDocFromFile schedule docs.flatten = .ok (docs, false)

/-- What is still to be taken apart. -/
def Scan.rest (s : Scan) : Blob := s.buffer ++ s.file.pending

variable {s : Scan} {buffer text d : Blob} {basep n p : Nat}

/-- A place that is found is behind the start, and inside of the buffer. -/
theorem findDeclaration_bounds (h : findDeclaration buffer basep = some n) :
    basep ≤ n ∧ n < buffer.length := by
  obtain ⟨i, hi, rfl⟩ := Option.map_eq_some_iff.mp h
  have hmem := mem_of_find?_eq_some hi
  have hlength := (takeWhile_sublist (· ≠ 0) (l := buffer.drop basep)).length_le
  rw [mem_range] at hmem
  rw [length_drop] at hlength
  omega

/-- A look goes on at the start or behind it, and a document begins inside of the buffer. -/
theorem look_bounds (buffer : Blob) (basep : Nat) :
    (∃ basep', look buffer basep = .more basep' ∧ basep ≤ basep') ∨
      ∃ n, look buffer basep = .split n ∧ basep ≤ n ∧ n ≤ buffer.length := by
  rw [look]
  cases hfind : findDeclaration buffer basep with
  | none => exact .inl ⟨basep, rfl, le_rfl⟩
  | some n =>
    obtain ⟨hle, hlt⟩ := findDeclaration_bounds hfind
    cases hnext : buffer[n + 5]? with
    | none => exact .inl ⟨basep, by simp [hnext], le_rfl⟩
    | some c =>
      simp only [hnext]
      by_cases hspace : ¬ isspace c
      · rw [if_pos hspace]
        exact .inl ⟨n + 5, rfl, by omega⟩
      · rw [if_neg hspace]
        split_ifs
        · exact .inl ⟨basep, rfl, le_rfl⟩
        · exact .inr ⟨n, rfl, hle, hlt.le⟩

variable {fuel : Nat} {docs : List Blob}

/-- The inner loop ends: in front of a part that is not empty, or with nothing left. It forgets
nothing of what it read. -/
theorem scan_returns (hbasep : 0 < s.basep) (hfuel : s.file.pending.length < fuel) :
    ∃ s', scan fuel s = .ok s' ∧ s'.rest = s.rest ∧ s'.basep ≤ s'.buffer.length ∧
      (s'.basep = 0 → s.rest = []) ∧
      (s.beyond = true ∨ s.buffer.length < s.basep → s'.beyond = true) := by
  induction fuel generalizing s with
  | zero => exact absurd hfuel (Nat.not_lt_zero _)
  | succ fuel ih =>
    rw [scan]
    obtain ⟨basep, hlook, hle⟩ | ⟨n, hlook, hle, hlt⟩ := look_bounds s.buffer s.basep
    · simp only [hlook]
      by_cases hdata : (s.file.read 4096).1 = []
      · -- the end of the file
        have hend : s.file.pending = [] := by
          by_contra hpending
          exact Handle.read_ne_nil (by decide) hpending hdata
        rw [if_pos hdata]
        refine ⟨_, rfl, ?_, le_rfl, fun hzero => ?_, fun hseen => by simp [hseen]⟩
        · simp [Scan.rest, Handle.read, hend]
        · have hbuffer : s.buffer = [] := length_eq_zero_iff.mp hzero
          rw [Scan.rest, hbuffer, hend, append_nil]
      · rw [if_neg hdata]
        have hpending := (s.file.read_pending 4096).1
        have hless : (s.file.read 4096).2.pending.length < fuel := by
          have hlength := congrArg List.length hpending
          have hpos := length_pos_iff.mpr hdata
          rw [length_append] at hlength
          omega
        obtain ⟨s', hscan, hrest, hbound, hzero, hbeyond⟩ :=
          ih (s := ⟨(s.file.read 4096).2, s.buffer ++ (s.file.read 4096).1, basep,
            s.beyond || s.buffer.length < s.basep⟩) (lt_of_lt_of_le hbasep hle) hless
        have hsame : Scan.rest ⟨(s.file.read 4096).2, s.buffer ++ (s.file.read 4096).1, basep,
            s.beyond || s.buffer.length < s.basep⟩ = s.rest := by
          rw [Scan.rest, append_assoc, hpending, Scan.rest]
        rw [hsame] at hrest hzero
        exact ⟨s', hscan, hrest, hbound, hzero, fun hseen => hbeyond (.inl (by simp [hseen]))⟩
    · simp only [hlook]
      refine ⟨_, rfl, rfl, hlt, fun hzero => ?_, fun hseen => by simp [hseen]⟩
      exact absurd hzero (Nat.ne_of_gt (lt_of_lt_of_le hbasep hle))

/-- The outer loop ends, and what it passes on is what was to be taken apart. -/
theorem splitFrom_returns (hbasep : s.basep = 1) (docs : List Blob) (hfuel : s.rest.length < fuel) :
    ∃ docs' beyond, splitFrom fuel s docs = .ok (docs', beyond) ∧
      docs'.flatten = docs.flatten ++ s.rest ∧
      (s.beyond = true ∨ s.buffer = [] → beyond = true) := by
  induction fuel generalizing s docs with
  | zero => exact absurd hfuel (Nat.not_lt_zero _)
  | succ fuel ih =>
    obtain ⟨s', hscan, hrest, hbound, hzero, hbeyond⟩ :=
      scan_returns (s := s) (by omega) (Nat.lt_succ_self _)
    have hflag : s.beyond = true ∨ s.buffer = [] → s'.beyond = true := fun hseen =>
      hbeyond (hseen.imp_right fun hnil => by rw [hnil, hbasep]; exact Nat.zero_lt_one)
    rw [splitFrom, hscan, Outcome.ok_bind]
    by_cases hdone : s'.basep = 0
    · rw [if_pos hdone]
      exact ⟨docs, s'.beyond, rfl, by rw [hzero hdone, append_nil], hflag⟩
    · rw [if_neg hdone]
      have hpart : s'.buffer.take s'.basep ++
          Scan.rest ⟨s'.file, s'.buffer.drop s'.basep, 1, s'.beyond⟩ = s.rest := by
        rw [Scan.rest, ← append_assoc, take_append_drop, ← hrest, Scan.rest]
      have hless : (Scan.rest ⟨s'.file, s'.buffer.drop s'.basep, 1, s'.beyond⟩).length < fuel := by
        have hlength := congrArg List.length hpart
        rw [length_append, length_take, Nat.min_eq_left hbound] at hlength
        omega
      obtain ⟨docs', beyond, hsplit, hflatten, hseen⟩ :=
        ih (s := ⟨s'.file, s'.buffer.drop s'.basep, 1, s'.beyond⟩) rfl
          (docs ++ [s'.buffer.take s'.basep]) hless
      refine ⟨docs', beyond, hsplit, ?_, fun h => hseen (.inl (hflag h))⟩
      rw [hflatten, flatten_append, flatten_singleton, append_assoc, hpart]

/-- Documents that begin with the header and go on, and have a declaration at their start only. -/
structure Plain (docs : List Blob) : Prop where
  start : ∀ d ∈ docs, header <+: d
  long : ∀ d ∈ docs, header.length < d.length
  once : ∀ d ∈ docs, ∀ p, MatchesAt declaration d p → p = 0
  zero : ∀ d ∈ docs, 0 ∉ d

/-- Where the declaration is, if there are no zeros. -/
theorem findDeclaration_eq_some (hzero : 0 ∉ buffer) (hmatch : MatchesAt declaration buffer n)
    (hle : basep ≤ n) (hfirst : ∀ q, basep ≤ q → q < n → ¬ MatchesAt declaration buffer q) :
    findDeclaration buffer basep = some n := by
  have hall : (buffer.drop basep).takeWhile (· ≠ 0) = buffer.drop basep :=
    takeWhile_eq_self_iff.mpr fun c hc => by
      simpa using ne_of_mem_of_not_mem (mem_of_mem_drop hc) hzero
  have hiff : ∀ i, MatchesAt declaration (buffer.drop basep) i ↔
      MatchesAt declaration buffer (basep + i) := by
    intro i
    have hpos : declaration.length = 5 := rfl
    rw [MatchesAt, MatchesAt, drop_drop, length_drop]
    refine and_congr_left fun _ => ?_
    omega
  obtain ⟨i, rfl⟩ := Nat.exists_eq_add_of_le hle
  rw [findDeclaration, hall, Option.map_eq_some_iff]
  refine ⟨i, List.find?_range_eq_some.mpr ⟨?_, ?_, fun j hj => ?_⟩, rfl⟩
  · exact decide_eq_true ((hiff i).mpr hmatch)
  · have hbound := ((hiff i).mpr hmatch).1
    have hpos : declaration.length = 5 := rfl
    rw [mem_range]
    omega
  · rw [Bool.not_eq_true', decide_eq_false_iff_not, hiff]
    exact hfirst _ (Nat.le_add_right _ _) (Nat.add_lt_add_left hj _)

theorem findDeclaration_eq_none (hno : ∀ q, basep ≤ q → ¬ MatchesAt declaration buffer q)
    (hzero : 0 ∉ buffer) : findDeclaration buffer basep = none := by
  cases hfind : findDeclaration buffer basep with
  | none => rfl
  | some n =>
    have hall : (buffer.drop basep).takeWhile (· ≠ 0) = buffer.drop basep :=
      takeWhile_eq_self_iff.mpr fun c hc => by
        simpa using ne_of_mem_of_not_mem (mem_of_mem_drop hc) hzero
    rw [findDeclaration, hall, Option.map_eq_some_iff] at hfind
    obtain ⟨i, hi, rfl⟩ := hfind
    have hmatch : MatchesAt declaration (buffer.drop basep) i := by
      simpa using List.find?_some hi
    have hpos : declaration.length = 5 := rfl
    refine absurd ⟨?_, ?_⟩ (hno (basep + i) (Nat.le_add_right _ _))
    · have hbound := hmatch.1
      rw [length_drop] at hbound
      omega
    · rw [← drop_drop]
      exact hmatch.2

/-- A declaration does not begin in a document and end in the next one. -/
theorem matchesAt_of_append {rest : Blob} (hrest : ∀ c ∈ rest.head?, c = 60)
    (hmatch : MatchesAt declaration (d ++ rest) p) (hlt : p < d.length) :
    MatchesAt declaration d p := by
  have hpos : declaration.length = 5 := rfl
  by_cases hinside : p + 5 ≤ d.length
  · refine ⟨hinside, ?_⟩
    have hwhole := hmatch.2
    rw [drop_append_of_le_length hlt.le] at hwhole
    exact prefix_of_prefix_length_le hwhole (prefix_append _ _)
      (by rw [length_drop]; omega)
  · -- the first character of the next document would stand inside of the declaration
    obtain ⟨k, hk, hk'⟩ : ∃ k, d.length = p + k ∧ 0 < k := ⟨d.length - p, by omega, by omega⟩
    have hlong := hmatch.1
    rw [length_append] at hlong
    have hchar : declaration[k]? = rest.head? := by
      obtain ⟨behind, hbehind⟩ := hmatch.2
      have hget : (declaration ++ behind)[k]? = ((d ++ rest).drop p)[k]? := by rw [hbehind]
      rw [List.getElem?_append_left (by omega), List.getElem?_drop,
        List.getElem?_append_right (by omega)] at hget
      rw [hget, List.head?_eq_getElem?]
      congr 1
      omega
    have hcases : k = 1 ∨ k = 2 ∨ k = 3 ∨ k = 4 := by omega
    cases hhead : rest.head? with
    | none =>
      rw [List.head?_eq_none_iff] at hhead
      rw [hhead, length_nil] at hlong
      omega
    | some c =>
      rw [hhead, hrest c hhead] at hchar
      obtain rfl | rfl | rfl | rfl := hcases <;> exact absurd hchar (by decide)

/-- How far the characters behind a declaration reach that are examined. -/
def reach (tail : Blob) : Nat :=
  let p := 6 + ((tail.drop 6).takeWhile isspace).length
  p + ((tail.drop p).takeWhile isalnum).length

section

variable (hfind : findDeclaration buffer basep = some n)
include hfind

/-- A look that finds a declaration with a space. -/
theorem look_of_space (hspace : ∀ c ∈ (buffer.drop n)[5]?, isspace c = true) :
    look buffer basep =
      if reach (buffer.drop n) + 1 ≥ (buffer.drop n).length then .more basep else .split n := by
  obtain ⟨-, hlt⟩ := findDeclaration_bounds hfind
  rw [List.getElem?_drop] at hspace
  rw [look, hfind]
  cases hnext : buffer[n + 5]? with
  | none =>
    rw [List.getElem?_eq_none_iff] at hnext
    have hle : (buffer.drop n).length ≤ reach (buffer.drop n) + 1 := by
      rw [length_drop, reach]
      omega
    simp only [hnext, List.getElem?_eq_none, if_pos hle, ge_iff_le]
  | some c =>
    have hreach : n + 6 + ((buffer.drop (n + 6)).takeWhile isspace).length +
        ((buffer.drop (n + 6 + ((buffer.drop (n + 6)).takeWhile isspace).length)).takeWhile
          isalnum).length = n + reach (buffer.drop n) := by
      rw [reach, drop_drop, drop_drop, ← Nat.add_assoc, ← Nat.add_assoc]
    have hspace' : ¬ ¬ isspace c := not_not_intro (hspace c hnext)
    simp only [hnext, if_neg hspace', hreach, length_drop]
    refine if_congr ?_ rfl rfl
    omega

theorem look_cut {k : Nat} (htail : buffer.drop n = header.take k) :
    look buffer basep = .more basep := by
  have hcut : (∀ c ∈ (header.take k)[5]?, isspace c = true) ∧
      reach (header.take k) + 1 ≥ (header.take k).length := by
    obtain hlt | hge := Nat.lt_or_ge k 14
    · interval_cases k <;> decide
    · rw [take_of_length_le hge]
      decide
  rw [look_of_space hfind (htail ▸ hcut.1), htail, if_pos hcut.2]

theorem look_header {c : UInt8} {behind : Blob} (htail : buffer.drop n = header ++ c :: behind) :
    look buffer basep = .split n := by
  have hwhole : (∀ c' ∈ (header ++ c :: behind)[5]?, isspace c' = true) ∧
      reach (header ++ c :: behind) = 13 := by
    refine ⟨?_, rfl⟩
    intro c' hc'
    cases hc'
    rfl
  have hlt : ¬ reach (header ++ c :: behind) + 1 ≥ (header ++ c :: behind).length := by
    have hlength : header.length = 14 := rfl
    rw [hwhole.2, length_append, length_cons, hlength]
    omega
  rw [look_of_space hfind (htail ▸ hwhole.1), htail, if_neg hlt]

end

namespace Plain

variable {docs : List Blob}

theorem tail (h : Plain (d :: docs)) : Plain docs :=
  ⟨fun d' hd' => h.start d' (mem_cons_of_mem d hd'),
    fun d' hd' => h.long d' (mem_cons_of_mem d hd'),
    fun d' hd' => h.once d' (mem_cons_of_mem d hd'),
    fun d' hd' => h.zero d' (mem_cons_of_mem d hd')⟩

theorem zero_notMem_flatten (h : Plain docs) : 0 ∉ docs.flatten := by
  intro hmem
  obtain ⟨d, hd, hzero⟩ := mem_flatten.mp hmem
  exact h.zero d hd hzero

theorem flatten_eq_header (h : Plain docs) (hne : docs ≠ []) :
    ∃ c behind, docs.flatten = header ++ c :: behind := by
  obtain ⟨d, docs, rfl⟩ := exists_cons_of_ne_nil hne
  obtain ⟨rest, hrest⟩ := h.start d mem_cons_self
  have hlong := h.long d mem_cons_self
  rw [← hrest, length_append] at hlong
  obtain ⟨c, behind, rfl⟩ := exists_cons_of_length_pos (l := rest) (by omega)
  exact ⟨c, behind ++ docs.flatten, by rw [flatten_cons, ← hrest]; simp⟩

theorem head_flatten (h : Plain docs) : ∀ c ∈ docs.flatten.head?, c = 60 := by
  intro c hc
  by_cases hne : docs = []
  · rw [hne] at hc
    cases hc
  · obtain ⟨c', behind, hflatten⟩ := h.flatten_eq_header hne
    rw [hflatten] at hc
    cases hc
    rfl

section Buffer

variable (h : Plain (d :: docs)) (hbuffer : buffer <+: d ++ docs.flatten)
include h hbuffer

theorem zero_notMem_buffer : 0 ∉ buffer := fun hmem =>
  h.zero_notMem_flatten (hbuffer.subset hmem)

/-- No declaration begins behind the start of the first document. -/
theorem not_matchesAt {q : Nat} (hq : 1 ≤ q) (hlt : q < d.length) :
    ¬ MatchesAt declaration buffer q := by
  intro hmatch
  have hwhole : MatchesAt declaration (d ++ docs.flatten) q := by
    obtain ⟨rest, hrest⟩ := hbuffer
    rw [← hrest]
    exact hmatch.append rest
  have hzero := h.once d mem_cons_self q
    (matchesAt_of_append h.tail.head_flatten hwhole hlt)
  omega

omit h in
theorem drop_buffer : buffer.drop d.length = docs.flatten.take (buffer.length - d.length) := by
  conv_lhs => rw [prefix_iff_eq_take.mp hbuffer, drop_take, drop_left]

/-- The declaration of the next document, as soon as the buffer has so much of it. -/
theorem matchesAt_next (hne : docs ≠ []) (hle : d.length + declaration.length ≤ buffer.length) :
    MatchesAt declaration buffer d.length := by
  have hdec : declaration.length = 5 := rfl
  obtain ⟨c, behind, hflatten⟩ := h.tail.flatten_eq_header hne
  refine ⟨hle, ?_⟩
  rw [drop_buffer hbuffer, hflatten]
  refine prefix_take_iff.mpr ⟨?_, by omega⟩
  exact (by decide : declaration <+: header).trans (prefix_append _ _)

end Buffer

end Plain

/-- A look at a part of plain documents: the first one is split off as soon as the header of the
next one and one character more are there. -/
theorem look_plain (h : Plain (d :: docs)) (hbuffer : buffer <+: d ++ docs.flatten) :
    look buffer 1 = if docs ≠ [] ∧ d.length + header.length < buffer.length then .split d.length
      else .more 1 := by
  have hpos : header.length = 14 := rfl
  have hdec : declaration.length = 5 := rfl
  have hzero := h.zero_notMem_buffer hbuffer
  have hlong := h.long d mem_cons_self
  by_cases hfound : MatchesAt declaration buffer d.length
  · have hfind := findDeclaration_eq_some hzero hfound (by omega)
      fun q hq hlt => h.not_matchesAt hbuffer hq hlt
    have hne : docs ≠ [] := by
      rintro rfl
      have hbound := hfound.1.trans hbuffer.length_le
      rw [flatten_nil, append_nil] at hbound
      omega
    obtain ⟨c, behind, hflatten⟩ := h.tail.flatten_eq_header hne
    have hbehind := Plain.drop_buffer hbuffer
    rw [hflatten] at hbehind
    by_cases hlt : d.length + header.length < buffer.length
    · rw [if_pos ⟨hne, hlt⟩]
      obtain ⟨k, hk⟩ := Nat.exists_eq_add_of_lt hlt
      refine look_header hfind (?_ : _ = header ++ c :: behind.take k)
      have hcount : buffer.length - d.length = header.length + (k + 1) := by omega
      rw [hbehind, hcount, take_length_add_append, take_succ_cons]
    · rw [if_neg fun hboth => hlt hboth.2]
      refine look_cut hfind (k := buffer.length - d.length) ?_
      rw [hbehind, take_append_of_le_length (by omega)]
  · have hnone : findDeclaration buffer 1 = none := by
      refine findDeclaration_eq_none (fun q hq hmatch => ?_) hzero
      have hbound := hmatch.1
      by_cases hlt : q < d.length
      · exact h.not_matchesAt hbuffer hq hlt hmatch
      · by_cases hne : docs = []
        · have hlength := hbuffer.length_le
          rw [hne, flatten_nil, append_nil] at hlength
          omega
        · exact hfound (h.matchesAt_next hbuffer hne (by omega))
    rw [look, hnone, if_neg fun hboth => hfound (h.matchesAt_next hbuffer hboth.1 (by omega))]

/-- The inner loop finds the end of the first of plain documents. -/
theorem scan_plain (h : Plain (d :: docs)) (hbasep : s.basep = 1)
    (hrest : s.rest = d ++ docs.flatten) (hfuel : s.file.pending.length < fuel) :
    ∃ s', scan fuel s = .ok s' ∧ s'.basep = d.length := by
  induction fuel generalizing s with
  | zero => exact absurd hfuel (Nat.not_lt_zero _)
  | succ fuel ih =>
    have hprefix : s.buffer <+: d ++ docs.flatten := ⟨s.file.pending, hrest⟩
    rw [scan, hbasep]
    simp only [look_plain h hprefix]
    by_cases hfound : docs ≠ [] ∧ d.length + header.length < s.buffer.length
    · simp only [if_pos hfound]
      exact ⟨_, rfl, rfl⟩
    · simp only [if_neg hfound]
      by_cases hdata : (s.file.read 4096).1 = []
      · rw [if_pos hdata]
        have hend : s.file.pending = [] := by
          by_contra hpending
          exact Handle.read_ne_nil (by decide) hpending hdata
        rw [Scan.rest, hend, append_nil] at hrest
        -- with another document, its header would be there
        have hlast : docs = [] := by
          by_contra hne
          obtain ⟨d', docs', rfl⟩ := exists_cons_of_ne_nil hne
          have hlong := h.long d' (by simp)
          refine hfound ⟨hne, ?_⟩
          rw [hrest, flatten_cons, length_append, length_append]
          omega
        rw [hlast, flatten_nil, append_nil] at hrest
        exact ⟨_, rfl, congrArg List.length hrest⟩
      · rw [if_neg hdata]
        have hpending := (s.file.read_pending 4096).1
        have hless : (s.file.read 4096).2.pending.length < fuel := by
          have hlength := congrArg List.length hpending
          have hpos := length_pos_iff.mpr hdata
          rw [length_append] at hlength
          omega
        refine ih rfl ?_ hless
        rw [Scan.rest, append_assoc, hpending]
        exact hrest

/-- Plain documents come out as they went in. -/
theorem splitFrom_plain (h : Plain docs) (hbasep : s.basep = 1) (hrest : s.rest = docs.flatten)
    (before : List Blob) (hfuel : s.rest.length < fuel) :
    ∃ beyond, splitFrom fuel s before = .ok (before ++ docs, beyond) := by
  induction docs generalizing s before fuel with
  | nil =>
    obtain ⟨fuel, rfl⟩ := Nat.exists_eq_succ_of_ne_zero (Nat.ne_of_gt (Nat.zero_lt_of_lt hfuel))
    obtain ⟨s', hscan, hsame, hbound, -, -⟩ :=
      scan_returns (s := s) (by omega) (Nat.lt_succ_self _)
    have hnil : s'.buffer = [] := by
      rw [hrest, flatten_nil, Scan.rest] at hsame
      exact (append_eq_nil_iff.mp hsame).1
    have hdone : s'.basep = 0 := by
      rw [hnil] at hbound
      exact Nat.le_zero.mp hbound
    rw [splitFrom, hscan, Outcome.ok_bind, if_pos hdone, append_nil]
    exact ⟨s'.beyond, rfl⟩
  | cons d docs ih =>
    obtain ⟨fuel, rfl⟩ := Nat.exists_eq_succ_of_ne_zero (Nat.ne_of_gt (Nat.zero_lt_of_lt hfuel))
    rw [flatten_cons] at hrest
    obtain ⟨s', hscan, hfound⟩ := scan_plain h hbasep hrest (Nat.lt_succ_self _)
    obtain ⟨s'', hscan', hsame, hbound, -, -⟩ :=
      scan_returns (s := s) (by omega) (Nat.lt_succ_self _)
    rw [hscan] at hscan'
    cases hscan'
    rw [hrest] at hsame
    have hlong := h.long d mem_cons_self
    have htake : s'.buffer.take d.length = d := by
      have hprefix : s'.buffer <+: d ++ docs.flatten := ⟨s'.file.pending, hsame⟩
      rw [prefix_iff_eq_take.mp hprefix, take_take, Nat.min_eq_left (hfound ▸ hbound),
        take_left]
    have hbehind : Scan.rest ⟨s'.file, s'.buffer.drop d.length, 1, s'.beyond⟩ = docs.flatten := by
      rw [Scan.rest, ← drop_append_of_le_length (hfound ▸ hbound)]
      exact (congrArg (List.drop d.length) hsame).trans drop_left
    have hless : (Scan.rest ⟨s'.file, s'.buffer.drop d.length, 1, s'.beyond⟩).length < fuel := by
      rw [hbehind]
      rw [hrest, length_append] at hfuel
      omega
    obtain ⟨beyond, hsplit⟩ := ih h.tail (s := ⟨s'.file, s'.buffer.drop d.length, 1, s'.beyond⟩)
      rfl hbehind (before ++ [d]) hless
    refine ⟨beyond, ?_⟩
    rw [splitFrom, hscan, Outcome.ok_bind, hfound, htake, if_neg (by omega), hsplit,
      append_assoc, singleton_append]

/-- Every file is read to its end and nothing of it is lost, and plain documents come out as they
went in; but the first look is beyond the terminator in any case. -/
theorem multiDocFromFile_not_exact (schedule : Schedule) (docs : List Blob) :
    ¬ SplitsExactly schedule docs ∧
      ∃ docs', multiDocFromFile schedule docs.flatten = .ok (docs', true) ∧
        docs'.flatten = docs.flatten ∧ (Plain docs → docs' = docs) := by
  have hrest : Scan.rest ⟨.fresh schedule docs.flatten, [], 1, false⟩ = docs.flatten := rfl
  obtain ⟨docs', beyond, hsplit, hflatten, hbeyond⟩ :=
    splitFrom_returns (s := ⟨.fresh schedule docs.flatten, [], 1, false⟩) rfl []
      (Nat.lt_succ_self _)
  rw [hbeyond (.inr rfl), hrest] at hsplit
  refine ⟨fun hexact => ?_, docs', hsplit, hflatten, fun hplain => ?_⟩
  · rw [SplitsExactly, multiDocFromFile, hsplit] at hexact
    cases hexact
  · obtain ⟨beyond', hsplit'⟩ := splitFrom_plain hplain (s := ⟨.fresh schedule docs.flatten, [], 1,
      false⟩) rfl rfl [] (Nat.lt_succ_self _)
    rw [hrest, hsplit] at hsplit'
    cases hsplit'
    rfl

/-- A document with a processing instruction that looks like a declaration, and another one. -/
def styled : List Blob :=
  [ascii "<?xml version='1.0'?><?xml-stylesheet href='a'?><a/>", ascii "<?xml version='1.0'?><b/>"]

/-- They are taken for one. -/
theorem styled_merged :
    (∀ d ∈ styled, header <+: d) ∧
      multiDocFromFile (.every 4096 (by decide)) styled.flatten = .ok ([styled.flatten], true) ∧
      ¬ SplitsExactly (.every 4096 (by decide)) styled := by
  have hmerged :
      multiDocFromFile (.every 4096 (by decide)) styled.flatten = .ok ([styled.flatten], true) := by
    decide
  refine ⟨by decide, hmerged, fun hexact => ?_⟩
  rw [SplitsExactly, hmerged] at hexact
  cases hexact

end XmlDoc

end Drt
