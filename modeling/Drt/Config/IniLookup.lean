import Drt.Config.IniConfig
import Drt.Core.Types.StringPurity

/-!
# Values of an ini file

`getValue` looks for a key in a section, then in the sections that its name ends with, and
at last in the section without a name. It takes the end of a name from its octets, where a
wide character above 127 is a question mark, and leaves these octets in the data of the caller,
where the next call compares them.
-/

open List Option

namespace Drt

open Outcome StringText

namespace StringData

/-- The data of a string just made. -/
def ofString : DrString → StringData
  | .bytes b => ofOctets b
  | .wide w => ofWide w

variable {s : StringData} {b k : Blob} {w : List UInt32}

theorem asciiKey_eq_some (h : s.asciiKey = some k) :
    s.views.octets = k ∧ ((ofOctets k).beq s).1 = true := by
  unfold asciiKey at h
  split_ifs at h with hbeq
  obtain rfl := Option.some.inj h
  exact ⟨rfl, hbeq⟩

/-- `asciiKey` is what `beq` says, for every string of octets below 128. -/
theorem asciiKey_iff (hascii : ∀ c ∈ k, c ≤ 127) :
    s.asciiKey = some k ↔ ((ofOctets k).beq s).1 = true := by
  refine ⟨fun h => (asciiKey_eq_some h).2, fun h => ?_⟩
  obtain ⟨-, hlength, hviews⟩ := beq_eq_true.mp h
  have hoctets : s.views.octets = k := by
    cases hs : s.views with
    | bytes b | both b =>
      rw [hs] at hviews
      exact (of_decide_eq_true hviews).symm
    | wide w =>
      rw [hs] at hlength hviews
      have hw : k.map widenOctet = w := (OctetData.compareViews_wide (.inl rfl) hlength).mp hviews
      have hnarrow : ∀ c ∈ k, (narrowChar ∘ widenOctet) c = c := fun c hc => by
        have hle : c.toUInt32 ≤ 127 := by
          rw [UInt32.le_iff_toNat_le, UInt8.toNat_toUInt32]
          exact UInt8.le_iff_toNat_le.mp (hascii c hc)
        have hwide : widenOctet c = c.toUInt32 := if_neg (UInt8.not_lt.mpr (hascii c hc))
        rw [Function.comp, hwide, narrowChar, if_neg (UInt32.not_lt.mpr hle),
          UInt8.toUInt8_toUInt32]
      change w.map narrowChar = k
      rw [← hw, List.map_map, List.map_congr_left hnarrow, List.map_id']
  rw [asciiKey, hoctets, if_pos h]

theorem asciiKey_octets (h : OctetData b s) : s.asciiKey = some b := by
  have hoctets : s.views.octets = b := by
    rcases h.views with hv | hv <;> rw [hv] <;> rfl
  have hfresh : OctetData b (ofOctets b) := ⟨.inl rfl, .inl rfl⟩
  rw [asciiKey, hoctets, if_pos ((OctetData.beq hfresh h).mpr rfl)]

/-- Wide characters below 128 are one, too. -/
theorem asciiKey_wide (hascii : ∀ c ∈ w, c ≤ 127) (h : WideData w s) :
    s.asciiKey = some (w.map narrowChar) := by
  have hoctets : ∀ c ∈ w.map narrowChar, c ≤ 127 := fun c hc => by
    obtain ⟨c', -, rfl⟩ := mem_map.mp hc
    exact narrowChar_le c'
  have hnarrow : (w.map narrowChar).map UInt8.toUInt32 = w := narrowed_eq_self hascii
  have hfresh : OctetData (w.map narrowChar) (ofOctets (w.map narrowChar)) := ⟨.inl rfl, .inl rfl⟩
  refine (asciiKey_iff hoctets).mpr ((OctetData.beq_wide (p := True) ?_ ?_ ?_ hfresh h).mpr trivial)
  · exact congrArg hashChars hnarrow
  · rw [widenOctet_eq hoctets, hnarrow]
    exact ⟨fun _ => ⟨rfl, rfl⟩, fun _ => trivial⟩
  · exact ⟨fun _ => rfl, fun _ => trivial⟩

end StringData

/-- A string of the caller, and its data: what it was made of, with the representations and the
hash value that functions have added since. -/
structure CallerString where
  made : DrString
  data : StringData
  touched : StringData.Touches (.ofString made) data

namespace CallerString

/-- A string that nobody has looked at. -/
def fresh (made : DrString) : CallerString := ⟨made, .ofString made, .refl⟩

/-- The octets that are made of a string stay the same. -/
theorem octets_eq (s : CallerString) : s.data.views.octets = s.made.utf8 := by
  obtain ⟨made, data, touched⟩ := s
  change data.views.octets = made.utf8
  induction touched with
  | refl => cases made <;> rfl
  | @byte t _ ih =>
    rw [← ih]
    cases t.views <;> rfl
  | @wide t _ ih =>
    rw [← ih]
    cases t.views <;> rfl
  | @hash t _ ih => rw [t.getHash_views, ih]

theorem octetData (s : CallerString) {b : Blob} (h : s.made = .bytes b) : OctetData b s.data := by
  have hfresh : OctetData b (.ofString s.made) := h ▸ ⟨.inl rfl, .inl rfl⟩
  exact hfresh.of_touches s.touched

end CallerString

namespace IniText

/-- The octets of a text, if all of its characters are below 128. -/
def nameOf (text : List UInt32) : Option Blob :=
  if ∀ c ∈ text, c ≤ 127 then some (text.map UInt32.toUInt8) else none

/-- What a section holds for a key. -/
def valueAt (sections : THash Blob (THash Blob Blob)) (key : Option Blob) (sec : List UInt32) :
    Option Blob :=
  ((nameOf sec).bind sections.lookup).bind fun h => key.bind h.lookup

/-- A section name without its first component. -/
def parent (sec : List UInt32) : List UInt32 := (sec.dropWhile (· ≠ 47)).tail

/-- The value in the first section that has the key, from some section on. -/
inductive Nearest (sections : THash Blob (THash Blob Blob)) (key : Option Blob) :
    List UInt32 → Option Blob → Prop where
  | here {sec v} (hvalue : valueAt sections key sec = some v) : Nearest sections key sec (some v)
  | nowhere (hnone : valueAt sections key [] = none) : Nearest sections key [] none
  | further {sec r} (hne : sec ≠ []) (hnone : valueAt sections key sec = none)
      (hparent : Nearest sections key (parent sec) r) : Nearest sections key sec r

/-- The octets of the key that a string was made as. -/
def keyName (key : Option CallerString) : Option Blob := key.bind fun k => nameOf k.made.text

/-- The octets that `getValue` takes the key for. -/
def keyFound (key : Option CallerString) : Option Blob := key.bind fun k => k.data.asciiKey

/-- `getValue` gives the value for what the section and the key were made as, or else the default.
-/
def LooksUp (sections : THash Blob (THash Blob Blob)) (sec key : Option CallerString)
    (default_val : Option DrString) : Prop :=
  ∃ r, Nearest sections (keyName key) ((sec.map fun s => s.made.text).getD []) r ∧
    Returns (fun fuel => IniConfig.getValue ⟨sections⟩ (key.map CallerString.data) default_val fuel
      (sec.map CallerString.data)) (r.elim default_val fun v => some (.bytes v))

/-- A name that is not changed as octets, or that no section has. -/
def Harmless (name : List UInt32) : Prop := (∀ c ∈ name, c ≤ 127) ∨ ∃ c ∈ name, c ∈ [0, 10, 35, 93]

/-- A section that `getValue` finds the values of. -/
def SectionSafe : Option CallerString → Prop
  | none => False
  | some s =>
    match s.made with
    | .bytes _ => True
    | .wide w => (∀ k, Harmless (parent^[k + 1] w)) ∧ (Harmless w ∨ s.data.asciiKey = none)

/-- A line of a file that has a key. -/
structure KeyLine where
  line : Blob
  key : Blob
  value : Blob
  chars : ∀ x ∈ line, x ≤ 127 ∧ x ∉ [0, 10]
  reads : IniLine.read line = .assigns key value

/-- A key that a line of a file can have. -/
def IsKey (key : Option Blob) : Prop := ∃ l : KeyLine, key = some l.key

/-- The section is safe, if the key can be in a file at all. Otherwise the section is null, or the
key is not taken for one that can. -/
def LookupSafe (sec key : Option CallerString) : Prop :=
  (IsKey (keyName key) → SectionSafe sec) ∧
    (¬ IsKey (keyName key) → sec = none ∨ ¬ IsKey (keyFound key))

/-- The names in the sections are made of characters that section names can have. -/
structure WellNamed (sections : THash Blob (THash Blob Blob)) : Prop where
  section_ascii : ∀ name ∈ sections, ∀ c ∈ name, c ≤ 127
  section_chars : ∀ name ∈ sections, ∀ c ∈ name, c ∉ [0, 10, 35, 93]
  key_line : ∀ name h, sections.lookup name = some h → ∀ key ∈ h, IsKey (some key)

variable {content line name : Blob}

/-- A character of a line is one of the file, and no newline. -/
theorem mem_line (hline : line ∈ content.splitOn 10) {x : UInt8} (hx : x ∈ line) :
    x ∈ content ∧ x ≠ 10 := by
  induction hn : content.length using Nat.strongRecOn generalizing content with
  | ind n ih =>
    by_cases hmem : (10 : UInt8) ∈ content
    · obtain ⟨pre, rest, rfl, hpre⟩ := eq_append_cons_of_mem hmem
      rw [splitOn_append_cons_self_of_not_mem hpre, mem_cons] at hline
      rcases hline with rfl | hline
      · exact ⟨mem_append_left _ hx, fun heq => hpre (heq ▸ hx)⟩
      · obtain ⟨hin, hne⟩ := ih rest.length
          (by rw [← hn, length_append, length_cons]; omega)
          hline rfl
        exact ⟨mem_append_right _ (mem_cons_of_mem _ hin), hne⟩
    · rw [splitOn_eq_singleton hmem, mem_singleton] at hline
      subst hline
      exact ⟨hx, fun heq => hmem (heq ▸ hx)⟩

/-- A name in brackets is made of characters of the text, other than the right bracket. -/
theorem mem_sectionName {text : Blob} (hname : IniLine.sectionName text = some name) {x : UInt8}
    (hx : x ∈ name) : x ∈ text ∧ x ≠ 93 := by
  cases text with
  | nil => cases hname
  | cons a rest =>
    rw [IniLine.sectionName] at hname
    split_ifs at hname
    obtain rfl := Option.some.inj hname
    refine ⟨mem_cons_of_mem _ ((List.takeWhile_prefix _).mem hx), ?_⟩
    have hne := mem_takeWhile_imp hx
    simpa using hne

/-- One more section, or another content of one. -/
theorem WellNamed.insert {sections : THash Blob (THash Blob Blob)} (h : WellNamed sections)
    {keys : THash Blob Blob} (hascii : ∀ c ∈ name, c ≤ 127)
    (hchars : ∀ c ∈ name, c ∉ [0, 10, 35, 93]) (hkeys : ∀ key ∈ keys, IsKey (some key)) :
    WellNamed (sections.insert name keys) := by
  refine ⟨?_, ?_, ?_⟩
  · intro n hn
    rcases Finmap.mem_insert.mp hn with rfl | hn
    · exact hascii
    · exact h.section_ascii n hn
  · intro n hn
    rcases Finmap.mem_insert.mp hn with rfl | hn
    · exact hchars
    · exact h.section_chars n hn
  · intro n keys' hlookup
    by_cases heq : n = name
    · subst heq
      rw [Finmap.lookup_insert] at hlookup
      obtain rfl := Option.some.inj hlookup
      exact hkeys
    · rw [Finmap.lookup_insert_of_ne _ heq] at hlookup
      exact h.key_line n keys' hlookup

/-- The names of the sections and keys after one more line. -/
theorem WellNamed.step {t : IniText} (h : WellNamed t.sections) (hcurrent : t.current ∈ t.sections)
    (hchars : ∀ x ∈ line, x ≤ 127 ∧ x ≠ 0 ∧ x ≠ 10) :
    WellNamed (t.step (IniLine.read line)).sections := by
  cases hread : IniLine.read line with
  | nothing => exact h
  | opens name =>
    have hname : IniLine.sectionName (IniLine.text line) = some name := by
      rw [IniLine.read] at hread
      split at hread
      · rename_i hname
        cases hread
        exact hname
      · rw [IniLine.assignment] at hread
        split_ifs at hread
    have hchar : ∀ c ∈ name, c ≤ 127 ∧ c ∉ [0, 10, 35, 93] := fun c hc => by
      obtain ⟨hin, hbracket⟩ := mem_sectionName hname hc
      obtain ⟨hline, hcomment⟩ := IniConfig.mem_text hin
      obtain ⟨hascii, hzero, hnewline⟩ := hchars c hline
      exact ⟨hascii, by simp [hzero, hnewline, hcomment, hbracket]⟩
    simp only [IniText.step]
    split_ifs with hmem
    · exact h
    · exact h.insert (fun c hc => (hchar c hc).1) (fun c hc => (hchar c hc).2)
        fun key hkey => absurd hkey Finmap.notMem_empty
  | assigns name value =>
    obtain ⟨keys, hlookup⟩ := Finmap.mem_iff.mp hcurrent
    refine h.insert (h.section_ascii _ hcurrent) (h.section_chars _ hcurrent) fun key hkey => ?_
    rw [hlookup, getD_some] at hkey
    rcases Finmap.mem_insert.mp hkey with rfl | hkey
    · have hline : ∀ x ∈ line, x ≤ 127 ∧ x ∉ [0, 10] := fun x hx => by
        obtain ⟨hascii, hzero, hnewline⟩ := hchars x hx
        exact ⟨hascii, by simp [hzero, hnewline]⟩
      exact ⟨⟨line, key, value, hline, hread⟩, rfl⟩
    · exact h.key_line _ keys hlookup key hkey

/-- The names in a file of ASCII characters without zeros. -/
theorem wellNamed_meaning (hchars : ∀ x ∈ content, x ≤ 127 ∧ x ≠ 0) :
    WellNamed (meaning content) := by
  have hall : ∀ (lines : List Blob) (t : IniText), WellNamed t.sections → t.current ∈ t.sections →
      (∀ line ∈ lines, ∀ x ∈ line, x ≤ 127 ∧ x ≠ 0 ∧ x ≠ 10) →
      WellNamed ((lines.map IniLine.read).foldl IniText.step t).sections := by
    intro lines
    induction lines with
    | nil => exact fun _ h _ _ => h
    | cons line lines ih =>
      intro t h hcurrent hlines
      exact ih _ (h.step hcurrent (hlines line mem_cons_self)) (current_step hcurrent _)
        fun l hl => hlines l (mem_cons_of_mem _ hl)
  refine hall _ start ?_ ((Finmap.mem_singleton _ _ _).mpr rfl) fun line hline x hx => ?_
  · have hempty : WellNamed ∅ :=
      ⟨fun n hn => absurd hn Finmap.notMem_empty, fun n hn => absurd hn Finmap.notMem_empty,
        fun n keys hn => absurd (Finmap.mem_of_lookup_eq_some hn) Finmap.notMem_empty⟩
    exact hempty.insert (fun c hc => absurd hc not_mem_nil)
      (fun c hc => absurd hc not_mem_nil) fun key hkey => absurd hkey Finmap.notMem_empty
  · obtain ⟨hin, hne⟩ := mem_line hline hx
    exact ⟨(hchars x hin).1, (hchars x hin).2, hne⟩

section Lookup

variable {sections : THash Blob (THash Blob Blob)} {key : Option Blob}

theorem toUInt8_toUInt32 {c : UInt32} (h : c ≤ 127) : c.toUInt8.toUInt32 = c := by
  have hiff := (DrString.toUInt32_octet c).mpr h
  rwa [if_neg (by simpa using h)] at hiff

theorem nameOf_octets {b : Blob} (h : ∀ c ∈ b, c ≤ 127) :
    nameOf (b.map UInt8.toUInt32) = some b := by
  have hascii : ∀ c ∈ b.map UInt8.toUInt32, c ≤ 127 := fun c hc => by
    obtain ⟨x, hx, rfl⟩ := List.mem_map.mp hc
    rw [UInt32.le_iff_toNat_le, UInt8.toNat_toUInt32]
    exact UInt8.le_iff_toNat_le.mp (h x hx)
  have hid : ∀ x : UInt8, (UInt32.toUInt8 ∘ UInt8.toUInt32) x = x := fun x => by simp
  rw [nameOf, if_pos hascii, List.map_map, List.map_congr_left fun x _ => hid x, List.map_id']

/-- A hash whose sections have ASCII names finds what octets stand for. -/
theorem lookup_octets (hnamed : WellNamed sections) (b : Blob) :
    sections.lookup b = (nameOf (b.map UInt8.toUInt32)).bind sections.lookup := by
  by_cases hascii : ∀ c ∈ b, c ≤ 127
  · rw [nameOf_octets hascii]
    rfl
  · have hbig : ¬ ∀ c ∈ b.map UInt8.toUInt32, c ≤ 127 := fun h => hascii fun c hc => by
      have hle := h _ (mem_map_of_mem hc)
      rw [UInt32.le_iff_toNat_le, UInt8.toNat_toUInt32] at hle
      exact UInt8.le_iff_toNat_le.mpr hle
    rw [nameOf, if_neg hbig]
    exact Finmap.lookup_eq_none.mpr fun hmem => hascii (hnamed.section_ascii b hmem)

/-- A string whose name is made of characters below 128 is found as these octets. -/
theorem asciiKey_of_nameOf (s : CallerString) {name : Blob} (h : nameOf s.made.text = some name) :
    s.data.asciiKey = some name := by
  rw [nameOf] at h
  split_ifs at h with hascii
  obtain rfl := Option.some.inj h
  cases hmade : s.made with
  | bytes b =>
    have hid : ∀ x : UInt8, (UInt32.toUInt8 ∘ UInt8.toUInt32) x = x := fun x => by simp
    rw [StringData.asciiKey_octets (s.octetData hmade), DrString.text, List.map_map,
      List.map_congr_left fun x _ => hid x, List.map_id']
  | wide w =>
    rw [hmade] at hascii
    have hfresh : WideData w (.ofString s.made) := hmade ▸ ⟨.inl rfl, .inl rfl⟩
    have hstable : hashChars (narrowed w) = hashChars w :=
      congrArg hashChars (narrowed_eq_self hascii)
    rw [StringData.asciiKey_wide hascii (hfresh.of_touches hstable s.touched)]
    refine congrArg some (List.map_congr_left fun c hc => ?_)
    exact if_neg (UInt32.not_lt.mpr (hascii c hc))

theorem valueAt_eq_none (hnamed : WellNamed sections) (hkey : ¬ IsKey key) (sec : List UInt32) :
    valueAt sections key sec = none := by
  cases hvalue : valueAt sections key sec with
  | none => rfl
  | some v =>
    obtain ⟨h, hsection, hfound⟩ := bind_eq_some_iff.mp hvalue
    obtain ⟨name, -, hlookup⟩ := bind_eq_some_iff.mp hsection
    obtain ⟨k, rfl, hin⟩ := bind_eq_some_iff.mp hfound
    exact absurd (hnamed.key_line name h hlookup k (Finmap.mem_of_lookup_eq_some hin)) hkey

theorem length_parent_lt {sec : List UInt32} (hne : sec ≠ []) :
    (parent sec).length < sec.length := by
  have hle := (dropWhile_suffix (fun c : UInt32 => decide (c ≠ 47)) (l := sec)).length_le
  have hpos := length_pos_iff.mpr hne
  rw [parent, length_tail]
  omega

theorem exists_nearest (sections : THash Blob (THash Blob Blob)) (key : Option Blob)
    (sec : List UInt32) : ∃ r, Nearest sections key sec r := by
  cases hvalue : valueAt sections key sec with
  | some v => exact ⟨some v, .here hvalue⟩
  | none =>
    by_cases hne : sec = []
    · subst hne
      exact ⟨none, .nowhere hvalue⟩
    · have hlt := length_parent_lt hne
      obtain ⟨r, hr⟩ := exists_nearest sections key (parent sec)
      exact ⟨r, .further hne hvalue hr⟩
termination_by sec.length

/-- There is one answer. -/
theorem Nearest.unique {sec : List UInt32} {r r' : Option Blob}
    (h : Nearest sections key sec r) (h' : Nearest sections key sec r') : r = r' := by
  induction h with
  | here hvalue =>
    cases h' with
    | here hvalue' => exact hvalue.symm.trans hvalue'
    | nowhere hnone | further _ hnone _ => exact absurd (hvalue.symm.trans hnone) (by simp)
  | nowhere hnone =>
    cases h' with
    | here hvalue => exact absurd (hnone.symm.trans hvalue) (by simp)
    | nowhere _ => rfl
    | further hne _ _ => exact absurd rfl hne
  | further hne hnone _ ih =>
    cases h' with
    | here hvalue => exact absurd (hnone.symm.trans hvalue) (by simp)
    | nowhere _ => exact absurd rfl hne
    | further _ _ hparent => exact ih hparent

theorem Nearest.exists_value {sec : List UInt32} {v : Blob}
    (h : Nearest sections key sec (some v)) : ∃ k, valueAt sections key (parent^[k] sec) = some v := by
  generalize hr : some v = r at h
  induction h with
  | here hvalue => exact ⟨0, hr ▸ hvalue⟩
  | nowhere _ => cases hr
  | further _ _ _ ih =>
    obtain ⟨k, hk⟩ := ih hr
    exact ⟨k + 1, hk⟩

theorem nearest_none (hnamed : WellNamed sections) (hkey : ¬ IsKey key) (sec : List UInt32) :
    Nearest sections key sec none := by
  obtain ⟨r, hr⟩ := exists_nearest sections key sec
  cases r with
  | none => exact hr
  | some v =>
    obtain ⟨k, hk⟩ := hr.exists_value
    rw [valueAt_eq_none hnamed hkey] at hk
    cases hk

/-- The octets behind the first "/". -/
def parentOctets (octets : Blob) : Blob := (octets.dropWhile (· ≠ 47)).tail

/-- The octets behind the first "/" have the text of the parent. -/
theorem text_parentOctets (octets : Blob) :
    (parentOctets octets).map UInt8.toUInt32 = parent (octets.map UInt8.toUInt32) := by
  change ((octets.dropWhile fun c => decide (c ≠ 47)).tail).map UInt8.toUInt32 =
    ((octets.map UInt8.toUInt32).dropWhile fun c => decide (c ≠ 47)).tail
  rw [map_tail, dropWhile_map]
  have hsame : ((fun c : UInt32 => decide (c ≠ 47)) ∘ UInt8.toUInt32) =
      fun c : UInt8 => decide (c ≠ 47) := by
    funext x
    simp only [Function.comp, ← UInt32.toNat_inj, ← UInt8.toNat_inj, UInt8.toNat_toUInt32, ne_eq]
    rfl
  rw [hsame]

end Lookup

end IniText

namespace IniConfig

open IniText

variable {sections : THash Blob (THash Blob Blob)} {key : Option StringData}

variable {default_val : Option DrString} {s : StringData}

/-- What the code finds in a section that it takes for these octets. -/
def found (sections : THash Blob (THash Blob Blob)) (key : Option StringData) (s : StringData) :
    Option Blob :=
  ((⟨sections⟩ : IniConfig).values.accValue (some s)).bind fun h => h.accValue key

theorem found_octets (hnamed : WellNamed sections) {b : Blob} (h : OctetData b s) :
    found sections key s =
      valueAt sections (key.bind StringData.asciiKey) (b.map UInt8.toUInt32) := by
  change ((s.asciiKey.bind sections.lookup).bind fun h => h.accValue key) = _
  rw [StringData.asciiKey_octets h, bind_some, lookup_octets hnamed]
  rfl

theorem getValue_found {v : Blob} (hvalue : found sections key s = some v) :
    Returns (fun fuel => getValue ⟨sections⟩ key default_val fuel (some s)) (some (.bytes v)) := by
  refine Returns.of_succ_ok fun fuel => ?_
  unfold found at hvalue
  rw [getValue, hvalue]

theorem getValue_nowhere (hempty : s.views.octets = []) (hnone : found sections key s = none) :
    Returns (fun fuel => getValue ⟨sections⟩ key default_val fuel (some s)) default_val := by
  refine Returns.of_succ_ok fun fuel => ?_
  unfold found at hnone
  rw [getValue, hnone]
  simp [hempty]

/-- A pass that goes on with the octets behind the first "/". -/
theorem getValue_further (hne : s.views.octets ≠ []) (hnone : found sections key s = none)
    {r : Option DrString} (hrest : ∀ t, OctetData (parentOctets s.views.octets) t →
      Returns (fun fuel => getValue ⟨sections⟩ key default_val fuel (some t)) r) :
    Returns (fun fuel => getValue ⟨sections⟩ key default_val fuel (some s)) r := by
  unfold found at hnone
  generalize hoctets : s.views.octets = octets at hne hrest
  by_cases hmem : (47 : UInt8) ∈ octets
  · obtain ⟨pre, rest, rfl, hpre⟩ := eq_append_cons_of_mem hmem
    have hdrop : (pre ++ 47 :: rest).drop (pre.length + 1) = rest := by
      rw [drop_append, drop_of_length_le (by omega)]
      simp
    have hfresh : OctetData rest (.ofOctets rest) := ⟨.inl rfl, .inl rfl⟩
    have hparent : parentOctets (pre ++ 47 :: rest) = rest := by
      rw [parentOctets, dropWhile_ne hpre, tail_cons]
    rw [hparent] at hrest
    refine (hrest (.ofOctets rest) hfresh).of_succ fun fuel => ?_
    rw [getValue, hnone]
    simp only [map_some, getD_some, hoctets]
    rw [if_neg (by simp), BString.findChar_eq hpre (Nat.zero_le _)]
    simp only [hdrop]
  · have hparent : parentOctets octets = [] := by
      have hdrop : octets.dropWhile (· ≠ 47) = [] :=
        dropWhile_eq_nil_iff.mpr fun x hx => decide_eq_true fun heq => hmem (heq ▸ hx)
      rw [parentOctets, hdrop]
      rfl
    rw [hparent] at hrest
    refine (hrest .zero ⟨.inr rfl, .inl rfl⟩).of_succ fun fuel => ?_
    rw [getValue, hnone]
    simp only [map_some, getD_some, hoctets]
    rw [if_neg (by simpa using hne), BString.findChar_none hmem]

/-- What `getValue` gives for an answer. -/
def answer (default_val : Option DrString) (r : Option Blob) : Option DrString :=
  r.elim default_val fun v => some (.bytes v)

/-- From a section that is kept as octets on, `getValue` finds the nearest value. -/
theorem getValue_nearest (hnamed : WellNamed sections) {b : Blob} {r : Option Blob}
    (hs : OctetData b s)
    (h : Nearest sections (key.bind StringData.asciiKey) (b.map UInt8.toUInt32) r) :
    Returns (fun fuel => getValue ⟨sections⟩ key default_val fuel (some s))
      (answer default_val r) := by
  generalize hsec : b.map UInt8.toUInt32 = sec at h
  have hoctets : s.views.octets = b :=
    (StringData.asciiKey_eq_some (StringData.asciiKey_octets hs)).1
  induction h generalizing b s with
  | here hvalue => exact getValue_found ((found_octets hnamed hs).trans (hsec ▸ hvalue))
  | nowhere hnone =>
    refine getValue_nowhere ?_ ((found_octets hnamed hs).trans (hsec ▸ hnone))
    rw [hoctets]
    exact map_eq_nil_iff.mp hsec
  | further hne hnone _ ih =>
    subst hsec
    have hb : s.views.octets ≠ [] := by
      rw [hoctets]
      exact fun hnil => hne (map_eq_nil_iff.mpr hnil)
    refine getValue_further hb ((found_octets hnamed hs).trans hnone) fun t ht => ?_
    rw [hoctets] at ht
    exact ih ht (text_parentOctets b)
      (StringData.asciiKey_eq_some (StringData.asciiKey_octets ht)).1

end IniConfig

namespace IniText

section Lossy

/-- The octets of a wide text. -/
def asOctets (w : List UInt32) : Blob := w.map narrowChar

variable {sections : THash Blob (THash Blob Blob)} {w : List UInt32}

/-- A "/" stays one, and nothing else becomes one. -/
theorem parentOctets_asOctets (w : List UInt32) :
    parentOctets (asOctets w) = asOctets (parent w) := by
  change ((w.map narrowChar).dropWhile fun c => decide (c ≠ 47)).tail =
    ((w.dropWhile fun c => decide (c ≠ 47)).tail).map narrowChar
  rw [map_tail, dropWhile_map]
  have hsame : ((fun c : UInt8 => decide (c ≠ 47)) ∘ narrowChar) =
      fun c : UInt32 => decide (c ≠ 47) := by
    funext c
    unfold narrowChar
    by_cases hc : c > 127
    · have hne : c ≠ 47 := fun heq => absurd (heq ▸ hc) (by decide)
      simp [Function.comp, hc, hne]
    · have hround := toUInt8_toUInt32 (UInt32.not_lt.mp hc)
      have hiff : c.toUInt8 = 47 ↔ c = 47 := by
        constructor
        · intro heq
          rw [← hround, heq]
          rfl
        · rintro rfl
          rfl
      simp [Function.comp, hc, hiff]
  rw [hsame]

theorem parent_narrowed (w : List UInt32) : parent (narrowed w) = narrowed (parent w) := by
  change parent ((asOctets w).map UInt8.toUInt32) = _
  rw [← text_parentOctets, parentOctets_asOctets]
  rfl

@[simp] theorem length_asOctets (w : List UInt32) : (asOctets w).length = w.length :=
  length_map narrowChar

/-- An octet of the lossy text is a question mark, or a character below 128. -/
theorem mem_asOctets {x : UInt8} (hx : x ∈ asOctets w) :
    x = 63 ∨ x.toUInt32 ∈ w ∧ x.toUInt32 ≤ 127 := by
  obtain ⟨c, hc, rfl⟩ := mem_map.mp hx
  unfold narrowChar
  by_cases hbig : c > 127
  · rw [if_pos hbig]
    exact .inl rfl
  · have hle := UInt32.not_lt.mp hbig
    rw [if_neg hbig, toUInt8_toUInt32 hle]
    exact .inr ⟨hc, hle⟩

/-- The lossy text has characters below 128, so it is the name of its octets. -/
theorem nameOf_narrowed (w : List UInt32) : nameOf (narrowed w) = some (asOctets w) := by
  refine nameOf_octets (b := asOctets w) fun c hc => ?_
  obtain ⟨c', -, rfl⟩ := mem_map.mp hc
  exact narrowChar_le c'

/-- The octets of a name that is harmless as it has a certain character are no section. -/
theorem lookup_asOctets (hnamed : WellNamed sections) (h : Harmless w)
    (hbig : ¬ ∀ c ∈ w, c ≤ 127) : sections.lookup (asOctets w) = none := by
  obtain ⟨c, hc, hspecial⟩ := h.resolve_left hbig
  refine Finmap.lookup_eq_none.mpr fun hmem => ?_
  have hoctet : narrowChar c ∈ asOctets w := mem_map.mpr ⟨c, hc, rfl⟩
  have hnot := hnamed.section_chars _ hmem _ hoctet
  simp only [mem_cons, not_mem_nil, or_false] at hspecial
  rcases hspecial with rfl | rfl | rfl | rfl <;> exact absurd hnot (by decide)

variable {key : Option Blob}

theorem valueAt_narrowed (hnamed : WellNamed sections) (h : Harmless w) :
    valueAt sections key (narrowed w) = valueAt sections key w := by
  by_cases hascii : ∀ c ∈ w, c ≤ 127
  · rw [narrowed_eq_self hascii]
  · rw [valueAt, valueAt, nameOf_narrowed, nameOf, if_neg hascii]
    simp [lookup_asOctets hnamed h hascii]

/-- Nothing is lost on the way from a section whose outer sections are harmless. -/
theorem Nearest.narrowed (hnamed : WellNamed sections) {r : Option Blob}
    (h : Nearest sections key w r) (hsafe : ∀ k, Harmless (parent^[k] w)) :
    Nearest sections key (narrowed w) r := by
  induction h with
  | here hvalue => exact .here ((valueAt_narrowed hnamed (hsafe 0)).trans hvalue)
  | nowhere hnone => exact .nowhere hnone
  | further hne hnone _ ih =>
    refine .further ?_ ((valueAt_narrowed hnamed (hsafe 0)).trans hnone) ?_
    · exact fun hnil => hne (map_eq_nil_iff.mp (map_eq_nil_iff.mp hnil))
    · rw [parent_narrowed]
      exact ih fun k => hsafe (k + 1)

/-- The data of a wide name are found as it was made, unless their octets are taken for the name of
a section. -/
theorem found_wide (hnamed : WellNamed sections) {s : CallerString} (hmade : s.made = .wide w)
    (hsafe : Harmless w ∨ s.data.asciiKey = none) (key : Option StringData) :
    IniConfig.found sections key s.data =
      valueAt sections (key.bind StringData.asciiKey) w := by
  have htext : s.made.text = w := by rw [hmade, DrString.text]
  change ((s.data.asciiKey.bind sections.lookup).bind fun h => h.accValue key) = _
  cases hname : nameOf w with
  | some name =>
    rw [asciiKey_of_nameOf s (htext ▸ hname), valueAt, hname]
    rfl
  | none =>
    have hbig : ¬ ∀ c ∈ w, c ≤ 127 := fun h => by
      rw [nameOf, if_pos h] at hname
      cases hname
    have hnone : s.data.asciiKey.bind sections.lookup = none := by
      cases hkey : s.data.asciiKey with
      | none => rfl
      | some b =>
        have hoctets : asOctets w = b := by
          rw [← (StringData.asciiKey_eq_some hkey).1, s.octets_eq, hmade]
          rfl
        rw [← hoctets]
        exact lookup_asOctets hnamed (hsafe.resolve_right (by simp [hkey])) hbig
    rw [hnone, valueAt, hname]
    rfl

theorem keyFound_eq (key : Option CallerString) :
    (key.map CallerString.data).bind StringData.asciiKey = keyFound key := by
  cases key <;> rfl

/-- A section that is safe has the values found of a key that is. -/
theorem looksUp_of_safe (hnamed : WellNamed sections) {sec key : Option CallerString}
    (hsafe : SectionSafe sec) (hkey : keyFound key = keyName key) (default_val : Option DrString) :
    LooksUp sections sec key default_val := by
  cases sec with
  | none => exact hsafe.elim
  | some s =>
    obtain ⟨r, hr⟩ := exists_nearest sections (keyName key) s.made.text
    refine ⟨r, hr, ?_⟩
    rw [← hkey, ← keyFound_eq] at hr
    cases hmade : s.made with
    | bytes b =>
      rw [hmade] at hr
      exact IniConfig.getValue_nearest hnamed (s.octetData hmade) hr
    | wide w =>
      have hwide : (∀ k, Harmless (parent^[k + 1] w)) ∧ (Harmless w ∨ s.data.asciiKey = none) := by
        simp only [SectionSafe, hmade] at hsafe
        exact hsafe
      have hoctets : s.data.views.octets = asOctets w := by
        rw [s.octets_eq, hmade]
        rfl
      have hfirst := found_wide hnamed hmade hwide.2 (key.map CallerString.data)
      rw [hmade, DrString.text] at hr
      generalize htext : w = sec at hr
      cases hr with
      | here hvalue => exact IniConfig.getValue_found (hfirst.trans (htext ▸ hvalue))
      | nowhere hnone =>
        refine IniConfig.getValue_nowhere ?_ (hfirst.trans (htext ▸ hnone))
        rw [hoctets, htext]
        rfl
      | further hne hnone hparent =>
        subst htext
        refine IniConfig.getValue_further ?_ (hfirst.trans hnone) fun t ht => ?_
        · rw [hoctets]
          exact fun hnil => hne (map_eq_nil_iff.mp hnil)
        · rw [hoctets, parentOctets_asOctets] at ht
          exact IniConfig.getValue_nearest hnamed ht (hparent.narrowed hnamed hwide.1)

/-- What is taken for no key that a file can have is not found. -/
theorem returns_default (hnamed : WellNamed sections) {sec key : Option StringData}
    (hkey : sec = none ∨ ¬ IsKey (key.bind StringData.asciiKey)) (default_val : Option DrString) :
    Returns (fun fuel => IniConfig.getValue ⟨sections⟩ key default_val fuel sec) default_val := by
  cases sec with
  | none => exact Returns.of_succ_ok fun fuel => rfl
  | some s =>
    have hnot := hkey.resolve_left (by simp)
    have hnone : IniConfig.found sections key s = none := by
      change ((s.asciiKey.bind sections.lookup).bind fun h => h.accValue key) = none
      cases hs : s.asciiKey with
      | none => rfl
      | some b =>
        rw [bind_some, lookup_octets hnamed]
        exact valueAt_eq_none hnamed hnot (b.map UInt8.toUInt32)
    by_cases hempty : s.views.octets = []
    · exact IniConfig.getValue_nowhere hempty hnone
    · exact IniConfig.getValue_further hempty hnone fun t ht =>
        IniConfig.getValue_nearest hnamed ht (nearest_none hnamed hnot _)

end Lossy

end IniText

end Drt
