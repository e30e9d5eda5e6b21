import Drt.Config.IniLookup

/-!
# Which values of an ini file are found

Where the octets of a section, or of one it ends with, are no name for it, there is a file that
has a section of this name and makes the lookup go wrong. So the lookups of `getValue` are right
in all files exactly if this cannot happen.
-/

open List Option

namespace Drt

open Finmap IniConfig

open Outcome StringText

namespace IniText

/-- A file with a line in one section. -/
def valueFile (name : Blob) (l : KeyLine) : Blob := 91 :: (name ++ 93 :: 10 :: l.line)

/-- What the file says. -/
def valueText (name : Blob) (l : KeyLine) : THash Blob (THash Blob Blob) :=
  ((start.step (.opens name)).step (.assigns l.key l.value)).sections

variable {name : Blob} {l : KeyLine}

/-- The two lines of the file. -/
theorem meaning_valueFile (hchars : ∀ c ∈ name, c ∉ [0, 10, 35, 93]) (l : KeyLine) :
    meaning (valueFile name l) = valueText name l := by
  have hnot : ∀ c ∈ [(0 : UInt8), 10, 35, 93], c ∉ name := fun c hc hmem => hchars c hmem hc
  have hnewline : (10 : UInt8) ∉ 91 :: (name ++ [93]) := by
    simp [hnot 10 (by decide)]
  have hcomment : (35 : UInt8) ∉ 91 :: (name ++ [93]) := by
    simp [hnot 35 (by decide)]
  have hfile : valueFile name l = (91 :: (name ++ [93])) ++ 10 :: l.line := by
    simp [valueFile]
  have htext : IniLine.text (91 :: (name ++ [93])) = 91 :: (name ++ [93]) := by
    rw [IniLine.text, takeWhile_ne_self hcomment, trimSpaces, dropWhile_cons,
      if_neg (by decide)]
    simp [show isspace 93 = false by decide]
  have hread : IniLine.read (91 :: (name ++ [93])) = .opens name := by
    have hsection : IniLine.sectionName (91 :: (name ++ [93])) = some name := by
      rw [IniLine.sectionName, if_pos (by simp), takeWhile_ne (hnot 93 (by decide))]
    rw [IniLine.read, htext, hsection]
  have hline : (10 : UInt8) ∉ l.line := fun hin => (l.chars 10 hin).2 (by simp)
  rw [meaning, hfile, splitOn_append_cons_self_of_not_mem hnewline,
    splitOn_eq_singleton hline, map_cons, map_singleton, hread, l.reads]
  rfl

/-- The file is made of characters that a file can have. -/
theorem valueFile_chars (hchars : ∀ c ∈ name, c ≤ 127 ∧ c ∉ [0, 10, 35, 93]) (l : KeyLine) :
    ∀ x ∈ valueFile name l, x ≤ 127 ∧ x ≠ 0 := by
  intro x hx
  simp only [valueFile, mem_cons, mem_append] at hx
  rcases hx with rfl | hx | rfl | rfl | hx
  · decide
  · obtain ⟨hle, hnot⟩ := hchars x hx
    exact ⟨hle, fun heq => hnot (by simp [heq])⟩
  · decide
  · decide
  · obtain ⟨hle, hnot⟩ := l.chars x hx
    exact ⟨hle, fun heq => hnot (by simp [heq])⟩

/-- A section that was opened at the start has no keys. -/
theorem lookup_opened {n : Blob} {h : THash Blob Blob}
    (hlookup : (start.step (.opens name)).sections.lookup n = some h) : h = ∅ := by
  have hstart : ∀ m h, start.sections.lookup m = some h → h = (∅ : THash Blob Blob) := by
    intro m h hm
    have hnil : m = [] := (mem_singleton _ _ _).mp (mem_of_lookup_eq_some hm)
    rw [start, hnil, lookup_singleton_eq] at hm
    exact (Option.some.inj hm).symm
  simp only [step] at hlookup
  split_ifs at hlookup
  · exact hstart n h hlookup
  · by_cases heq : n = name
    · subst heq
      rw [lookup_insert] at hlookup
      exact (Option.some.inj hlookup).symm
    · rw [lookup_insert_of_ne _ heq] at hlookup
      exact hstart n h hlookup

/-- The section of the line. -/
theorem valueText_eq (name : Blob) (l : KeyLine) :
    valueText name l = (start.step (.opens name)).sections.insert name
      ((∅ : THash Blob Blob).insert l.key l.value) := by
  have hmem : name ∈ (start.step (.opens name)).sections :=
    current_step (t := start) ((mem_singleton _ _ _).mpr rfl) (.opens name)
  obtain ⟨h, hlookup⟩ := mem_iff.mp hmem
  have hempty := lookup_opened hlookup
  have hstep : valueText name l = (start.step (.opens name)).sections.insert name
      ((((start.step (.opens name)).sections.lookup name).getD ∅).insert l.key l.value) := rfl
  rw [hstep, hlookup, hempty]
  rfl

/-- The file has few sections and keys. -/
theorem sectionsFit_valueText (name : Blob) (l : KeyLine) : SectionsFit (valueText name l) := by
  have hempty : THash.Fits (∅ : THash Blob Blob) := Nat.zero_le _
  have hopen : SectionsFit (start.step (.opens name)).sections := by
    simp only [step]
    split_ifs with hmem
    · exact sectionsFit_start
    · refine (sectionsFit_insert sectionsFit_start).mpr ⟨?_, hempty⟩
      refine (THash.fits_insert_iff sectionsFit_start.1).mpr (.inr ?_)
      rw [start, keys_singleton, Finset.card_singleton]
      decide
  rw [valueText_eq]
  refine (sectionsFit_insert hopen).mpr ⟨?_, ?_⟩
  · exact (THash.fits_insert_iff hopen.1).mpr
      (.inl (current_step (t := start) ((mem_singleton _ _ _).mpr rfl) (.opens name)))
  · exact (THash.fits_insert_iff hempty).mpr (.inr (by decide))

/-- Only the section of the line has a value for its key. -/
theorem valueAt_valueText {sec : List UInt32} {v : Blob} :
    valueAt (valueText name l) (some l.key) sec = some v ↔
      nameOf sec = some name ∧ v = l.value := by
  rw [valueAt, valueText_eq]
  cases hname : nameOf sec with
  | none => simp
  | some n =>
    by_cases heq : n = name
    · subst heq
      rw [bind_some, lookup_insert, bind_some, bind_some,
        lookup_insert]
      simp [eq_comm]
    · rw [bind_some, lookup_insert_of_ne _ heq]
      cases hlookup : (start.step (.opens name)).sections.lookup n with
      | none => simp [heq]
      | some h =>
        rw [lookup_opened hlookup, bind_some, bind_some, lookup_empty]
        simp [heq]

variable {u w : List UInt32}

theorem length_iterate_parent_lt {i j : Nat} (hlt : i < j) (hne : parent^[i] w ≠ []) :
    (parent^[j] w).length < (parent^[i] w).length := by
  induction j with
  | zero => omega
  | succ j ih =>
    rw [Function.iterate_succ_apply']
    by_cases heq : i = j
    · subst heq
      exact length_parent_lt hne
    · have hprev := ih (by omega)
      have hle : (parent (parent^[j] w)).length ≤ (parent^[j] w).length := by
        by_cases hnil : parent^[j] w = []
        · rw [hnil]
          exact Nat.le_refl _
        · exact Nat.le_of_lt (length_parent_lt hnil)
      omega

/-- The section that a lossy name stands for is found, through the sections in front of it. -/
theorem nearest_narrowed (l : KeyLine) (j : Nat) (hne : parent^[j] w ≠ []) :
    Nearest (valueText (asOctets (parent^[j] w)) l) (some l.key) (narrowed w) (some l.value) := by
  induction j generalizing w with
  | zero => exact .here (valueAt_valueText.mpr ⟨nameOf_narrowed w, rfl⟩)
  | succ j ih =>
    have hrest := ih (w := parent w) hne
    have hnil : w ≠ [] := by
      rintro rfl
      refine hne ?_
      rw [Function.iterate_fixed rfl]
    have hlt := length_iterate_parent_lt (w := w) (i := 0) (j := j + 1) (Nat.succ_pos j) hnil
    refine .further ?_ ?_ ?_
    · exact fun heq => hnil (map_eq_nil_iff.mp (map_eq_nil_iff.mp heq))
    · cases hvalue : valueAt (valueText (asOctets (parent^[j + 1] w)) l) (some l.key)
          (narrowed w) with
      | none => rfl
      | some v =>
        obtain ⟨hname, -⟩ := valueAt_valueText.mp hvalue
        rw [nameOf_narrowed] at hname
        have hlength := congrArg List.length (Option.some.inj hname)
        rw [length_asOctets, length_asOctets] at hlength
        simp only [Function.iterate_zero, id_eq] at hlt
        omega
    · rw [parent_narrowed]
      exact hrest

/-- The octets of a name that is not harmless can be a section name. -/
theorem chars_of_not_harmless (hspoilt : ¬ Harmless u) :
    ∀ x ∈ asOctets u, x ≤ 127 ∧ x ∉ [0, 10, 35, 93] := by
  intro x hx
  have hspecial : ∀ c ∈ u, c ∉ [0, 10, 35, 93] := fun c hc hin => hspoilt (.inr ⟨c, hc, hin⟩)
  rcases mem_asOctets hx with rfl | ⟨hmem, hle⟩
  · decide
  · refine ⟨?_, fun hin => hspecial _ hmem ?_⟩
    · rw [UInt32.le_iff_toNat_le, UInt8.toNat_toUInt32] at hle
      rw [UInt8.le_iff_toNat_le]
      exact hle
    · simp only [mem_cons, not_mem_nil, or_false] at hin
      rcases hin with rfl | rfl | rfl | rfl <;> decide

/-- A section with ASCII characters that has the length of the lossy name has the value, if any
has. -/
theorem chars_of_value {sec : List UInt32} {v : Blob}
    (hvalue : valueAt (valueText (asOctets u) l) (some l.key) sec = some v) :
    (∀ c ∈ sec, c ≤ 127) ∧ sec.length = u.length := by
  obtain ⟨hname, -⟩ := valueAt_valueText.mp hvalue
  rw [nameOf] at hname
  split_ifs at hname with hsec
  have hlen := congrArg List.length (Option.some.inj hname)
  rw [length_map, length_asOctets] at hlen
  exact ⟨hsec, hlen⟩

/-- A section has no value where only the lossy name of it, or of an outer section, has one. -/
theorem not_nearest_narrowed {k : Nat} (hspoilt : ¬ Harmless (parent^[k] w)) {v : Blob} :
    ¬ Nearest (valueText (asOctets (parent^[k] w)) l) (some l.key) w (some v) := by
  intro hr
  generalize hu : parent^[k] w = u at hspoilt hr
  have hbig : ¬ ∀ c ∈ u, c ≤ 127 := fun h => hspoilt (.inl h)
  have hune : u ≠ [] := by
    rintro rfl
    exact hbig (by simp)
  obtain ⟨j, hj⟩ := hr.exists_value
  obtain ⟨hsec, hlen⟩ := chars_of_value hj
  rcases Nat.lt_trichotomy j k with hlt | rfl | hlt
  · have hne : parent^[j] w ≠ [] := fun hnil => by
      rw [hnil, length_nil] at hlen
      exact hune (length_eq_zero_iff.mp hlen.symm)
    have hdown := length_iterate_parent_lt hlt hne
    rw [hu] at hdown
    omega
  · exact hbig (hu ▸ hsec)
  · have hdown := length_iterate_parent_lt hlt (hu ▸ hune)
    rw [hu] at hdown
    omega

variable {s : CallerString} {key : Option CallerString}

/-- The file with the lossy name of a section, where the code finds the value and the section has
none. -/
theorem not_looksUp_of_found {k : Nat} (hmade : s.made = .wide w)
    (hspoilt : ¬ Harmless (parent^[k] w)) (hname : keyName key = some l.key)
    (hcode : Returns (fun fuel => getValue ⟨valueText (asOctets (parent^[k] w)) l⟩
      (key.map CallerString.data) none fuel (some s.data)) (some (.bytes l.value))) :
    ¬ LooksUp (valueText (asOctets (parent^[k] w)) l) (some s) key none := by
  rintro ⟨r, hr, hreturns⟩
  have hanswer := hreturns.unique hcode
  rw [hname, map_some, hmade] at hr
  cases r with
  | none => cases hanswer
  | some v => exact not_nearest_narrowed hspoilt hr

/-- A key that a file can have is found as it was made. -/
theorem keyFound_of_keyName {name : Blob} (h : keyName key = some name) :
    keyFound key = some name := by
  obtain ⟨k, rfl, hk⟩ := bind_eq_some_iff.mp h
  exact asciiKey_of_nameOf k hk

/-- A section whose own octets are taken for the name of a section is not looked up right in the
file with this section. -/
theorem not_looksUp_first (hmade : s.made = .wide w) (hspoilt : ¬ Harmless w)
    (hkey : s.data.asciiKey ≠ none) (hname : keyName key = some l.key) :
    ¬ LooksUp (valueText (asOctets w) l) (some s) key none := by
  have hascii : s.data.asciiKey = some (asOctets w) := by
    obtain ⟨b, hb⟩ := ne_none_iff_exists'.mp hkey
    rw [hb, ← (StringData.asciiKey_eq_some hb).1, s.octets_eq, hmade]
    rfl
  refine not_looksUp_of_found (k := 0) hmade hspoilt hname (getValue_found ?_)
  have hnamed : WellNamed (valueText (asOctets w) l) := by
    rw [← meaning_valueFile fun c hc => (chars_of_not_harmless hspoilt c hc).2]
    exact wellNamed_meaning (valueFile_chars (chars_of_not_harmless hspoilt) l)
  change ((s.data.asciiKey.bind (valueText (asOctets w) l).lookup).bind fun h =>
    h.accValue (key.map CallerString.data)) = _
  rw [hascii, bind_some, lookup_octets hnamed]
  change valueAt _ ((key.map CallerString.data).bind StringData.asciiKey) (narrowed w) = _
  rw [keyFound_eq, keyFound_of_keyName hname]
  exact valueAt_valueText.mpr ⟨nameOf_narrowed w, rfl⟩

/-- A section with an outer section that is not harmless is not looked up right in the file with
the lossy name of it. -/
theorem not_looksUp_outer {k : Nat} (hmade : s.made = .wide w)
    (hspoilt : ¬ Harmless (parent^[k + 1] w)) (hname : keyName key = some l.key) :
    ¬ LooksUp (valueText (asOctets (parent^[k + 1] w)) l) (some s) key none := by
  refine not_looksUp_of_found hmade hspoilt hname ?_
  have hune : parent^[k + 1] w ≠ [] := fun hnil => hspoilt (.inl (by simp [hnil]))
  have hwne : w ≠ [] := by
    rintro rfl
    exact hune (Function.iterate_fixed rfl (k + 1))
  have hshort := length_iterate_parent_lt (w := w) (i := 0) (Nat.succ_pos k) hwne
  have hnamed : WellNamed (valueText (asOctets (parent^[k + 1] w)) l) := by
    rw [← meaning_valueFile fun c hc => (chars_of_not_harmless hspoilt c hc).2]
    exact wellNamed_meaning (valueFile_chars (chars_of_not_harmless hspoilt) l)
  have hoctets : s.data.views.octets = asOctets w := by
    rw [s.octets_eq, hmade]
    rfl
  have hfound : keyFound key = some l.key := keyFound_of_keyName hname
  have hfirst : found (valueText (asOctets (parent^[k + 1] w)) l)
      (key.map CallerString.data) s.data = none := by
    change ((s.data.asciiKey.bind (valueText _ l).lookup).bind fun h =>
      h.accValue (key.map CallerString.data)) = none
    cases hkey : s.data.asciiKey with
    | none => rfl
    | some b =>
      have hb : asOctets w = b := hoctets.symm.trans (StringData.asciiKey_eq_some hkey).1
      rw [bind_some, ← hb, lookup_octets hnamed]
      change valueAt _ ((key.map CallerString.data).bind StringData.asciiKey) (narrowed w) = none
      rw [keyFound_eq, hfound]
      cases hvalue : valueAt (valueText (asOctets (parent^[k + 1] w)) l) (some l.key)
          (narrowed w) with
      | none => rfl
      | some v =>
        have hlen := (chars_of_value hvalue).2
        rw [narrowed, length_map, length_map] at hlen
        exact absurd hlen (Nat.ne_of_gt hshort)
  refine getValue_further ?_ hfirst fun t ht => ?_
  · rw [hoctets]
    exact fun hnil => hwne (map_eq_nil_iff.mp hnil)
  · rw [hoctets, parentOctets_asOctets] at ht
    have hnear := nearest_narrowed (w := parent w) l k hune
    rw [← hfound, ← keyFound_eq] at hnear
    exact getValue_nearest hnamed ht hnear

/-- A key that is in the section without a name is found from every section. -/
theorem Nearest.ne_none {sections : THash Blob (THash Blob Blob)} {key : Option Blob}
    {sec : List UInt32} {r : Option Blob} {v : Blob} (hvalue : valueAt sections key [] = some v)
    (h : Nearest sections key sec r) : r ≠ none := by
  induction h with
  | here _ => simp
  | nowhere hnone => rw [hvalue] at hnone; cases hnone
  | further _ _ _ ih => exact ih

theorem valueAt_unnamed (l : KeyLine) : valueAt (valueText [] l) (some l.key) [] = some l.value :=
  valueAt_valueText.mpr ⟨rfl, rfl⟩

theorem not_looksUp_null (hname : keyName key = some l.key) :
    ¬ LooksUp (valueText [] l) none key none := by
  rintro ⟨r, hr, hreturns⟩
  rw [hname] at hr
  obtain ⟨v, rfl⟩ := ne_none_iff_exists'.mp (hr.ne_none (valueAt_unnamed l))
  have hnull : Returns (fun fuel => getValue ⟨valueText [] l⟩
      (key.map CallerString.data) none fuel none) none := Returns.of_succ_ok fun fuel => rfl
  have heq := hreturns.unique hnull
  cases heq

/-- A key that is taken for the one of a line without a section is found. -/
theorem exists_returns_unnamed (s : CallerString) (hkey : keyFound key = some l.key) :
    ∃ v, Returns (fun fuel => getValue ⟨valueText [] l⟩ (key.map CallerString.data) none
      fuel (some s.data)) (some (.bytes v)) := by
  have hnamed : WellNamed (valueText [] l) := by
    rw [← meaning_valueFile (by simp)]
    exact wellNamed_meaning (valueFile_chars (by simp) l)
  have hkey' := (keyFound_eq key).trans hkey
  cases hfound : found (valueText [] l) (key.map CallerString.data) s.data with
  | some v => exact ⟨v, getValue_found hfound⟩
  | none =>
    have hne : s.data.views.octets ≠ [] := by
      intro hnil
      have htext : s.made.text = [] := by
        rw [s.octets_eq] at hnil
        cases hmade : s.made with
        | bytes b =>
          rw [hmade] at hnil
          exact map_eq_nil_iff.mpr hnil
        | wide w =>
          rw [hmade] at hnil
          exact map_eq_nil_iff.mp hnil
      have hascii : s.data.asciiKey = some [] := asciiKey_of_nameOf s (by rw [htext]; rfl)
      have hunnamed := valueAt_unnamed l
      rw [← hkey'] at hunnamed
      unfold found THash.accValue at hfound
      rw [bind_some, hascii, bind_some] at hfound
      exact absurd (hunnamed.symm.trans hfound) (by simp)
    obtain ⟨r, hr⟩ := exists_nearest (valueText [] l) (some l.key)
      ((parentOctets s.data.views.octets).map UInt8.toUInt32)
    obtain ⟨v, rfl⟩ := ne_none_iff_exists'.mp (hr.ne_none (valueAt_unnamed l))
    rw [← hkey'] at hr
    exact ⟨v, getValue_further hne hfound fun t ht =>
      getValue_nearest hnamed ht hr⟩

/-- The values for a section and a key are right in all files that can be read exactly when their
lookup is safe. -/
theorem looksUp_iff (sec key : Option CallerString) :
    (∀ content default_val, (∀ x ∈ content, x ≤ 127 ∧ x ≠ 0) → SectionsFit (meaning content) →
      LooksUp (meaning content) sec key default_val) ↔ LookupSafe sec key := by
  constructor
  · intro h
    have hfile : ∀ name : Blob, (∀ c ∈ name, c ≤ 127 ∧ c ∉ [0, 10, 35, 93]) → ∀ l : KeyLine,
        LooksUp (valueText name l) sec key none := fun name hchars l => by
      have hmeaning := meaning_valueFile (fun c hc => (hchars c hc).2) l
      have hlooks := h (valueFile name l) none (valueFile_chars hchars l)
      rw [hmeaning] at hlooks
      exact hlooks (sectionsFit_valueText name l)
    constructor
    · rintro ⟨l, hname⟩
      cases sec with
      | none => exact not_looksUp_null hname (hfile _ (by simp) l)
      | some s =>
        simp only [SectionSafe]
        split
        · trivial
        · rename_i w hmade
          constructor
          · intro k
            by_contra hspoilt
            exact not_looksUp_outer hmade hspoilt hname (hfile _ (chars_of_not_harmless hspoilt) l)
          · by_contra hnot
            obtain ⟨hspoilt, hkey⟩ := not_or.mp hnot
            exact not_looksUp_first hmade hspoilt hkey hname
              (hfile _ (chars_of_not_harmless hspoilt) l)
    · intro hkey
      by_contra hnot
      obtain ⟨hsec, hfound⟩ := not_or.mp hnot
      obtain ⟨l, hl⟩ := not_not.mp hfound
      obtain ⟨s, rfl⟩ := ne_none_iff_exists'.mp hsec
      obtain ⟨r, hr, hreturns⟩ := hfile [] (by simp) l
      obtain ⟨v, hv⟩ := exists_returns_unnamed s hl
      have hnamed : WellNamed (valueText [] l) := by
        rw [← meaning_valueFile (by simp)]
        exact wellNamed_meaning (valueFile_chars (by simp) l)
      obtain rfl := hr.unique (nearest_none hnamed hkey _)
      cases hreturns.unique hv
  · rintro ⟨hsafe, hnokey⟩ content default_val hchars _
    have hnamed := wellNamed_meaning hchars
    by_cases hkey : IsKey (keyName key)
    · obtain ⟨l, hname⟩ := hkey
      refine looksUp_of_safe hnamed (hsafe ⟨l, hname⟩) ?_ default_val
      rw [hname, keyFound_of_keyName hname]
    · refine ⟨none, nearest_none hnamed hkey _, returns_default hnamed ?_ default_val⟩
      rw [keyFound_eq, map_eq_none_iff]
      exact hnokey hkey

/-- A file is read as what it says exactly when there are nodes for its sections and keys, and the
values for a section and a key are found exactly if their lookup is safe. -/
theorem iniConfig_iff (schedule : Schedule) (content : Blob) (sec key : Option CallerString) :
    ((∀ x ∈ content, x ≤ 127 ∧ x ≠ 0) →
      (Returns (fun fuel => IniConfig.doInitialize fuel (.new (.fresh schedule content)))
        ⟨meaning content⟩ ↔ SectionsFit (meaning content))) ∧
    ((∀ content default_val, (∀ x ∈ content, x ≤ 127 ∧ x ≠ 0) →
      SectionsFit (meaning content) → LooksUp (meaning content) sec key default_val) ↔
        LookupSafe sec key) := by
  refine ⟨?_, looksUp_iff sec key⟩
  intro hchars
  exact doInitialize_iff schedule fun hzero => (hchars 0 hzero).2 rfl

/-- In the file "[?]" and "a=b", the section "a/" and a wide character 228 finds the value of the
section "?". In "[??]" and "a=b", two wide characters whose hash value is the one of "??" find the
value of "??" once their data have octets, as they do after the first call. -/
theorem not_looksUp_wide :
    ¬ LooksUp (meaning (ascii "[?]\na=b")) (some (.fresh (.wide [97, 47, 228])))
      (some (.fresh (.bytes [97]))) none ∧
    ¬ LooksUp (meaning (ascii "[??]\na=b")) (some ⟨.wide [228, 5246], _, .byte (.hash .refl)⟩)
      (some (.fresh (.bytes [97]))) none := by
  let l : KeyLine := ⟨[97, 61, 98], [97], [98], by decide, by decide⟩
  have hname : keyName (some (.fresh (.bytes [97]))) = some l.key := by decide
  constructor
  · have hspoilt : ¬ Harmless (parent^[0 + 1] [97, 47, 228]) := by
      unfold Harmless
      decide
    have hmeaning : meaning (ascii "[?]\na=b") = _ :=
      meaning_valueFile (fun c hc => (chars_of_not_harmless hspoilt c hc).2) l
    rw [hmeaning]
    exact not_looksUp_outer rfl hspoilt hname
  · have hspoilt : ¬ Harmless [228, 5246] := by
      unfold Harmless
      decide
    have hmeaning : meaning (ascii "[??]\na=b") = _ :=
      meaning_valueFile (fun c hc => (chars_of_not_harmless hspoilt c hc).2) l
    rw [hmeaning]
    exact not_looksUp_first rfl hspoilt (by decide) hname

end IniText

end Drt
