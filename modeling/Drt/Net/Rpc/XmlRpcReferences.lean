import Drt.Net.Rpc.XmlRpcContent

/-!
# Character data and its references

What character data denotes: a reference stands for a character by the name of an entity or by
the number of the character, and any other `&` is refused. `convertToString` compares three
characters of a name, leaves the number to `strtol`, and keeps an octet of it.
-/

open List

namespace Drt

open Outcome

namespace CharacterData

/-- The entities that need no declaration, with the characters they stand for. -/
def entities : List (Blob × UInt8) :=
  [(ascii "lt;", 60), (ascii "gt;", 62), (ascii "amp;", 38), (ascii "quot;", 34),
    (ascii "apos;", 39)]

/-- The character of a number up to a semicolon, in UTF-8, if there is such a character. -/
def numbered (base before : Nat) (text : Blob) : Option (Blob × Nat) :=
  let digits := digitRun base text
  if digits ≠ [] ∧ text[digits.length]? = some 59 ∧ (numeral base digits).isValidChar then
    some (String.utf8EncodeChar (Char.ofNat (numeral base digits)), before + digits.length + 1)
  else none

/-- What the reference at the start of a text stands for, and how much of the text it is. The text
starts behind the `&`. -/
def denoted (str : Blob) : Option (Blob × Nat) :=
  match entities.find? fun entity => entity.1.isPrefixOf str with
  | some (name, character) => some ([character], name.length)
  | none =>
    match str with
    | 35 :: 120 :: text => numbered 16 2 text
    | 35 :: text => numbered 10 1 text
    | _ => none

/-- A text of character data, and the text it denotes. -/
inductive Denotes : Blob → Blob → Prop where
  | nil : Denotes [] []
  | char {c : UInt8} {text out : Blob} (plain : c ≠ 38) (h : Denotes text out) :
      Denotes (c :: text) (c :: out)
  | reference {str octets out : Blob} {n : Nat} (denoted : denoted str = some (octets, n))
      (h : Denotes (str.drop n) out) : Denotes (38 :: str) (octets ++ out)

end CharacterData

namespace XmlRpcDecoder

open CharacterData

variable {octets out rest str text : Blob} {n : Nat}

theorem reference_of_short (h : str.length < 3) : reference str = .fault := by
  have hlength : (ascii "lt;").length = 3 := by decide
  unfold reference
  simp only [hlength, if_pos h, fault_bind]

/-- The cases of a reference, for a text that is long enough. -/
theorem reference_of_long (h : 3 ≤ str.length) :
    reference str =
      if str.take 3 = ascii "lt;" then .ok (60, 3)
      else if str.take 3 = ascii "gt;" then .ok (62, 3)
      else if str.take 3 = ascii "quo" then .ok (34, 5)
      else if str.take 3 = ascii "amp" then .ok (38, 4)
      else if str.head? = some 35 then
        if (str.drop 1)[(strtol 0 (str.drop 1)).2]? = some 59 then
          .ok (UInt8.ofNat ((strtol 0 (str.drop 1)).1 % 256).toNat, (strtol 0 (str.drop 1)).2 + 2)
        else if (str.drop 1)[(strtol 0 (str.drop 1)).2]? = none then .fault
        else .raise (.invalidFormatException "xmlchr" "&")
      else .raise (.invalidFormatException "xmlspecial" "&") := by
  have hlt : (ascii "lt;").length = 3 := by decide
  have hgt : (ascii "gt;").length = 3 := by decide
  have hquo : (ascii "quo").length = 3 := by decide
  have hamp : (ascii "amp").length = 3 := by decide
  have hlong : ¬ str.length < 3 := by omega
  unfold reference
  simp only [hlt, hgt, hquo, hamp, if_neg hlong, ok_bind, decide_eq_true_eq]
  generalize (str.drop 1)[(strtol 0 (str.drop 1)).2]? = stop
  match stop with
  | none => rfl
  | some c =>
    by_cases hc : c = 59
    · subst hc
      rfl
    · simp [hc]

/-- A reference by a number. -/
theorem reference_number (h : 2 ≤ text.length) :
    reference (35 :: text) =
      if text[(strtol 0 text).2]? = some 59 then
        .ok (UInt8.ofNat ((strtol 0 text).1 % 256).toNat, (strtol 0 text).2 + 2)
      else if text[(strtol 0 text).2]? = none then .fault
      else .raise (.invalidFormatException "xmlchr" "&") := by
  have hheads : ∀ name ∈ [ascii "lt;", ascii "gt;", ascii "quo", ascii "amp"],
      name.head? ≠ some 35 := by decide
  have hnames : ∀ name ∈ [ascii "lt;", ascii "gt;", ascii "quo", ascii "amp"],
      (35 :: text).take 3 ≠ name := by
    rintro name hname rfl
    exact hheads _ hname rfl
  rw [reference_of_long (by simp; omega), if_neg (hnames _ (by simp)), if_neg (hnames _ (by simp)),
    if_neg (hnames _ (by simp)), if_neg (hnames _ (by simp)), if_pos List.head?_cons]
  rfl

theorem exists_number (h : str.head? = some 35) : ∃ text, str = 35 :: text := by
  cases str with
  | nil => cases h
  | cons c text => exact ⟨text, congrArg (· :: text) (Option.some.inj h)⟩

/-- A number that goes on as what comes behind the text has it. -/
def Open (str : Blob) : Prop := ∃ text, str = 35 :: text ∧ Unfinished text

/-- A reference that is settled within a text, whatever comes behind the text. -/
theorem reference_append (rest : Blob) (hclosed : ¬ Open str) (hfault : reference str ≠ .fault) :
    reference (str ++ rest) = reference str := by
  have hlong : 3 ≤ str.length := by
    by_contra hshort
    exact hfault (reference_of_short (by omega))
  by_cases hnumber : str.head? = some 35
  · obtain ⟨text, rfl⟩ := exists_number hnumber
    have hlength : 2 ≤ text.length := by simpa using hlong
    rw [reference_number hlength] at hfault ⊢
    have hstop : (strtol 0 text).2 < text.length := by
      by_contra hend
      rw [List.getElem?_eq_none (Nat.not_lt.mp hend)] at hfault
      exact hfault (by simp)
    rw [cons_append, reference_number (by simp; omega),
      strtol_append_of_lt rest (fun h => hclosed ⟨text, rfl, h⟩) hstop,
      List.getElem?_append_left hstop]
  · have htake : (str ++ rest).take 3 = str.take 3 := take_append_of_le_length hlong
    have hne : str ≠ [] := by
      rintro rfl
      simp at hlong
    rw [reference_of_long hlong, reference_of_long (by simp; omega), htake,
      List.head?_append_of_ne_nil _ hne]
    simp only [hnumber, if_false]

section Entities

variable {name : Blob} {character : UInt8} (h : (name, character) ∈ entities) (rest : Blob)
include h

theorem denoted_entity : denoted (name ++ rest) = some ([character], name.length) := by
  simp only [entities, mem_cons, Prod.mk.injEq, not_mem_nil, or_false] at h
  rcases h with ⟨rfl, rfl⟩ | ⟨rfl, rfl⟩ | ⟨rfl, rfl⟩ | ⟨rfl, rfl⟩ | ⟨rfl, rfl⟩
  all_goals rfl

theorem reference_entity (hname : name ≠ ascii "apos;") :
    reference (name ++ rest) = .ok (character, name.length) := by
  simp only [entities, mem_cons, Prod.mk.injEq, not_mem_nil, or_false] at h
  rcases h with ⟨rfl, rfl⟩ | ⟨rfl, rfl⟩ | ⟨rfl, rfl⟩ | ⟨rfl, rfl⟩ | ⟨rfl, rfl⟩
  · rw [reference_of_long (by simp [ascii])]
    rfl
  · rw [reference_of_long (by simp [ascii])]
    rfl
  · rw [reference_of_long (by simp [ascii])]
    rfl
  · rw [reference_of_long (by simp [ascii])]
    rfl
  · exact absurd rfl hname

end Entities

theorem reference_apos (rest : Blob) :
    reference (ascii "apos;" ++ rest) = .raise (.invalidFormatException "xmlspecial" "&") := by
  rw [reference_of_long (by simp [ascii])]
  rfl

/-- So is a number of base 16 as it is written in references. -/
theorem reference_hex (h : text ≠ []) :
    reference (35 :: 120 :: text) = .raise (.invalidFormatException "xmlchr" "&") := by
  have hnumber : strtol 0 (120 :: text) = (0, 0) := by
    have hhex : hexPrefixed (120 :: text) = false := by
      match text with
      | [] => rfl
      | [_] => rfl
      | _ :: _ :: _ => rfl
    have hdigit : digitValue 120 = 33 := by decide
    rw [strtol_digit 0 (by decide), strtolUnsigned]
    simp [hhex, digitRun, hdigit]
  have hlength := length_pos_iff.mpr h
  rw [reference_number (by rw [length_cons]; omega), hnumber]
  rfl

theorem stops_semicolon (rest : Blob) : Stops (59 :: rest) := by
  intro c hc
  obtain rfl := Option.some.inj hc
  decide

theorem find?_entities_number (text : Blob) :
    (entities.find? fun entity => entity.1.isPrefixOf (35 :: text)) = none := rfl

section Decimals

variable {digits : Blob} (hne : digits ≠ []) (hdigits : ∀ c ∈ digits, digitValue c < 10)
  (rest : Blob)
include hne hdigits

/-- A decimal reference denotes the character of its number. -/
theorem denoted_decimal (hvalid : (numeral 10 digits).isValidChar) :
    denoted (35 :: (digits ++ 59 :: rest)) =
      some (String.utf8EncodeChar (Char.ofNat (numeral 10 digits)), digits.length + 2) := by
  have hrun : digitRun 10 (digits ++ 59 :: rest) = digits :=
    digitRun_append (by decide) hdigits (stops_semicolon rest)
  have hnumbered : numbered 10 1 (digits ++ 59 :: rest) =
      some (String.utf8EncodeChar (Char.ofNat (numeral 10 digits)), digits.length + 2) := by
    unfold numbered
    simp only [hrun]
    rw [if_pos ⟨hne, by simp, hvalid⟩]
    congr 2
    omega
  rw [← hnumbered]
  match digits, hne with
  | c :: digits, _ =>
    have hc : c ≠ 120 := by
      rintro rfl
      exact absurd (hdigits 120 mem_cons_self) (by decide)
    simp only [denoted, cons_append, find?_entities_number]
    split
    · next heq => exact absurd (List.cons.inj (List.cons.inj heq).2).1 hc
    · next heq => rw [(List.cons.inj heq).2]
    · next hnone => exact absurd rfl (hnone _)

/-- `convertToString` takes the low octet of the number, unless it is in octal digits and not all
are of this base. -/
theorem reference_decimal :
    let base := if digits.head? = some 48 then 8 else 10
    reference (35 :: (digits ++ 59 :: rest)) =
      if digitRun base digits = digits then
        .ok (UInt8.ofNat (clampLong (numeral base digits : Nat) % 256).toNat, digits.length + 2)
      else .raise (.invalidFormatException "xmlchr" "&") := by
  intro base
  have hlength := length_pos_iff.mpr hne
  have hstrtol : strtol 0 (digits ++ 59 :: rest) =
      (clampLong (numeral base (digitRun base digits) : Nat), (digitRun base digits).length) :=
    strtol_decimal hne hdigits (stops_semicolon rest)
  rw [reference_number (by rw [length_append, length_cons]; omega), hstrtol]
  by_cases hrun : digitRun base digits = digits
  · rw [if_pos hrun]
    simp only [hrun]
    rw [if_pos (by simp)]
  · -- the digits of the base end at a digit, and that is no semicolon
    have hstart : digitRun base digits <+: digits := List.takeWhile_prefix _
    have hlt : (digitRun base digits).length < digits.length :=
      Nat.lt_of_le_of_ne hstart.length_le fun heq => hrun (hstart.eq_of_length heq)
    have hstop : (digits ++ 59 :: rest)[(digitRun base digits).length]? =
        some digits[(digitRun base digits).length] := by
      rw [List.getElem?_append_left hlt, List.getElem?_eq_getElem hlt]
    have hne59 : digits[(digitRun base digits).length] ≠ 59 := by
      intro heq
      have hdigit := hdigits _ (getElem_mem hlt)
      rw [heq] at hdigit
      exact absurd hdigit (by decide)
    rw [if_neg hrun, hstop, if_neg (by simpa using hne59), if_neg (by simp)]

end Decimals

/-- What denotes a character by its number. -/
theorem numbered_cases {base before : Nat} (h : numbered base before text = some (octets, n)) :
    ∃ digits rest, digits ≠ [] ∧ (∀ c ∈ digits, digitValue c < base) ∧
      (numeral base digits).isValidChar ∧ text = digits ++ 59 :: rest ∧
      octets = String.utf8EncodeChar (Char.ofNat (numeral base digits)) ∧
      n = before + digits.length + 1 := by
  unfold numbered at h
  simp only [Option.ite_none_right_eq_some, Option.some.injEq, Prod.mk.injEq] at h
  obtain ⟨⟨hne, hend, hvalid⟩, rfl, rfl⟩ := h
  have hsplit :
      digitRun base text ++ text.dropWhile (fun c => decide (digitValue c < base)) = text :=
    takeWhile_append_dropWhile
  have hdigits : ∀ c ∈ digitRun base text, digitValue c < base := fun c hc =>
    of_decide_eq_true (all_eq_true.mp all_takeWhile c hc)
  generalize digitRun base text = digits at *
  generalize text.dropWhile _ = tail at hsplit
  subst hsplit
  rw [List.getElem?_append_right (Nat.le_refl _), Nat.sub_self] at hend
  match tail, hend with
  | c :: rest, hend =>
    obtain rfl : c = 59 := Option.some.inj hend
    exact ⟨digits, rest, hne, hdigits, hvalid, rfl, rfl, rfl⟩

/-- What denotes a character. -/
theorem denoted_cases (h : denoted str = some (octets, n)) :
    (∃ name character rest, (name, character) ∈ entities ∧ str = name ++ rest ∧
        octets = [character] ∧ n = name.length) ∨
      (∃ text, text ≠ [] ∧ str = 35 :: 120 :: text) ∨
      ∃ digits rest, digits ≠ [] ∧ (∀ c ∈ digits, digitValue c < 10) ∧
        (numeral 10 digits).isValidChar ∧ str = 35 :: (digits ++ 59 :: rest) ∧
        octets = String.utf8EncodeChar (Char.ofNat (numeral 10 digits)) ∧
          n = digits.length + 2 := by
  unfold denoted at h
  split at h
  · next name character hfind =>
    have hstart : name.isPrefixOf str = true :=
      List.find?_some (p := fun entity : Blob × UInt8 => entity.1.isPrefixOf str) hfind
    obtain ⟨rest, rfl⟩ := isPrefixOf_iff_prefix.mp hstart
    obtain ⟨rfl, rfl⟩ := Prod.mk.inj (Option.some.inj h)
    exact .inl ⟨name, character, rest, mem_of_find?_eq_some hfind, rfl, rfl, rfl⟩
  · split at h
    · next text =>
      obtain ⟨digits, rest, hne, -, -, rfl, -⟩ := numbered_cases h
      exact .inr (.inl ⟨digits ++ 59 :: rest, by simp, rfl⟩)
    · next text =>
      obtain ⟨digits, rest, hne, hdigits, hvalid, rfl, rfl, rfl⟩ := numbered_cases h
      exact .inr (.inr ⟨digits, rest, hne, hdigits, hvalid, rfl, rfl, by omega⟩)
    · cases h

/-- The text that character data denotes is determined. -/
theorem denotes_unique {out' : Blob} (h : Denotes text out) (h' : Denotes text out') :
    out = out' := by
  induction h generalizing out' with
  | nil =>
    cases h'
    rfl
  | char plain h ih =>
    cases h' with
    | char _ h' => rw [ih h']
    | reference _ _ => exact absurd rfl plain
  | reference hdenoted h ih =>
    cases h' with
    | char plain _ => exact absurd rfl plain
    | reference hdenoted' h' =>
      obtain ⟨rfl, rfl⟩ := Prod.mk.inj (Option.some.inj (hdenoted.symm.trans hdenoted'))
      rw [ih h']

section Loop

/-- The loop of `convertToString` over a text, with anything behind it. -/
def converted (text rest : Blob) : Call Blob := convertFrom text.length text.length (text ++ rest)

/-- More passes than octets are not needed. -/
theorem convertFrom_of_le {fuel len : Nat} (h : len ≤ fuel) (str : Blob) :
    convertFrom fuel len str = convertFrom len len str := by
  have hsame (fuel' : Nat) (h' : len ≤ fuel') :
      convertFrom fuel len str = convertFrom fuel' len str := by
    induction fuel generalizing len str fuel' with
    | zero =>
      obtain rfl := Nat.le_zero.mp h
      cases fuel' <;> rfl
    | succ fuel ih =>
      cases len with
      | zero => cases fuel' <;> rfl
      | succ len =>
        obtain ⟨fuel', rfl⟩ : ∃ n, fuel' = n + 1 := ⟨fuel' - 1, by omega⟩
        cases str with
        | nil => rfl
        | cons c str =>
          have hless (taken : Nat) (str : Blob) :
              convertFrom fuel (len - taken) str = convertFrom fuel' (len - taken) str :=
            ih (by omega) str fuel' (by omega)
          have hplain := hless 0 str
          rw [Nat.sub_zero] at hplain
          rw [convertFrom, convertFrom]
          simp only [hless, hplain]
  exact hsame len (Nat.le_refl _)

variable {c : UInt8} {str rest : Blob}

theorem converted_char (hc : c ≠ 38) :
    converted (c :: str) rest = converted str rest >>= fun out => .ok (c :: out) := by
  unfold converted
  rw [length_cons, cons_append, convertFrom, if_neg hc]

theorem converted_reference :
    converted (38 :: str) rest = reference (str ++ rest) >>= fun r =>
      convertFrom (str.length - r.2) (str.length - r.2) ((str ++ rest).drop r.2) >>= fun out =>
        .ok (r.1 :: out) := by
  unfold converted
  rw [length_cons, cons_append, convertFrom, if_pos rfl]
  have hless (taken : Nat) (text : Blob) : convertFrom str.length (str.length - taken) text =
      convertFrom (str.length - taken) (str.length - taken) text :=
    convertFrom_of_le (Nat.sub_le _ _) text
  simp only [hless]

variable {o : UInt8} {n : Nat} (href : reference (str ++ rest) = .ok (o, n))
include href

theorem converted_taken (hn : n ≤ str.length) :
    converted (38 :: str) rest = converted (str.drop n) rest >>= fun out => .ok (o :: out) := by
  rw [converted_reference, href, ok_bind]
  unfold converted
  rw [length_drop, drop_append_of_le_length hn]

theorem converted_beyond (hn : str.length ≤ n) : converted (38 :: str) rest = .ok [o] := by
  rw [converted_reference, href, ok_bind]
  simp only [Nat.sub_eq_zero_of_le hn]
  rfl

end Loop

/-- The character of a number below 128 is one octet, and that of a larger one has more. -/
theorem utf8EncodeChar_cases (hvalid : n.isValidChar) :
    (n < 128 → String.utf8EncodeChar (Char.ofNat n) = [UInt8.ofNat n]) ∧
      (128 ≤ n → 2 ≤ (String.utf8EncodeChar (Char.ofNat n)).length) := by
  have hval : (Char.ofNat n).val.toNat = n := by
    rw [Char.ofNat, dif_pos hvalid]
    rfl
  unfold String.utf8EncodeChar
  simp only [hval]
  constructor
  · intro hsmall
    rw [if_pos (by omega)]
  · intro hlarge
    rw [if_neg (by omega)]
    split_ifs
    · simp
    · simp
    · simp

/-- The texts that are converted to what they denote: references are those of four entities, and
decimal ones below 128 that base 8 does not change. -/
inductive Handled : Blob → Prop where
  | nil : Handled []
  | char {c : UInt8} {text : Blob} (plain : c ≠ 38) (h : Handled text) : Handled (c :: text)
  | entity {name text : Blob} {character : UInt8} (known : (name, character) ∈ entities)
      (other : name ≠ ascii "apos;") (h : Handled text) : Handled (38 :: (name ++ text))
  | decimal {digits text : Blob} (nonempty : digits ≠ [])
      (decimal : ∀ c ∈ digits, digitValue c < 10)
      (small : numeral 10 digits < 128) (zero : digits.head? = some 48 → numeral 10 digits < 8)
      (h : Handled text) : Handled (38 :: 35 :: (digits ++ 59 :: text))

/-- The names of references by their first three octets, and how much is taken for each. -/
def referenceNames : List (Blob × Nat) :=
  [(ascii "lt;", 3), (ascii "gt;", 3), (ascii "quo", 5), (ascii "amp", 4)]

/-- This much of a text is taken for a reference. The text starts behind the `&`. -/
inductive Takes : Blob → Nat → Prop where
  | name {str : Blob} {n : Nat} (known : (str.take 3, n) ∈ referenceNames) : Takes str n
  | number {text : Blob} (long : 2 ≤ text.length) (finished : ¬ Unfinished text)
      (ends : text[(strtol 0 text).2]? = some 59) : Takes (35 :: text) ((strtol 0 text).2 + 2)

/-- Another name, or another octet behind a number. -/
inductive Refuses : Blob → Prop where
  | name {str : Blob} (long : 3 ≤ str.length) (start : str.head? ≠ some 35)
      (other : ∀ n, (str.take 3, n) ∉ referenceNames) : Refuses str
  | number {text : Blob} {c : UInt8} (long : 2 ≤ text.length) (finished : ¬ Unfinished text)
      (ends : text[(strtol 0 text).2]? = some c) (other : c ≠ 59) : Refuses (35 :: text)

/-- The texts in which the decoder comes to something that it refuses. What it takes for the
references before it is within the text. -/
inductive Refused : Blob → Prop where
  | char {c : UInt8} {text : Blob} (plain : c ≠ 38) (h : Refused text) : Refused (c :: text)
  | taken {str : Blob} {n : Nat} (takes : Takes str n) (within : n ≤ str.length)
      (h : Refused (str.drop n)) : Refused (38 :: str)
  | refused {str : Blob} (refuses : Refuses str) : Refused (38 :: str)

theorem open_number : Open (35 :: text) ↔ Unfinished text := by
  constructor
  · rintro ⟨text', heq, h⟩
    cases heq
    exact h
  · exact fun h => ⟨text, rfl, h⟩

theorem not_open_of_head (h : str.head? ≠ some 35) : ¬ Open str := by
  rintro ⟨text, rfl, -⟩
  exact h rfl

theorem name_mem (h : (str.take 3, n) ∈ referenceNames) : 3 ≤ str.length ∧ str.head? ≠ some 35 := by
  have hnames : ∀ name ∈ referenceNames, name.1.length = 3 ∧ name.1.head? ≠ some 35 := by decide
  obtain ⟨hlength, hhead⟩ := hnames _ h
  rw [length_take] at hlength
  rw [List.head?_take] at hhead
  exact ⟨by omega, by simpa using hhead⟩

theorem reference_known (h : (str.take 3, n) ∈ referenceNames) :
    ∃ o, reference str = .ok (o, n) := by
  obtain ⟨hlong, -⟩ := name_mem h
  have hgt : ascii "gt;" ≠ ascii "lt;" := by decide
  have hquo : ascii "quo" ≠ ascii "lt;" ∧ ascii "quo" ≠ ascii "gt;" := by decide
  have hamp : ascii "amp" ≠ ascii "lt;" ∧ ascii "amp" ≠ ascii "gt;" ∧
      ascii "amp" ≠ ascii "quo" := by
    decide
  rw [reference_of_long hlong]
  simp only [referenceNames, mem_cons, Prod.mk.injEq, not_mem_nil, or_false] at h
  obtain ⟨h, rfl⟩ | ⟨h, rfl⟩ | ⟨h, rfl⟩ | ⟨h, rfl⟩ := h
  · exact ⟨60, if_pos h⟩
  · rw [h, if_neg hgt, if_pos rfl]
    exact ⟨62, rfl⟩
  · rw [h, if_neg hquo.1, if_neg hquo.2, if_pos rfl]
    exact ⟨34, rfl⟩
  · rw [h, if_neg hamp.1, if_neg hamp.2.1, if_neg hamp.2.2, if_pos rfl]
    exact ⟨38, rfl⟩

theorem reference_unknown (hlong : 3 ≤ str.length) (hhead : str.head? ≠ some 35)
    (h : ∀ n, (str.take 3, n) ∉ referenceNames) :
    reference str = .raise (.invalidFormatException "xmlspecial" "&") := by
  have hother {name : Blob} (n : Nat) (hname : (name, n) ∈ referenceNames) : str.take 3 ≠ name := by
    rintro heq
    exact h n (heq ▸ hname)
  rw [reference_of_long hlong, if_neg (hother 3 (by decide)), if_neg (hother 3 (by decide)),
    if_neg (hother 5 (by decide)), if_neg (hother 4 (by decide)), if_neg hhead]

/-- What is taken for a reference, and what is not. -/
theorem takes_or_refuses (hclosed : ¬ Open str) (hfault : reference str ≠ .fault) :
    (∃ o n, reference str = .ok (o, n) ∧ Takes str n) ∨
      ∃ e, reference str = .raise e ∧ Refuses str := by
  have hlong : 3 ≤ str.length := by
    by_contra hshort
    exact hfault (reference_of_short (by omega))
  by_cases hhead : str.head? = some 35
  · obtain ⟨text, rfl⟩ := exists_number hhead
    have long : 2 ≤ text.length := by simpa using hlong
    have finished : ¬ Unfinished text := fun h => hclosed ⟨text, rfl, h⟩
    have href := reference_number long
    cases ends : text[(strtol 0 text).2]? with
    | none =>
      rw [ends, if_neg (by simp), if_pos rfl] at href
      exact absurd href hfault
    | some c =>
      by_cases hc : c = 59
      · subst hc
        rw [ends, if_pos rfl] at href
        exact .inl ⟨_, _, href, .number long finished ends⟩
      · rw [ends, if_neg (by simpa using hc), if_neg (by simp)] at href
        exact .inr ⟨_, href, .number long finished ends hc⟩
  · by_cases hknown : ∃ n, (str.take 3, n) ∈ referenceNames
    · obtain ⟨n, hknown⟩ := hknown
      obtain ⟨o, href⟩ := reference_known hknown
      exact .inl ⟨o, n, href, .name hknown⟩
    · have hother : ∀ n, (str.take 3, n) ∉ referenceNames := fun n h => hknown ⟨n, h⟩
      exact .inr ⟨_, reference_unknown hlong hhead hother, .name hlong hhead hother⟩

theorem Takes.taken (h : Takes str n) : ¬ Open str ∧ ∃ o, reference str = .ok (o, n) := by
  cases h with
  | name known => exact ⟨not_open_of_head (name_mem known).2, reference_known known⟩
  | number long finished ends =>
    refine ⟨fun h => finished (open_number.mp h), ?_⟩
    rw [reference_number long, if_pos ends]
    exact ⟨_, rfl⟩

theorem Refuses.refused (h : Refuses str) : ¬ Open str ∧ ∃ e, reference str = .raise e := by
  cases h with
  | name long start other => exact ⟨not_open_of_head start, _, reference_unknown long start other⟩
  | number long finished ends other =>
    refine ⟨fun h => finished (open_number.mp h), ?_⟩
    rw [reference_number long, ends, if_neg (by simpa using other), if_neg (by simp)]
    exact ⟨_, rfl⟩

section Decimals

variable {digits : Blob} (hne : digits ≠ []) (hdigits : ∀ c ∈ digits, digitValue c < 10)
  (rest : Blob)
include hne hdigits

/-- A decimal reference that is handled. -/
theorem reference_small (hsmall : numeral 10 digits < 128)
    (hzero : digits.head? = some 48 → numeral 10 digits < 8) :
    reference (35 :: (digits ++ 59 :: rest)) =
      .ok (UInt8.ofNat (numeral 10 digits), digits.length + 2) := by
  have hwhole {base : Nat} (h : ∀ c ∈ digits, digitValue c < base) :
      digitRun base digits = digits := by
    have happend :
        (digits ++ []).takeWhile (fun c => decide (digitValue c < base)) = digits ++ [] :=
      takeWhile_append_of_pos fun c hc => decide_eq_true (h c hc)
    rwa [append_nil] at happend
  have hclamp : UInt8.ofNat (clampLong (numeral 10 digits : Nat) % 256).toNat =
      UInt8.ofNat (numeral 10 digits) := by
    unfold clampLong
    congr 1
    omega
  have href := reference_decimal hne hdigits rest
  simp only at href
  rw [href]
  by_cases hhead : digits.head? = some 48
  · obtain ⟨hoctal, hvalue⟩ := octal_of_small (hzero hhead)
    simp only [if_pos hhead, hwhole hoctal, hvalue, if_true, hclamp]
  · simp only [if_neg hhead, hwhole hdigits, if_true, hclamp]

/-- Another decimal reference is not taken for what it denotes: the octet that is kept is another
one, or the character has more. -/
theorem reference_large {o : UInt8} {n : Nat} (hvalid : (numeral 10 digits).isValidChar)
    (hlarge : ¬ (numeral 10 digits < 128 ∧ (digits.head? = some 48 → numeral 10 digits < 8)))
    (href : reference (35 :: (digits ++ 59 :: rest)) = .ok (o, n)) :
    n = digits.length + 2 ∧
      ∀ tail out, tail.length ≤ out.length →
        o :: tail ≠ String.utf8EncodeChar (Char.ofNat (numeral 10 digits)) ++ out := by
  obtain ⟨hone, hmore⟩ := utf8EncodeChar_cases hvalid
  have hdecimal := reference_decimal hne hdigits rest
  simp only at hdecimal
  rw [hdecimal] at href
  by_cases hsmall : numeral 10 digits < 128
  · -- the digits of base 8 have another value
    have hoctal : digits.head? = some 48 ∧ 8 ≤ numeral 10 digits := by
      by_contra hnot
      exact hlarge ⟨hsmall, fun hhead => Nat.not_le.mp fun h8 => hnot ⟨hhead, h8⟩⟩
    rw [if_pos hoctal.1] at href
    split_ifs at href with hrun
    obtain ⟨rfl, rfl⟩ := Prod.mk.inj (Outcome.ok.inj href)
    have hall : ∀ c ∈ digits, digitValue c < 8 := by
      intro c hc
      rw [← hrun] at hc
      exact of_decide_eq_true (all_eq_true.mp all_takeWhile c hc)
    have hlt := octal_lt hall hoctal.2
    refine ⟨rfl, fun tail out _ heq => ?_⟩
    rw [hone hsmall] at heq
    have hoctet := congrArg UInt8.toNat (List.cons.inj heq).1
    rw [UInt8.toNat_ofNat', UInt8.toNat_ofNat'] at hoctet
    unfold clampLong at hoctet
    omega
  · split_ifs at href
    all_goals
      obtain ⟨rfl, rfl⟩ := Prod.mk.inj (Outcome.ok.inj href)
      refine ⟨rfl, fun tail out hlength heq => ?_⟩
      have hcount := congrArg List.length heq
      rw [length_cons, length_append] at hcount
      have htwo := hmore (by omega)
      omega

end Decimals

/-- What is taken for a reference is all of it, as long as there is a result. -/
theorem reference_denoted {m : Nat} {o : UInt8} (h : denoted str = some (octets, n))
    (href : reference (str ++ rest) = .ok (o, m)) : m = n ∧ n ≤ str.length ∧ 1 ≤ octets.length := by
  rcases denoted_cases h with ⟨name, character, text, hknown, rfl, rfl, rfl⟩ | ⟨text, hne, rfl⟩ |
    ⟨digits, text, hne, hdigits, hvalid, rfl, rfl, rfl⟩
  · rw [append_assoc] at href
    by_cases hname : name = ascii "apos;"
    · rw [hname, reference_apos] at href
      cases href
    · rw [reference_entity hknown _ hname] at href
      obtain ⟨-, rfl⟩ := Prod.mk.inj (Outcome.ok.inj href)
      simp
  · rw [cons_append, cons_append, reference_hex (by simp [hne])] at href
    cases href
  · obtain ⟨hone, hmore⟩ := utf8EncodeChar_cases hvalid
    have hoctets : 1 ≤ (String.utf8EncodeChar (Char.ofNat (numeral 10 digits))).length := by
      by_cases hsmall : numeral 10 digits < 128
      · rw [hone hsmall]
        exact Nat.le_refl _
      · have htwo := hmore (by omega)
        omega
    have hlength : digits.length + 2 ≤ (35 :: (digits ++ 59 :: text)).length := by simp
    rw [cons_append, append_assoc, cons_append] at href
    refine ⟨?_, hlength, hoctets⟩
    by_cases hsmall : numeral 10 digits < 128 ∧ (digits.head? = some 48 → numeral 10 digits < 8)
    · rw [reference_small hne hdigits _ hsmall.1 hsmall.2] at href
      exact (Prod.mk.inj (Outcome.ok.inj href)).2.symm
    · exact (reference_large hne hdigits _ hvalid hsmall href).1

/-- The decoder makes no more octets than the text denotes. -/
theorem length_le_of_converted {result : Blob} (h : Denotes text out)
    (hresult : converted text rest = .ok result) : result.length ≤ out.length := by
  induction h generalizing result with
  | nil =>
    cases hresult
    exact Nat.le_refl _
  | char plain h ih =>
    rw [converted_char plain] at hresult
    obtain ⟨result', hresult', heq⟩ := bind_eq_ok.mp hresult
    cases heq
    exact Nat.succ_le_succ (ih hresult')
  | @reference str octets out n hdenoted h ih =>
    have hfirst := hresult
    rw [converted_reference] at hfirst
    obtain ⟨⟨o, m⟩, href, -⟩ := bind_eq_ok.mp hfirst
    obtain ⟨rfl, hn, hoctets⟩ := reference_denoted hdenoted href
    rw [converted_taken href hn] at hresult
    obtain ⟨result', hresult', heq⟩ := bind_eq_ok.mp hresult
    cases heq
    have hle := ih hresult'
    rw [length_cons, length_append]
    omega

/-- A text that is handled is converted to what it denotes. -/
theorem Handled.converted (h : Handled text) :
    ∃ out, Denotes text out ∧ ∀ rest, converted text rest = .ok out := by
  induction h with
  | nil => exact ⟨[], .nil, fun _ => rfl⟩
  | @char c text plain h ih =>
    obtain ⟨out, hout, hconverted⟩ := ih
    refine ⟨c :: out, .char plain hout, fun rest => ?_⟩
    rw [converted_char plain, hconverted, ok_bind]
  | @entity name text character known other h ih =>
    obtain ⟨out, hout, hconverted⟩ := ih
    refine ⟨[character] ++ out, .reference (denoted_entity known text) ?_, fun rest => ?_⟩
    · rwa [drop_left]
    · have href : reference (name ++ text ++ rest) = .ok (character, name.length) := by
        rw [append_assoc]
        exact reference_entity known _ other
      rw [converted_taken href (by simp), drop_left, hconverted, ok_bind]
      rfl
  | @decimal digits text nonempty decimal small zero h ih =>
    obtain ⟨out, hout, hconverted⟩ := ih
    have hvalid : (numeral 10 digits).isValidChar := .inl (by omega)
    have hdrop : (35 :: (digits ++ 59 :: text)).drop (digits.length + 2) = text := by simp
    refine ⟨[UInt8.ofNat (numeral 10 digits)] ++ out, .reference (n := digits.length + 2) ?_ ?_,
      fun rest => ?_⟩
    · rw [denoted_decimal nonempty decimal text hvalid, (utf8EncodeChar_cases hvalid).1 small]
    · rwa [hdrop]
    · have href : reference (35 :: (digits ++ 59 :: text) ++ rest) =
          .ok (UInt8.ofNat (numeral 10 digits), digits.length + 2) := by
        rw [cons_append, append_assoc, cons_append]
        exact reference_small nonempty decimal _ small zero
      rw [converted_taken href (by simp), hdrop, hconverted, ok_bind]
      rfl

/-- A text that is converted to what it denotes is handled. -/
theorem handled_of_converted (h : Denotes text out) (hconverted : converted text [] = .ok out) :
    Handled text := by
  induction h with
  | nil => exact .nil
  | char plain h ih =>
    rw [converted_char plain] at hconverted
    obtain ⟨out', hout', heq⟩ := bind_eq_ok.mp hconverted
    cases heq
    exact .char plain (ih hout')
  | @reference str octets out n hdenoted h ih =>
    have hfirst := hconverted
    rw [converted_reference] at hfirst
    obtain ⟨⟨o, m⟩, href, -⟩ := bind_eq_ok.mp hfirst
    obtain ⟨rfl, hn, -⟩ := reference_denoted hdenoted href
    rw [converted_taken href hn] at hconverted
    obtain ⟨tail, htail, heq⟩ := bind_eq_ok.mp hconverted
    have hresult := Outcome.ok.inj heq
    have hlength := length_le_of_converted h htail
    rcases denoted_cases hdenoted with ⟨name, character, text, hknown, rfl, rfl, rfl⟩ |
      ⟨text, hne, rfl⟩ | ⟨digits, text, hne, hdigits, hvalid, rfl, rfl, rfl⟩
    · rw [append_nil] at href
      have hname : name ≠ ascii "apos;" := by
        rintro rfl
        rw [reference_apos] at href
        cases href
      rw [drop_left] at ih htail
      obtain ⟨-, rfl⟩ := List.cons.inj hresult
      exact .entity hknown hname (ih htail)
    · rw [append_nil, reference_hex hne] at href
      cases href
    · rw [append_nil] at href
      have hsmall : numeral 10 digits < 128 ∧ (digits.head? = some 48 → numeral 10 digits < 8) := by
        by_contra hlarge
        exact (reference_large hne hdigits _ hvalid hlarge href).2 tail out hlength hresult
      have hdrop : (35 :: (digits ++ 59 :: text)).drop (digits.length + 2) = text := by simp
      rw [hdrop] at ih htail
      rw [(utf8EncodeChar_cases hvalid).1 hsmall.1] at hresult
      obtain ⟨-, rfl⟩ := List.cons.inj hresult
      exact .decimal hne hdigits hsmall.1 hsmall.2 (ih htail)

/-- The digits of a number that is open may stand behind the text. -/
theorem reference_open (h : Open str) :
    ∃ o n, reference (str ++ [53, 59]) = .ok (o, n) ∧ str.length ≤ n := by
  obtain ⟨text, rfl, hunfinished⟩ := h
  have hstop := strtol_unfinished hunfinished
  have hsemicolon : (text ++ [53, 59])[text.length + 1]? = some 59 := by
    rw [List.getElem?_append_right (by omega)]
    simp
  rw [cons_append, reference_number (by simp), hstop, if_pos hsemicolon]
  exact ⟨_, _, rfl, by simp⟩

/-- A text with a reference that is refused is refused, whatever comes behind it. -/
theorem Refused.raises (h : Refused text) (rest : Blob) : ∃ e, converted text rest = .raise e := by
  induction h with
  | char plain h ih =>
    obtain ⟨e, he⟩ := ih
    exact ⟨e, by rw [converted_char plain, he, raise_bind]⟩
  | @taken str n takes within h ih =>
    obtain ⟨e, he⟩ := ih
    obtain ⟨closed, o, takes⟩ := takes.taken
    have href : reference (str ++ rest) = .ok (o, n) := by
      rw [reference_append rest closed (by rw [takes]; simp), takes]
    exact ⟨e, by rw [converted_taken href within, he, raise_bind]⟩
  | @refused str refuses =>
    obtain ⟨closed, e, raises⟩ := refuses.refused
    have href : reference (str ++ rest) = .raise e := by
      rw [reference_append rest closed (by rw [raises]; simp), raises]
    exact ⟨e, by rw [converted_reference, href, raise_bind]⟩

/-- A text that is refused, whatever comes behind it, has such a reference. The induction is on the
length of the text, as the decoder goes on behind what it takes. -/
theorem refused_of_raises (h : ∀ rest, ∃ e, converted text rest = .raise e) : Refused text := by
  induction hlength : text.length using Nat.strong_induction_on generalizing text with
  | _ length ih =>
    match text with
    | [] =>
      obtain ⟨e, he⟩ := h []
      cases he
    | c :: str =>
      rw [length_cons] at hlength
      by_cases plain : c = 38
      · subst plain
        have hends (rest : Blob) : (∃ r, reference (str ++ rest) = .ok r) ∨
            ∃ e, reference (str ++ rest) = .raise e := by
          obtain ⟨e, he⟩ := h rest
          rw [converted_reference] at he
          cases href : reference (str ++ rest) with
          | ok r => exact .inl ⟨r, rfl⟩
          | raise e => exact .inr ⟨e, rfl⟩
          | fault | outOfFuel =>
            rw [href] at he
            cases he
        have closed : ¬ Open str := by
          intro hopen
          obtain ⟨o, n, href, hn⟩ := reference_open hopen
          obtain ⟨e, he⟩ := h [53, 59]
          rw [converted_beyond href hn] at he
          cases he
        have hstr := hends []
        rw [append_nil] at hstr
        have hfault : reference str ≠ .fault := by
          intro hfault
          rw [hfault] at hstr
          obtain ⟨_, h⟩ | ⟨_, h⟩ := hstr <;> cases h
        obtain ⟨o, n, htaken, takes⟩ | ⟨e, -, refuses⟩ := takes_or_refuses closed hfault
        · have href (rest : Blob) : reference (str ++ rest) = .ok (o, n) := by
            rw [reference_append rest closed hfault, htaken]
          have within : n ≤ str.length := by
            by_contra hbeyond
            obtain ⟨e, he⟩ := h []
            rw [converted_beyond (href []) (by omega)] at he
            cases he
          refine .taken takes within (ih (str.drop n).length ?_ (fun rest => ?_) rfl)
          · rw [length_drop]
            omega
          · obtain ⟨e, he⟩ := h rest
            rw [converted_taken (href rest) within] at he
            cases htail : converted (str.drop n) rest with
            | raise e' => exact ⟨e', rfl⟩
            | _ =>
              rw [htail] at he
              cases he
        · exact .refused refuses
      · refine .char plain (ih str.length (by omega) (fun rest => ?_) rfl)
        obtain ⟨e, he⟩ := h rest
        rw [converted_char plain] at he
        cases htail : converted str rest with
        | raise e' => exact ⟨e', rfl⟩
        | _ =>
          rw [htail] at he
          cases he

/-- Character data is converted to the text it denotes and any other text is refused, whatever
stands behind it. -/
def ConvertsRight (text : Blob) : Prop :=
  (∀ out, Denotes text out →
    ∀ rest, convertToString (text ++ rest) text.length = .ok (.bytes out)) ∧
  ((¬ ∃ out, Denotes text out) →
    ∀ rest, ∃ e, convertToString (text ++ rest) text.length = .raise e)

theorem convertToString_eq (text rest : Blob) :
    convertToString (text ++ rest) text.length =
      converted text rest >>= fun out => .ok (.bytes out) :=
  rfl

/-- A text is converted as it should be exactly if its references are those that are handled, or if
it is no character data and the decoder comes to something that it refuses. -/
theorem convertsRight_iff (text : Blob) :
    ConvertsRight text ↔ Handled text ∨ ((¬ ∃ out, Denotes text out) ∧ Refused text) := by
  unfold ConvertsRight
  simp only [convertToString_eq]
  constructor
  · rintro ⟨hdata, hother⟩
    by_cases hout : ∃ out, Denotes text out
    · obtain ⟨out, hout⟩ := hout
      obtain ⟨result, hresult, heq⟩ := bind_eq_ok.mp (hdata out hout [])
      have hbytes := DrString.bytes.inj (Outcome.ok.inj heq)
      rw [hbytes] at hresult
      exact .inl (handled_of_converted hout hresult)
    · refine .inr ⟨hout, refused_of_raises fun rest => ?_⟩
      obtain ⟨e, he⟩ := hother hout rest
      cases hresult : converted text rest with
      | raise e' => exact ⟨e', rfl⟩
      | _ =>
        rw [hresult] at he
        cases he
  · rintro (hhandled | ⟨hout, hrefused⟩)
    · obtain ⟨out, hout, hconverted⟩ := hhandled.converted
      constructor
      · intro out' hout' rest
        rw [hconverted rest, ok_bind, denotes_unique hout hout']
      · exact fun hnone => absurd ⟨out, hout⟩ hnone
    · constructor
      · exact fun out hdata => absurd ⟨out, hdata⟩ hout
      · intro _ rest
        obtain ⟨e, he⟩ := hrefused.raises rest
        exact ⟨e, by rw [he, raise_bind]⟩

/-- The letter of `&#233;` becomes one octet, and is two in UTF-8. -/
theorem not_convertsRight_letter :
    convertToString (ascii "&#233;") 6 = .ok (.bytes [233]) ∧
      Denotes (ascii "&#233;") [195, 169] ∧ ¬ ConvertsRight (ascii "&#233;") := by
  have hconverted : convertToString (ascii "&#233;") 6 = .ok (.bytes [233]) := by decide
  have hdenotes : Denotes (ascii "&#233;") [195, 169] := by
    have hdenoted : denoted (ascii "#233;") = some ([195, 169], 5) := by decide
    exact Denotes.reference hdenoted .nil
  refine ⟨hconverted, hdenotes, fun h => ?_⟩
  have hright := h.1 _ hdenotes []
  rw [append_nil] at hright
  cases hconverted.symm.trans hright

end XmlRpcDecoder

end Drt
