import Drt.Core.Parse.BinaryRoundTrip
import Mathlib.Data.List.TakeWhile

/-!
# Strings behind their length

`writeVarString` writes all octets of a string, and `readVarString` gets all of them back as a
blob. But a `String` is constructed from a `BString` by way of the pointer to its characters
alone, so that it ends in front of the first zero.
-/

open List Outcome

namespace Drt

def strlen (s : Blob) : Nat := (s.takeWhile (· ≠ 0)).length

namespace DrString

/-- The constructor from a pointer and a length. A negative length is looked for. -/
def ofChars (s : Blob) (length : Int) : DrString :=
  if length < 0 then bytes (s.take (strlen s)) else bytes (s.take length.toNat)

/-- `createUtf8(const BString &)`: of the constructors the one from a pointer is taken, with the
default of its length. A zero stands behind the characters of a `BString`. -/
def createUtf8 (utf8 : Blob) : DrString := ofChars (utf8 ++ [0]) (-1)

/-- `createUtf8(const char *, size_t)`. -/
def createUtf8Len (utf8 : Blob) (size : Nat) : DrString :=
  if size = 0 then bytes [] else bytes (utf8.take size)

/-- What comes of a `BString` ends in front of the first zero. -/
theorem createUtf8_eq (b : Blob) : createUtf8 b = bytes (b.takeWhile (· ≠ 0)) := by
  have hcut : (b ++ [0]).takeWhile (· ≠ 0) = b.takeWhile (· ≠ 0) := by
    induction b with
    | nil => rfl
    | cons c b ih =>
      rw [cons_append, takeWhile_cons, takeWhile_cons, ih]
  rw [createUtf8, ofChars, if_pos (by decide), strlen, hcut, take_append_of_le_length,
    ← prefix_iff_eq_take.mp (List.takeWhile_prefix _)]
  exact (List.takeWhile_prefix _).length_le

/-- What comes of a pointer and a size has all characters, of either function. -/
theorem createUtf8Len_eq (b : Blob) : createUtf8Len (b ++ [0]) b.length = bytes b := by
  rw [createUtf8Len, take_left]
  split_ifs with h
  · rw [length_eq_zero_iff.mp h]
  · rfl

theorem ofChars_eq (b : Blob) : ofChars (b ++ [0]) b.length = bytes b := by
  rw [ofChars, if_neg (Int.not_lt.mpr (Int.natCast_nonneg _)), Int.toNat_natCast, take_left]

theorem length_text (s : DrString) : s.text.length = s.utf8.length := by
  cases s with
  | bytes b => exact length_map _
  | wide w => rw [text, utf8, length_map]

/-- The text up to the first zero is all of it exactly for a text without zeroes. -/
theorem text_createUtf8_iff (b : Blob) : (createUtf8 b).text = (bytes b).text ↔ 0 ∉ b := by
  rw [createUtf8_eq]
  constructor
  · intro h
    have hlength := congrArg List.length h
    rw [length_text, length_text] at hlength
    have hall : b.takeWhile (· ≠ 0) = b :=
      (List.takeWhile_prefix _).eq_of_length hlength
    intro hzero
    have hne := takeWhile_eq_self_iff.mp hall 0 hzero
    cases hne
  · intro h
    rw [takeWhile_eq_self_iff.mpr]
    intro c hc
    rw [decide_eq_true_eq]
    rintro rfl
    exact h hc

/-- The octets of a string have the text of the string, as far as a `BString` goes, exactly if no
character is replaced and none is zero. -/
theorem text_createUtf8_utf8 (s : DrString) :
    (createUtf8 s.utf8).text = s.text ↔ s.Plain ∧ 0 ∉ s.utf8 := by
  constructor
  · intro h
    have hlength := congrArg List.length h
    have hbegins : (createUtf8 s.utf8).text <+: (setUtf8 s.utf8).text := by
      rw [createUtf8_eq]
      exact (List.takeWhile_prefix _).map _
    have hall : (createUtf8 s.utf8).text = (setUtf8 s.utf8).text := by
      apply hbegins.eq_of_length
      rw [hlength, length_text, length_text]
      rfl
    exact ⟨(text_setUtf8_utf8 s).mp (hall.symm.trans h), (text_createUtf8_iff s.utf8).mp hall⟩
  · rintro ⟨hplain, hzero⟩
    rw [(text_createUtf8_iff s.utf8).mpr hzero]
    exact (text_setUtf8_utf8 s).mpr hplain

end DrString

open BinaryWriter BinaryMemReader

/-- `BinaryWriter::writeVarString`. -/
def BinaryWriter.writeVarString {W : Type} [BinaryWriter W] (w : W) (data : DrString)
    (value_name : String) : Call W :=
  writeVarBlob w data.utf8 value_name

/-- `BinaryReader::readVarString`. -/
def BinaryMemReader.readVarString (r : BinaryMemReader) (max_size : Nat) (value_name : String) :
    Call (DrString × BinaryMemReader) := do
  let (data, r) ← r.readVarBlob max_size value_name
  return (DrString.createUtf8 data, r)

/-- Both writers are handed the same octets, and a reader in front of them that takes strings of
`max_size` octets returns the same text and stops behind them. -/
def VarStringReadsBack (max_size : Nat) (data : DrString) : Prop :=
  ∃ octets : List UInt8,
    (∀ (w : BinaryBlobWriter) (value_name : String),
      writeVarString w data value_name = .ok ⟨w.content ++ octets⟩) ∧
    (∀ (w : BinaryMemWriter) (value_name : String), octets.length ≤ w.pendingSize →
      writeVarString w data value_name =
        .ok ⟨w.before ++ octets, w.pending.drop octets.length⟩) ∧
    ∀ (value_name : String) (passed rest : List UInt8), ∃ s : DrString,
      readVarString ⟨passed, octets ++ rest⟩ max_size value_name =
        .ok (s, ⟨octets.reverse ++ passed, rest⟩) ∧ s.text = data.text

variable {data : DrString} {max_size : Nat}

/-- The octets of a string are written behind their number. -/
theorem writeVarString_chunks {W : Type} [BinaryWriter W] (h : data.utf8.length < 2 ^ 60) (w : W)
    (value_name : String) :
    writeVarString w data value_name =
      writeChunks w value_name [varint data.utf8.length, data.utf8] := by
  have hsize : (UInt64.ofNat data.utf8.length).toNat = data.utf8.length :=
    UInt64.toNat_ofNat_of_lt' (by simp only [UInt64.size]; omega)
  have hvar : varintOctets 9 data.utf8.length = .ok (varint data.utf8.length) :=
    varintOctets_eq (by omega)
  simp only [writeVarString, writeVarBlob, writeVarint64, writeBytes, hsize, hvar,
    ok_bind, writeChunks]
  cases writeDirect w (varint data.utf8.length) value_name with
  | ok w => exact (writeChunks_one w value_name data.utf8).symm
  | _ => rfl

/-- The octets behind a number that is small enough are read as far as the first zero. -/
theorem reads_varString {data : Blob} (h : data.length < 2 ^ 60) (hmax : data.length ≤ max_size)
    (value_name : String) :
    Reads (fun r => r.readVarString max_size value_name) (varint data.length ++ data)
      (DrString.createUtf8 data) value_name :=
  (reads_varBlob h hmax value_name).map DrString.createUtf8

/-- A string that is not too long comes back exactly if its octets have its text, as far as a
`BString` goes. -/
theorem varStringReadsBack_short (h : data.utf8.length < 2 ^ 60)
    (hmax : data.utf8.length ≤ max_size) :
    VarStringReadsBack max_size data ↔ data.Plain ∧ 0 ∉ data.utf8 := by
  rw [← DrString.text_createUtf8_utf8]
  have hoctets : [varint data.utf8.length, data.utf8].flatten =
      varint data.utf8.length ++ data.utf8 := by
    rw [flatten_cons, flatten_cons, flatten_nil, append_nil]
  constructor
  · rintro ⟨octets, hblob, -, hread⟩
    have hwrite := hblob ⟨[]⟩ ""
    rw [writeVarString_chunks h, writeChunks_blob, hoctets] at hwrite
    obtain rfl : varint data.utf8.length ++ data.utf8 = octets :=
      congrArg BinaryBlobWriter.content (Outcome.ok.inj hwrite)
    obtain ⟨s, hs, htext⟩ := hread "" [] []
    rw [(reads_varString h hmax "").full] at hs
    cases hs
    exact htext
  · intro htext
    refine ⟨varint data.utf8.length ++ data.utf8, ?_, ?_, ?_⟩
    · intro w value_name
      rw [writeVarString_chunks h, writeChunks_blob, hoctets]
    · intro w value_name hroom
      rw [← hoctets] at hroom
      rw [writeVarString_chunks h, writeChunks_mem _ _ _ hroom, hoctets]
    · intro value_name passed rest
      exact ⟨_, (reads_varString h hmax value_name).full passed rest, htext⟩

theorem length_readBytes {r r' : BinaryMemReader} {count : Nat} {value_name : String}
    {data : List UInt8} (h : r.readBytes count value_name = .ok (data, r')) :
    data.length = count := by
  obtain ⟨r₁, -, hcopy⟩ := bind_eq_ok.mp h
  obtain ⟨copied, hback, heq⟩ := bind_eq_ok.mp hcopy
  cases heq
  unfold copyBack at hback
  split_ifs at hback with hroom
  cases hback
  rw [length_reverse, length_take]
  omega

/-- A string that comes back is short enough for the number in front, and for the reader. -/
theorem VarStringReadsBack.length (h : VarStringReadsBack max_size data) :
    data.utf8.length < 2 ^ 60 ∧ data.utf8.length ≤ max_size := by
  obtain ⟨octets, hblob, -, hread⟩ := h
  -- the number is taken modulo 2^64
  generalize hn : (UInt64.ofNat data.utf8.length).toNat = n
  have hle : n ≤ data.utf8.length := by
    rw [← hn, UInt64.toNat_ofNat']
    exact Nat.mod_le _ _
  obtain ⟨w, hnumber, hbytes⟩ := Outcome.bind_eq_ok.mp (hblob ⟨[]⟩ "")
  obtain ⟨b, hb, hdirect⟩ := bind_eq_ok.mp hnumber
  rw [hn] at hb
  cases hdirect
  obtain rfl : varint n ++ data.utf8 = octets := by
    rw [← varint_of_octets hb]
    exact congrArg BinaryBlobWriter.content (Outcome.ok.inj hbytes)
  obtain ⟨s, hs, htext⟩ := hread "" [] []
  obtain ⟨⟨blob, r⟩, hblob, hmade⟩ := bind_eq_ok.mp hs
  obtain ⟨⟨size, r₁⟩, hsize, hrest⟩ := bind_eq_ok.mp hblob
  cases hmade
  have hlt : n < 2 ^ 60 := by
    by_contra hge
    have hbound : n < 2 ^ 64 := by
      rw [← hn]
      exact UInt64.toNat_lt _
    have hover := readVarint_overflow 64 (0x200000 <<< 32) (v := n) (by omega) (by omega)
      (by omega) "" [] (data.utf8 ++ [])
    rw [append_assoc, readVarint64, hover] at hsize
    cases hsize
  rw [List.append_assoc, (reads_varint64 hlt "").full] at hsize
  cases hsize
  have hvalue : (UInt64.ofNat n).toNat = n :=
    UInt64.toNat_ofNat_of_lt' (by simp only [UInt64.size]; omega)
  simp only [hvalue] at hrest
  split_ifs at hrest with hmax
  have hlength : blob.length = n := length_readBytes hrest
  have hcut : (DrString.createUtf8 blob).utf8.length ≤ blob.length := by
    rw [DrString.createUtf8_eq]
    exact (List.takeWhile_prefix _).length_le
  have hsame := congrArg List.length htext
  rw [DrString.length_text, DrString.length_text] at hsame
  omega

/-- Constructing a `String` from a `BString` gives the same text as constructing it from its
pointer and size, by the constructor or by `createUtf8`. -/
def ConstructedAlike (b : Blob) : Prop :=
  (DrString.createUtf8 b).text = (DrString.ofChars (b ++ [0]) b.length).text ∧
    (DrString.createUtf8 b).text = (DrString.createUtf8Len (b ++ [0]) b.length).text

theorem constructedAlike_iff (b : Blob) : ConstructedAlike b ↔ 0 ∉ b := by
  rw [ConstructedAlike, DrString.ofChars_eq, DrString.createUtf8Len_eq, and_self_iff,
    DrString.text_createUtf8_iff]

/-- A string comes back exactly if no character of it is replaced, none is zero, and its length is
one that the reader takes; and exactly the octets without zeroes make the same string by way of a
`BString` and of a pointer and a size. -/
theorem varString_iff (data : DrString) (max_size : Nat) (b : Blob) :
    (VarStringReadsBack max_size data ↔ data.Plain ∧ 0 ∉ data.utf8 ∧
      data.utf8.length < 2 ^ 60 ∧ data.utf8.length ≤ max_size) ∧
    (ConstructedAlike b ↔ 0 ∉ b) := by
  refine ⟨⟨?_, ?_⟩, constructedAlike_iff b⟩
  · intro h
    obtain ⟨hlength, hmax⟩ := h.length
    obtain ⟨hplain, hzero⟩ := (varStringReadsBack_short hlength hmax).mp h
    exact ⟨hplain, hzero, hlength, hmax⟩
  · rintro ⟨hplain, hzero, hlength, hmax⟩
    exact (varStringReadsBack_short hlength hmax).mpr ⟨hplain, hzero⟩

/-- Of three octets with a zero in the middle one comes back. -/
theorem not_varString_zero : ¬ VarStringReadsBack 255 (.bytes [97, 0, 98]) ∧
    ¬ ConstructedAlike [97, 0, 98] := by
  constructor
  · intro h
    have hzero := ((varStringReadsBack_short (by decide) (by decide)).mp h).2
    exact hzero (by decide)
  · intro h
    exact (constructedAlike_iff [97, 0, 98]).mp h (by decide)

end Drt
