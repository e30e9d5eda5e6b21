import Drt.Core.Parse.Base64RoundTrip
import Drt.Core.Types.AppendNumber
import Drt.Net.Rpc.XmlRpcDocument

/-!
# Integers and binaries in XML-RPC

A leaf stands between its tags, so that it is read back depends on its text only. The
two reads of integers take the sign of a number in their own ways, and `readBinary`
finds a room for its result in its own way too.
-/

open List

namespace Drt

open Outcome XmlRpcEncoder XmlRpcDecoder

/-- Wherever a leaf is written, the read from its start gives the value, and stops at its end.
Behind a leaf that is no parameter comes no end of one. -/
def ReadsBack {α : Type} (write : XmlRpcEncoder → XmlRpcEncoder)
    (read : XmlRpcDecoder → Call (α × XmlRpcDecoder)) (value : α) : Prop :=
  ∀ (e : XmlRpcEncoder) (ahead : Blob), e.value_level = 0 ∨ Follows ahead [] ahead →
    read ⟨(write e).content ++ ahead, e.content.length, none⟩ =
      .ok (value, ⟨(write e).content ++ ahead, (write e).content.length, none⟩)

/-- The call has a result wherever it is made, and that is read back. -/
def WritesBack {α : Type} (call : XmlRpcEncoder → Call XmlRpcEncoder)
    (read : XmlRpcDecoder → Call (α × XmlRpcDecoder)) (value : α) : Prop :=
  ∃ write, (∀ e, call e = .ok (write e)) ∧ ReadsBack write read value

/-- `writeInt(Sint32)` with the negation of `appendNumber`, that has no result for the least number.
What `writeInt32` appends for it is what the negation modulo 2^32 would make. -/
def XmlRpcEncoder.writeInt (e : XmlRpcEncoder) (value : Int32) : Call XmlRpcEncoder :=
  magnitude value.toBitVec >>= fun _ => .ok (e.writeInt32 value)

namespace XmlRpcDecoder

theorem ne_of_isPlain {c : UInt8} (h : XmlGrammar.isPlain c = true) : c ≠ 60 := by
  rintro rfl
  exact absurd h (by decide)

section Leaves

variable {types : List String} {name : String} (hname : IsName name) (hmem : name ∈ types)
  (format_type : String)
include hname

theorem readLeaf_param (behind ahead : Blob) :
    (between behind (openTag "param" ++ (openTag "value" ++ (openTag name ++ ahead)))).readLeaf
        types format_type =
      (between (behind ++ openTag "param") (openTag "value" ++ (openTag name ++ ahead))).readLeaf
        types format_type := by
  rw [readLeaf, readLeaf, moveToNextValue_param hname, moveToNextValue_between hname]

include hmem

/-- The text of a leaf is found where the leaf was written, with the end tag behind it. -/
theorem readLeaf_written (e : XmlRpcEncoder) (start stop : String) {text : Blob}
    (hstart : ascii start = openTag "value" ++ openTag name)
    (hstop : ascii stop = closeTag name ++ closeTag "value") (htext : ∀ c ∈ text, c ≠ 60)
    {ahead : Blob} (hahead : e.value_level = 0 ∨ Follows ahead [] ahead) :
    ∃ tail, readLeaf ⟨(e.writeLeaf start text stop).content ++ ahead, e.content.length, none⟩ types
        format_type =
      .ok ((text ++ 60 :: tail, text.length),
        ⟨(e.writeLeaf start text stop).content ++ ahead,
          (e.writeLeaf start text stop).content.length, none⟩) := by
  have hcontent := (writes_leaf e text hstart hstop).content
  by_cases hlevel : e.value_level = 0
  · refine ⟨47 :: (ascii name ++ [62]) ++ (closeTag "value" ++ (closeTag "param" ++ ahead)), ?_⟩
    rw [if_pos hlevel] at hcontent
    have hbefore : (⟨(e.writeLeaf start text stop).content ++ ahead, e.content.length, none⟩ :
        XmlRpcDecoder) = between e.content (openTag "param" ++ (openTag "value" ++ (openTag name ++
          (text ++ (closeTag name ++ (closeTag "value" ++ (closeTag "param" ++ ahead))))))) := by
      rw [hcontent]
      simp [between, leafText]
    rw [hbefore, readLeaf_param hname,
      readLeaf_between hname _ (follows_param ahead) hmem format_type htext, hcontent]
    simp [between, leafText, closeTag]
  · refine ⟨47 :: (ascii name ++ [62]) ++ (closeTag "value" ++ ahead), ?_⟩
    rw [if_neg hlevel] at hcontent
    have hbefore : (⟨(e.writeLeaf start text stop).content ++ ahead, e.content.length, none⟩ :
        XmlRpcDecoder) = between e.content (openTag "value" ++ (openTag name ++
          (text ++ (closeTag name ++ (closeTag "value" ++ ahead))))) := by
      rw [hcontent]
      simp [between, leafText]
    rw [hbefore, readLeaf_between hname _ (hahead.resolve_left hlevel) hmem format_type htext,
      hcontent]
    simp [between, leafText, closeTag]

end Leaves

section Integers

/-- Digits that are taken off a number, as the reads of a negative number do. -/
theorem foldl_sub (digits : Blob) (x : Int) :
    digits.foldl (fun val c => val * 10 - (digitValue c : Int)) x =
      x * 10 ^ digits.length - (numeral 10 digits : Nat) := by
  induction digits generalizing x with
  | nil => simp [numeral]
  | cons c digits ih =>
    rw [foldl_cons, ih, numeral_cons, length_cons, pow_succ]
    push_cast
    ring

theorem digit_char {c : UInt8} (h : digitValue c < 10) :
    c.toInt8.toInt32 - 48 = Int32.ofInt (digitValue c) ∧ digitOf c = Int64.ofInt (digitValue c) := by
  have hdigit (d : Nat) (hd : d < 10) :
      (digitChar d).toInt8.toInt32 - 48 = Int32.ofInt d ∧ digitOf (digitChar d) = Int64.ofInt d := by
    revert d
    decide
  have hc := hdigit _ h
  rwa [← eq_digitChar h] at hc

variable {digits : Blob} (h : ∀ c ∈ digits, digitValue c < 10)
include h

/-- What is added up in 32 bits. -/
theorem foldl_add32 (number : Nat) :
    digits.foldl (fun val c => val * 10 + c.toInt8.toInt32 - 48) (Int32.ofNat number) =
      Int32.ofNat (digits.foldl (fun number c => number * 10 + digitValue c) number) := by
  induction digits generalizing number with
  | nil => rfl
  | cons c digits ih =>
    obtain ⟨hc, h⟩ := forall_mem_cons.mp h
    have hstep : Int32.ofNat number * 10 + c.toInt8.toInt32 - 48 =
        Int32.ofNat (number * 10 + digitValue c) := by
      rw [Int32.sub_eq_add_neg, Int32.add_assoc, ← Int32.sub_eq_add_neg, (digit_char hc).1,
        Int32.ofNat_add, Int32.ofNat_mul, Int32.ofInt_eq_ofNat]
      rfl
    rw [foldl_cons, hstep, ih h, foldl_cons]

theorem foldl_sub32 (x : Int) :
    digits.foldl (fun val c => val * 10 - (c.toInt8.toInt32 - 48)) (Int32.ofInt x) =
      Int32.ofInt (digits.foldl (fun val c => val * 10 - (digitValue c : Int)) x) := by
  induction digits generalizing x with
  | nil => rfl
  | cons c digits ih =>
    obtain ⟨hc, h⟩ := forall_mem_cons.mp h
    have hstep : Int32.ofInt x * 10 - (c.toInt8.toInt32 - 48) =
        Int32.ofInt (x * 10 - (digitValue c : Int)) := by
      rw [(digit_char hc).1, Int32.ofInt_sub, Int32.ofInt_mul]
      rfl
    rw [foldl_cons, hstep, ih h, foldl_cons]

theorem foldl_sub64 (x : Int) :
    digits.foldl (fun val c => val * 10 - digitOf c) (Int64.ofInt x) =
      Int64.ofInt (digits.foldl (fun val c => val * 10 - (digitValue c : Int)) x) := by
  induction digits generalizing x with
  | nil => rfl
  | cons c digits ih =>
    obtain ⟨hc, h⟩ := forall_mem_cons.mp h
    have hstep : Int64.ofInt x * 10 - digitOf c =
        Int64.ofInt (x * 10 - (digitValue c : Int)) := by
      rw [(digit_char hc).2, Int64.ofInt_sub, Int64.ofInt_mul]
      rfl
    rw [foldl_cons, hstep, ih h, foldl_cons]

end Integers

section IntegerTexts

theorem digits_numberText (number : Nat) : ∀ c ∈ numberText 10 number, digitValue c < 10 :=
  fun _ hc => digitValue_lt_of_mem (by decide) (by decide) hc

/-- `readInt32` takes the text of every number. -/
theorem int32Of_intText (v : Int32) (rest : Blob) :
    int32Of (intText 10 v.toInt ++ rest) (intText 10 v.toInt).length = v := by
  have hlow := v.le_toInt
  have hhigh := v.toInt_lt
  have hvalue : numeral 10 (numberText 10 v.toInt.natAbs) = v.toInt.natAbs :=
    numeral_numberText (by decide) (by decide) (by omega)
  rw [int32Of, take_left]
  by_cases hneg : v.toInt < 0
  · have htext : intText 10 v.toInt = 45 :: numberText 10 v.toInt.natAbs := if_pos hneg
    have hsign : (intText 10 v.toInt ++ rest).head? = some 45 := by
      rw [htext]
      rfl
    rw [if_pos hsign, htext, tail_cons]
    have hfold := foldl_sub32 (digits_numberText v.toInt.natAbs) 0
    rw [foldl_sub, hvalue, Int.zero_mul] at hfold
    have hback : (0 : Int) - (v.toInt.natAbs : Int) = v.toInt := by omega
    rw [hback, Int32.ofInt_toInt] at hfold
    exact hfold
  · have htext : intText 10 v.toInt = numberText 10 v.toInt.natAbs := if_neg hneg
    rw [htext, if_neg (head?_numberText_append _ rest)]
    have hfold := foldl_add32 (digits_numberText v.toInt.natAbs) 0
    refine hfold.trans ?_
    change Int32.ofNat (numeral 10 _) = v
    apply Int32.toInt_inj.mp
    rw [hvalue, Int32.toInt_ofNat_of_lt (by omega)]
    omega

/-- `readInt64` takes the text of a number that is not negative. -/
theorem int64Of_intText {w : Int64} (hw : 0 ≤ w) (rest : Blob) :
    int64Of (intText 10 w.toInt ++ rest) (intText 10 w.toInt).length = w := by
  have hpos : 0 ≤ w.toInt := Int64.le_iff_toInt_le.mp hw
  have hhigh := w.toInt_lt
  have htext : intText 10 w.toInt = numberText 10 w.toInt.natAbs := if_neg (by omega)
  rw [htext, int64Of_numberText (by omega)]
  apply Int64.toInt_inj.mp
  rw [Int64.toInt_ofNat_of_lt (by omega)]
  omega

/-- In a negative number it takes the sign for a digit, and what it gives is positive. -/
theorem int64Of_negative {w : Int64} (hw : w < 0) (rest : Blob) :
    0 < (int64Of (intText 10 w.toInt ++ rest) (intText 10 w.toInt).length).toInt := by
  have hneg : w.toInt < 0 := Int64.lt_iff_toInt_lt.mp hw
  have hlow := w.le_toInt
  have htext : intText 10 w.toInt = 45 :: numberText 10 w.toInt.natAbs := if_pos hneg
  have hsign : (intText 10 w.toInt ++ rest).head? = some 45 := by
    rw [htext]
    rfl
  rw [int64Of, if_pos hsign, take_left, htext,
    dropLast_cons_of_ne_nil (numberText_ne_nil 10 _), foldl_cons]
  generalize hdigits : (numberText 10 w.toInt.natAbs).dropLast = digits
  have hall : ∀ c ∈ digits, digitValue c < 10 := by
    intro c hc
    rw [← hdigits] at hc
    exact digits_numberText _ c (dropLast_subset _ hc)
  have hshort : digits.length ≤ 18 := by
    have hlen : (numberText 10 w.toInt.natAbs).length ≤ 18 + 1 :=
      (length_numberText_le_iff (by decide) (by omega)).mpr (by omega)
    rw [← hdigits, length_dropLast]
    omega
  have hstart : (0 : Int64) * 10 - digitOf 45 = Int64.ofInt 3 := by decide
  rw [hstart, foldl_sub64 hall, foldl_sub]
  have hlt := numeral_lt hall
  have hpow : 10 ^ digits.length ≤ 10 ^ 18 := Nat.pow_le_pow_right (by decide) hshort
  have hcast : (10 : Int) ^ digits.length = ((10 ^ digits.length : Nat) : Int) := by simp
  rw [Int64.toInt_ofInt_of_le (by omega) (by omega)]
  omega

end IntegerTexts

section Results

variable (e : XmlRpcEncoder) {ahead : Blob} (hahead : e.value_level = 0 ∨ Follows ahead [] ahead)
include hahead

theorem readInt32_written (v : Int32) :
    readInt32 ⟨(e.writeInt32 v).content ++ ahead, e.content.length, none⟩ =
      .ok (v, ⟨(e.writeInt32 v).content ++ ahead, (e.writeInt32 v).content.length, none⟩) := by
  have hname : IsName "int" := by decide
  have hmem : "int" ∈ ["i4", "i8", "int"] := by decide
  obtain ⟨tail, htail⟩ := readLeaf_written hname hmem "rpc::int::code" e "<value><int>"
    "</int></value>" (by decide) (by decide)
    (fun _ hc => ne_of_isPlain (isPlain_of_intText hc)) hahead
  rw [readInt32, writeInt32, htail, ok_bind]
  simp only
  rw [int32Of_intText]

/-- Both tags that the encoder has for a `Sint64` hold the text of its number. -/
theorem readInt64_written (w : Int64) :
    ∃ tail, readInt64 ⟨(e.writeInt64 w).content ++ ahead, e.content.length, none⟩ =
      .ok (int64Of (intText 10 w.toInt ++ 60 :: tail) (intText 10 w.toInt).length,
        ⟨(e.writeInt64 w).content ++ ahead, (e.writeInt64 w).content.length, none⟩) := by
  rw [readInt64, writeInt64]
  split_ifs with hsmall
  · have hint : w.toInt32.toInt = w.toInt := by
      have hlow := Int64.le_iff_toInt_le.mp hsmall.1
      have hhigh := Int64.le_iff_toInt_le.mp hsmall.2
      change (-2147483648 : Int) ≤ w.toInt at hlow
      change w.toInt ≤ (2147483647 : Int) at hhigh
      rw [Int64.toInt_toInt32, Int.bmod_eq_of_le (by omega) (by omega)]
    rw [hint]
    have hname : IsName "int" := by decide
    have hmem : "int" ∈ ["i4", "i8", "int"] := by decide
    obtain ⟨tail, htail⟩ := readLeaf_written hname hmem "rpc::int::code" e "<value><int>"
      "</int></value>" (by decide) (by decide) (fun _ hc => ne_of_isPlain (isPlain_of_intText hc))
      hahead
    refine ⟨tail, ?_⟩
    rw [htail, ok_bind]
  · have hname : IsName "i8" := by decide
    have hmem : "i8" ∈ ["i4", "i8", "int"] := by decide
    obtain ⟨tail, htail⟩ := readLeaf_written hname hmem "rpc::int::code" e "<value><i8>"
      "</i8></value>" (by decide) (by decide) (fun _ hc => ne_of_isPlain (isPlain_of_intText hc))
      hahead
    refine ⟨tail, ?_⟩
    rw [htail, ok_bind]

/-- The text of a binary is decoded with a room of its own. -/
theorem readBinary_written (b : Blob) :
    ∃ rest, readBinary ⟨(e.writeBinary b).content ++ ahead, e.content.length, none⟩ =
      (MemBase64.decodeBase64 ((MemBase64.encodeBase64 b).length * 2 / 3 + 2)
          (MemBase64.encodeBase64 b ++ rest) (MemBase64.encodeBase64 b).length >>= fun value =>
        .ok (value,
          ⟨(e.writeBinary b).content ++ ahead, (e.writeBinary b).content.length, none⟩)) := by
  have hname : IsName "base64" := by decide
  have htext : ∀ c ∈ MemBase64.encodeBase64 b, c ≠ 60 := fun c hc =>
    ne_of_isPlain (isPlain_of_base64 hc)
  obtain ⟨tail, htail⟩ := readLeaf_written hname List.mem_cons_self "rpc::base64::code" e
    "<value><base64>" "</base64></value>" (by decide) (by decide) htext hahead
  refine ⟨60 :: tail, ?_⟩
  rw [readBinary, writeBinary, htail, ok_bind]

end Results

theorem writesBack_int32_iff (v : Int32) :
    WritesBack (·.writeInt v) readInt32 v ↔ v ≠ Int32.minValue := by
  have hleast : v ≠ Int32.minValue ↔ v.toBitVec ≠ BitVec.intMin 32 :=
    not_congr Int32.toBitVec_inj.symm
  rw [hleast]
  constructor
  · rintro ⟨write, hcall, -⟩ heq
    have hrun := hcall (new false)
    beta_reduce at hrun
    rw [writeInt, heq, magnitude_intMin (by decide)] at hrun
    cases hrun
  · intro hne
    refine ⟨(·.writeInt32 v), fun e => ?_, fun e ahead hahead => readInt32_written e hahead v⟩
    beta_reduce
    rw [writeInt, magnitude_eq hne, ok_bind]

/-- A `Sint32` is read back exactly if it is not the least one, and a `Sint64` exactly if it is not
negative. -/
theorem readsBack_int_iff (v : Int32) (w : Int64) :
    (WritesBack (·.writeInt v) readInt32 v ∧ ReadsBack (·.writeInt64 w) readInt64 w) ↔
      v ≠ Int32.minValue ∧ 0 ≤ w := by
  rw [writesBack_int32_iff]
  refine and_congr_right fun _ => ⟨fun hread => ?_, fun hw => ?_⟩
  · by_contra hneg
    have hparam : (new false).value_level = 0 ∨ Follows [] [] [] := .inl rfl
    obtain ⟨tail, htail⟩ := readInt64_written (new false) hparam w
    obtain ⟨hvalue, -⟩ := Prod.mk.inj (Outcome.ok.inj
      (htail.symm.trans (hread (new false) [] (.inl rfl))))
    have hpos := int64Of_negative (Int64.not_le.mp hneg) (60 :: tail)
    rw [hvalue] at hpos
    exact hneg (Int64.le_iff_toInt_le.mpr (Int.le_of_lt hpos))
  · intro e ahead hahead
    obtain ⟨tail, htail⟩ := readInt64_written e hahead w
    rw [htail, int64Of_intText hw]

/-- The number `-1` is read as the digit that its sign is taken for. -/
theorem readInt64_minus_one :
    readInt64 ⟨((XmlRpcEncoder.new false).writeInt64 (-1)).content, 0, none⟩ =
        .ok (3, ⟨((XmlRpcEncoder.new false).writeInt64 (-1)).content, 43, none⟩) ∧
      ¬ ReadsBack (·.writeInt64 (-1)) readInt64 (-1) := by
  have hread : readInt64 ⟨((new false).writeInt64 (-1)).content, 0, none⟩ =
      .ok (3, ⟨((new false).writeInt64 (-1)).content, 43, none⟩) := by
    decide
  refine ⟨hread, fun hback => ?_⟩
  have h := hback (new false) [] (.inl rfl)
  rw [append_nil] at h
  exact absurd (congrArg Prod.fst (Outcome.ok.inj (hread.symm.trans h))) (by decide)

/-- A binary is read back, with all that is decoded in its room, exactly if it has no more than
eighteen octets: the room has two octets for each three characters and two more, and the blocks
take three octets for each four. -/
theorem readsBack_binary_iff (b : Blob) :
    ReadsBack (·.writeBinary b) readBinary b ↔ b.length ≤ 18 := by
  constructor
  · intro hread
    by_contra hlong
    have hparam : (new false).value_level = 0 ∨ Follows [] [] [] := .inl rfl
    obtain ⟨rest, hrest⟩ := readBinary_written (new false) hparam b
    rw [hread (new false) [] (.inl rfl)] at hrest
    obtain ⟨value, hvalue, hb⟩ := Outcome.bind_eq_ok.mp hrest.symm
    obtain ⟨rfl, -⟩ := Prod.mk.inj (Outcome.ok.inj hb)
    have hfits := MemBase64.length_le_of_decodeFrom (Nat.zero_le _) hvalue
    rw [MemBase64.length_encodeBase64] at hfits
    -- from here on the length of the blob fits into an `int`
    rw [MemBase64.decodeBase64, MemBase64.decodeFrom_encodeBase64 _ _ (by omega), if_neg] at hvalue
    · cases hvalue
    · rw [MemBase64.length_encodeBase64, length_nil]
      rintro (hnil | hroom)
      · rw [hnil] at hlong
        exact hlong (Nat.zero_le _)
      · omega
  · intro hshort e ahead hahead
    obtain ⟨rest, hrest⟩ := readBinary_written e hahead b
    rw [hrest, MemBase64.decodeBase64, MemBase64.decodeFrom_encodeBase64 _ _ (by omega), if_pos]
    · rfl
    · right
      rw [MemBase64.length_encodeBase64, length_nil]
      omega

/-- The seventh block of nineteen octets is written beyond the room. -/
theorem readBinary_nineteen :
    readBinary ⟨((XmlRpcEncoder.new false).writeBinary (List.replicate 19 0)).content, 0, none⟩ =
      .fault ∧
      ¬ ReadsBack (·.writeBinary (List.replicate 19 0)) readBinary (List.replicate 19 0) := by
  have hread :
      readBinary ⟨((new false).writeBinary (List.replicate 19 0)).content, 0, none⟩ =
        .fault := by
    decide
  refine ⟨hread, fun hback => ?_⟩
  have h := hback (new false) [] (.inl rfl)
  rw [append_nil] at h
  cases hread.symm.trans h

end XmlRpcDecoder

end Drt
