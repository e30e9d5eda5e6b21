import Drt.Core.Parse.MemBase64
import Drt.Lib.Completes
import Mathlib.Tactic.IntervalCases

/-!
# Decoding what was encoded in base 64

A block of three octets gives four digits, and the digits give the octets. The last
block may lack octets: its padding ends the decoding. The decoder writes three octets
for every block, so what it writes is bounded by the blocks and not by the octets.
-/

open List

namespace Drt

namespace MemBase64

/-- A digit of base 64 has six bits. -/
def IsDigit (v : UInt8) : Prop := v &&& 0x3f = v

theorem isDigit_first (a : UInt8) : IsDigit (a >>> 2) := by
  apply UInt8.toBitVec_inj.mp
  ext i hi
  interval_cases i <;> simp

theorem isDigit_second (a b : UInt8) : IsDigit ((a &&& 0x03) <<< 4 ||| (b &&& 0xf0) >>> 4) := by
  apply UInt8.toBitVec_inj.mp
  ext i hi
  interval_cases i <;> simp

theorem isDigit_third (b c : UInt8) : IsDigit ((b &&& 0x0f) <<< 2 ||| (c &&& 0xc0) >>> 6) := by
  apply UInt8.toBitVec_inj.mp
  ext i hi
  interval_cases i <;> simp

theorem isDigit_fourth (c : UInt8) : IsDigit (c &&& 0x3f) := by
  apply UInt8.toBitVec_inj.mp
  ext i hi
  interval_cases i <;> simp

theorem first_octet (a b : UInt8) :
    (a >>> 2) <<< 2 ||| ((a &&& 0x03) <<< 4 ||| (b &&& 0xf0) >>> 4) >>> 4 = a := by
  apply UInt8.toBitVec_inj.mp
  ext i hi
  interval_cases i <;> simp

theorem second_octet (a b c : UInt8) :
    ((a &&& 0x03) <<< 4 ||| (b &&& 0xf0) >>> 4) <<< 4 |||
      ((b &&& 0x0f) <<< 2 ||| (c &&& 0xc0) >>> 6) >>> 2 = b := by
  apply UInt8.toBitVec_inj.mp
  ext i hi
  interval_cases i <;> simp

theorem third_octet (b c : UInt8) :
    (((b &&& 0x0f) <<< 2 ||| (c &&& 0xc0) >>> 6) <<< 6) &&& 0xc0 ||| (c &&& 0x3f) = c := by
  apply UInt8.toBitVec_inj.mp
  ext i hi
  interval_cases i <;> simp

/-- The two tables agree, and no letter stands for a padding or a blank. -/
theorem cd64_cb64 {v : UInt8} (hv : IsDigit v) :
    cb64 v ≤ 122 ∧ cd64 (cb64 v) = v ∧ v ≤ 63 := by
  have hall : ∀ n < 256, UInt8.ofNat n &&& 0x3f = UInt8.ofNat n → cb64 (.ofNat n) ≤ 122 ∧
      cd64 (cb64 (.ofNat n)) = .ofNat n ∧ UInt8.ofNat n ≤ 63 := by decide +kernel
  have h := hall v.toNat v.toNat_lt
  rw [UInt8.ofNat_toNat] at h
  exact h hv

theorem size_pred (n : Nat) : UInt64.ofNat (n + 1) - 1 = .ofNat n := by
  rw [UInt64.ofNat_add]
  exact UInt64.add_sub_cancel ..

theorem size_ne_zero {n : Nat} (hn : n + 1 < 2 ^ 64) : UInt64.ofNat (n + 1) ≠ 0 := by
  intro h
  have hzero := congrArg UInt64.toNat h
  simp only [UInt64.toNat_ofNat', UInt64.toNat_zero] at hzero
  omega

theorem decodeFrom_end (room : Nat) (out text : Blob) :
    decodeFrom room (.ofNat 0) [] out text = .ok out := by
  cases text <;> simp [decodeFrom]

/-- One letter of the text is one digit of the block. -/
theorem decodeFrom_digit {room n : Nat} (hn : n + 1 < 2 ^ 64) {v : UInt8} (hv : IsDigit v)
    (bd out text : Blob) :
    decodeFrom room (.ofNat (n + 1)) bd out (cb64 v :: text) =
      if bd.length = 3 then do
        let out ← storeBlock room (bd ++ [v]) out
        decodeFrom room (.ofNat n) [] out text
      else decodeFrom room (.ofNat n) (bd ++ [v]) out text := by
  obtain ⟨hletter, hdigit, hsmall⟩ := cd64_cb64 hv
  have hsigned : ¬ cb64 v ≥ 128 := by grind
  have hlast : ¬ cb64 v > 122 := by grind
  have hmarks : v ≠ 255 ∧ v ≠ 254 ∧ v ≠ 253 := by grind
  rw [decodeFrom]
  simp only [size_ne_zero hn, false_and, if_false, Outcome.ok_bind, size_pred, hsigned, hlast,
    hdigit, hmarks]

/-- The padding ends the decoding with the digits before it. -/
theorem decodeFrom_padding {room n : Nat} (hn : n + 1 < 2 ^ 64) {bd : Blob} (hbd : bd ≠ [])
    (out text : Blob) :
    decodeFrom room (.ofNat (n + 1)) bd out (61 :: text) = storeBlock room bd out := by
  have hdigit : cd64 61 = 254 := by decide
  have hsigned : ¬ (61 : UInt8) ≥ 128 := by decide
  have hlast : ¬ (61 : UInt8) > 122 := by decide
  have hmark : (254 : UInt8) ≠ 255 := by decide
  rw [decodeFrom]
  simp only [size_ne_zero hn, false_and, if_false, Outcome.ok_bind, hsigned, hlast, hdigit, hmark,
    hbd, if_true]

/-- The room that the next block takes, whatever its digits are. -/
theorem storeBlock_eq (room : Nat) (bd out : Blob) :
    storeBlock room bd out = if out.length + 3 ≤ room then
      .ok (out ++ (decodeBlock bd).take (bd.length - 1)) else .fault := by
  unfold storeBlock
  split_ifs
  · omega
  · rfl
  · rfl
  · omega

/-- The digits of a whole block hold its octets, and the fewer digits of a last one too. -/
theorem storeBlock_whole (room : Nat) (a b c : UInt8) (out : Blob) :
    storeBlock room [a >>> 2, (a &&& 0x03) <<< 4 ||| (b &&& 0xf0) >>> 4,
      (b &&& 0x0f) <<< 2 ||| (c &&& 0xc0) >>> 6, c &&& 0x3f] out =
        if out.length + 3 ≤ room then .ok (out ++ [a, b, c]) else .fault := by
  rw [storeBlock_eq]
  simp only [decodeBlock, getD_cons_zero, getD_cons_succ, first_octet, second_octet,
    third_octet]
  rfl

theorem storeBlock_two (room : Nat) (a b : UInt8) (out : Blob) :
    storeBlock room [a >>> 2, (a &&& 0x03) <<< 4 ||| (b &&& 0xf0) >>> 4,
      (b &&& 0x0f) <<< 2 ||| ((0 : UInt8) &&& 0xc0) >>> 6] out =
        if out.length + 3 ≤ room then .ok (out ++ [a, b]) else .fault := by
  rw [storeBlock_eq]
  simp only [decodeBlock, getD_cons_zero, getD_cons_succ, first_octet, second_octet]
  rfl

theorem storeBlock_one (room : Nat) (a : UInt8) (out : Blob) :
    storeBlock room [a >>> 2, (a &&& 0x03) <<< 4 ||| ((0 : UInt8) &&& 0xf0) >>> 4] out =
      if out.length + 3 ≤ room then .ok (out ++ [a]) else .fault := by
  rw [storeBlock_eq]
  simp only [decodeBlock, getD_cons_zero, getD_cons_succ, first_octet]
  rfl

/-- The `int` of the octets left of a whole block says that they are three at least. -/
theorem encodeB64Block_whole {n : Nat} (hn : n + 3 < 2 ^ 31) (a b c : UInt8) :
    encodeB64Block a b c (.ofNat (n + 3)) =
      [cb64 (a >>> 2), cb64 ((a &&& 0x03) <<< 4 ||| (b &&& 0xf0) >>> 4),
        cb64 ((b &&& 0x0f) <<< 2 ||| (c &&& 0xc0) >>> 6), cb64 (c &&& 0x3f)] := by
  have hlen : (Int32.ofNat (n + 3)).toInt = n + 3 := by
    rw [Int32.toInt_ofNat_of_lt hn]
    simp
  have hone : Int32.ofNat (n + 3) > 1 := by
    apply Int32.lt_iff_toInt_lt.mpr
    rw [hlen]
    have hval : (1 : Int32).toInt = 1 := by decide
    omega
  have htwo : Int32.ofNat (n + 3) > 2 := by
    apply Int32.lt_iff_toInt_lt.mpr
    rw [hlen]
    have hval : (2 : Int32).toInt = 2 := by decide
    omega
  rw [encodeB64Block, if_pos hone, if_pos htwo]

/-- Decoding an encoded blob, with any text behind it, gives the blob where three octets for each
of its blocks have room, and writes beyond the room elsewhere. -/
theorem decodeFrom_encodeBase64 (room : Nat) (data : Blob) (hdata : data.length < 2 ^ 31)
    (out rest : Blob) :
    decodeFrom room (.ofNat (encodeBase64 data).length) [] out (encodeBase64 data ++ rest) =
      if data = [] ∨ out.length + (data.length + 2) / 3 * 3 ≤ room then .ok (out ++ data)
      else .fault := by
  induction data using encodeBase64.induct generalizing out with
  | case1 =>
    rw [encodeBase64, List.length_nil, List.nil_append, decodeFrom_end, if_pos (.inl rfl),
      List.append_nil]
  | case2 a =>
    rw [encodeBase64]
    have hblock : encodeB64Block a 0 0 1 =
      [cb64 (a >>> 2), cb64 ((a &&& 0x03) <<< 4 ||| ((0 : UInt8) &&& 0xf0) >>> 4), 61, 61] := rfl
    rw [hblock]
    simp only [List.length_cons, List.length_nil, List.cons_append]
    rw [decodeFrom_digit (by omega) (isDigit_first a), if_neg (by decide),
      decodeFrom_digit (by omega) (isDigit_second a 0), if_neg (by simp),
      decodeFrom_padding (by omega) (by simp)]
    simp only [List.nil_append, List.cons_append]
    rw [storeBlock_one]
    simp
  | case3 a b =>
    rw [encodeBase64]
    have hblock : encodeB64Block a b 0 2 =
      [cb64 (a >>> 2), cb64 ((a &&& 0x03) <<< 4 ||| (b &&& 0xf0) >>> 4),
        cb64 ((b &&& 0x0f) <<< 2 ||| ((0 : UInt8) &&& 0xc0) >>> 6), 61] := rfl
    rw [hblock]
    simp only [List.length_cons, List.length_nil, List.cons_append]
    rw [decodeFrom_digit (by omega) (isDigit_first a), if_neg (by decide),
      decodeFrom_digit (by omega) (isDigit_second a b), if_neg (by simp),
      decodeFrom_digit (by omega) (isDigit_third b 0), if_neg (by simp),
      decodeFrom_padding (by omega) (by simp)]
    simp only [List.nil_append, List.cons_append]
    rw [storeBlock_two]
    simp
  | case4 a b c data ih =>
    have hshort : data.length + 3 < 2 ^ 31 := hdata
    have hlen : (encodeBase64 data).length < 2 ^ 32 := by
      rw [length_encodeBase64]
      omega
    rw [encodeBase64, encodeB64Block_whole hshort]
    simp only [List.cons_append, List.nil_append, List.length_cons]
    rw [decodeFrom_digit (by omega) (isDigit_first a), if_neg (by decide),
      decodeFrom_digit (by omega) (isDigit_second a b), if_neg (by simp),
      decodeFrom_digit (by omega) (isDigit_third b c), if_neg (by simp),
      decodeFrom_digit (by omega) (isDigit_fourth c), if_pos (by simp)]
    simp only [List.nil_append, List.cons_append]
    rw [storeBlock_whole]
    -- the whole block takes its room first, then the blocks behind it
    by_cases hroom : out.length + 3 ≤ room
    · rw [if_pos hroom, Outcome.ok_bind, ih (by omega)]
      have hblocks : (data.length + 1 + 1 + 1 + 2) / 3 * 3 = (data.length + 2) / 3 * 3 + 3 := by
        omega
      have htail : data = [] ↔ data.length = 0 := List.length_eq_zero_iff.symm
      simp only [List.append_assoc, List.cons_append, List.nil_append, List.length_append,
        List.length_cons, List.length_nil]
      congr 1
      apply propext
      constructor
      · rintro (h | h)
        · have := htail.mp h
          omega
        · omega
      · rintro (h | h)
        · cases h
        · omega
    · rw [if_neg hroom, Outcome.fault_bind, if_neg]
      rintro (h | h)
      · cases h
      · omega

/-- The characters of a blob that is encoded decode to it, every block writes within the three
octets for each of them, and the text has four characters for each. -/
theorem decodeBString_encodeBase64 (b : Blob) (hb : b.length < 2 ^ 31) :
    decodeBString (encodeBase64 b) = .ok b ∧
      (encodeBase64 b).length = (b.length + 2) / 3 * 4 := by
  constructor
  · have hroom : (b.length + 2) / 3 * 4 / 4 * 3 = (b.length + 2) / 3 * 3 := by omega
    unfold decodeBString decodeBase64
    rw [decodeFrom_encodeBase64 _ b hb, if_pos]
    · rw [nil_append]
    · right
      rw [length_encodeBase64, hroom, length_nil, Nat.zero_add]
  · exact length_encodeBase64 b

theorem decodeBString_encodeBase64_four :
    decodeBString (encodeBase64 [0, 255, 16, 77]) = .ok [0, 255, 16, 77] ∧
      (encodeBase64 [0, 255, 16, 77]).length = (4 + 2) / 3 * 4 :=
  decodeBString_encodeBase64 [0, 255, 16, 77] (by decide)

theorem length_le_of_storeBlock {room : Nat} {bd out out' : Blob}
    (h : storeBlock room bd out = .ok out') : out'.length ≤ room := by
  rw [storeBlock_eq] at h
  split_ifs at h with hroom
  cases h
  have hblock : ((decodeBlock bd).take (bd.length - 1)).length ≤ 3 := length_take_le' ..
  rw [length_append]
  omega

/-- Nor does any text. -/
theorem length_le_of_decodeFrom {room : Nat} {text : Blob} {size : UInt64} {bd out r : Blob}
    (hout : out.length ≤ room) (h : decodeFrom room size bd out text = .ok r) :
    r.length ≤ room := by
  induction text generalizing size bd out with
  | nil =>
    rw [decodeFrom] at h
    split_ifs at h with hsize hbd
    · cases h
      exact hout
    · obtain ⟨_, _, h⟩ := Outcome.bind_eq_ok.mp h
      cases h
  | cons c text ih =>
    rw [decodeFrom] at h
    by_cases hend : size = 0 ∧ bd = []
    · rw [if_pos hend] at h
      cases h
      exact hout
    rw [if_neg hend] at h
    by_cases hsize : size = 0
    · -- the text ends inside a block, and its first digits are written before the next is read
      simp only [hsize, if_true] at h
      obtain ⟨out', hstore, h⟩ := Outcome.bind_eq_ok.mp h
      have hout' := length_le_of_storeBlock hstore
      simp only [Outcome.ok_bind, if_true, List.length_nil, Nat.reduceEqDiff, if_false] at h
      split_ifs at h
      · cases h
      · cases h
      · cases h
        exact hout'
      · exact ih hout' h
      · exact ih hout' h
    · simp only [hsize, if_false, Outcome.ok_bind] at h
      split_ifs at h
      · cases h
      · cases h
      · cases h
        exact hout
      · exact length_le_of_storeBlock h
      · exact ih hout h
      · obtain ⟨out', hstore, h⟩ := Outcome.bind_eq_ok.mp h
        exact ih (length_le_of_storeBlock hstore) h
      · exact ih hout h

end MemBase64

/-! ### Decoding any text in base 64

The decoder looks for a stop: the first character that is neither a digit nor a blank. Up
to it, four digits after four are a block of three octets. What is left of a block then is
written as a whole one, and at the end of the text the decoder does not know that it has
been there. -/

namespace MemBase64

open Outcome

/-- The number of digits before the stop, and the stop. -/
def scan : Blob → Nat × Option UInt8
  | [] => (0, none)
  | c :: text =>
    if cd64 c < 64 then ((scan text).1 + 1, (scan text).2)
    else if cd64 c = 253 then scan text
    else (0, some c)

/-- The decoder comes back or throws, without leaving its table, the text or the
octets that its result is locked for. -/
def DecodesSafely (data : Blob) : Prop :=
  (decodeBase64 (data.length / 4 * 3) data data.length).Ends

/-- Without a stop the digits make whole blocks. A stop is an ASCII character, and if it is the
padding, the digits make whole blocks or the text has the characters of one block more. -/
def WellEnded (data : Blob) : Prop :=
  match (scan data).2 with
  | none => (scan data).1 % 4 = 0
  | some c => c < 128 ∧
    (c = 61 → (scan data).1 % 4 = 0 ∨ (scan data).1 / 4 + 1 ≤ data.length / 4)

/-- The same in the middle of a text, with room for so many octets. -/
def EndsWell (room stored digits : Nat) : Option UInt8 → Prop
  | none => digits % 4 = 0 ∧ stored + digits / 4 * 3 ≤ room
  | some c => c < 128 ∧ stored + digits / 4 * 3 ≤ room ∧
    (c = 61 → digits % 4 = 0 ∨ stored + digits / 4 * 3 + 3 ≤ room)

/-- What the table makes of a character: only the padding is marked as one, and what is beyond
the letters is foreign. -/
theorem cd64_cases (c : UInt8) :
    (cd64 c < 64 ∨ cd64 c = 253 ∨ cd64 c = 254 ∨ cd64 c = 255) ∧ (cd64 c = 254 ↔ c = 61) ∧
      (c > 122 → cd64 c = 255) := by
  have hall : ∀ n < 256, (cd64 (.ofNat n) < 64 ∨ cd64 (.ofNat n) = 253 ∨ cd64 (.ofNat n) = 254 ∨
      cd64 (.ofNat n) = 255) ∧ (cd64 (.ofNat n) = 254 ↔ UInt8.ofNat n = 61) ∧
        (UInt8.ofNat n > 122 → cd64 (.ofNat n) = 255) := by decide +kernel
  have h := hall c.toNat c.toNat_lt
  rwa [UInt8.ofNat_toNat] at h

theorem ends_storeBlock {room : Nat} {bd out : Blob} :
    (storeBlock room bd out).Ends ↔ out.length + 3 ≤ room := by
  rw [storeBlock_eq]
  split_ifs with h
  · exact iff_of_true (ends_ok _) h
  · exact iff_of_false not_ends_fault h

theorem length_storeBlock {room : Nat} {bd out out' : Blob} (hbd : bd.length = 4)
    (h : storeBlock room bd out = .ok out') : out'.length = out.length + 3 := by
  rw [storeBlock_eq] at h
  split_ifs at h
  rw [← Outcome.ok.inj h, length_append, length_take, hbd]
  rfl

theorem endsWell_block {room stored digits : Nat} {stop : Option UInt8} :
    EndsWell room (stored + 3) digits stop ↔ EndsWell room stored (digits + 4) stop := by
  have hmod : (digits + 4) % 4 = digits % 4 := by omega
  have hdiv : stored + (digits + 4) / 4 * 3 = stored + 3 + digits / 4 * 3 := by omega
  cases stop with
  | none | some c => rw [EndsWell, EndsWell, hmod, hdiv]

theorem EndsWell.room {room stored digits : Nat} {stop : Option UInt8}
    (h : EndsWell room stored digits stop) : stored + digits / 4 * 3 ≤ room := by
  cases stop with
  | none => exact h.2
  | some c => exact h.2.1

section Stops

variable {room : Nat} {bd out : Blob} (hbd : bd.length ≤ 3) (hroom : out.length ≤ room)

include hbd hroom

theorem endsWell_foreign {c : UInt8} (hascii : c < 128) (hc : c ≠ 61) :
    EndsWell room out.length bd.length (some c) := by
  have hfull : bd.length / 4 = 0 := by omega
  exact ⟨hascii, by simpa [hfull] using hroom, fun heq => absurd heq hc⟩

/-- At the end of the text, a block that is begun is written, and the loop goes on. -/
theorem ends_decodeFrom_nil :
    (decodeFrom room 0 bd out []).Ends ↔ EndsWell room out.length bd.length none := by
  rw [decodeFrom, if_pos rfl]
  by_cases hempty : bd = []
  · rw [if_pos hempty, hempty]
    exact iff_of_true (ends_ok _) ⟨rfl, hroom⟩
  · have hpos := length_pos_iff.mpr hempty
    rw [if_neg hempty]
    refine iff_of_false ?_ ?_
    · intro hends
      obtain ⟨hstored, hrest⟩ := ends_bind_iff.mp hends
      rcases hstored with ⟨out', hout'⟩ | ⟨e, he⟩
      · exact not_ends_fault (hrest out' hout')
      · rw [storeBlock_eq] at he
        split_ifs at he
    · rintro ⟨hmod, -⟩
      omega

/-- A padding writes a block that is begun. -/
theorem ends_padding :
    (if bd = [] then .ok out else storeBlock room bd out).Ends ↔
      EndsWell room out.length bd.length (some 61) := by
  have hfull : bd.length / 4 = 0 := by omega
  by_cases hempty : bd = []
  · rw [if_pos hempty, hempty]
    exact iff_of_true (ends_ok _) ⟨by decide, hroom, fun _ => .inl rfl⟩
  · have hpos := length_pos_iff.mpr hempty
    rw [if_neg hempty, ends_storeBlock]
    constructor
    · intro hstored
      exact ⟨by decide, by simpa [hfull] using hroom, fun _ => .inr (by simpa [hfull] using hstored)⟩
    · rintro ⟨-, -, hpadded⟩
      rcases hpadded rfl with hmod | hstored
      · omega
      · simpa [hfull] using hstored

end Stops

/-- A block of four digits, and what comes behind it. -/
theorem ends_block {room digits : Nat} {block out : Blob} {stop : Option UInt8}
    {next : Blob → Call Blob} (hfour : block.length = 4)
    (hnext : ∀ out', out'.length ≤ room →
      ((next out').Ends ↔ EndsWell room out'.length digits stop)) :
    (storeBlock room block out >>= next).Ends ↔ EndsWell room out.length (digits + 4) stop := by
  have hrest {out' : Blob} (hout' : storeBlock room block out = .ok out')
      (hstored : out.length + 3 ≤ room) :
      (next out').Ends ↔ EndsWell room out.length (digits + 4) stop := by
    have hlen := length_storeBlock hfour hout'
    rw [hnext out' (hlen ▸ hstored), hlen, endsWell_block]
  rw [ends_bind_iff, ends_storeBlock]
  constructor
  · rintro ⟨hstored, hends⟩
    obtain ⟨out', hout'⟩ : ∃ out', storeBlock room block out = .ok out' := by
      rw [storeBlock_eq, if_pos hstored]
      exact ⟨_, rfl⟩
    exact (hrest hout' hstored).mp (hends out' hout')
  · intro hends
    have hstored : out.length + 3 ≤ room := by
      have := hends.room
      omega
    exact ⟨hstored, fun out' hout' => (hrest hout' hstored).mpr hends⟩

/-- The loop with the digits of a block read, at any place of the text. -/
theorem ends_decodeFrom {room : Nat} {text : Blob} (hlength : text.length < 2 ^ 64)
    {bd out : Blob} (hbd : bd.length ≤ 3) (hroom : out.length ≤ room) :
    (decodeFrom room (.ofNat text.length) bd out text).Ends ↔
      EndsWell room out.length (bd.length + (scan text).1) (scan text).2 := by
  induction text generalizing bd out with
  | nil => exact ends_decodeFrom_nil hbd hroom
  | cons c text ih =>
    have hlength' : text.length < 2 ^ 64 := by
      rw [length_cons] at hlength
      omega
    rw [decodeFrom, length_cons]
    simp only [size_ne_zero (by simpa using hlength), false_and, if_false, ok_bind,
      size_pred]
    obtain ⟨hkind, hpadding, hbeyond⟩ := cd64_cases c
    have hstop (hmark : ¬ cd64 c < 64 ∧ cd64 c ≠ 253) : scan (c :: text) = (0, some c) := by
      rw [scan, if_neg hmark.1, if_neg hmark.2]
    by_cases hsigned : c ≥ 128
    · -- a negative index of the table
      have hforeign : cd64 c = 255 := hbeyond (by grind)
      rw [if_pos hsigned, hstop (by rw [hforeign]; decide)]
      refine iff_of_false not_ends_fault ?_
      rintro ⟨hascii, -⟩
      grind
    have hascii : c < 128 := by grind
    rw [if_neg hsigned]
    by_cases hletter : c > 122
    · have hforeign := hbeyond hletter
      rw [if_pos hletter, hstop (by rw [hforeign]; decide)]
      refine iff_of_true (ends_raise _) (endsWell_foreign hbd hroom hascii ?_)
      rintro rfl
      exact absurd hletter (by decide)
    rw [if_neg hletter]
    rcases hkind with hdigit | hblank | hpad | hforeign
    · have hmarks : cd64 c ≠ 255 ∧ cd64 c ≠ 254 ∧ cd64 c ≠ 253 := by grind
      have hcount : bd.length + ((scan text).1 + 1) = (bd ++ [cd64 c]).length + (scan text).1 := by
        rw [length_append, length_singleton]
        omega
      rw [if_neg hmarks.1, if_neg hmarks.2.1, if_neg hmarks.2.2, scan, if_pos hdigit, hcount]
      by_cases hthree : bd.length = 3
      · have hfour : (bd ++ [cd64 c]).length = 4 := by simp [hthree]
        rw [if_pos hthree, hfour, Nat.add_comm 4]
        refine ends_block hfour fun out' hroom' => ?_
        rw [@ih hlength' [] out' (Nat.zero_le 3) hroom', length_nil, Nat.zero_add]
      · rw [if_neg hthree]
        refine ih hlength' ?_ hroom
        rw [length_append, length_singleton]
        omega
    · have hscan : scan (c :: text) = scan text := by
        rw [scan, hblank, if_neg (by decide), if_pos rfl]
      rw [hscan, hblank, if_neg (by decide), if_neg (by decide), if_pos rfl]
      exact ih hlength' hbd hroom
    · obtain rfl : c = 61 := hpadding.mp hpad
      rw [hstop (by rw [hpad]; decide), hpad, if_neg (by decide), if_pos rfl]
      exact ends_padding hbd hroom
    · rw [if_pos hforeign, hstop (by rw [hforeign]; decide)]
      refine iff_of_true (ends_raise _) (endsWell_foreign hbd hroom hascii ?_)
      rintro rfl
      exact absurd hforeign (by decide)

theorem scan_le (text : Blob) : (scan text).1 ≤ text.length := by
  induction text with
  | nil => exact Nat.le_refl 0
  | cons c text ih =>
    rw [scan, length_cons]
    split_ifs
    · exact Nat.succ_le_succ ih
    · exact Nat.le_succ_of_le ih
    · exact Nat.zero_le _

/-- A text is decoded safely exactly when it ends well. -/
theorem decodesSafely_iff (data : Blob) (h : data.length < 2 ^ 64) :
    DecodesSafely data ↔ WellEnded data := by
  have hle := scan_le data
  have hdecode := @ends_decodeFrom (data.length / 4 * 3) data h [] [] (Nat.zero_le 3)
    (Nat.zero_le _)
  rw [length_nil, Nat.zero_add] at hdecode
  refine hdecode.trans ?_
  rw [WellEnded]
  cases (scan data).2 with
  | none =>
    refine and_iff_left_of_imp fun _ => ?_
    omega
  | some c =>
    refine and_congr_right fun _ => ?_
    constructor
    · rintro ⟨-, hstop⟩ heq
      refine (hstop heq).imp_right fun hroom => ?_
      omega
    · intro hstop
      refine ⟨by omega, fun heq => (hstop heq).imp_right fun hroom => ?_⟩
      omega

/-- Blanks make room for a block that is not whole. -/
theorem decodesSafely_iff_blanks : DecodesSafely (ascii "TW\r\n=") ∧
    ¬ DecodesSafely (ascii "TWFuT=") := by
  refine ⟨(decodesSafely_iff _ (by decide)).mpr ?_, fun h => ?_⟩
  · exact ⟨by decide, fun _ => .inr (by decide)⟩
  · obtain ⟨-, hstop⟩ := (decodesSafely_iff _ (by decide)).mp h
    exact absurd (hstop rfl) (by decide)

theorem not_decodesSafely_of_fault {data : Blob}
    (h : decodeBase64 (data.length / 4 * 3) data data.length = .fault) : ¬ DecodesSafely data := by
  rw [DecodesSafely, h]
  exact not_ends_fault

/-- A text without its padding is read beyond its end, an octet above 127 is no index, and a
padding that is too short is written as a whole block. -/
theorem not_decodesSafely : ¬ DecodesSafely (ascii "TWE") ∧ ¬ DecodesSafely [195, 161] ∧
    ¬ DecodesSafely (ascii "TQ=") :=
  ⟨not_decodesSafely_of_fault (by decide), not_decodesSafely_of_fault (by decide),
    not_decodesSafely_of_fault (by decide)⟩

end MemBase64

end Drt
