import Drt.Core.Base.Exception
import Drt.Core.Types.StringViews
import Drt.Lib.Fuel
import Drt.Lib.Occurrences

/-!
# Replacing in a string

`replace` looks for the pattern behind what it has replaced last, and puts the string together
anew from what comes before, the replacement and what comes after. The number of replacements
that it is given is of no matter to it.
-/

namespace Drt

namespace StringData

/-- Whether there are octets: not `Binv`. -/
def hasOctets (s : StringData) : Bool :=
  match s.views with
  | .wide _ => false
  | _ => true

/-- `append`. Where one of the strings has no octets, both get wide characters. -/
def append (s t : StringData) : StringData :=
  if t.views.length = 0 then s
  else if s.views.length = 0 then t
  else if s.hasOctets ∧ t.hasOctets then ofOctets (s.views.octets ++ t.views.octets)
  else ofWide (s.views.chars ++ t.views.chars)

/-- The string that `mid(pos, length)` returns. -/
def part (s : StringData) (pos length : Nat) : StringData :=
  match (s.mid pos length).1 with
  | none => zero
  | some b => ofOctets b

def left (s : StringData) (length : Nat) : StringData := s.part 0 length

/-- `mid(pos)`. -/
def midFrom (s : StringData) (pos : Nat) : StringData :=
  if pos > s.views.length then zero else s.part pos (s.views.length - pos)

/-- The loop of `replace`. -/
def replaceLoop (what rep : StringData) : (fuel : Nat) → StringData → Nat → Call StringData
  | 0, _, _ => .outOfFuel
  | fuel + 1, s, p =>
    match find s.ascii.1 what.ascii.1 p with
    | none => .ok s.ascii.2
    | some p =>
      replaceLoop what rep fuel (((s.left p).append rep).append (s.midFrom (p + what.views.length)))
        (p + rep.views.length)

/-- `replace(what, rep, count)`. -/
def replaceCount (s what rep : StringData) (_count : UInt64) (fuel : Nat) : Call StringData :=
  if what.views.length = 0 then .ok s else replaceLoop what rep fuel s 0

/-- `replace(what, rep)`. -/
def replace (s what rep : StringData) (fuel : Nat) : Call StringData :=
  s.replaceCount what rep (-1) fuel

/-- The string has an ASCII text: both of its representations are the text, or will be. -/
structure AsciiText (s : StringData) (l : Blob) : Prop where
  ascii : ∀ ch ∈ l, ch ≤ 127
  octets : s.views.octets = l
  chars : s.views.chars = l.map UInt8.toUInt32

section Texts

variable {s t : StringData} {l m : Blob}

theorem length_octets (v : StringViews) : v.octets.length = v.length := by
  cases v with
  | bytes b => rfl
  | wide w => exact List.length_map narrowChar
  | both b w hlength => rfl

theorem AsciiText.length (h : AsciiText s l) : s.views.length = l.length := by
  rw [← length_octets, h.octets]

theorem AsciiText.ofOctets (h : ∀ ch ∈ l, ch ≤ 127) : AsciiText (ofOctets l) l := by
  refine ⟨h, rfl, List.map_congr_left fun ch hch => if_neg ?_⟩
  exact UInt8.not_lt.mpr (h ch hch)

theorem narrowChar_toUInt32 {ch : UInt8} (h : ch ≤ 127) : narrowChar ch.toUInt32 = ch := by
  have hle : ch.toUInt32 ≤ 127 := by
    rw [UInt32.le_iff_toNat_le, UInt8.toNat_toUInt32]
    exact UInt8.le_iff_toNat_le.mp h
  rw [narrowChar, if_neg (UInt32.not_lt.mpr hle), UInt8.toUInt8_toUInt32]

theorem AsciiText.ofWide (h : ∀ ch ∈ l, ch ≤ 127) : AsciiText (ofWide (l.map UInt8.toUInt32)) l := by
  refine ⟨h, ?_, rfl⟩
  change (l.map UInt8.toUInt32).map narrowChar = l
  rw [List.map_map]
  exact (List.map_congr_left fun ch hch => narrowChar_toUInt32 (h ch hch)).trans l.map_id

section

variable (h : AsciiText s l)
include h

theorem AsciiText.append (h' : AsciiText t m) : AsciiText (s.append t) (l ++ m) := by
  have hascii : ∀ ch ∈ l ++ m, ch ≤ 127 := List.forall_mem_append.mpr ⟨h.ascii, h'.ascii⟩
  unfold StringData.append
  rw [h.length, h'.length]
  split_ifs with hm hl
  · rw [List.length_eq_zero_iff.mp hm, List.append_nil]
    exact h
  · rw [List.length_eq_zero_iff.mp hl, List.nil_append]
    exact h'
  · rw [h.octets, h'.octets]
    exact .ofOctets hascii
  · rw [h.chars, h'.chars, ← List.map_append]
    exact .ofWide hascii

theorem AsciiText.part {pos : Nat} (hpos : pos ≤ l.length) (length : Nat) :
    AsciiText (s.part pos length) ((l.drop pos).take length) := by
  have hmid : (s.mid pos length).1 = some ((l.drop pos).take length) := by
    rw [mid, h.length, if_neg (by omega)]
    change some ((s.views.octets.drop pos).take _) = _
    rw [h.octets, List.take_eq_take_iff.mpr]
    rw [List.length_drop]
    omega
  rw [StringData.part, hmid]
  exact .ofOctets fun ch hch => h.ascii ch (List.mem_of_mem_drop (List.mem_of_mem_take hch))

theorem AsciiText.left (length : Nat) : AsciiText (s.left length) (l.take length) :=
  h.part (Nat.zero_le _) length

theorem AsciiText.midFrom {pos : Nat} (hpos : pos ≤ l.length) :
    AsciiText (s.midFrom pos) (l.drop pos) := by
  rw [StringData.midFrom, h.length, if_neg (by omega)]
  have hpart := h.part hpos (l.length - pos)
  rwa [List.take_of_length_le (by rw [List.length_drop])] at hpart

end

end Texts

section Finding

open List

variable {am as : Blob}

end Finding

section Counting

variable {s what rep : StringData} {count : UInt64} {l k r : Blob}

end Counting

end StringData

end Drt
