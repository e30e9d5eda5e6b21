import Mathlib.Data.List.Basic

/-!
# Strings and blobs

A `String` keeps its text as octets or as wide characters. `utf8()` and `setUtf8()`
carry a TODO: octets are passed through, and a wide character above 127 becomes a
question mark.
-/

namespace Drt

/-- What is said of the members of a list is decided member by member, not by going through
a finite type. -/
instance (priority := high) decidableForallMem {α : Type} {P : α → Prop} [DecidablePred P]
    (l : List α) : Decidable (∀ a ∈ l, P a) :=
  List.decidableBAll P l

/-- The same for an optional value. -/
instance (priority := high) decidableForallSome {α : Type} {P : α → Prop} [DecidablePred P] :
    (o : Option α) → Decidable (∀ a, o = some a → P a)
  | none => isTrue fun _ h => nomatch h
  | some a =>
    decidable_of_iff (P a) ⟨fun h _ heq => Option.some.inj heq ▸ h, fun h => h a rfl⟩

/-- A non-null blob. Null is kept apart as `none`. -/
abbrev Blob := List UInt8

/-- The octets of a literal of the source. -/
def ascii (literal : String) : Blob := literal.toList.map fun c => UInt8.ofNat c.toNat

/-- `String`: the valid one of `StrData::bytes` and `StrData::wide`. -/
inductive DrString where
  | bytes (b : Blob)
  | wide (w : List UInt32)
  deriving DecidableEq, Repr

namespace DrString

/-- The characters of a string; an octet is the character of its value. -/
def text : DrString → List UInt32
  | bytes b => b.map UInt8.toUInt32
  | wide w => w

/-- `utf8()`, by way of `StrData::refByte`. -/
def utf8 : DrString → Blob
  | bytes b => b
  | wide w => w.map fun c => if c > 127 then 63 else c.toUInt8

/-- `setUtf8()`, and the constructor from octets and a length. -/
def setUtf8 (utf8_str : Blob) : DrString := bytes utf8_str

/-- Every character is below 128. -/
def Ascii (s : DrString) : Prop := ∀ c ∈ s.text, c ≤ 127

instance (s : DrString) : Decidable s.Ascii := inferInstanceAs (Decidable (∀ c ∈ s.text, c ≤ 127))

/-- The string is kept as octets, or has no wide character above 127. -/
def Plain : DrString → Prop
  | bytes _ => True
  | wide w => ∀ c ∈ w, c ≤ 127

/-- A wide character keeps its value as an octet exactly up to 127. -/
theorem toUInt32_octet (c : UInt32) :
    (if c > 127 then (63 : UInt8) else c.toUInt8).toUInt32 = c ↔ c ≤ 127 := by
  rw [UInt32.le_iff_toNat_le, ← UInt32.toNat_inj]
  by_cases hc : c > 127
  · rw [gt_iff_lt, UInt32.lt_iff_toNat_lt] at hc
    rw [if_pos (by rwa [gt_iff_lt, UInt32.lt_iff_toNat_lt])]
    change 63 = c.toNat ↔ c.toNat ≤ 127
    change 127 < c.toNat at hc
    omega
  · rw [if_neg hc]
    rw [gt_iff_lt, UInt32.lt_iff_toNat_lt, Nat.not_lt] at hc
    change c.toNat ≤ 127 at hc
    rw [UInt8.toNat_toUInt32, UInt32.toNat_toUInt8]
    change c.toNat % 256 = c.toNat ↔ c.toNat ≤ 127
    omega

/-- What is written with `utf8` and read with `setUtf8` has the same text exactly for plain
strings. -/
theorem text_setUtf8_utf8 (s : DrString) : (setUtf8 s.utf8).text = s.text ↔ s.Plain := by
  cases s with
  | bytes b => simp [setUtf8, utf8, text, Plain]
  | wide w =>
    simp only [setUtf8, utf8, text, Plain, List.map_map]
    induction w with
    | nil => simp
    | cons c w ih =>
      simp only [List.map_cons, Function.comp_apply, List.cons.injEq, List.mem_cons,
        forall_eq_or_imp, toUInt32_octet, ih]

theorem Ascii.plain {s : DrString} (h : s.Ascii) : s.Plain := by
  cases s with
  | bytes b => trivial
  | wide w => exact h

theorem text_eq_of_utf8_eq {s s' : DrString} (h : s.Plain) (h' : s'.Plain)
    (heq : s.utf8 = s'.utf8) : s.text = s'.text := by
  rw [← (text_setUtf8_utf8 s).mpr h, heq, (text_setUtf8_utf8 s').mpr h']

end DrString

end Drt
