import Drt.Core.Types.StringPurity
import Drt.Lib.Comparison

/-!
# The order of byte strings

`StrData::bcmp` compares as many characters as its first operand has, whatever the length of the
second. It is an order of byte strings as long as none of them begins with another one.
-/

namespace Drt

open Comparison

namespace StringViews

/-- The sign of `memcmp` of octets with a zero behind the last ones; `none` where the result is
up to what stands behind that. -/
def memcmp (b b' : Blob) (length : Nat) : Option Int :=
  (firstDifference compare length (b ++ [0]) (b' ++ [0])).map sign

/-- `wmemcmp`, of characters that are signed. -/
def wmemcmp (w w' : List UInt32) (length : Nat) : Option Int :=
  (firstDifference (compareOn UInt32.toInt32) length (w ++ [0]) (w' ++ [0])).map sign

/-- The cases of `StrData::bcmp`: octets if both have them, else wide characters if both have
these, else octets that are made of the wide characters. The `true` for an empty first operand
is 1. -/
def bcmp : StringViews → StringViews → Option Int × StringViews × StringViews
  | .wide w, .bytes b =>
    if w.length = 0 then (some 1, .wide w, .bytes b)
    else (memcmp (w.map narrowChar) b w.length, (StringViews.wide w).updateByte, .bytes b)
  | .bytes b, .wide w =>
    if b.length = 0 then (some 1, .bytes b, .wide w)
    else (memcmp b (w.map narrowChar) b.length, .bytes b, (StringViews.wide w).updateByte)
  | .wide w, v => (wmemcmp w v.chars w.length, .wide w, v)
  | v, .wide w => (wmemcmp v.chars w v.length, v, .wide w)
  | v, v' => (memcmp v.octets v'.octets v.length, v, v')

end StringViews

/-- `StrData::bcmp`, with what its operands become. -/
def StringData.bcmp (s s' : StringData) : Option Int × StringData × StringData :=
  let r := s.views.bcmp s'.views
  (r.1, ⟨r.2.1, s.hash⟩, ⟨r.2.2, s'.hash⟩)

/-- Data that hold octets. -/
structure ByteString where
  data : StringData
  /-- The octets are valid. -/
  octets_valid : ∀ w, data.views ≠ .wide w
  /-- The hash value is theirs, if there is one. -/
  hash_valid : data.hash = none ∨ data.hash = some (hashChars data.views.hashed)

namespace ByteString

/-- The octets. -/
def octets (s : ByteString) : Blob := s.data.views.octets

/-- A byte string of octets. -/
def ofOctets (b : Blob) : ByteString where
  data := .ofOctets b
  octets_valid := by
    intro w h
    cases h
  hash_valid := .inl rfl

variable {s s' : ByteString}

theorem getHash_eq (s : ByteString) :
    s.data.getHash.1 = hashChars (s.octets.map UInt8.toUInt32) := by
  have hhashed : s.data.views.hashed = s.octets.map UInt8.toUInt32 := by
    unfold octets
    cases h : s.data.views with
    | wide w => exact absurd h (s.octets_valid w)
    | bytes b => rfl
    | both b w hlength => rfl
  unfold StringData.getHash
  rcases s.hash_valid with h | h <;> rw [h, ← hhashed]

theorem length_eq (s : ByteString) : s.data.views.length = s.octets.length := by
  unfold octets
  cases h : s.data.views with
  | wide w => exact absurd h (s.octets_valid w)
  | bytes b => rfl
  | both b w hlength => rfl

/-- `beq` compares octets. -/
theorem beq_iff : (s.data.beq s'.data).1 = true ↔ s.octets = s'.octets := by
  have hviews : (StringData.compareViews s.data.views s'.data.views).1 = true ↔
      s.octets = s'.octets := by
    unfold octets
    cases h : s.data.views with
    | wide w => exact absurd h (s.octets_valid w)
    | bytes b =>
      cases h' : s'.data.views with
      | wide w => exact absurd h' (s'.octets_valid w)
      | _ => exact decide_eq_true_iff
    | both b w hlength =>
      cases h' : s'.data.views with
      | wide w => exact absurd h' (s'.octets_valid w)
      | _ => exact decide_eq_true_iff
  rw [StringText.beq_eq_true, getHash_eq, getHash_eq, length_eq, length_eq, hviews]
  constructor
  · exact fun h => h.2.2
  · intro h
    rw [h]
    exact ⟨rfl, rfl, rfl⟩

/-- `bcmp` compares as many octets as the first operand has. -/
theorem bcmp_eq (s s' : ByteString) :
    (s.data.bcmp s'.data).1 = StringViews.memcmp s.octets s'.octets s.octets.length := by
  rw [← length_eq]
  unfold StringData.bcmp octets
  cases h : s.data.views with
  | wide w => exact absurd h (s.octets_valid w)
  | bytes b =>
    cases h' : s'.data.views with
    | wide w => exact absurd h' (s'.octets_valid w)
    | _ => rfl
  | both b w hlength =>
    cases h' : s'.data.views with
    | wide w => exact absurd h' (s'.octets_valid w)
    | _ => rfl

theorem bcmp_beginning (h : s.octets <+: s'.octets) : (s.data.bcmp s'.data).1 = some 0 := by
  rw [bcmp_eq, StringViews.memcmp, firstDifference_prefix h]
  rfl

/-- It is the lexicographic order where none of the strings begins with the other, except for
equal ones. -/
theorem bcmp_lexicographic (h : s.octets <+: s'.octets → s.octets = s'.octets)
    (h' : s'.octets <+: s.octets → s'.octets = s.octets) :
    (s.data.bcmp s'.data).1 = some (sign (List.compareLex compare s.octets s'.octets)) := by
  by_cases heq : s.octets = s'.octets
  · have hself : List.compareLex compare s'.octets s'.octets = .eq := Std.ReflCmp.compare_self
    rw [bcmp_beginning (heq ▸ List.prefix_rfl), heq, hself]
    rfl
  · rw [bcmp_eq, StringViews.memcmp, firstDifference_apart]
    · rfl
    · exact fun hbegins => heq (h hbegins)
    · exact fun hbegins => heq (h' hbegins).symm

/-- `bcmp` is a total order of these strings, with `beq` as equality. -/
structure OrderedBy (S : Set ByteString) (cmp : ByteString → ByteString → Int) : Prop where
  /-- It gives these results. -/
  returns : ∀ s ∈ S, ∀ s' ∈ S, (s.data.bcmp s'.data).1 = some (cmp s s')
  /-- It is antisymmetric and transitive. -/
  laws : IsComparisonOn cmp S
  /-- It gives zero exactly for equal strings. -/
  zero : ∀ s ∈ S, ∀ s' ∈ S, cmp s s' = 0 ↔ (s.data.beq s'.data).1 = true

/-- `StrData::bcmp` is an order of byte strings exactly if none of them begins with another. -/
theorem ordered_iff (S : Set ByteString) : (∃ cmp, OrderedBy S cmp) ↔
    ∀ s ∈ S, ∀ s' ∈ S, s.octets <+: s'.octets → s.octets = s'.octets := by
  constructor
  · rintro ⟨cmp, hordered⟩ s hs s' hs' hbegins
    have hzero : cmp s s' = 0 := by
      have hreturns := hordered.returns s hs s' hs'
      rw [bcmp_beginning hbegins] at hreturns
      exact (Option.some.inj hreturns).symm
    exact beq_iff.mp ((hordered.zero s hs s' hs').mp hzero)
  · intro h
    refine ⟨fun s s' => sign (List.compareLex compare s.octets s'.octets), ?_, ?_, ?_⟩
    · intro s hs s' hs'
      exact bcmp_lexicographic (h s hs s' hs') (h s' hs' s hs)
    · exact isComparisonOn_sign octets S
    · intro s _ s' _
      rw [sign_eq_zero, Std.LawfulEqCmp.compare_eq_iff_eq, beq_iff]

/-- "ab" is a beginning of "abc". -/
theorem not_ordered_prefix :
    ¬ ∃ cmp, OrderedBy {.ofOctets (ascii "ab"), .ofOctets (ascii "abc")} cmp := by
  rintro ⟨cmp, hordered⟩
  have hreturns := hordered.returns (.ofOctets (ascii "ab")) (.inl rfl)
    (.ofOctets (ascii "abc")) (.inr rfl)
  have hzero : cmp (.ofOctets (ascii "ab")) (.ofOctets (ascii "abc")) = 0 := by
    rw [bcmp_beginning (by decide)] at hreturns
    exact (Option.some.inj hreturns).symm
  have hbeq := (hordered.zero (.ofOctets (ascii "ab")) (.inl rfl)
    (.ofOctets (ascii "abc")) (.inr rfl)).mp hzero
  have happart := beq_iff.mp hbeq
  revert happart
  decide

end ByteString

end Drt
