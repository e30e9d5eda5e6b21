import Drt.Core.Types.StringViews

/-!
# What the observers of strings leave

Texts that strings are built from, and runs of the functions of `String` that look at strings.
Each of them adds representations and a hash value to the data, and does nothing else.
-/

open List Function

namespace Drt

/-- What the data of a string are built from. ASCII text is UTF-8 text below 128. -/
inductive StringText where
  | utf8 (cs : List Char)
  | wide (w : List UInt32)
  | empty

namespace StringText

/-- The octets of UTF-8 text. -/
def encode (cs : List Char) : Blob := cs.flatMap String.utf8EncodeChar

/-- The sequence of characters that a text denotes. -/
def chars : StringText → List UInt32
  | utf8 cs => cs.map Char.val
  | wide w => w
  | empty => []

/-- The data that are built. -/
def build : StringText → StringData
  | utf8 cs => .ofOctets (encode cs)
  | wide w => .ofWide w
  | empty => .zero

end StringText

/-- The functions that look at strings; a string is the number of its data, that copies
share. -/
inductive StringObserver where
  | ascii (i : Nat)
  | utf8 (i : Nat)
  | wide (i : Nat)
  | find (i j start : Nat)
  | mid (i pos length : Nat)
  | getHash (i : Nat)
  | eq (i j : Nat)

/-- The data of all strings. -/
abbrev DataOfStrings := Nat → StringData

namespace DataOfStrings

/-- `String::operator==`: data are equal to themselves. -/
def eq (s : DataOfStrings) (i j : Nat) : Bool := if i = j then true else ((s i).beq (s j)).1

/-- `String::getHash`. -/
def getHash (s : DataOfStrings) (i : Nat) : UInt64 := (s i).getHash.1

/-- The data after `ascii()`. -/
def ascii (s : DataOfStrings) (i : Nat) : DataOfStrings := Function.update s i (s i).ascii.2

/-- The data after a function. -/
def observe (s : DataOfStrings) : StringObserver → DataOfStrings
  | .ascii i => s.ascii i
  | .utf8 i => s.ascii i
  | .wide i => Function.update s i (s i).wide.2
  | .find i j _ => (s.ascii i).ascii j
  | .mid i pos length => Function.update s i ((s i).mid pos length).2
  | .getHash i => Function.update s i (s i).getHash.2
  | .eq i j =>
    if i = j then s
    else
      let r := (s i).beq (s j)
      Function.update (Function.update s i r.2.1) j r.2.2

/-- The data after a run. -/
def observeAll (s : DataOfStrings) (run : List StringObserver) : DataOfStrings := run.foldl observe s

/-- The data of strings just built. -/
def built (t : Nat → StringText) : DataOfStrings := fun i => (t i).build

end DataOfStrings

/-- Data get octets, wide characters or a hash value, time after time. -/
inductive StringData.Touches (s : StringData) : StringData → Prop where
  | refl : Touches s s
  | byte {t : StringData} (h : Touches s t) : Touches s ⟨t.views.updateByte, t.hash⟩
  | wide {t : StringData} (h : Touches s t) : Touches s ⟨t.views.updateWide, t.hash⟩
  | hash {t : StringData} (h : Touches s t) : Touches s t.getHash.2

namespace StringData

variable {s t u s' : StringData}

theorem Touches.trans (h : Touches s t) (h' : Touches t u) : Touches s u := by
  induction h' with
  | refl => exact h
  | byte _ ih => exact ih.byte
  | wide _ ih => exact ih.wide
  | hash _ ih => exact ih.hash

theorem touches_ascii (s : StringData) : Touches s s.ascii.2 := Touches.refl.byte

theorem touches_mid (s : StringData) (pos length : Nat) : Touches s (s.mid pos length).2 := by
  unfold mid
  split
  · exact Touches.refl
  · exact s.touches_ascii

/-- The comparison of representations adds wide characters on either side, or nothing. -/
theorem compareViews_views (v v' : StringViews) :
    ((compareViews v v').2.1 = v ∨ (compareViews v v').2.1 = v.updateWide) ∧
      ((compareViews v v').2.2 = v' ∨ (compareViews v v').2.2 = v'.updateWide) := by
  unfold compareViews
  split
  · split
    · exact ⟨.inl rfl, .inl rfl⟩
    · exact ⟨.inl rfl, .inr rfl⟩
  · split
    · exact ⟨.inl rfl, .inl rfl⟩
    · exact ⟨.inr rfl, .inl rfl⟩
  · exact ⟨.inl rfl, .inl rfl⟩
  · exact ⟨.inl rfl, .inl rfl⟩
  · exact ⟨.inl rfl, .inl rfl⟩

theorem getHash_views (s : StringData) : s.getHash.2.views = s.views := by
  unfold getHash
  split <;> rfl

/-- Representations that stay or get wide characters, with a hash value. -/
theorem touches_compared {v : StringViews} (h : v = s.views ∨ v = s.views.updateWide) :
    Touches s ⟨v, s.getHash.2.hash⟩ := by
  rcases h with rfl | rfl
  · have hhash : (⟨s.views, s.getHash.2.hash⟩ : StringData) = s.getHash.2 := by
      rw [← s.getHash_views]
    rw [hhash]
    exact Touches.refl.hash
  · have hwide : Touches s ⟨s.getHash.2.views.updateWide, s.getHash.2.hash⟩ :=
      Touches.refl.hash.wide
    rwa [s.getHash_views] at hwide

/-- A comparison gives both strings a hash value and may add wide characters. -/
theorem touches_beq (s s' : StringData) :
    Touches s (s.beq s').2.1 ∧ Touches s' (s.beq s').2.2 := by
  obtain ⟨hleft, hright⟩ := compareViews_views s.views s'.views
  unfold beq
  dsimp only
  split
  · exact ⟨Touches.refl.hash, Touches.refl.hash⟩
  · split
    · exact ⟨Touches.refl.hash, Touches.refl.hash⟩
    · exact ⟨touches_compared hleft, touches_compared hright⟩

end StringData

namespace DataOfStrings

open StringData

variable {s : DataOfStrings}

theorem touches_update {i : Nat} {d : StringData} (h : Touches (s i) d) (k : Nat) :
    Touches (s k) (update s i d k) := by
  by_cases hk : k = i
  · subst hk
    rwa [update_self]
  · rw [update_of_ne hk]
    exact Touches.refl

/-- The step: no function does more to any data. -/
theorem touches_observe (s : DataOfStrings) (o : StringObserver) (k : Nat) :
    Touches (s k) (s.observe o k) := by
  cases o with
  | ascii i | utf8 i => exact touches_update (s i).touches_ascii k
  | wide i => exact touches_update Touches.refl.wide k
  | find i j start =>
    have hfirst : Touches (s k) (s.ascii i k) := touches_update (s i).touches_ascii k
    exact hfirst.trans (touches_update (s.ascii i j).touches_ascii k)
  | mid i pos length => exact touches_update ((s i).touches_mid pos length) k
  | getHash i => exact touches_update Touches.refl.hash k
  | eq i j =>
    unfold observe
    dsimp only
    split
    · exact Touches.refl
    · rename_i hij
      obtain ⟨hleft, hright⟩ := touches_beq (s i) (s j)
      have hfirst := touches_update hleft k
      by_cases hk : k = j
      · subst hk
        rwa [update_self]
      · rwa [update_of_ne hk]

theorem touches_observeAll (s : DataOfStrings) (run : List StringObserver) (k : Nat) :
    Touches (s k) (s.observeAll run k) := by
  induction run generalizing s with
  | nil => exact Touches.refl
  | cons o run ih => exact (s.touches_observe o k).trans (ih (s.observe o))

end DataOfStrings

/-! ### Texts and the characters made of them

A representation that is made of the other one has question marks in the place of characters
above 127. UTF-8 octets are compared with wide characters as if each octet were a character. -/

/-- The octets that are made of wide characters, read as characters. -/
def narrowed (w : List UInt32) : List UInt32 := (w.map narrowChar).map UInt8.toUInt32

theorem narrowChar_le (c : UInt32) : narrowChar c ≤ 127 := by
  rw [UInt8.le_iff_toNat_le]
  unfold narrowChar
  split
  · decide
  · rename_i hc
    rw [gt_iff_lt, UInt32.lt_iff_toNat_lt, Nat.not_lt] at hc
    rw [UInt32.toNat_toUInt8]
    change c.toNat ≤ 127 at hc
    change c.toNat % 256 ≤ 127
    omega

theorem toUInt32_narrowChar_le (c : UInt32) : (narrowChar c).toUInt32 ≤ 127 := by
  have h := narrowChar_le c
  rw [UInt8.le_iff_toNat_le] at h
  rw [UInt32.le_iff_toNat_le, UInt8.toNat_toUInt32]
  exact h

theorem narrowed_eq_self {w : List UInt32} (h : ∀ c ∈ w, c ≤ 127) : narrowed w = w := by
  unfold narrowed
  rw [map_map, map_congr_left (g := id), map_id]
  intro c hc
  exact (DrString.toUInt32_octet c).mpr (h c hc)

theorem widenOctet_eq {b : Blob} (h : ∀ c ∈ b, c ≤ 127) :
    b.map widenOctet = b.map UInt8.toUInt32 := by
  apply map_congr_left
  intro c hc
  exact if_neg (UInt8.not_lt.mpr (h c hc))

/-- The octets of characters are theirs alone, as strings of octets and as characters. -/
theorem map_toUInt32_injective {b b' : Blob} (h : b.map UInt8.toUInt32 = b'.map UInt8.toUInt32) :
    b = b' := by
  refine map_injective_iff.mpr ?_ h
  intro c c' hc
  rw [← UInt8.toNat_inj, ← UInt8.toNat_toUInt32, hc, UInt8.toNat_toUInt32]

namespace StringText

variable {cs : List Char}

theorem encode_injective {cs' : List Char} (h : encode cs = encode cs') : cs = cs' := by
  apply String.ofList_injective
  rw [← String.toByteArray_inj]
  exact toByteArray_inj.mpr h

/-- A character has an octet above 127 unless it is at most 127 itself. -/
theorem val_le_of_octets {c : Char} (h : ∀ o ∈ String.utf8EncodeChar c, o ≤ 127) :
    c.val ≤ 127 := by
  by_contra hc
  rw [UInt32.le_iff_toNat_le] at hc
  change ¬ c.val.toNat ≤ 127 at hc
  have hhigh : ∀ n, 0xc0 ≤ n → n < 256 → ¬ UInt8.ofNat n ≤ 127 := by
    intro n hn hn' hle
    rw [UInt8.le_iff_toNat_le, UInt8.toNat_ofNat'] at hle
    change n % 256 ≤ 127 at hle
    omega
  unfold String.utf8EncodeChar at h
  dsimp only at h
  rw [if_neg hc] at h
  split at h
  · exact hhigh _ (by omega) (by omega) (h _ mem_cons_self)
  · split at h
    · exact hhigh _ (by omega) (by omega) (h _ mem_cons_self)
    · exact hhigh _ (by omega) (by omega) (h _ mem_cons_self)

theorem encodeChar_of_le {c : Char} (h : c.val ≤ 127) :
    (String.utf8EncodeChar c).map UInt8.toUInt32 = [c.val] := by
  rw [String.utf8EncodeChar_eq_singleton (Char.utf8Size_eq_one_iff.mpr h), map_singleton]
  congr 1
  have hc := (DrString.toUInt32_octet c.val).mpr h
  rwa [if_neg (UInt32.not_lt.mpr h)] at hc

theorem encode_of_le (h : ∀ c ∈ cs, c.val ≤ 127) :
    (encode cs).map UInt8.toUInt32 = cs.map Char.val := by
  unfold encode
  induction cs with
  | nil => rfl
  | cons c cs ih =>
    rw [flatMap_cons, map_append, encodeChar_of_le (h c mem_cons_self),
      ih fun c' hc' => h c' (mem_cons_of_mem c hc'), map_cons, singleton_append]

theorem le_of_encode_le (h : ∀ o ∈ encode cs, o ≤ 127) : ∀ c ∈ cs, c.val ≤ 127 := by
  intro c hc
  apply val_le_of_octets
  intro o ho
  exact h o (mem_flatMap.mpr ⟨c, hc, ho⟩)

/-- Octets made of wide characters are UTF-8 of themselves only. -/
theorem encode_eq_narrow {w : List UInt32} :
    encode cs = w.map narrowChar ↔ cs.map Char.val = narrowed w := by
  constructor
  · intro h
    have hle : ∀ c ∈ cs, c.val ≤ 127 := by
      apply le_of_encode_le
      rw [h]
      intro o ho
      obtain ⟨c, -, rfl⟩ := mem_map.mp ho
      exact narrowChar_le c
    rw [← encode_of_le hle, h, narrowed]
  · intro h
    have hle : ∀ c ∈ cs, c.val ≤ 127 := by
      intro c hc
      have hmem : c.val ∈ narrowed w := h ▸ mem_map_of_mem hc
      obtain ⟨o, ho, heq⟩ := mem_map.mp hmem
      obtain ⟨c', -, rfl⟩ := mem_map.mp ho
      rw [← heq]
      exact toUInt32_narrowChar_le c'
    apply map_toUInt32_injective
    rw [encode_of_le hle, h, narrowed]

/-- The hash value of a text does not depend on its representation. -/
def Stable : StringText → Prop
  | wide w => hashChars (narrowed w) = hashChars w
  | _ => True

/-- UTF-8 text and wide text that compare by their characters. -/
structure Told (cs : List Char) (w : List UInt32) : Prop where
  same : cs.map Char.val = w → ∀ c ∈ w, c ≤ 127
  narrow : cs.map Char.val = narrowed w → cs.map Char.val = w
  widen : (encode cs).map widenOctet = w → cs.map Char.val = w ∨
    hashChars ((encode cs).map UInt8.toUInt32) ≠ hashChars w

/-- Two texts compare by their characters in every representation. -/
def Apart : StringText → StringText → Prop
  | wide w, wide w' => narrowed w = narrowed w' → w = w'
  | utf8 cs, wide w => Told cs w
  | wide w, utf8 cs => Told cs w
  | _, _ => True

theorem encode_le (h : ∀ c ∈ cs, c.val ≤ 127) : ∀ o ∈ encode cs, o ≤ 127 := by
  have hnarrow : cs.map Char.val = narrowed (cs.map Char.val) := by
    refine (narrowed_eq_self ?_).symm
    intro c hc
    obtain ⟨c', hc', rfl⟩ := mem_map.mp hc
    exact h c' hc'
  rw [encode_eq_narrow.mpr hnarrow]
  intro o ho
  obtain ⟨c, -, rfl⟩ := mem_map.mp ho
  exact narrowChar_le c

end StringText

end Drt
