import Drt.Core.Types.StringObservers

/-!
# When the observers of strings do not show

A representation that is made takes part in comparisons and hash values from then on. What the
observers leave of the data of a text is an invariant as long as both representations have one
hash value.
-/

open List

namespace Drt

open StringData

namespace StringText

/-- Data in one of two representations, with the hash value `h` or none. -/
structure Held (v w : StringViews) (h : UInt64) (s : StringData) : Prop where
  views : s.views = v ∨ s.views = w
  hash : s.hash = none ∨ s.hash = some h

variable {w : List UInt32} {s s' : StringData}

/-- Data stay so that get nothing but the other representation and the hash value of both. -/
theorem Held.of_touches {v w : StringViews} {h : UInt64} {t : StringData}
    (hbyte : (v.updateByte = v ∨ v.updateByte = w) ∧ w.updateByte = w)
    (hwide : (v.updateWide = v ∨ v.updateWide = w) ∧ w.updateWide = w)
    (hhash : hashChars v.hashed = h ∧ hashChars w.hashed = h) (hs : Held v w h s)
    (ht : StringData.Touches s t) : Held v w h t := by
  induction ht with
  | refl => exact hs
  | byte _ ih =>
    refine ⟨?_, ih.hash⟩
    rcases ih.views with hv | hv
    · rw [hv]
      exact hbyte.1
    · rw [hv]
      exact .inr hbyte.2
  | wide _ ih =>
    refine ⟨?_, ih.hash⟩
    rcases ih.views with hv | hv
    · rw [hv]
      exact hwide.1
    · rw [hv]
      exact .inr hwide.2
  | @hash u _ ih =>
    refine ⟨u.getHash_views ▸ ih.views, ?_⟩
    unfold getHash
    rcases ih.hash with hu | hu
    · rw [hu]
      right
      rcases ih.views with hv | hv
      · rw [hv]
        exact congrArg some hhash.1
      · rw [hv]
        exact congrArg some hhash.2
    · rw [hu]
      exact .inr hu

theorem Held.getHash {v w : StringViews} {h : UInt64}
    (hhash : hashChars v.hashed = h ∧ hashChars w.hashed = h) (hs : Held v w h s) :
    s.getHash.1 = h := by
  unfold StringData.getHash
  rcases hs.hash with hu | hu
  · rw [hu]
    rcases hs.views with hv | hv
    · rw [hv]
      exact hhash.1
    · rw [hv]
      exact hhash.2
  · rw [hu]

/-- Data built from octets. -/
def OctetData (b : Blob) (s : StringData) : Prop :=
  Held (.bytes b) (StringViews.bytes b).updateWide (hashChars (b.map UInt8.toUInt32)) s

/-- Data built from wide characters. -/
def WideData (w : List UInt32) (s : StringData) : Prop :=
  Held (.wide w) (StringViews.wide w).updateByte (hashChars w) s

/-- The hash value of octets is that of their characters, in either representation. -/
theorem hashed_bytes (b : Blob) :
    hashChars (StringViews.bytes b).hashed = hashChars (b.map UInt8.toUInt32) ∧
      hashChars (StringViews.bytes b).updateWide.hashed = hashChars (b.map UInt8.toUInt32) :=
  ⟨rfl, rfl⟩

/-- The hash value of wide characters may be another one with octets. -/
theorem hashed_wide (h : hashChars (narrowed w) = hashChars w) :
    hashChars (StringViews.wide w).hashed = hashChars w ∧
      hashChars (StringViews.wide w).updateByte.hashed = hashChars w :=
  ⟨rfl, h⟩

theorem OctetData.of_touches {b : Blob} (hs : OctetData b s) (h : StringData.Touches s s') :
    OctetData b s' :=
  Held.of_touches ⟨.inl rfl, rfl⟩ ⟨.inr rfl, rfl⟩ (hashed_bytes b) hs h

theorem WideData.of_touches (hstable : hashChars (narrowed w) = hashChars w) (hs : WideData w s)
    (h : StringData.Touches s s') : WideData w s' :=
  Held.of_touches ⟨.inr rfl, rfl⟩ ⟨.inl rfl, rfl⟩ (hashed_wide hstable) hs h

/-- Data built from a text. -/
def Holds : StringText → StringData → Prop
  | utf8 cs, s => OctetData (encode cs) s
  | wide w, s => WideData w s
  | empty, s => OctetData [] s

/-- The hash value of a text as it is built. -/
def hash : StringText → UInt64
  | utf8 cs => hashChars ((encode cs).map UInt8.toUInt32)
  | wide w => hashChars w
  | empty => hashChars []

theorem holds_build (t : StringText) : Holds t t.build := by
  cases t with
  | utf8 cs | wide w => exact ⟨.inl rfl, .inl rfl⟩
  | empty => exact ⟨.inr rfl, .inl rfl⟩

theorem Holds.of_touches {t : StringText} (ht : t.Stable) (hs : Holds t s)
    (h : StringData.Touches s s') : Holds t s' := by
  cases t with
  | utf8 cs | empty => exact OctetData.of_touches hs h
  | wide w => exact WideData.of_touches ht hs h

theorem Holds.getHash {t : StringText} (ht : t.Stable) (hs : Holds t s) : s.getHash.1 = t.hash := by
  cases t with
  | utf8 cs => exact Held.getHash (hashed_bytes (encode cs)) hs
  | wide w => exact Held.getHash (hashed_wide ht) hs
  | empty => exact Held.getHash (hashed_bytes []) hs

/-- What `beq` compares. -/
theorem beq_eq_true : (s.beq s').1 = true ↔
    s'.getHash.1 = s.getHash.1 ∧ s.views.length = s'.views.length ∧
      (compareViews s.views s'.views).1 = true := by
  unfold beq
  dsimp only
  by_cases hhash : s'.getHash.1 = s.getHash.1
  · rw [if_neg (not_not_intro hhash)]
    by_cases hlength : s.views.length = s'.views.length
    · rw [if_neg (not_not_intro hlength)]
      exact ⟨fun h => ⟨hhash, hlength, h⟩, fun h => h.2.2⟩
    · rw [if_pos hlength]
      exact ⟨fun h => absurd h Bool.false_ne_true, fun h => absurd h.2.1 hlength⟩
  · rw [if_pos hhash]
    exact ⟨fun h => absurd h Bool.false_ne_true, fun h => absurd h.1 hhash⟩

/-- Representations of one length compare the same in either order. -/
theorem compareViews_comm {v v' : StringViews} (h : v.length = v'.length) :
    (compareViews v v').1 = true ↔ (compareViews v' v).1 = true := by
  have hcomm : ∀ {α : Type} [DecidableEq α] (x y : α), decide (x = y) = decide (y = x) :=
    fun x y => decide_eq_decide.mpr eq_comm
  cases v with
  | bytes b =>
    cases v' with
    | wide w =>
      change b.length = w.length at h
      simp only [compareViews, h, hcomm (b.map widenOctet)]
      split <;> rfl
    | _ => simp only [compareViews, hcomm (StringViews.bytes b).octets]
  | wide w =>
    cases v' with
    | bytes b =>
      change w.length = b.length at h
      simp only [compareViews, h, hcomm w]
      split <;> rfl
    | wide w' =>
      simp only [compareViews, hcomm w]
      rfl
    | both b w' hlength => simp only [compareViews, hcomm w]
  | both b w hlength =>
    cases v' <;> simp only [compareViews, hcomm (StringViews.both b w hlength).octets,
      hcomm (StringViews.both b w hlength).chars]

theorem beq_comm (s s' : StringData) : (s.beq s').1 = true ↔ (s'.beq s).1 = true := by
  rw [beq_eq_true, beq_eq_true]
  constructor
  · rintro ⟨hhash, hlength, hviews⟩
    exact ⟨hhash.symm, hlength.symm, (compareViews_comm hlength).mp hviews⟩
  · rintro ⟨hhash, hlength, hviews⟩
    exact ⟨hhash.symm, hlength.symm, (compareViews_comm hlength).mp hviews⟩

/-- Octets are compared as such. -/
theorem OctetData.beq {b b' : Blob} (hs : OctetData b s) (hs' : OctetData b' s') :
    (s.beq s').1 = true ↔ b = b' := by
  have hlength : s.views.length = b.length := by
    rcases hs.views with hv | hv <;> rw [hv] <;> rfl
  have hlength' : s'.views.length = b'.length := by
    rcases hs'.views with hv | hv <;> rw [hv] <;> rfl
  have hviews : (compareViews s.views s'.views).1 = true ↔ b = b' := by
    rcases hs.views with hv | hv <;> rcases hs'.views with hv' | hv' <;> rw [hv, hv'] <;>
      exact decide_eq_true_iff
  rw [beq_eq_true, Held.getHash (hashed_bytes b) hs, Held.getHash (hashed_bytes b') hs',
    hlength, hlength', hviews]
  constructor
  · exact fun h => h.2.2
  · rintro rfl
    exact ⟨rfl, rfl, rfl⟩

/-- Wide characters are compared as such, or as the octets made of them. -/
theorem WideData.beq {w' : List UInt32} (hstable : hashChars (narrowed w) = hashChars w)
    (hstable' : hashChars (narrowed w') = hashChars w')
    (happart : narrowed w = narrowed w' → w = w') (hs : WideData w s) (hs' : WideData w' s') :
    (s.beq s').1 = true ↔ w = w' := by
  have hlength : s.views.length = w.length := by
    rcases hs.views with hv | hv <;> rw [hv]
    · rfl
    · exact length_map narrowChar
  have hlength' : s'.views.length = w'.length := by
    rcases hs'.views with hv | hv <;> rw [hv]
    · rfl
    · exact length_map narrowChar
  have hnarrow : w.map narrowChar = w'.map narrowChar ↔ w = w' :=
    ⟨fun h => happart (congrArg (List.map UInt8.toUInt32) h), fun h => congrArg _ h⟩
  have hviews : (compareViews s.views s'.views).1 = true ↔ w = w' := by
    rcases hs.views with hv | hv <;> rcases hs'.views with hv' | hv' <;> rw [hv, hv']
    · exact decide_eq_true_iff
    · exact decide_eq_true_iff
    · exact decide_eq_true_iff
    · exact decide_eq_true_iff.trans hnarrow
  rw [beq_eq_true, Held.getHash (hashed_wide hstable) hs, Held.getHash (hashed_wide hstable') hs',
    hlength, hlength', hviews]
  constructor
  · exact fun h => h.2.2
  · rintro rfl
    exact ⟨rfl, rfl, rfl⟩

/-- Octets and wide characters of one length are compared as wide characters. -/
theorem OctetData.compareViews_wide {b : Blob} {v : StringViews}
    (hv : v = .bytes b ∨ v = (StringViews.bytes b).updateWide) (hlength : b.length = w.length) :
    (compareViews v (.wide w)).1 = true ↔ b.map widenOctet = w := by
  rcases hv with rfl | rfl
  · unfold compareViews
    dsimp only
    split
    · rename_i hb
      have hw : w = [] := length_eq_zero_iff.mp (hlength ▸ hb)
      rw [length_eq_zero_iff.mp hb, hw]
      exact ⟨fun _ => rfl, fun _ => rfl⟩
    · exact decide_eq_true_iff
  · exact decide_eq_true_iff

/-- Octets and wide characters are compared as wide characters, or as octets once the wide
string has some. -/
theorem OctetData.beq_wide {b : Blob} {p : Prop} (hstable : hashChars (narrowed w) = hashChars w)
    (hwiden : p ↔ hashChars w = hashChars (b.map UInt8.toUInt32) ∧ b.map widenOctet = w)
    (hnarrow : p ↔ b = w.map narrowChar) (hs : OctetData b s) (hs' : WideData w s') :
    (s.beq s').1 = true ↔ p := by
  have hlength : s.views.length = b.length := by
    rcases hs.views with hv | hv <;> rw [hv] <;> rfl
  have hlength' : s'.views.length = w.length := by
    rcases hs'.views with hv | hv <;> rw [hv]
    · rfl
    · exact length_map narrowChar
  rw [beq_eq_true, Held.getHash (hashed_bytes b) hs, Held.getHash (hashed_wide hstable) hs',
    hlength, hlength']
  have hsame : p → hashChars w = hashChars (b.map UInt8.toUInt32) ∧ b.length = w.length := by
    intro hp
    obtain ⟨hhash, hw⟩ := hwiden.mp hp
    exact ⟨hhash, hw ▸ (length_map widenOctet).symm⟩
  rcases hs'.views with hv' | hv'
  · -- the wide string has no octets
    rw [hwiden, hv']
    constructor
    · rintro ⟨hhash, hlen, h⟩
      exact ⟨hhash, (OctetData.compareViews_wide hs.views hlen).mp h⟩
    · rintro ⟨hhash, h⟩
      have hlen : b.length = w.length := h ▸ (length_map widenOctet).symm
      exact ⟨hhash, hlen, (OctetData.compareViews_wide hs.views hlen).mpr h⟩
  · have hviews : (compareViews s.views s'.views).1 = true ↔ p := by
      rw [hv', hnarrow]
      rcases hs.views with hv | hv <;> rw [hv] <;> exact decide_eq_true_iff
    rw [hviews]
    exact ⟨fun h => h.2.2, fun hp => ⟨(hsame hp).1, (hsame hp).2, hp⟩⟩

/-- UTF-8 and wide text that are told apart compare by their characters. -/
theorem Told.beq {cs : List Char} (htold : Told cs w)
    (hstable : hashChars (narrowed w) = hashChars w) (hs : OctetData (encode cs) s)
    (hs' : WideData w s') : (s.beq s').1 = true ↔ cs.map Char.val = w := by
  have hsame : cs.map Char.val = w → (encode cs).map UInt8.toUInt32 = w ∧
      (encode cs).map widenOctet = w ∧ cs.map Char.val = narrowed w := by
    intro h
    have hw := htold.same h
    have hcs : ∀ c ∈ cs, c.val ≤ 127 := fun c hc => hw _ (h ▸ mem_map_of_mem hc)
    have hnarrow : cs.map Char.val = narrowed w := h.trans (narrowed_eq_self hw).symm
    have hoctets := (encode_of_le hcs).trans h
    exact ⟨hoctets, (widenOctet_eq (encode_le hcs)).trans hoctets, hnarrow⟩
  apply OctetData.beq_wide hstable ?_ ?_ hs hs'
  · constructor
    · intro h
      rw [(hsame h).1]
      exact ⟨rfl, (hsame h).2.1⟩
    · rintro ⟨hhash, hwiden⟩
      rcases htold.widen hwiden with h | h
      · exact h
      · exact absurd hhash.symm h
  · rw [encode_eq_narrow]
    exact ⟨fun h => (hsame h).2.2, htold.narrow⟩

theorem told_nil (w : List UInt32) : Told [] w := by
  refine ⟨?_, ?_, ?_⟩
  · rintro rfl c hc
    exact absurd hc not_mem_nil
  · intro h
    exact (map_eq_nil_iff.mp (map_eq_nil_iff.mp h.symm)).symm
  · exact fun h => .inl h

/-- Texts that are told apart compare by their characters. -/
theorem beq_of_holds {t t' : StringText} (ht : t.Stable) (ht' : t'.Stable) (happart : t.Apart t')
    (hs : Holds t s) (hs' : Holds t' s') : (s.beq s').1 = true ↔ t.chars = t'.chars := by
  have hoctets : ∀ {cs cs' : List Char},
      encode cs = encode cs' ↔ cs.map Char.val = cs'.map Char.val := by
    intro cs cs'
    constructor
    · exact fun h => congrArg _ (encode_injective h)
    · exact fun h => congrArg _ (map_injective_iff.mpr (fun _ _ => Char.ext) h)
  have hnil : ∀ {s : StringData}, Holds empty s → OctetData (encode []) s := fun h => h
  cases t with
  | utf8 cs =>
    cases t' with
    | utf8 cs' => exact (OctetData.beq hs hs').trans hoctets
    | wide w => exact Told.beq happart ht' hs hs'
    | empty => exact (OctetData.beq hs (hnil hs')).trans hoctets
  | wide w =>
    cases t' with
    | utf8 cs =>
      exact (beq_comm s s').trans ((Told.beq happart ht hs' hs).trans eq_comm)
    | wide w' => exact WideData.beq ht ht' happart hs hs'
    | empty =>
      exact (beq_comm s s').trans ((Told.beq (told_nil w) ht hs' hs).trans eq_comm)
  | empty =>
    cases t' with
    | utf8 cs => exact (OctetData.beq (hnil hs) hs').trans hoctets
    | wide w => exact Told.beq (told_nil w) ht' hs hs'
    | empty => exact (OctetData.beq hs hs').trans ⟨fun _ => rfl, fun _ => rfl⟩

end StringText

namespace DataOfStrings

open StringText

variable {t : Nat → StringText} {x y : Nat}

/-- No observers change hash values and comparisons of two strings, and they are
equal if they denote the same characters. -/
structure Unobserved (t : Nat → StringText) (x y : Nat) : Prop where
  left : ∀ run, ((built t).observeAll run).getHash x = (built t).getHash x
  right : ∀ run, ((built t).observeAll run).getHash y = (built t).getHash y
  eq : ∀ run, ((built t).observeAll run).eq x y = (built t).eq x y
  same : (built t).eq x y = true ↔ (t x).chars = (t y).chars

theorem getHash_observeAll (h : (t x).Stable) (run : List StringObserver) :
    ((built t).observeAll run).getHash x = (t x).hash :=
  ((holds_build (t x)).of_touches h ((built t).touches_observeAll run x)).getHash h

/-- After any run, texts that are told apart are equal if they denote the same characters. -/
theorem eq_observeAll (hx : (t x).Stable) (hy : (t y).Stable)
    (hxy : x ≠ y → (t x).Apart (t y)) (run : List StringObserver) :
    ((built t).observeAll run).eq x y = true ↔ (t x).chars = (t y).chars := by
  unfold DataOfStrings.eq
  by_cases hne : x = y
  · subst hne
    rw [if_pos rfl]
    exact ⟨fun _ => rfl, fun _ => rfl⟩
  · rw [if_neg hne]
    exact beq_of_holds hx hy (hxy hne)
      ((holds_build (t x)).of_touches hx ((built t).touches_observeAll run x))
      ((holds_build (t y)).of_touches hy ((built t).touches_observeAll run y))

theorem observeAll_ascii (s : DataOfStrings) (i : Nat) :
    s.observeAll [.ascii i] i = (s i).ascii.2 := Function.update_self i _ s

theorem observeAll_ascii_ne (s : DataOfStrings) {i j : Nat} (h : j ≠ i) :
    s.observeAll [.ascii i] j = s j := Function.update_of_ne h _ s

/-- A text whose hash value stays when its octets are asked for has one hash value. -/
theorem stable_of_ascii
    (h : ((built t).observeAll [.ascii x]).getHash x = (built t).getHash x) :
    (t x).Stable := by
  unfold DataOfStrings.getHash at h
  rw [observeAll_ascii] at h
  unfold built at h
  cases ht : t x with
  | utf8 cs => trivial
  | wide w =>
    rw [ht] at h
    exact h
  | empty => trivial

/-- Octets are compared with wide characters, before and after the wide string is asked for
octets. -/
theorem told_of_beq {cs : List Char} {w : List UInt32}
    (hwiden : ((ofOctets (encode cs)).beq (.ofWide w)).1 = true ↔ cs.map Char.val = w)
    (hnarrow : ((ofOctets (encode cs)).beq (ofWide w).ascii.2).1 = true ↔
      cs.map Char.val = w) : Told cs w := by
  rw [beq_eq_true] at hwiden hnarrow
  refine ⟨?_, ?_, ?_⟩
  · intro h
    have hencode : encode cs = w.map narrowChar := of_decide_eq_true (hnarrow.mpr h).2.2
    rw [← h, encode_eq_narrow.mp hencode]
    intro c hc
    obtain ⟨o, ho, rfl⟩ := mem_map.mp hc
    obtain ⟨c', -, rfl⟩ := mem_map.mp ho
    exact toUInt32_narrowChar_le c'
  · intro h
    have hencode : encode cs = w.map narrowChar := encode_eq_narrow.mpr h
    refine hnarrow.mp ⟨?_, ?_, decide_eq_true hencode⟩
    · change hashChars (narrowed w) = hashChars ((encode cs).map UInt8.toUInt32)
      rw [hencode, narrowed]
    · exact congrArg List.length hencode
  · intro h
    by_cases hhash : hashChars w = hashChars ((encode cs).map UInt8.toUInt32)
    · have hlength : (encode cs).length = w.length := h ▸ (length_map widenOctet).symm
      refine .inl (hwiden.mp ⟨hhash, hlength, ?_⟩)
      exact (OctetData.compareViews_wide (.inl rfl) hlength).mpr h
    · exact .inr fun heq => hhash heq.symm

/-- The octets of data, once they have been asked of two strings. -/
theorem eq_ascii_ascii (hne : x ≠ y) : ((built t).observeAll [.ascii x, .ascii y]).eq x y =
    ((t x).build.ascii.2.beq (t y).build.ascii.2).1 := by
  have hx : (built t).observeAll [.ascii x, .ascii y] x = (t x).build.ascii.2 :=
    (observeAll_ascii_ne ((built t).ascii x) hne).trans (observeAll_ascii (built t) x)
  have hy : (built t).observeAll [.ascii x, .ascii y] y = (t y).build.ascii.2 := by
    refine (observeAll_ascii ((built t).ascii x) y).trans ?_
    rw [show (built t).ascii x y = (t y).build from observeAll_ascii_ne (built t) hne.symm]
  unfold DataOfStrings.eq
  rw [if_neg hne, hx, hy]

/-- Strings that are equal by their characters whatever octets have been asked for are told
apart. -/
theorem apart_of_eq (hne : x ≠ y)
    (h : ∀ run, ((built t).observeAll run).eq x y = true ↔ (t x).chars = (t y).chars) :
    (t x).Apart (t y) := by
  have hnone : ((t x).build.beq (t y).build).1 = true ↔ (t x).chars = (t y).chars := by
    have hrun := h []
    unfold DataOfStrings.eq at hrun
    rwa [if_neg hne] at hrun
  have hboth := h [.ascii x, .ascii y]
  rw [eq_ascii_ascii hne] at hboth
  cases htx : t x with
  | utf8 cs =>
    cases hty : t y with
    | wide w =>
      rw [htx, hty] at hnone hboth
      exact told_of_beq hnone hboth
    | _ => trivial
  | wide w =>
    rw [htx] at hnone hboth
    cases hty : t y with
    | utf8 cs =>
      rw [hty] at hnone hboth
      exact told_of_beq ((beq_comm _ _).trans (hnone.trans eq_comm))
        ((beq_comm _ _).trans (hboth.trans eq_comm))
    | wide w' =>
      rw [hty] at hboth
      intro hnarrow
      have hmap : w.map narrowChar = w'.map narrowChar := map_toUInt32_injective hnarrow
      refine hboth.mp (beq_eq_true.mpr ⟨?_, congrArg List.length hmap, decide_eq_true hmap⟩)
      exact congrArg hashChars hnarrow.symm
    | empty => trivial
  | empty => trivial

/-- Observers of texts that have one hash value and are told apart do not show. -/
theorem unobserved_of_apart (hx : (t x).Stable) (hy : (t y).Stable)
    (hxy : x ≠ y → (t x).Apart (t y)) : Unobserved t x y := by
  have heq := eq_observeAll hx hy hxy
  refine ⟨?_, ?_, ?_, heq []⟩
  · exact fun run => (getHash_observeAll hx run).trans (getHash_observeAll hx []).symm
  · exact fun run => (getHash_observeAll hy run).trans (getHash_observeAll hy []).symm
  · exact fun run => Bool.eq_iff_iff.mpr ((heq run).trans (heq []).symm)

/-- Observers of two strings do not show exactly if either text has one hash value and
they are told apart. -/
theorem unobserved_iff (t : Nat → StringText) (x y : Nat) : Unobserved t x y ↔
    (t x).Stable ∧ (t y).Stable ∧ (x ≠ y → (t x).Apart (t y)) := by
  constructor
  · intro h
    refine ⟨stable_of_ascii (h.left _), stable_of_ascii (h.right _), ?_⟩
    intro hne
    apply apart_of_eq hne
    intro run
    rw [h.eq run]
    exact h.same
  · rintro ⟨hx, hy, hxy⟩
    exact unobserved_of_apart hx hy hxy

/-- A wide string with one character above 127 changes its hash value when it is asked for its
octets. -/
theorem not_unobserved : ¬ Unobserved (fun _ => .wide [228]) 0 1 := by
  intro h
  have hstable : hashChars (narrowed [228]) = hashChars [228] := stable_of_ascii (h.left _)
  exact absurd hstable (by decide)

end DataOfStrings

end Drt
