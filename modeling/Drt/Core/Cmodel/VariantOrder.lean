import Drt.Core.Cmodel.VariantValue
import Mathlib.Data.List.Lex

/-!
# The order of variants of one type

Blobs are compared octet by octet, and a blob comes after its prefixes. Strings are compared
with themselves.
-/

namespace Drt

open BString Outcome

namespace BString

/-- The octets as numbers, which are in lexicographic order. -/
def numbers (b : BString) : List Nat := b.octets.map UInt8.toNat

theorem numbers_inj {b b' : BString} : b.numbers = b'.numbers ↔ b.octets = b'.octets :=
  (List.map_injective_iff.mpr fun _ _ => UInt8.toNat_inj.mp).eq_iff

/-- The result of `bcmp` for the order of two lists. -/
def orderSign (l l' : List Nat) : Int := if l < l' then -2 else if l = l' then 0 else 2

/-- `memcmp`, and then the sizes, give the lexicographic order. -/
theorem memcmp_sign (l l' : Blob) :
    (if memcmp l l' = 0 then
      if l.length ≠ l'.length then (if l.length < l'.length then -2 else 2) else 0
    else if memcmp l l' > 0 then 2 else -2) =
      orderSign (l.map UInt8.toNat) (l'.map UInt8.toNat) := by
  induction l generalizing l' with
  | nil =>
    cases l' with
    | nil => rfl
    | cons c' l' => simp [memcmp, orderSign]
  | cons c l ih =>
    cases l' with
    | nil => simp [memcmp, orderSign]
    | cons c' l' =>
      simp only [memcmp, orderSign, List.map_cons, List.cons_lt_cons_iff, List.cons.injEq,
        UInt8.toNat_inj, List.length_cons, Nat.add_right_cancel_iff, Nat.add_lt_add_iff_right,
        ne_eq]
      by_cases hc : c = c'
      · simp only [hc, if_true, true_and, lt_irrefl, false_or]
        exact ih l'
      · simp only [hc, if_false, false_and, or_false, UInt8.lt_iff_toNat_lt]
        split
        · rw [if_neg (by decide), if_neg (by decide)]
        · rw [if_neg (by decide), if_pos (by decide)]

/-- `bcmp` of blobs that are not null gives their lexicographic order. -/
theorem bcmp_eq {b b' : BString} (h : b.isNull = false) (h' : b'.isNull = false) :
    b.bcmp b' = orderSign b.numbers b'.numbers := by
  cases b with
  | null => cases h
  | zero =>
    cases b' with
    | null => cases h'
    | zero => exact memcmp_sign [] []
    | own l' => exact memcmp_sign [] l'
  | own l =>
    cases b' with
    | null => cases h'
    | zero => exact memcmp_sign l []
    | own l' => exact memcmp_sign l l'

theorem orderSign_eq_zero {l l' : List Nat} : orderSign l l' = 0 ↔ l = l' := by
  unfold orderSign
  split
  · rename_i h
    exact ⟨fun h' => absurd h' (by decide), fun h' => absurd h (h' ▸ lt_irrefl l)⟩
  · split
    · rename_i h
      exact ⟨fun _ => h, fun _ => rfl⟩
    · rename_i h
      exact ⟨fun h' => absurd h' (by decide), fun h' => absurd h' h⟩

theorem orderSign_nonpos {l l' : List Nat} : orderSign l l' ≤ 0 ↔ l ≤ l' := by
  unfold orderSign
  split
  · rename_i h
    exact ⟨fun _ => h.le, fun _ => by decide⟩
  · rename_i h
    split
    · rename_i heq
      exact ⟨fun _ => heq.le, fun _ => le_rfl⟩
    · rename_i hne
      exact ⟨fun h' => absurd h' (by decide), fun h' => absurd (lt_of_le_of_ne h' hne) h⟩

theorem orderSign_swap (l l' : List Nat) : (orderSign l' l).sign = -(orderSign l l').sign := by
  unfold orderSign
  rcases lt_trichotomy l l' with h | h | h
  · rw [if_pos h, if_neg (lt_asymm h), if_neg h.ne']
    rfl
  · subst h
    rw [if_neg (lt_irrefl l), if_pos rfl]
    rfl
  · rw [if_pos h, if_neg (lt_asymm h), if_neg h.ne']
    rfl

end BString

namespace StringData

theorem bcmp_self (s : StringData) : (s.bcmp s).1 = some 0 := by
  have hoctets (b : Blob) : StringViews.memcmp b b b.length = some 0 :=
    congrArg (Option.map Comparison.sign) (Comparison.firstDifference_prefix List.prefix_rfl)
  unfold bcmp
  cases s.views with
  | bytes b | both b w h => exact hoctets b
  | wide w =>
    exact congrArg (Option.map Comparison.sign) (Comparison.firstDifference_prefix List.prefix_rfl)

end StringData

namespace VariantValue

variable {Obj : Type}

/-- Two variants are null, booleans, numbers, blobs or strings. -/
inductive SameType : VariantValue Obj → VariantValue Obj → Prop where
  | VT_Null : SameType VT_Null VT_Null
  | VT_Bool (b b' : Bool) : SameType (VT_Bool b) (VT_Bool b')
  | VT_Int (n n' : Int64) : SameType (VT_Int n) (VT_Int n')
  | VT_Binary (b b' : BlobData) (h : b.value.isNull = false) (h' : b'.value.isNull = false) :
    SameType (VT_Binary b h) (VT_Binary b' h')
  | VT_String (s s' : StringData) : SameType (VT_String s) (VT_String s')

variable {v vs : VariantValue Obj}

theorem SameType.binary {b : BlobData} {h : b.value.isNull = false}
    (hv : SameType (VariantValue.VT_Binary b h) v) :
    ∃ (b' : BlobData) (h' : b'.value.isNull = false), v = VariantValue.VT_Binary b' h' := by
  generalize hbinary : VariantValue.VT_Binary b h = u at hv
  cases hv with
  | VT_Binary _ b' _ h' => exact ⟨b', h', rfl⟩
  | _ => cases hbinary

/-- `cmp` is a total preorder of the variants of one type in a set, and zero where `eq` holds. -/
structure CmpContract (m : ObjectMethods Obj) (S : Set (VariantValue Obj)) : Prop where
  opposite : ∀ v ∈ S, ∀ vs ∈ S, v.SameType vs →
    ∃ r r', v.cmp m vs = .ok r ∧ vs.cmp m v = .ok r' ∧ r'.sign = -r.sign
  trans : ∀ v ∈ S, ∀ vs ∈ S, ∀ vt ∈ S, v.SameType vs → vs.SameType vt →
    ∀ r r', v.cmp m vs = .ok r → vs.cmp m vt = .ok r' → r ≤ 0 → r' ≤ 0 →
      ∃ r'', v.cmp m vt = .ok r'' ∧ r'' ≤ 0
  agrees : ∀ v ∈ S, ∀ vs ∈ S, v.SameType vs → (v.cmp m vs = .ok 0 ↔ v.eq m vs = true)

theorem cmp_int (n n' : Int64) : (if n' = n then 0 else if n > n' then 1 else -1 : Int) =
    (n.toInt - n'.toInt).sign := by
  split
  · rename_i h
    rw [h, sub_self, Int.sign_zero]
  · rename_i hne
    split
    · rename_i h
      have hlt : n'.toInt < n.toInt := Int64.lt_iff_toInt_lt.mp h
      exact (Int.sign_eq_one_of_pos (by omega)).symm
    · rename_i h
      have hle : ¬ n'.toInt < n.toInt := fun hlt => h (Int64.lt_iff_toInt_lt.mpr hlt)
      have hne' : n'.toInt ≠ n.toInt := fun heq => hne (Int64.toInt_inj.mp heq)
      exact (Int.sign_eq_neg_one_of_neg (by omega)).symm

/-- Opposite comparisons have opposite signs. -/
theorem cmp_opposite (m : ObjectMethods Obj) (h : v.SameType vs) :
    ∃ r r', v.cmp m vs = .ok r ∧ vs.cmp m v = .ok r' ∧ r'.sign = -r.sign := by
  cases h with
  | VT_Null => exact ⟨0, 0, rfl, rfl, rfl⟩
  | VT_Bool b b' =>
    refine ⟨_, _, rfl, rfl, ?_⟩
    cases b <;> cases b' <;> rfl
  | VT_Int n n' =>
    refine ⟨_, _, rfl, rfl, ?_⟩
    rw [cmp_int, cmp_int, Int.sign_sign, Int.sign_sign, ← Int.sign_neg, neg_sub]
  | VT_Binary b b' h h' =>
    refine ⟨_, _, rfl, rfl, ?_⟩
    rw [bcmp_eq h h', bcmp_eq h' h]
    exact orderSign_swap _ _
  | VT_String s s' =>
    exact ⟨0, 0, congrArg ofOption s.bcmp_self, congrArg ofOption s'.bcmp_self, rfl⟩

/-- Comparisons go on from one variant to the next. -/
theorem cmp_trans (m : ObjectMethods Obj) {vt : VariantValue Obj} (h : v.SameType vs)
    (h' : vs.SameType vt) {r r' : Int} (hr : v.cmp m vs = .ok r) (hr' : vs.cmp m vt = .ok r')
    (hle : r ≤ 0) (hle' : r' ≤ 0) : ∃ r'', v.cmp m vt = .ok r'' ∧ r'' ≤ 0 := by
  cases h with
  | VT_Null =>
    cases h'
    exact ⟨r, hr, hle⟩
  | VT_Bool b b' =>
    cases h' with
    | VT_Bool _ b'' =>
      cases hr
      cases hr'
      refine ⟨_, rfl, ?_⟩
      revert hle hle'
      cases b <;> cases b' <;> cases b'' <;> decide
  | VT_Int n n' =>
    cases h' with
    | VT_Int _ n'' =>
      cases hr
      cases hr'
      refine ⟨_, rfl, ?_⟩
      rw [cmp_int, Int.sign_nonpos_iff] at hle hle' ⊢
      omega
  | VT_Binary b b' hb hb' =>
    obtain ⟨b'', hb'', rfl⟩ := h'.binary
    cases hr
    cases hr'
    refine ⟨_, rfl, ?_⟩
    rw [bcmp_eq hb' hb, orderSign_nonpos] at hle
    rw [bcmp_eq hb'' hb', orderSign_nonpos] at hle'
    rw [bcmp_eq hb'' hb, orderSign_nonpos]
    exact hle'.trans hle
  | VT_String s s' =>
    cases h' with
    | VT_String _ s'' => exact ⟨0, congrArg ofOption s.bcmp_self, le_rfl⟩

/-- A comparison gives zero exactly for equal variants, unless they are strings, or blobs with
different hash values. -/
theorem cmp_eq_zero (m : ObjectMethods Obj) (h : v.SameType vs)
    (hstring : ∀ s s', v = VT_String s → vs = VT_String s' → (s'.beq s).1 = true)
    (hbinary : ∀ b h b' h', v = VT_Binary b h → vs = VT_Binary b' h' →
      b.value.octets = b'.value.octets → b.keptHash = b'.keptHash) :
    v.cmp m vs = .ok 0 ↔ v.eq m vs = true := by
  cases h with
  | VT_Null => exact ⟨fun _ => rfl, fun _ => rfl⟩
  | VT_Bool b b' =>
    change (ok (if b' = b then 0 else (b.toNat - b'.toNat : Int)) : Outcome Empty Int) =
      .ok 0 ↔ decide (b' = b) = true
    cases b <;> cases b' <;> decide
  | VT_Int n n' =>
    have hzero : (n.toInt - n'.toInt).sign = 0 ↔ n' = n := by
      rw [Int.sign_eq_zero_iff_zero, sub_eq_zero, Int64.toInt_inj, eq_comm]
    change ok _ = ok 0 ↔ decide (n' = n) = true
    rw [cmp_int, ok.injEq, hzero, decide_eq_true_iff]
  | VT_Binary b b' hb hb' =>
    have hbeq : b'.keptHash = b.keptHash ∧ b'.value.octets = b.value.octets ↔
        b'.value.octets = b.value.octets :=
      ⟨fun h => h.2, fun h => ⟨(hbinary b hb b' hb' rfl rfl h.symm).symm, h⟩⟩
    change ok (b'.value.bcmp b.value) = ok 0 ↔
      decide (b'.keptHash = b.keptHash ∧ b'.value.octets = b.value.octets) = true
    rw [bcmp_eq hb' hb, ok.injEq, orderSign_eq_zero,
      numbers_inj, decide_eq_true_iff, hbeq]
  | VT_String s s' =>
    have heq : (s'.beq s).1 = true := hstring s s' rfl rfl
    exact ⟨fun _ => heq, fun _ => congrArg ofOption s.bcmp_self⟩

/-- The variants of a set have the contract exactly if all strings among them are equal, and blobs
of the same octets go by one hash value. -/
theorem cmpContract_iff (m : ObjectMethods Obj) (S : Set (VariantValue Obj)) :
    CmpContract m S ↔
      (∀ s s', VT_String s ∈ S → VT_String s' ∈ S → (s'.beq s).1 = true) ∧
      ∀ b h b' h', VT_Binary b h ∈ S → VT_Binary b' h' ∈ S →
        b.value.octets = b'.value.octets → b.keptHash = b'.keptHash := by
  constructor
  · refine fun hS => ⟨fun s s' hs hs' => ?_, fun b h b' h' hb hb' heq => ?_⟩
    · exact (hS.agrees _ hs _ hs' (.VT_String s s')).mp (congrArg ofOption s.bcmp_self)
    · have hzero : b'.value.bcmp b.value = 0 := by
        rw [bcmp_eq h' h, orderSign_eq_zero, numbers_inj, heq]
      have hbeq := (hS.agrees _ hb _ hb' (.VT_Binary b b' h h')).mp (congrArg ok hzero)
      exact (of_decide_eq_true hbeq).1.symm
  · rintro ⟨hstring, hbinary⟩
    refine ⟨?_, ?_, ?_⟩
    · exact fun v _ vs _ h => cmp_opposite m h
    · exact fun v _ vs _ vt _ h h' r r' hr hr' hle hle' => cmp_trans m h h' hr hr' hle hle'
    · intro v hv vs hvs h
      apply cmp_eq_zero m h
      · rintro s s' rfl rfl
        exact hstring s s' hv hvs
      · rintro b hb b' hb' rfl rfl
        exact hbinary b hb b' hb' hv hvs

/-- Two different strings compare to zero, and so do blobs of the same octets that are different
for `eq`, since one keeps the hash value of octets it had before. -/
theorem not_cmpContract : ¬ (∀ m : ObjectMethods Unit,
      CmpContract m {VT_String (.ofOctets (ascii "a")), VT_String (.ofOctets (ascii "b"))}) ∧
    ¬ ∀ m : ObjectMethods Unit, CmpContract m
      {VT_Binary ⟨.own (ascii "ab"), some (hashChars [97])⟩ rfl,
        VT_Binary (.fresh (.own (ascii "ab"))) rfl} := by
  constructor
  · intro h
    have hall := ((cmpContract_iff _ _).mp (h ⟨fun _ _ => true, fun _ => 0, fun _ _ => 0⟩)).1
    exact absurd (hall _ _ (.inl rfl) (.inr rfl)) (by decide)
  · intro h
    have hall := ((cmpContract_iff _ _).mp (h ⟨fun _ _ => true, fun _ => 0, fun _ _ => 0⟩)).2
    exact absurd (hall _ rfl _ rfl (.inl rfl) (.inr rfl) rfl) (by decide)

end VariantValue

end Drt
