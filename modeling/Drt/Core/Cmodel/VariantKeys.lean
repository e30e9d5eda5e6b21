import Drt.Core.Cmodel.VariantValue

/-!
# Variants as keys

A boolean counts as the number zero or one, and `eq` compares numbers by their texts. Invalid,
null, numbers and objects are keys; blobs and strings have no hash value, and arrays and hashes
are equal to nothing of their own type.
-/

namespace Drt

/-- What `eq` and `hash` see of a variant that is a key. -/
inductive VariantKey (Obj : Type) where
  | invalid
  | null
  | number (n : Int64)
  | object (o : Obj)

namespace VariantKey

variable {Obj : Type}

/-- Keys that count as one. -/
def eq (m : ObjectMethods Obj) : VariantKey Obj → VariantKey Obj → Bool
  | invalid, invalid => true
  | null, null => true
  | number n, number n' => n = n'
  | object o, object o' => m.eq o o'
  | _, _ => false

/-- The hash value of a key. -/
def hash (m : ObjectMethods Obj) : VariantKey Obj → Int64
  | invalid => -2
  | null => -1
  | number n => n
  | object o => m.hash o

variable (m : LawfulMethods Obj)

theorem eq_refl (k : VariantKey Obj) : k.eq m.toObjectMethods k = true := by
  cases k with
  | number n => exact decide_eq_true rfl
  | object o => exact m.eq_refl o
  | _ => rfl

variable {k k' : VariantKey Obj}

section

variable (h : k.eq m.toObjectMethods k' = true)
include h

theorem eq_symm : k'.eq m.toObjectMethods k = true := by
  cases k <;> cases k' <;> first
    | rfl
    | exact absurd h Bool.false_ne_true
    | exact decide_eq_true (of_decide_eq_true h).symm
    | exact m.eq_symm _ _ h

theorem eq_trans {k'' : VariantKey Obj} (h' : k'.eq m.toObjectMethods k'' = true) :
    k.eq m.toObjectMethods k'' = true := by
  cases k <;> cases k' <;> first
    | exact absurd h Bool.false_ne_true
    | exact h'
    | skip
  · rwa [of_decide_eq_true h]
  · cases k'' <;> first
      | exact absurd h' Bool.false_ne_true
      | exact m.eq_trans _ _ _ h h'

theorem hash_eq : k.hash m.toObjectMethods = k'.hash m.toObjectMethods := by
  cases k <;> cases k' <;> first
    | rfl
    | exact absurd h Bool.false_ne_true
    | exact of_decide_eq_true h
    | exact m.hash_eq _ _ h

end

end VariantKey

namespace VariantValue

variable {Obj : Type}

/-- The key of a variant. -/
def key : VariantValue Obj → Option (VariantKey Obj)
  | VT_Invalid => some .invalid
  | VT_Null => some .null
  | VT_Bool bool_val => some (.number (if bool_val then 1 else 0))
  | VT_Int int_val => some (.number int_val)
  | VT_Object object_val => some (.object object_val)
  | _ => none

variable {v : VariantValue Obj}

theorem toBinary_number {n : Int64} (h : v.key = some (.number n)) :
    v.toBinary = .fresh (.own (intText 10 n.toInt)) := by
  cases v with
  | VT_Bool b =>
    cases b <;> cases h <;> rfl
  | VT_Int n' =>
    cases h
    rfl
  | _ => cases h

/-- The texts of numbers tell them apart. -/
theorem eqText_number (v vs : VariantValue Obj) {n n' : Int64} (h : v.key = some (.number n))
    (h' : vs.key = some (.number n')) : v.eqText vs = decide (n = n') := by
  have hnull : vs.isNull = false := by
    cases vs with
    | VT_Null => cases h'
    | _ => rfl
  have hbound (k : Int64) : k.toInt.natAbs < 2 ^ 64 := by
    have hle : k.toInt < 2 ^ 63 := k.toInt_lt
    have hge : -2 ^ 63 ≤ k.toInt := k.le_toInt
    omega
  unfold eqText
  rw [hnull, toBinary_number h, toBinary_number h', BlobData.beq_fresh]
  refine decide_eq_decide.mpr ⟨?_, ?_⟩
  · intro htext
    exact Int64.toInt_inj.mp
      (intText_injective (by decide) (by decide) (hbound n) (hbound n') htext)
  · rintro rfl
    rfl

theorem eqText_null (v vs : VariantValue Obj) {n : Int64} (h : v.key = some (.number n))
    (hnull : vs.toBinary = .fresh .null) : v.eqText vs = false := by
  have htext : intText 10 n.toInt ≠ [] := by
    unfold intText
    split
    · exact List.cons_ne_nil _ _
    · exact numberText_ne_nil _ _
  unfold eqText
  rw [toBinary_number h, hnull, BlobData.beq_fresh, Bool.and_eq_false_iff]
  exact .inr (decide_eq_false htext)

/-- Variants that are keys are compared as such. -/
theorem eq_key (m : ObjectMethods Obj) {vs : VariantValue Obj} {k k' : VariantKey Obj}
    (h : v.key = some k) (h' : vs.key = some k') : v.eq m vs = k.eq m k' := by
  cases v with
  | VT_Invalid | VT_Null | VT_Object o =>
    cases h
    cases vs <;> cases h' <;> rfl
  | VT_Bool b =>
    cases h
    cases vs with
    | VT_Bool b' =>
      cases h'
      cases b <;> cases b' <;> rfl
    | VT_Int n =>
      cases h'
      exact eqText_number (VT_Bool b) (VT_Int n) rfl rfl
    | VT_Invalid | VT_Null | VT_Object o =>
      cases h'
      exact eqText_null (VT_Bool b) _ rfl rfl
    | _ => cases h'
  | VT_Int n =>
    cases h
    cases vs with
    | VT_Bool b =>
      cases h'
      exact eqText_number (VT_Int n) (VT_Bool b) rfl rfl
    | VT_Int n' =>
      cases h'
      exact decide_eq_decide.mpr eq_comm
    | VT_Invalid | VT_Null | VT_Object o =>
      cases h'
      exact eqText_null (VT_Int n) _ rfl rfl
    | _ => cases h'
  | _ => cases h

theorem hash_key (m : ObjectMethods Obj) {k : VariantKey Obj} (h : v.key = some k) :
    v.hash m = .ok (k.hash m) := by
  cases v <;> cases h <;> rfl

/-- `eq` is an equivalence of the variants of a set, and equal ones have one hash value. -/
structure HashContract (m : ObjectMethods Obj) (S : Set (VariantValue Obj)) : Prop where
  refl : ∀ v ∈ S, v.eq m v = true
  symm : ∀ v ∈ S, ∀ vs ∈ S, v.eq m vs = true → vs.eq m v = true
  trans : ∀ v ∈ S, ∀ vs ∈ S, ∀ vt ∈ S, v.eq m vs = true → vs.eq m vt = true → v.eq m vt = true
  hash : ∀ v ∈ S, ∀ vs ∈ S, v.eq m vs = true → ∃ h, v.hash m = .ok h ∧ vs.hash m = .ok h

/-- Variants of a set with the contract are keys: blobs and strings are equal to themselves and
have no hash value, arrays and hashes are not. -/
theorem HashContract.key {m : ObjectMethods Obj} {S : Set (VariantValue Obj)}
    (hS : HashContract m S) (hv : v ∈ S) : ∃ k, v.key = some k := by
  have hrefl := hS.refl v hv
  obtain ⟨h, hhash, -⟩ := hS.hash v hv v hv hrefl
  cases v with
  | VT_Binary b hnull => cases hhash
  | VT_String s => cases hhash
  | VT_Array o | VT_Hash o => exact absurd hrefl Bool.false_ne_true
  | _ => exact ⟨_, rfl⟩

/-- Lawful objects given, the variants of a set have the contract exactly if all are keys. -/
theorem hashContract_iff (m : LawfulMethods Obj) (S : Set (VariantValue Obj)) :
    HashContract m.toObjectMethods S ↔ ∀ v ∈ S, ∃ k, v.key = some k := by
  constructor
  · exact fun hS v hv => hS.key hv
  · intro hkey
    refine ⟨?_, ?_, ?_, ?_⟩
    · intro v hv
      obtain ⟨k, hk⟩ := hkey v hv
      rw [eq_key _ hk hk]
      exact k.eq_refl m
    · intro v hv vs hvs h
      obtain ⟨k, hk⟩ := hkey v hv
      obtain ⟨k', hk'⟩ := hkey vs hvs
      rw [eq_key _ hk hk'] at h
      rw [eq_key _ hk' hk]
      exact VariantKey.eq_symm m h
    · intro v hv vs hvs vt hvt h h'
      obtain ⟨k, hk⟩ := hkey v hv
      obtain ⟨k', hk'⟩ := hkey vs hvs
      obtain ⟨k'', hk''⟩ := hkey vt hvt
      rw [eq_key _ hk hk'] at h
      rw [eq_key _ hk' hk''] at h'
      rw [eq_key _ hk hk'']
      exact VariantKey.eq_trans m h h'
    · intro v hv vs hvs h
      obtain ⟨k, hk⟩ := hkey v hv
      obtain ⟨k', hk'⟩ := hkey vs hvs
      rw [eq_key _ hk hk'] at h
      refine ⟨k.hash m.toObjectMethods, hash_key _ hk, ?_⟩
      rw [hash_key _ hk', VariantKey.hash_eq m h]

/-- A string is equal to itself and has no hash value. -/
theorem not_hashContract : ¬ ∀ m : LawfulMethods Unit, HashContract m.toObjectMethods Set.univ := by
  intro h
  have hS := h ⟨⟨fun _ _ => true, fun _ => 0, fun _ _ => 0⟩, fun _ => rfl, fun _ _ _ => rfl,
    fun _ _ _ _ _ => rfl, fun _ _ _ => rfl⟩
  obtain ⟨k, hk⟩ := hS.key (Set.mem_univ (VT_String (.ofOctets (ascii "a"))))
  cases hk

end VariantValue

end Drt
