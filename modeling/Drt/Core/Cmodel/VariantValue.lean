import Drt.Core.Types.BString
import Drt.Core.Types.Number
import Drt.Core.Types.StringCompare
import Drt.Lib.Outcome

/-!
# The values of variants

`Variant::eq`, `cmp` and `hash` go by the type of the variant. Where the types differ, the texts
that `toBinary` makes are compared. A `double` is left out.
-/

namespace Drt

/-- `memcmp` of as many octets as both have. -/
def memcmp : Blob → Blob → Int
  | c :: l, c' :: l' => if c = c' then memcmp l l' else if c < c' then -1 else 1
  | _, _ => 0

namespace BString

def bcmp : BString → BString → Int
  | null, null => 0
  | null, zero => -1
  | null, own _ => -2
  | zero, null => 1
  | own _, null => 2
  | b, b' =>
    let r := memcmp b.octets b'.octets
    if r = 0 then
      if b.getSize ≠ b'.getSize then (if b.getSize < b'.getSize then -2 else 2) else 0
    else if r > 0 then 2 else -2

end BString

/-- The data of a blob; the hash value is `none` where the code has -1. -/
structure BlobData where
  value : BString
  hash : Option UInt64

namespace BlobData

/-- A blob that was not asked for its hash value. -/
def fresh (value : BString) : BlobData := ⟨value, none⟩

/-- The hash value that `beq` goes by: the one that is kept, or that of the octets. -/
def keptHash (b : BlobData) : UInt64 :=
  b.hash.getD (hashChars (b.value.octets.map UInt8.toUInt32))

/-- `beq`: the hash values are compared first. -/
def beq (b b' : BlobData) : Bool := b.keptHash = b'.keptHash ∧ b.value.octets = b'.value.octets

/-- Blobs without a kept hash value are compared by their octets. -/
theorem beq_fresh (b b' : BString) : (fresh b).beq (fresh b') = decide (b.octets = b'.octets) := by
  refine decide_eq_decide.mpr ⟨fun h => h.2, fun h => ⟨?_, h⟩⟩
  replace h : (fresh b).value.octets = (fresh b').value.octets := h
  rw [keptHash, keptHash, h]
  rfl

end BlobData

/-- The virtual functions of the objects that variants hold. -/
structure ObjectMethods (Obj : Type) where
  eq : Obj → Obj → Bool
  hash : Obj → Int64
  cmp : Obj → Obj → Int

/-- Objects whose `eq` is an equivalence that `hash` agrees with. -/
structure LawfulMethods (Obj : Type) extends ObjectMethods Obj where
  eq_refl : ∀ o, eq o o = true
  eq_symm : ∀ o o', eq o o' = true → eq o' o = true
  eq_trans : ∀ o o' o'', eq o o' = true → eq o' o'' = true → eq o o'' = true
  hash_eq : ∀ o o', eq o o' = true → hash o = hash o'

/-- `Variant` without `double`. The constructors make a null string, blob or pointer VT_Null;
arrays and hashes are objects, of which the methods are known. -/
inductive VariantValue (Obj : Type) where
  | VT_Invalid
  | VT_Null
  | VT_Bool (bool_val : Bool)
  | VT_Int (int_val : Int64)
  | VT_Binary (binary_val : BlobData) (hnull : binary_val.value.isNull = false)
  | VT_String (string_val : StringData)
  | VT_Object (object_val : Obj)
  | VT_Array (array_val : Obj)
  | VT_Hash (hash_val : Obj)

namespace VariantValue

variable {Obj : Type}

def isNull : VariantValue Obj → Bool
  | VT_Null => true
  | _ => false

/-- `toBinary`. The text of an object would be asked for if there were none. -/
def toBinary : VariantValue Obj → BlobData
  | VT_Invalid | VT_Null => .fresh .null
  | VT_Bool bool_val => .fresh (.own (if bool_val then ascii "1" else ascii "0"))
  | VT_Int int_val => .fresh (.own (intText 10 int_val.toInt))
  | VT_Binary binary_val _ => binary_val
  | VT_String string_val => .fresh (.createDgLen string_val.views.octets)
  | VT_Object _ | VT_Array _ | VT_Hash _ => .fresh .null

/-- `hash`. The pointer to the data of a blob or a string is taken for one to the blob or the
string, whose own pointer is then the reference count of the data. -/
def hash (m : ObjectMethods Obj) : VariantValue Obj → Outcome Empty Int64
  | VT_Invalid => .ok (-2)
  | VT_Null => .ok (-1)
  | VT_Bool bool_val => .ok (if bool_val then 1 else 0)
  | VT_Int int_val => .ok int_val
  | VT_Binary _ _ | VT_String _ => .fault
  | VT_Object object_val | VT_Array object_val | VT_Hash object_val => .ok (m.hash object_val)

/-- The end of `eq`, for different types. -/
def eqText (v vs : VariantValue Obj) : Bool := !vs.isNull && v.toBinary.beq vs.toBinary

/-- `eq`. An array or a hash is compared with an object only. -/
def eq (m : ObjectMethods Obj) : VariantValue Obj → VariantValue Obj → Bool
  | VT_Invalid, VT_Invalid => true
  | VT_Invalid, _ => false
  | VT_Null, vs => vs.isNull
  | VT_Bool bool_val, VT_Bool vs_bool_val => vs_bool_val = bool_val
  | VT_Int int_val, VT_Int vs_int_val => vs_int_val = int_val
  | VT_Binary binary_val _, VT_Binary vs_binary_val _ => vs_binary_val.beq binary_val
  | VT_String string_val, VT_String vs_string_val => (vs_string_val.beq string_val).1
  | VT_Object object_val, VT_Object vs_object_val
  | VT_Array object_val, VT_Object vs_object_val
  | VT_Hash object_val, VT_Object vs_object_val => m.eq object_val vs_object_val
  | VT_Object _, _ | VT_Array _, _ | VT_Hash _, _ => false
  | v, vs => v.eqText vs

/-- The end of `cmp`, for different types. -/
def cmpText (v vs : VariantValue Obj) : Outcome Empty Int :=
  if vs.isNull then .ok 1 else .ok (v.toBinary.value.bcmp vs.toBinary.value)

/-- `cmp`. The blob of the argument comes first, and a string is compared with itself. -/
def cmp (m : ObjectMethods Obj) : VariantValue Obj → VariantValue Obj → Outcome Empty Int
  | VT_Invalid, VT_Invalid => .ok 0
  | VT_Invalid, _ => .ok (-1)
  | VT_Null, vs => if vs.isNull then .ok 0 else .ok (-1)
  | VT_Bool bool_val, VT_Bool vs_bool_val =>
    .ok (if vs_bool_val = bool_val then 0 else bool_val.toNat - vs_bool_val.toNat)
  | VT_Int int_val, VT_Int vs_int_val =>
    .ok (if vs_int_val = int_val then 0 else if int_val > vs_int_val then 1 else -1)
  | VT_Binary binary_val _, VT_Binary vs_binary_val _ =>
    .ok (vs_binary_val.value.bcmp binary_val.value)
  | VT_String string_val, VT_String _ => .ofOption (string_val.bcmp string_val).1
  | VT_Object object_val, VT_Object vs_object_val
  | VT_Array object_val, VT_Object vs_object_val
  | VT_Hash object_val, VT_Object vs_object_val => .ok (m.cmp object_val vs_object_val)
  | v, vs => v.cmpText vs

end VariantValue

end Drt
