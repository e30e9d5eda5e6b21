import Drt.Core.Base.Exception
import Drt.Core.Types.DrString
import Drt.Lib.Keeping
import Drt.Lib.Ledger
import Drt.Lib.Machine
import Mathlib.Algebra.Order.Group.Multiset
import Mathlib.Tactic.Abel
import Mathlib.Tactic.Ring

/-!
# Parameters of a statement

`Statement_mysql5` keeps a `MYSQL_BIND` for each parameter, and the value in a buffer of its own,
which is freed when the parameter is bound again. A null string or blob is bound as NULL first, and
then as the empty text. A string is bound as its `utf8()`, with question marks in the place of wide
characters above 127.
-/

open List Function Outcome

namespace Drt

/-- The types of buffers. An entry that was only cleared has the first one. -/
inductive MysqlType where
  | MYSQL_TYPE_DECIMAL
  | MYSQL_TYPE_TINY
  | MYSQL_TYPE_SHORT
  | MYSQL_TYPE_LONG
  | MYSQL_TYPE_LONGLONG
  | MYSQL_TYPE_FLOAT
  | MYSQL_TYPE_DOUBLE
  | MYSQL_TYPE_NULL
  | MYSQL_TYPE_VAR_STRING
  deriving DecidableEq, Repr

/-- What the buffer of a parameter holds. A `double` is taken for its bits. -/
inductive ParamContent where
  | sint8 (x : Int8)
  | sint16 (x : Int16)
  | sint32 (x : Int32)
  | sint64 (x : Int64)
  | double (bits : UInt64)
  | octets (o : Blob)
  deriving DecidableEq

/-- What `Alloc::alloc` returns: `ZERO_PTR` for no octets, or a block. -/
inductive ParamBuffer where
  | zero
  | block (a : Nat)
  deriving DecidableEq, Repr

/-- `MYSQL_BIND`, as far as parameters use it. -/
structure ParamBind where
  buffer_type : MysqlType
  buffer : Option ParamBuffer
  buffer_length : Nat
  deriving DecidableEq, Repr

namespace ParamBind

/-- An entry full of zeros. -/
def cleared : ParamBind := ⟨.MYSQL_TYPE_DECIMAL, none, 0⟩

/-- The block that an entry refers to. -/
def block? (b : ParamBind) : Option Nat :=
  match b.buffer with
  | some (.block a) => some a
  | _ => none

/-- What the buffer of an entry holds. -/
def content (memory : Ledger ParamContent) (b : ParamBind) : Option ParamContent :=
  match b.buffer with
  | some (.block a) => memory.cell a
  | some .zero => some (.octets [])
  | none => none

end ParamBind

/-- The arguments of the overloads of `bindParam`, and of `bindParamNull`. A null string or blob
is `none`. -/
inductive ParamValue where
  | null
  | sint8 (x : Int8)
  | sint16 (x : Int16)
  | sint32 (x : Int32)
  | sint64 (x : Int64)
  | double (bits : UInt64)
  | string (value : Option DrString)
  | blob (octets : Option Blob)
  deriving DecidableEq

/-- `Variant`. Its constructors make a null string or blob VT_Null; of the others, the name is
known. -/
inductive ParamVariant where
  | VT_Null
  | VT_Bool (bool_val : Bool)
  | VT_Int (int_val : Int64)
  | VT_Double (bits : UInt64)
  | VT_String (value : DrString)
  | VT_Binary (octets : Blob)
  | other (name : String)
  deriving DecidableEq

/-- What is thrown. -/
inductive SqlError where
  | sqlException (code : Int) (text : String)
  | invalidFormat (type name : String)
  deriving DecidableEq, Repr

/-- `Statement_mysql5`, with its memory and what `mysql_stmt_param_count` answers. -/
structure Statement where
  par_bindings : List ParamBind
  memory : Ledger ParamContent
  param_count : Nat

namespace Statement

variable (tsize : Nat)

/-- `Alloc::free`. -/
def freeBuffer (memory : Ledger ParamContent) :
    Option ParamBuffer → Outcome SqlError (Ledger ParamContent)
  | some (.block a) => memory.free a
  | _ => .ok memory

/-- `allocParBinding`, with entries of `tsize` octets. The array has its size in octets in an
`unsigned`; beyond that, entries are written that it does not have. -/
def allocParBinding (idx : UInt32) (st : Statement) : Outcome SqlError Statement :=
  match st.par_bindings[idx.toNat]? with
  | none =>
    if (idx.toNat + 1) * tsize < 2 ^ 32 then
      .ok { st with
        par_bindings := st.par_bindings ++
          List.replicate (idx.toNat + 1 - st.par_bindings.length) .cleared }
    else .fault
  | some b => do
    let memory ← freeBuffer st.memory b.buffer
    .ok { st with par_bindings := st.par_bindings.set idx.toNat .cleared, memory := memory }

def bindParamNull (column : UInt32) (st : Statement) : Outcome SqlError Statement := do
  let st ← allocParBinding tsize column st
  .ok { st with
    par_bindings := st.par_bindings.set column.toNat ⟨.MYSQL_TYPE_NULL, none, 0⟩ }

/-- What the overloads of `bindParam` have in common: a buffer of `size` octets is allocated, and
the value is written there. -/
def bindBuffer (column : UInt32) (type : MysqlType) (size : Nat) (content : ParamContent)
    (length : Nat) (st : Statement) : Outcome SqlError Statement := do
  let st ← allocParBinding tsize column st
  if size = 0 then
    .ok { st with
      par_bindings := st.par_bindings.set column.toNat ⟨type, some .zero, length⟩ }
  else
    .ok { st with
      par_bindings :=
        st.par_bindings.set column.toNat ⟨type, some (.block st.memory.next), length⟩
      memory := st.memory.alloc content }

/-- `bindParam` of a string or a blob. After `bindParamNull` it goes on. -/
def bindOctets (column : UInt32) (value : Option Blob) (st : Statement) :
    Outcome SqlError Statement := do
  let st ← if value = none then bindParamNull tsize column st else .ok st
  let octets := value.getD []
  bindBuffer tsize column .MYSQL_TYPE_VAR_STRING octets.length (.octets octets) octets.length st

def bindParam (column : UInt32) : ParamValue → Statement → Outcome SqlError Statement
  | .null => bindParamNull tsize column
  | .sint8 x => bindBuffer tsize column .MYSQL_TYPE_TINY 1 (.sint8 x) 0
  | .sint16 x => bindBuffer tsize column .MYSQL_TYPE_SHORT 2 (.sint16 x) 0
  | .sint32 x => bindBuffer tsize column .MYSQL_TYPE_LONG 4 (.sint32 x) 0
  | .sint64 x => bindBuffer tsize column .MYSQL_TYPE_LONGLONG 8 (.sint64 x) 0
  | .double bits => bindBuffer tsize column .MYSQL_TYPE_DOUBLE 8 (.double bits) 0
  | .string value => bindOctets tsize column (value.map DrString.utf8)
  | .blob octets => bindOctets tsize column octets

/-- The overload that `bindParam` of a `Variant` calls, with its argument. -/
def variantValue : ParamVariant → Except SqlError ParamValue
  | .VT_Null => .ok .null
  | .VT_Bool bool_val => .ok (.sint32 (if bool_val then 1 else 0))
  | .VT_Int int_val => .ok (.sint64 int_val)
  | .VT_Double bits => .ok (.double bits)
  | .VT_String value => .ok (.string (some value))
  | .VT_Binary octets => .ok (.blob (some octets))
  | .other name => .error (.invalidFormat "sql type" name)

/-- `bindParam` of a `Variant`. -/
def bindVariant (column : UInt32) (value : ParamVariant) : Keeping Statement SqlError Unit :=
  .lift fun st =>
    match variantValue value with
    | .ok value => do
      let st ← bindParam tsize column value st
      .ok ((), st)
    | .error e => .raise e

/-- The loop of `bindParams`, which starts with the last value. -/
def bindBackwards : List ParamVariant → Keeping Statement SqlError Unit
  | [] => pure ()
  | value :: before => do
    bindVariant tsize (.ofNat before.length) value
    bindBackwards before

def bindParams (values : List ParamVariant) : Keeping Statement SqlError Unit := fun st =>
  if st.param_count ≠ values.length then
    (.raise (.sqlException (-1) "incorrect count of bindings"), st)
  else bindBackwards tsize values.reverse st

/-- The loop of the destructor. -/
def freeBuffers (memory : Ledger ParamContent) :
    List ParamBind → Outcome SqlError (Ledger ParamContent)
  | [] => .ok memory
  | b :: rest => do
    let memory ← freeBuffer memory b.buffer
    freeBuffers memory rest

end Statement

/-- The calls; `bindParam` of `null` is `bindParamNull`. -/
inductive ParamCall where
  | bindParam (column : UInt32) (value : ParamValue)
  | bindVariant (column : UInt32) (value : ParamVariant)
  | bindParams (values : List ParamVariant)
  | destroy
  deriving DecidableEq

/-- A statement, and the last value that was bound to each column. -/
structure ParamSession where
  stmt : Statement
  last : UInt32 → Option ParamValue
  alive : Bool

namespace ParamSession

variable (tsize : Nat)

/-- The values that a loop of `bindParams` binds, up to the first one that it refuses. -/
def recordBackwards (last : UInt32 → Option ParamValue) :
    List ParamVariant → UInt32 → Option ParamValue
  | [] => last
  | value :: before =>
    match Statement.variantValue value with
    | .ok v => recordBackwards (Function.update last (.ofNat before.length) (some v)) before
    | .error _ => last

/-- The last values after a call. -/
def record (s : ParamSession) : ParamCall → UInt32 → Option ParamValue
  | .bindParam column value => Function.update s.last column (some value)
  | .bindVariant column value =>
    match Statement.variantValue value with
    | .ok v => Function.update s.last column (some v)
    | .error _ => s.last
  | .bindParams values =>
    if s.stmt.param_count ≠ values.length then s.last else recordBackwards s.last values.reverse
  | .destroy => fun _ => none

/-- A call on the statement, until it is destroyed. -/
def call : ParamCall → Keeping Statement SqlError Unit
  | .bindParam column value =>
    .lift fun st => do
      let st ← st.bindParam tsize column value
      .ok ((), st)
  | .bindVariant column value => Statement.bindVariant tsize column value
  | .bindParams values => Statement.bindParams tsize values
  | .destroy =>
    .lift fun st => do
      let memory ← Statement.freeBuffers st.memory st.par_bindings
      .ok ((), { st with par_bindings := [], memory := memory })

/-- A call returns or raises an exception; nothing comes after what is undefined. -/
def step (s : ParamSession) (c : ParamCall) : Option ParamSession :=
  if s.alive then
    match call tsize c s.stmt with
    | (.ok _, st) | (.raise _, st) => some ⟨st, s.record c, c ≠ .destroy⟩
    | _ => none
  else none

/-- The sessions with one statement. -/
def machine : Machine ParamSession ParamCall where
  init s := s.stmt.par_bindings = [] ∧ s.stmt.memory = .new ∧ s.last = (fun _ => none) ∧ s.alive
  step := step tsize

/-- The columns of a call fit into the array. -/
def Fits : ParamCall → Prop
  | .bindParam column _ => (column.toNat + 1) * tsize < 2 ^ 32
  | .bindVariant column _ => (column.toNat + 1) * tsize < 2 ^ 32
  | .bindParams values => values.length * tsize < 2 ^ 32
  | .destroy => True

instance : (c : ParamCall) → Decidable (Fits tsize c)
  | .bindParam _ _ | .bindVariant _ _ | .bindParams _ => inferInstanceAs (Decidable (_ < _))
  | .destroy => inferInstanceAs (Decidable True)

end ParamSession

/-- An entry describes a value, with the buffer it refers to. -/
def ParamBind.Describes (memory : Ledger ParamContent) (b : ParamBind) : ParamValue → Prop
  | .null | .string none | .blob none => b.buffer_type = .MYSQL_TYPE_NULL
  | .sint8 x => b.buffer_type = .MYSQL_TYPE_TINY ∧ b.content memory = some (.sint8 x)
  | .sint16 x => b.buffer_type = .MYSQL_TYPE_SHORT ∧ b.content memory = some (.sint16 x)
  | .sint32 x => b.buffer_type = .MYSQL_TYPE_LONG ∧ b.content memory = some (.sint32 x)
  | .sint64 x => b.buffer_type = .MYSQL_TYPE_LONGLONG ∧ b.content memory = some (.sint64 x)
  | .double bits => b.buffer_type = .MYSQL_TYPE_DOUBLE ∧ b.content memory = some (.double bits)
  | .string (some value) =>
    b.buffer_type = .MYSQL_TYPE_VAR_STRING ∧ ∃ octets, b.buffer_length = octets.length ∧
      b.content memory = some (.octets octets) ∧ (DrString.setUtf8 octets).text = value.text
  | .blob (some octets) =>
    b.buffer_type = .MYSQL_TYPE_VAR_STRING ∧ b.buffer_length = octets.length ∧
      b.content memory = some (.octets octets)

/-- A null string or blob. -/
def ParamValue.NullText (v : ParamValue) : Prop := v = .string none ∨ v = .blob none

/-- The values that are null. -/
def ParamValue.IsNull (v : ParamValue) : Prop := v = .null ∨ v.NullText

/-- The values that can be described by what is bound: no null string or blob, and no string with
characters that `utf8()` has no octets for. -/
def ParamValue.Kept : ParamValue → Prop
  | .string none | .blob none => False
  | .string (some value) => value.Plain
  | _ => True

/-- What is bound in the place of a value. -/
def ParamValue.bound : ParamValue → ParamValue
  | .string value => .blob (some ((value.map DrString.utf8).getD []))
  | .blob none => .blob (some [])
  | v => v

/-- The blocks that entries refer to. -/
def ParamBind.refs (entries : List ParamBind) : Multiset Nat :=
  (entries.filterMap ParamBind.block? : List Nat)

namespace Statement

open ParamBind

variable {tsize : Nat} {column : UInt32} {st : Statement} {entries : List ParamBind} {i : Nat}

variable {b b' : ParamBind} {memory : Ledger ParamContent}

/-- An entry takes the place of another one. -/
theorem refs_set (h : entries[i]? = some b) (b' : ParamBind) :
    refs (entries.set i b') + (b.block?.toList : Multiset Nat) =
      refs entries + (b'.block?.toList : Multiset Nat) := by
  induction entries generalizing i with
  | nil => simp at h
  | cons first rest ih =>
    have hcons : ∀ (c : ParamBind) (more : List ParamBind),
        refs (c :: more) = (c.block?.toList : Multiset Nat) + refs more := by
      intro c more
      rw [refs, filterMap_cons]
      cases c.block? <;> rfl
    cases i with
    | zero =>
      cases h
      rw [set_cons_zero, hcons, hcons]
      abel
    | succ i =>
      rw [List.getElem?_cons_succ] at h
      rw [set_cons_succ, hcons, hcons, add_assoc, add_assoc, ih h]

/-- Every buffer that was allocated was freed once, or is referred to by one entry. -/
def OwnsBuffers (st : Statement) : Prop := st.memory.Owned (refs st.par_bindings)

/-- An entry is written, and those of the other columns describe what they did. -/
structure Binds (column : UInt32) (st st' : Statement) (b : ParamBind) : Prop where
  owns : st'.OwnsBuffers
  entry : st'.par_bindings[column.toNat]? = some b
  elsewhere : ∀ i b, i ≠ column.toNat → st.par_bindings[i]? = some b →
    st'.par_bindings[i]? = some b ∧ b.content st'.memory = b.content st.memory
  count : st'.param_count = st.param_count

theorem Binds.trans {st' st'' : Statement} (h : Binds column st st' b)
    (h' : Binds column st' st'' b') : Binds column st st'' b' where
  owns := h'.owns
  entry := h'.entry
  elsewhere := by
    intro i c hi hc
    obtain ⟨hentry, hcontent⟩ := h.elsewhere i c hi hc
    obtain ⟨hentry', hcontent'⟩ := h'.elsewhere i c hi hentry
    exact ⟨hentry', hcontent'.trans hcontent⟩
  count := h'.count.trans h.count

theorem content_congr {memory' : Ledger ParamContent}
    (h : ∀ a, b.block? = some a → memory'.cell a = memory.cell a) :
    b.content memory' = b.content memory := by
  unfold content
  cases hbuffer : b.buffer with
  | none => rfl
  | some buffer =>
    cases buffer with
    | zero => rfl
    | block a => exact h a (by rw [block?, hbuffer])

theorem mem_refs {a : Nat} (h : entries[i]? = some b) (hb : b.block? = some a) : a ∈ refs entries :=
  Multiset.mem_coe.mpr (mem_filterMap.mpr ⟨b, mem_of_getElem? h, hb⟩)

/-- An entry without a buffer is overwritten by one with a block that is owned already or none. -/
theorem binds_set (hentry : st.par_bindings[column.toNat]? = some b)
    (howned : memory.Owned (refs (st.par_bindings.set column.toNat b')))
    (hcell : ∀ i c a, i ≠ column.toNat → st.par_bindings[i]? = some c → c.block? = some a →
      memory.cell a = st.memory.cell a) :
    Binds column st
      ⟨st.par_bindings.set column.toNat b', memory, st.param_count⟩ b' where
  owns := howned
  entry := by
    rw [List.getElem?_set_self]
    exact (List.getElem?_eq_some_iff.mp hentry).1
  elsewhere := by
    intro i c hi hc
    refine ⟨?_, content_congr fun a ha => hcell i c a hi hc ha⟩
    rw [List.getElem?_set_ne (Ne.symm hi)]
    exact hc
  count := rfl

theorem freeBuffer_of_none (h : b.block? = none) (memory : Ledger ParamContent) :
    freeBuffer memory b.buffer = .ok memory := by
  unfold block? at h
  unfold freeBuffer
  split at h
  · cases h
  · rfl

theorem freeBuffer_of_some {a : Nat} (h : b.block? = some a) (memory : Ledger ParamContent) :
    freeBuffer memory b.buffer = memory.free a := by
  unfold block? at h
  split at h
  · next heq =>
    cases h
    rw [heq, freeBuffer]
  · cases h

section

variable (h : st.OwnsBuffers)
include h

/-- A column beyond the array: the array grows, with cleared entries. -/
theorem allocParBinding_grows (hfits : (column.toNat + 1) * tsize < 2 ^ 32)
    (hentry : st.par_bindings[column.toNat]? = none) :
    ∃ st', allocParBinding tsize column st = .ok st' ∧ Binds column st st' cleared := by
  have hlength : st.par_bindings.length ≤ column.toNat := List.getElem?_eq_none_iff.mp hentry
  refine ⟨{ st with
    par_bindings := st.par_bindings ++
      List.replicate (column.toNat + 1 - st.par_bindings.length) .cleared }, ?_, ?_, ?_, ?_, rfl⟩
  · simp only [allocParBinding, hentry, if_pos hfits]
  · have hrefs : refs (st.par_bindings ++
        List.replicate (column.toNat + 1 - st.par_bindings.length) cleared) =
        refs st.par_bindings := by
      rw [refs, filterMap_append, filterMap_replicate_of_none rfl, append_nil]
      rfl
    unfold OwnsBuffers
    rw [hrefs]
    exact h
  · rw [List.getElem?_append_right hlength, List.getElem?_replicate]
    exact if_pos (by omega)
  · intro i b _ hb
    refine ⟨?_, rfl⟩
    rw [List.getElem?_append_left (List.getElem?_eq_some_iff.mp hb).1]
    exact hb

/-- A column of the array: its block is freed, if it has one. -/
theorem allocParBinding_clears (hentry : st.par_bindings[column.toNat]? = some b) :
    ∃ st', allocParBinding tsize column st = .ok st' ∧ Binds column st st' cleared := by
  have hset := refs_set hentry cleared
  have hother : ∀ i c, i ≠ column.toNat → st.par_bindings[i]? = some c →
      (st.par_bindings.set column.toNat cleared)[i]? = some c := by
    intro i c hi hc
    rw [List.getElem?_set_ne (Ne.symm hi)]
    exact hc
  cases hblock : b.block? with
  | none =>
    have hfree := freeBuffer_of_none hblock st.memory
    rw [hblock] at hset
    have hrefs : refs (st.par_bindings.set column.toNat cleared) = refs st.par_bindings := by
      simpa [cleared, block?] using hset
    refine ⟨⟨st.par_bindings.set column.toNat cleared, st.memory, st.param_count⟩, ?_, ?_⟩
    · simp only [allocParBinding, hentry, hfree, ok_bind]
    · exact binds_set hentry (hrefs ▸ h) fun _ _ _ _ _ _ => rfl
  | some a =>
    rw [hblock] at hset
    have hrefs : refs st.par_bindings =
        a ::ₘ refs (st.par_bindings.set column.toNat cleared) := by
      rw [← Multiset.singleton_add, add_comm]
      simpa [cleared, block?] using hset.symm
    unfold OwnsBuffers at h
    rw [hrefs] at h
    obtain ⟨memory, hfree, howned, hcell⟩ := @Ledger.Owned.free _ SqlError _ _ _ h
    refine ⟨⟨st.par_bindings.set column.toNat cleared, memory, st.param_count⟩, ?_, ?_⟩
    · simp only [allocParBinding, hentry, freeBuffer_of_some hblock, hfree, ok_bind]
    · refine binds_set hentry howned fun i c a' hi hc ha' => ?_
      have hmem := mem_refs (hother i c hi hc) ha'
      have hne : a' ≠ a := fun heq => (Multiset.nodup_cons.mp h.nodup).1 (heq ▸ hmem)
      rw [hcell, update_of_ne hne]

/-- `allocParBinding`: the entry is cleared, and its buffer is freed if it had one. -/
theorem allocParBinding_binds (hfits : (column.toNat + 1) * tsize < 2 ^ 32) :
    ∃ st', allocParBinding tsize column st = .ok st' ∧ Binds column st st' cleared := by
  cases hentry : st.par_bindings[column.toNat]? with
  | none => exact allocParBinding_grows h hfits hentry
  | some b => exact allocParBinding_clears h hentry

/-- `bindParamNull`. -/
theorem bindParamNull_binds (hfits : (column.toNat + 1) * tsize < 2 ^ 32) :
    ∃ st', bindParamNull tsize column st = .ok st' ∧
      Binds column st st' ⟨.MYSQL_TYPE_NULL, none, 0⟩ := by
  obtain ⟨st', halloc, hbinds⟩ := allocParBinding_binds h hfits
  refine ⟨_, by rw [bindParamNull, halloc, ok_bind], hbinds.trans ?_⟩
  refine binds_set hbinds.entry ?_ fun _ _ _ _ _ _ => rfl
  have hset := refs_set hbinds.entry ⟨.MYSQL_TYPE_NULL, none, 0⟩
  have hrefs : refs (st'.par_bindings.set column.toNat ⟨.MYSQL_TYPE_NULL, none, 0⟩) =
      refs st'.par_bindings := by
    simpa [cleared, block?] using hset
  rw [hrefs]
  exact hbinds.owns

/-- A value is written to a buffer of its own. -/
theorem bindBuffer_binds (hfits : (column.toNat + 1) * tsize < 2 ^ 32) (type : MysqlType)
    (size : Nat) (content : ParamContent) (length : Nat) :
    ∃ st' b, bindBuffer tsize column type size content length st = .ok st' ∧
      Binds column st st' b ∧ b.buffer_type = type ∧ b.buffer_length = length ∧
      b.content st'.memory = some (if size = 0 then .octets [] else content) := by
  obtain ⟨st', halloc, hbinds⟩ := allocParBinding_binds h hfits
  by_cases hsize : size = 0
  · have hset := refs_set hbinds.entry ⟨type, some .zero, length⟩
    refine ⟨⟨st'.par_bindings.set column.toNat ⟨type, some .zero, length⟩, st'.memory,
      st'.param_count⟩, ⟨type, some .zero, length⟩, ?_,
      hbinds.trans (binds_set hbinds.entry ?_ fun _ _ _ _ _ _ => rfl), rfl, rfl, ?_⟩
    · rw [bindBuffer, halloc, ok_bind, if_pos hsize]
    · have hrefs : refs (st'.par_bindings.set column.toNat ⟨type, some .zero, length⟩) =
          refs st'.par_bindings := by
        simpa [cleared, block?] using hset
      rw [hrefs]
      exact hbinds.owns
    · rw [if_pos hsize]
      rfl
  · have hset := refs_set hbinds.entry ⟨type, some (.block st'.memory.next), length⟩
    refine ⟨⟨st'.par_bindings.set column.toNat ⟨type, some (.block st'.memory.next), length⟩,
      st'.memory.alloc content, st'.param_count⟩,
      ⟨type, some (.block st'.memory.next), length⟩, ?_,
      hbinds.trans (binds_set hbinds.entry ?_ ?_), rfl, rfl, ?_⟩
    · rw [bindBuffer, halloc, ok_bind, if_neg hsize]
    · have hrefs : refs (st'.par_bindings.set column.toNat
          ⟨type, some (.block st'.memory.next), length⟩) =
          st'.memory.next ::ₘ refs st'.par_bindings := by
        rw [← Multiset.singleton_add, add_comm]
        simpa [cleared, block?] using hset
      rw [hrefs]
      exact Ledger.Owned.alloc hbinds.owns content
    · intro i c a _ hc ha
      have hlt := Ledger.Owned.lt hbinds.owns (mem_refs hc ha)
      exact update_of_ne (Nat.ne_of_lt hlt) _ _
    · rw [if_neg hsize]
      exact update_self ..

/-- A null string or blob is bound as the empty text. -/
theorem bindOctets_binds (hfits : (column.toNat + 1) * tsize < 2 ^ 32) (value : Option Blob) :
    ∃ st' b, bindOctets tsize column value st = .ok st' ∧ Binds column st st' b ∧
      b.buffer_type = .MYSQL_TYPE_VAR_STRING ∧ b.buffer_length = (value.getD []).length ∧
      b.content st'.memory = some (.octets (value.getD [])) := by
  have hbuffer : ∀ (st : Statement), st.OwnsBuffers → ∃ st' b,
      bindBuffer tsize column .MYSQL_TYPE_VAR_STRING (value.getD []).length
        (.octets (value.getD [])) (value.getD []).length st = .ok st' ∧
      Binds column st st' b ∧ b.buffer_type = .MYSQL_TYPE_VAR_STRING ∧
      b.buffer_length = (value.getD []).length ∧
      b.content st'.memory = some (.octets (value.getD [])) := by
    intro st h
    obtain ⟨st', b, hbind, hbinds, htype, hlength, hcontent⟩ :=
      bindBuffer_binds h hfits .MYSQL_TYPE_VAR_STRING (value.getD []).length
        (.octets (value.getD [])) (value.getD []).length
    refine ⟨st', b, hbind, hbinds, htype, hlength, hcontent.trans ?_⟩
    by_cases hzero : (value.getD []).length = 0
    · rw [if_pos hzero, length_eq_zero_iff.mp hzero]
    · rw [if_neg hzero]
  cases value with
  | none =>
    obtain ⟨st', hnull, hbinds⟩ := bindParamNull_binds h hfits
    obtain ⟨st'', b, hbind, hbinds', hrest⟩ := hbuffer st' hbinds.owns
    refine ⟨st'', b, ?_, hbinds.trans hbinds', hrest⟩
    rw [bindOctets, if_pos rfl, hnull, ok_bind]
    exact hbind
  | some octets =>
    obtain ⟨st', b, hbind, hrest⟩ := hbuffer st h
    refine ⟨st', b, ?_, hrest⟩
    rw [bindOctets, if_neg (Option.some_ne_none octets), ok_bind]
    exact hbind

/-- `bindParam`: the entry describes the value, or what is bound in its place. -/
theorem bindParam_binds (hfits : (column.toNat + 1) * tsize < 2 ^ 32) (value : ParamValue) :
    ∃ st' b, bindParam tsize column value st = .ok st' ∧ Binds column st st' b ∧
      b.Describes st'.memory value.bound := by
  have hscalar : ∀ (type : MysqlType) (size : Nat) (content : ParamContent), size ≠ 0 →
      ∃ st' b, bindBuffer tsize column type size content 0 st = .ok st' ∧ Binds column st st' b ∧
        b.buffer_type = type ∧ b.content st'.memory = some content := by
    intro type size content hsize
    obtain ⟨st', b, hbind, hbinds, htype, -, hcontent⟩ :=
      bindBuffer_binds h hfits type size content 0
    rw [if_neg hsize] at hcontent
    exact ⟨st', b, hbind, hbinds, htype, hcontent⟩
  cases value with
  | null =>
    obtain ⟨st', hnull, hbinds⟩ := bindParamNull_binds h hfits
    exact ⟨st', _, hnull, hbinds, rfl⟩
  | sint8 x => exact hscalar .MYSQL_TYPE_TINY 1 (.sint8 x) (by decide)
  | sint16 x => exact hscalar .MYSQL_TYPE_SHORT 2 (.sint16 x) (by decide)
  | sint32 x => exact hscalar .MYSQL_TYPE_LONG 4 (.sint32 x) (by decide)
  | sint64 x => exact hscalar .MYSQL_TYPE_LONGLONG 8 (.sint64 x) (by decide)
  | double bits => exact hscalar .MYSQL_TYPE_DOUBLE 8 (.double bits) (by decide)
  | string value => exact bindOctets_binds h hfits (value.map DrString.utf8)
  | blob octets =>
    obtain ⟨st', b, hbind, hbinds, hdescribes⟩ := bindOctets_binds h hfits octets
    refine ⟨st', b, hbind, hbinds, ?_⟩
    cases octets <;> exact hdescribes

end

/-- The destructor frees what the entries refer to. -/
theorem freeBuffers_owned (h : memory.Owned (refs entries)) :
    ∃ memory', freeBuffers memory entries = .ok memory' ∧ memory'.Owned 0 := by
  induction entries generalizing memory with
  | nil => exact ⟨memory, rfl, h⟩
  | cons b rest ih =>
    cases hblock : b.block? with
    | none =>
      have hrefs : refs (b :: rest) = refs rest := by rw [refs, filterMap_cons, hblock]; rfl
      obtain ⟨memory', hfree, howned⟩ := ih (hrefs ▸ h)
      refine ⟨memory', ?_, howned⟩
      rw [freeBuffers, freeBuffer_of_none hblock, ok_bind, hfree]
    | some a =>
      have hrefs : refs (b :: rest) = a ::ₘ refs rest := by
        rw [refs, filterMap_cons, hblock]
        rfl
      rw [hrefs] at h
      obtain ⟨memory₁, hfree₁, howned₁, -⟩ := @Ledger.Owned.free _ SqlError _ _ _ h
      obtain ⟨memory', hfree, howned⟩ := ih howned₁
      refine ⟨memory', ?_, howned⟩
      rw [freeBuffers, freeBuffer_of_some hblock, hfree₁, ok_bind, hfree]

end Statement

namespace ParamSession

open ParamBind Statement

variable {tsize : Nat}

/-- What holds of a statement and the values that were bound. -/
structure Bound (st : Statement) (last : UInt32 → Option ParamValue) : Prop where
  owns : st.OwnsBuffers
  describes : ∀ column v, last column = some v →
    ∃ b, st.par_bindings[column.toNat]? = some b ∧ b.Describes st.memory v.bound

variable {b : ParamBind} {v : ParamValue} {st : Statement} {last : UInt32 → Option ParamValue}
  {s : ParamSession}

theorem describes_congr {memory memory' : Ledger ParamContent}
    (h : b.content memory' = b.content memory) (hv : b.Describes memory v) :
    b.Describes memory' v := by
  cases v with
  | null => exact hv
  | string value =>
    cases value with
    | none => exact hv
    | some value =>
      obtain ⟨htype, octets, hlength, hcontent, htext⟩ := hv
      exact ⟨htype, octets, hlength, h.trans hcontent, htext⟩
  | blob octets =>
    cases octets with
    | none => exact hv
    | some octets => exact ⟨hv.1, hv.2.1, h.trans hv.2.2⟩
  | _ => exact ⟨hv.1, h.trans hv.2⟩

/-- Another value is bound to a column. -/
theorem Bound.update {st' : Statement} {column : UInt32} (h : Bound st last)
    (hbinds : Binds column st st' b) (hv : b.Describes st'.memory v.bound) :
    Bound st' (update last column (some v)) := by
  refine ⟨hbinds.owns, fun c v' hc => ?_⟩
  by_cases heq : c = column
  · subst heq
    rw [update_self] at hc
    cases hc
    exact ⟨b, hbinds.entry, hv⟩
  · rw [update_of_ne heq] at hc
    obtain ⟨b', hentry, hdescribes⟩ := h.describes c v' hc
    obtain ⟨hentry', hcontent⟩ :=
      hbinds.elsewhere c.toNat b' (fun hnat => heq (UInt32.toNat_inj.mp hnat)) hentry
    exact ⟨b', hentry', describes_congr hcontent hdescribes⟩

/-- A call came back, and the values after it are bound. -/
def Comes (result : Outcome SqlError Unit × Statement) (last : UInt32 → Option ParamValue) : Prop :=
  (result.1 = .ok () ∨ ∃ e, result.1 = .raise e) ∧ Bound result.2 last

theorem bindVariant_comes {column : UInt32} (h : Bound st last)
    (hfits : (column.toNat + 1) * tsize < 2 ^ 32) (value : ParamVariant) :
    (∃ v st', variantValue value = .ok v ∧ bindVariant tsize column value st = (.ok (), st') ∧
        Bound st' (update last column (some v))) ∨
      ∃ e, variantValue value = .error e ∧ bindVariant tsize column value st = (.raise e, st) := by
  cases hvalue : variantValue value with
  | error e =>
    refine .inr ⟨e, rfl, ?_⟩
    simp only [bindVariant, Keeping.lift, hvalue]
  | ok v =>
    obtain ⟨st', b, hbind, hbinds, hdescribes⟩ := bindParam_binds h.owns hfits v
    refine .inl ⟨v, st', rfl, ?_, h.update hbinds hdescribes⟩
    simp only [bindVariant, Keeping.lift, hvalue, hbind, ok_bind]

/-- The loop of `bindParams` binds values up to the first one that it refuses. -/
theorem bindBackwards_comes (h : Bound st last) (values : List ParamVariant)
    (hfits : values.length * tsize < 2 ^ 32) :
    Comes (bindBackwards tsize values st) (recordBackwards last values) := by
  induction values generalizing st last with
  | nil => exact ⟨.inl rfl, h⟩
  | cons value before ih =>
    have hle : (UInt32.ofNat before.length).toNat ≤ before.length := Nat.mod_le _ _
    have hcolumn : ((UInt32.ofNat before.length).toNat + 1) * tsize < 2 ^ 32 :=
      lt_of_le_of_lt (Nat.mul_le_mul_right _ (Nat.succ_le_succ hle)) hfits
    have hbefore : before.length * tsize < 2 ^ 32 :=
      lt_of_le_of_lt (Nat.mul_le_mul_right _ (Nat.le_succ _)) hfits
    obtain ⟨v, st', hvalue, hbind, hbound⟩ | ⟨e, hvalue, hbind⟩ :=
      bindVariant_comes h hcolumn value
    · have hrest := ih hbound hbefore
      rw [bindBackwards, Keeping.bind_ok hbind, recordBackwards, hvalue]
      exact hrest
    · rw [bindBackwards, Keeping.bind_raise hbind, recordBackwards, hvalue]
      exact ⟨.inr ⟨e, rfl⟩, h⟩

/-- Every call but the destructor. -/
theorem call_comes (h : Bound s.stmt s.last) (c : ParamCall) (hfits : Fits tsize c) :
    Comes (call tsize c s.stmt) (s.record c) := by
  cases c with
  | bindParam column value =>
    obtain ⟨st', b, hbind, hbinds, hdescribes⟩ := bindParam_binds h.owns hfits value
    have hcall : call tsize (.bindParam column value) s.stmt = (.ok (), st') := by
      simp only [call, Keeping.lift, hbind, ok_bind]
    rw [hcall]
    exact ⟨.inl rfl, h.update hbinds hdescribes⟩
  | bindVariant column value =>
    obtain ⟨v, st', hvalue, hbind, hbound⟩ | ⟨e, hvalue, hbind⟩ := bindVariant_comes h hfits value
    · rw [call, hbind, record, hvalue]
      exact ⟨.inl rfl, hbound⟩
    · rw [call, hbind, record, hvalue]
      exact ⟨.inr ⟨e, rfl⟩, h⟩
  | bindParams values =>
    rw [call, Statement.bindParams, record]
    by_cases hcount : s.stmt.param_count ≠ values.length
    · rw [if_pos hcount, if_pos hcount]
      exact ⟨.inr ⟨_, rfl⟩, h⟩
    · rw [if_neg hcount, if_neg hcount]
      exact bindBackwards_comes h values.reverse (by rwa [length_reverse])
  | destroy =>
    obtain ⟨memory, hfree, howned⟩ := freeBuffers_owned h.owns
    have hcall : call tsize .destroy s.stmt = (.ok (), { s.stmt with
        par_bindings := [], memory := memory }) := by
      simp only [call, Keeping.lift, hfree, ok_bind]
    rw [hcall]
    exact ⟨.inl rfl, howned, fun column v hv => by cases hv⟩

/-- What holds in every state of a run. -/
structure Invariant (s : ParamSession) : Prop where
  bound : Bound s.stmt s.last
  dead : s.alive = false → s.stmt.par_bindings = []

theorem destroy_par_bindings (s : ParamSession) (h : call tsize .destroy s.stmt = (.ok (), st)) :
    st.par_bindings = [] := by
  unfold call Keeping.lift at h
  cases hfree : freeBuffers s.stmt.memory s.stmt.par_bindings with
  | ok memory =>
    simp only [hfree, ok_bind] at h
    cases h
    rfl
  | _ => simp [hfree] at h

/-- A call that fits comes back, and the invariant holds after it. -/
theorem exists_step (h : s.Invariant) (halive : s.alive) {c : ParamCall} (hfits : Fits tsize c) :
    ∃ t, step tsize s c = some t ∧ t.Invariant := by
  obtain ⟨hresult, hbound⟩ := call_comes h.bound c hfits
  rcases hcall : call tsize c s.stmt with ⟨result, st⟩
  rw [hcall] at hresult hbound
  have hstep : step tsize s c = some ⟨st, s.record c, c ≠ .destroy⟩ := by
    rw [step, if_pos halive, hcall]
    obtain hok | ⟨e, hraise⟩ := hresult
    · cases hok
      rfl
    · cases hraise
      rfl
  refine ⟨_, hstep, hbound, fun hdead => ?_⟩
  have hdestroy : c = .destroy := by simpa using hdead
  subst hdestroy
  obtain hok | ⟨e, hraise⟩ := hresult
  · cases hok
    exact destroy_par_bindings s hcall
  · cases hraise
    obtain ⟨memory, hfree, -⟩ := freeBuffers_owned h.bound.owns
    simp [call, Keeping.lift, hfree] at hcall

theorem step_invariant {t : ParamSession} {c : ParamCall} (h : s.Invariant) (hfits : Fits tsize c)
    (hstep : step tsize s c = some t) : t.Invariant := by
  have halive : s.alive := by
    by_contra hdead
    rw [step, if_neg hdead] at hstep
    cases hstep
  obtain ⟨t', hstep', hinv⟩ := exists_step h halive hfits
  rw [hstep'] at hstep
  exact Option.some.inj hstep ▸ hinv

theorem reachable_invariant (h : (machine tsize).ReachableWith (fun _ c => Fits tsize c) s) :
    s.Invariant := by
  refine h.invariant Invariant ?_ fun _ _ _ hinv hfits hstep => step_invariant hinv hfits hstep
  rintro s ⟨hbindings, hmemory, hlast, halive⟩
  refine ⟨⟨?_, fun column v hv => ?_⟩, fun hdead => ?_⟩
  · rw [Statement.OwnsBuffers, hbindings, hmemory]
    exact Ledger.Owned.new
  · rw [hlast] at hv
    cases hv
  · rw [halive] at hdead
    cases hdead

/-- The entry of each column describes the last value that was bound to it, and is NULL exactly if
that value was. -/
def DescribesLast (s : ParamSession) : Prop :=
  ∀ column v, s.last column = some v →
    ∃ b, s.stmt.par_bindings[column.toNat]? = some b ∧ b.Describes s.stmt.memory v ∧
      (b.buffer_type = .MYSQL_TYPE_NULL ↔ v.IsNull)

/-- What is bound in the place of a value describes the value exactly if it can be kept. -/
theorem describes_iff {memory : Ledger ParamContent} (h : b.Describes memory v.bound) :
    (b.Describes memory v ∧ (b.buffer_type = .MYSQL_TYPE_NULL ↔ v.IsNull)) ↔ v.Kept := by
  have hother (htype : b.buffer_type ≠ .MYSQL_TYPE_NULL) (hv : ¬ v.IsNull)
      (hself : b.Describes memory v) (hkept : v.Kept) :
      (b.Describes memory v ∧ (b.buffer_type = .MYSQL_TYPE_NULL ↔ v.IsNull)) ↔ v.Kept :=
    iff_of_true ⟨hself, iff_of_false htype hv⟩ hkept
  have hnot {type : MysqlType} (htype : b.buffer_type = type) (hne : type ≠ .MYSQL_TYPE_NULL) :
      b.buffer_type ≠ .MYSQL_TYPE_NULL := htype ▸ hne
  cases v with
  | null =>
    have htype : b.buffer_type = .MYSQL_TYPE_NULL := h
    exact iff_of_true ⟨htype, iff_of_true htype (.inl rfl)⟩ trivial
  | string value =>
    obtain ⟨htype, hlength, hcontent⟩ := h
    have hvar := hnot htype (by decide)
    cases value with
    | none => exact iff_of_false (fun hnull => hvar hnull.1) id
    | some value =>
      have hsame : b.Describes memory (.string (some value)) ↔ value.Plain := by
        rw [← DrString.text_setUtf8_utf8]
        refine ⟨fun hself => ?_, fun htext => ⟨htype, _, hlength, hcontent, htext⟩⟩
        obtain ⟨-, octets, -, hcontent', htext⟩ := hself
        rw [hcontent] at hcontent'
        cases hcontent'
        exact htext
      exact ⟨fun hself => hsame.mp hself.1, fun hplain => ⟨hsame.mpr hplain,
        iff_of_false hvar (by simp [ParamValue.IsNull, ParamValue.NullText])⟩⟩
  | blob octets =>
    cases octets with
    | none =>
      have hvar := hnot h.1 (by decide)
      exact iff_of_false (fun hnull => hvar hnull.1) id
    | some octets =>
      have hvar := hnot h.1 (by decide)
      exact hother hvar (by simp [ParamValue.IsNull, ParamValue.NullText]) h trivial
  | sint8 x | sint16 x | sint32 x | sint64 x | double x =>
    have htype := hnot h.1 (by decide)
    exact hother htype (by simp [ParamValue.IsNull, ParamValue.NullText]) h trivial

theorem describesLast_iff (h : s.Invariant) :
    s.DescribesLast ↔ ∀ column v, s.last column = some v → v.Kept := by
  constructor
  · intro hlast column v hv
    obtain ⟨b, hentry, hdescribes⟩ := hlast column v hv
    obtain ⟨b', hentry', hbound⟩ := h.bound.describes column v hv
    rw [hentry] at hentry'
    cases hentry'
    exact (describes_iff hbound).mp hdescribes
  · intro hkept column v hv
    obtain ⟨b, hentry, hbound⟩ := h.bound.describes column v hv
    exact ⟨b, hentry, (describes_iff hbound).mpr (hkept column v hv)⟩

/-- As long as the columns fit into the array, every call comes back, every buffer is freed exactly
once, and the entries describe the last values exactly if none of these is a null string or blob, or
a string with wide characters above 127. -/
theorem reachable_describesLast_iff {s : ParamSession}
    (h : (machine tsize).ReachableWith (fun _ c => Fits tsize c) s) :
    s.stmt.OwnsBuffers ∧
      (s.alive → ∀ c, Fits tsize c → ∃ t, step tsize s c = some t) ∧
      (s.alive = false → s.stmt.memory.freed.Perm (List.range s.stmt.memory.next)) ∧
      (s.DescribesLast ↔ ∀ column v, s.last column = some v → v.Kept) := by
  have hinv := reachable_invariant h
  refine ⟨hinv.bound.owns, fun halive c hfits => ?_, fun hdead => ?_, describesLast_iff hinv⟩
  · obtain ⟨t, hstep, -⟩ := exists_step hinv halive hfits
    exact ⟨t, hstep⟩
  · have howned := hinv.bound.owns
    rw [Statement.OwnsBuffers, hinv.dead hdead] at howned
    exact howned.freed_once

/-- A statement with two parameters, which nothing was done with. -/
def fresh : ParamSession := ⟨⟨[], .new, 2⟩, fun _ => none, true⟩

theorem init_fresh : (machine 112).init fresh := ⟨rfl, rfl, rfl, rfl⟩

/-- The statement after a number was bound to a column, a string in its place, and a blob to the
column before it. -/
def rebound : ParamSession :=
  [ParamCall.bindParam 1 (.sint32 5), .bindParam 1 (.string (some (.wide [97, 98]))),
    .bindVariant 0 (.VT_Binary [1, 2, 3])].foldl (fun s c => (step 112 s c).getD s) fresh

theorem reachable_rebound : (machine 112).ReachableWith (fun _ c => Fits 112 c) rebound :=
  .next (.next (.next (.init init_fresh) (by decide : Fits 112 (.bindParam 1 (.sint32 5))) rfl)
    (by decide : Fits 112 (.bindParam 1 (.string (some (.wide [97, 98]))))) rfl)
    (by decide : Fits 112 (.bindVariant 0 (.VT_Binary [1, 2, 3]))) rfl

/-- The string and the blob are described. -/
theorem rebound_describesLast : rebound.stmt.OwnsBuffers ∧ rebound.DescribesLast := by
  obtain ⟨howns, -, -, hlast⟩ := reachable_describesLast_iff reachable_rebound
  refine ⟨howns, hlast.mpr fun column v hv => ?_⟩
  have hrebound : rebound.last = update (update (update (fun _ => none) 1
      (some (.sint32 5))) 1 (some (.string (some (.wide [97, 98]))))) 0
      (some (.blob (some [1, 2, 3]))) := rfl
  rw [hrebound] at hv
  by_cases hzero : column = 0
  · rw [hzero, update_self] at hv
    cases hv
    trivial
  · rw [update_of_ne hzero] at hv
    by_cases hone : column = 1
    · rw [hone, update_self] at hv
      cases hv
      exact (by decide : ∀ c ∈ [(97 : UInt32), 98], c ≤ 127)
    · rw [update_of_ne hone, update_of_ne hone] at hv
      cases hv

/-- The statement after a null string was bound. -/
def emptied : ParamSession where
  stmt := ⟨[⟨.MYSQL_TYPE_VAR_STRING, some .zero, 0⟩], .new, 2⟩
  last := Function.update (fun _ => none) 0 (some (.string none))
  alive := true

/-- The statement after a string of a wide character above 127 was bound. -/
def narrowed : ParamSession :=
  (step 112 fresh (.bindParam 0 (.string (some (.wide [353]))))).getD fresh

/-- The null string is bound as the empty text, and the other one as a question mark. -/
theorem emptied_not_describesLast :
    ((machine 112).ReachableWith (fun _ c => Fits 112 c) emptied ∧ ¬ emptied.DescribesLast) ∧
      (machine 112).ReachableWith (fun _ c => Fits 112 c) narrowed ∧ ¬ narrowed.DescribesLast := by
  have hemptied : (machine 112).ReachableWith (fun _ c => Fits 112 c) emptied :=
    .next (.init init_fresh) (by decide : Fits 112 (.bindParam 0 (.string none))) rfl
  have hnarrowed : (machine 112).ReachableWith (fun _ c => Fits 112 c) narrowed :=
    .next (.init init_fresh)
      (by decide : Fits 112 (.bindParam 0 (.string (some (.wide [353]))))) rfl
  refine ⟨⟨hemptied, fun h => ?_⟩, hnarrowed, fun h => ?_⟩
  · exact (describesLast_iff (reachable_invariant hemptied)).mp h 0 _ rfl
  · have hplain : ∀ c ∈ [(353 : UInt32)], c ≤ 127 :=
      (describesLast_iff (reachable_invariant hnarrowed)).mp h 0 _ rfl
    exact absurd hplain (by decide)

end ParamSession

end Drt
