import Drt.Lib.Chain
import Drt.Sql.StatementBindings

/-!
# Bindings of a result set

`ResultSet_mysql5` keeps a `MYSQL_BIND` for each column in an array, and the conversions in a list
of records. `next` gives the entries pointers into the array, which stay when the array moves.
`bindResultReset` frees the records, but keeps the pointer to the first one.
-/

open List Outcome Option

namespace Drt

/-- A pointer to the `is_null_value` of an entry: the array that it was taken of, and the place
there. -/
structure NullPointer where
  array : Nat
  index : Nat
  deriving DecidableEq, Repr

/-- `MYSQL_BIND`, as far as results use it. The buffer is a variable of the user. -/
structure ResultBind where
  buffer_type : MysqlType
  buffer : Option Nat
  is_null : Option NullPointer
  deriving DecidableEq, Repr

/-- The functions that convert. -/
inductive Convertor where
  | resConv_String
  | resConv_Blob
  | resConv_Variant
  | resConv_nullHandler
  deriving DecidableEq, Repr

/-- `ResultSet_mysql5::conversion`. -/
structure Conversion where
  convertor : Convertor
  column : Nat
  user_var : Nat
  next : Option Nat
  deriving DecidableEq, Repr

/-- `ResultSet_mysql5`: the array is known by a number, and the records by their blocks. -/
structure ResultSet where
  res_bindings : List ResultBind
  array : Nat
  memory : Ledger Conversion
  res_conversions : Option Nat
  res_binding_done : Bool
  current_row : Int
  /-- The array that `mysql_stmt_bind_result` was given last. -/
  given : Option Nat

/-- What results are bound to: the overloads of `bindResult`, with the variable of the user. -/
inductive ResultVariable where
  | sint8 (value : Nat)
  | sint16 (value : Nat)
  | sint32 (value : Nat)
  | sint64 (value : Nat)
  | float (value : Nat)
  | double (value : Nat)
  | date (value : Nat)
  | string (value : Nat)
  | blob (value : Nat)
  | variant (value : Nat)
  deriving DecidableEq, Repr

/-- The variables that are set by a conversion. -/
def ResultVariable.converted : ResultVariable → Bool
  | .string _ | .blob _ | .variant _ => true
  | _ => false

/-- What the calls of `next` answer. -/
inductive FetchAnswer where
  /-- `mysql_stmt_bind_result` fails. -/
  | refused
  /-- `mysql_stmt_fetch` fails. -/
  | failed
  | noData
  /-- A row, with the columns that are NULL, and those that cannot be fetched afterwards. -/
  | row (nulls broken : List Nat)
  deriving DecidableEq, Repr

/-- What is thrown. -/
inductive ResultError where
  | mysql
  | sqlException (code : Int) (text : String)
  deriving DecidableEq, Repr

namespace ResultSet

variable (tsize : Nat) (fields : UInt32)

/-- An entry that `allocResBinding` adds. -/
def added : ResultBind := ⟨.MYSQL_TYPE_NULL, none, none⟩

/-- `allocResBinding`; `moved` says whether the array is somewhere else when it has grown. -/
def allocResBinding (idx : UInt32) (moved : Bool) (rs : ResultSet) :
    Outcome ResultError ResultSet :=
  if idx.toNat < rs.res_bindings.length then .ok { rs with res_binding_done := false }
  else if (idx.toNat + 1) * tsize < 2 ^ 32 then
    .ok { rs with
      res_bindings := rs.res_bindings ++
        List.replicate (idx.toNat + 1 - rs.res_bindings.length) added
      array := if moved then rs.array + 1 else rs.array
      res_binding_done := false }
  else .fault

def addResConversion (convertor : Convertor) (column : Nat) (user_var : Nat) (rs : ResultSet) :
    ResultSet :=
  { rs with
    memory := rs.memory.alloc ⟨convertor, column, user_var, rs.res_conversions⟩
    res_conversions := some rs.memory.next }

/-- A field of the entry that `allocResBinding` returned is set. -/
def modifyBinding (column : UInt32) (f : ResultBind → ResultBind) (rs : ResultSet) : ResultSet :=
  { rs with res_bindings := rs.res_bindings.modify column.toNat f }

/-- `bindResult` to a number. -/
def bindNumber (column : UInt32) (type : MysqlType) (value : Nat) (moved : Bool) (rs : ResultSet) :
    Outcome ResultError ResultSet := do
  let rs ← rs.allocResBinding tsize column moved
  .ok (rs.modifyBinding column fun b => { b with buffer_type := type, buffer := some value })

/-- `bindResult` to a string, a blob or a variant. -/
def bindConversion (column : UInt32) (convertor : Convertor) (value : Nat) (moved : Bool)
    (rs : ResultSet) : Outcome ResultError ResultSet := do
  let rs ← rs.allocResBinding tsize column moved
  let rs := rs.modifyBinding column fun b => { b with buffer_type := .MYSQL_TYPE_NULL }
  .ok (rs.addResConversion convertor column.toNat value)

def bindResult (column : UInt32) (moved : Bool) :
    ResultVariable → ResultSet → Outcome ResultError ResultSet
  | .sint8 value => bindNumber tsize column .MYSQL_TYPE_TINY value moved
  | .sint16 value => bindNumber tsize column .MYSQL_TYPE_SHORT value moved
  | .sint32 value => bindNumber tsize column .MYSQL_TYPE_LONG value moved
  | .sint64 value => bindNumber tsize column .MYSQL_TYPE_LONGLONG value moved
  | .float value => bindNumber tsize column .MYSQL_TYPE_FLOAT value moved
  | .double value => bindNumber tsize column .MYSQL_TYPE_DOUBLE value moved
  | .date value => bindNumber tsize column .MYSQL_TYPE_LONGLONG value moved
  | .string value => bindConversion tsize column .resConv_String value moved
  | .blob value => bindConversion tsize column .resConv_Blob value moved
  | .variant value => bindConversion tsize column .resConv_Variant value moved

/-- `bindNullHandler`. A column that the array does not have fails an assertion. -/
def bindNullHandler (column : UInt32) (handler : Nat) (rs : ResultSet) :
    Outcome ResultError ResultSet :=
  match rs.res_bindings[column.toNat]? with
  | none => .fault
  | some b =>
    if b.buffer = none then
      .raise (.sqlException (-1) "null handler allowed only on basic scalar types")
    else .ok (rs.addResConversion .resConv_nullHandler column.toNat handler)

/-- The loop that frees the records. -/
def freeConversions : Nat → Option Nat → Ledger Conversion → Outcome ResultError (Ledger Conversion)
  | _, none, memory => .ok memory
  | 0, some _, _ => .outOfFuel
  | fuel + 1, some i, memory => do
    let conv ← memory.load i
    let memory ← memory.free i
    freeConversions fuel conv.next memory

/-- The entries do not lead to variables any more. -/
def clear (rs : ResultSet) : ResultSet :=
  { rs with
    res_binding_done := false
    res_bindings := rs.res_bindings.map fun b =>
      { b with buffer_type := .MYSQL_TYPE_NULL, is_null := none } }

/-- `bindResultReset`. There are at most as many passes as records. -/
def bindResultReset (rs : ResultSet) : Outcome ResultError ResultSet := do
  let rs := rs.clear
  let memory ← freeConversions rs.memory.next rs.res_conversions rs.memory
  .ok { rs with memory := memory }

/-- `*res_bindings[column].is_null`: the pointer must lead into the array. -/
def checkNull (rs : ResultSet) (column : Nat) : Outcome ResultError Unit :=
  match rs.res_bindings[column]? with
  | none => .fault
  | some b =>
    match b.is_null with
    | none => .fault
    | some p => if p.array = rs.array ∧ p.index < rs.res_bindings.length then .ok () else .fault

/-- The loop over the entries in `next`. -/
def checkNulls (rs : ResultSet) : Nat → Outcome ResultError Unit
  | 0 => .ok ()
  | i + 1 => do
    rs.checkNull i
    rs.checkNulls i

/-- The loop over the conversions in `next`: the records of those that ran. A column that is NULL
is not fetched. -/
def runConversions (rs : ResultSet) (nulls broken : List Nat) :
    Nat → Option Nat → Outcome ResultError (List Nat)
  | _, none => .ok []
  | 0, some _ => .outOfFuel
  | fuel + 1, some c => do
    let conv ← rs.memory.load c
    rs.checkNull conv.column
    if conv.convertor ≠ .resConv_nullHandler ∧ conv.column ∉ nulls ∧ conv.column ∈ broken then
      .raise .mysql
    else do
      let rest ← runConversions rs nulls broken fuel conv.next
      .ok (c :: rest)

/-- The entries get pointers to their own values, if they have none. -/
def pointNulls (rs : ResultSet) : ResultSet :=
  { rs with
    res_bindings := rs.res_bindings.mapIdx fun i b =>
      if b.is_null = none then { b with is_null := some ⟨rs.array, i⟩ } else b }

/-- The first part of `next`. -/
def bindAll (answer : FetchAnswer) (moved : Bool) : Keeping ResultSet ResultError Unit := fun rs =>
  if rs.res_binding_done then (.ok (), rs)
  else
    match rs.allocResBinding tsize (fields - 1) moved with
    | .ok rs =>
      let rs := { rs.pointNulls with given := some rs.array }
      if answer = .refused then (.raise .mysql, rs)
      else (.ok (), { rs with res_binding_done := true })
    | .raise e => (.raise e, rs)
    | .fault => (.fault, rs)
    | .outOfFuel => (.outOfFuel, rs)

/-- The second part of `next`: the result, and the conversions that ran. The row is written where
the array was that was given. -/
def fetch (answer : FetchAnswer) : Keeping ResultSet ResultError (Bool × List Nat) := fun rs =>
  if rs.given ≠ some rs.array then (.fault, rs)
  else
    match answer with
    | .refused | .failed => (.raise .mysql, rs)
    | .noData => (.ok (false, []), { rs with current_row := rs.current_row + 1 })
    | .row nulls broken =>
      let rs := { rs with current_row := rs.current_row + 1 }
      match (do
        rs.checkNulls rs.res_bindings.length
        rs.runConversions nulls broken rs.memory.next rs.res_conversions) with
      | .ok ran => (.ok (true, ran), rs)
      | .raise e => (.raise e, rs)
      | .fault => (.fault, rs)
      | .outOfFuel => (.outOfFuel, rs)

def next (answer : FetchAnswer) (moved : Bool) : Keeping ResultSet ResultError (Bool × List Nat) :=
  bindAll tsize fields answer moved >>= fun _ => fetch answer

end ResultSet

/-- The calls. -/
inductive ResultCall where
  | bindResult (column : UInt32) (value : ResultVariable) (moved : Bool)
  | bindNullHandler (column : UInt32) (handler : Nat)
  | bindResultReset
  | next (answer : FetchAnswer) (moved : Bool)
  | destroy
  deriving DecidableEq

/-- A result set, and the conversions that were bound since the last reset, the last one first. -/
structure ResultSession where
  rs : ResultSet
  bound : List Nat
  alive : Bool

namespace ResultSession

variable (tsize : Nat) (fields : UInt32)

/-- A call on the result set. -/
def call : ResultCall → Keeping ResultSet ResultError Unit
  | .bindResult column value moved =>
    .lift fun rs => rs.bindResult tsize column moved value >>= fun rs => .ok ((), rs)
  | .bindNullHandler column handler =>
    .lift fun rs => rs.bindNullHandler column handler >>= fun rs => .ok ((), rs)
  | .bindResultReset | .destroy => .lift fun rs => rs.bindResultReset >>= fun rs => .ok ((), rs)
  | .next answer moved => ResultSet.next tsize fields answer moved >>= fun _ => pure ()

/-- The conversions that are bound after a call that returned. -/
def record (s : ResultSession) : ResultCall → List Nat
  | .bindResult _ value _ => if value.converted then s.rs.memory.next :: s.bound else s.bound
  | .bindNullHandler .. => s.rs.memory.next :: s.bound
  | .next .. => s.bound
  | .bindResultReset | .destroy => []

/-- A call returns or raises an exception; nothing comes after what is undefined. -/
def step (s : ResultSession) (c : ResultCall) : Option ResultSession :=
  if s.alive then
    match call tsize fields c s.rs with
    | (.ok _, rs) => some ⟨rs, s.record c, c ≠ .destroy⟩
    | (.raise _, rs) => some ⟨rs, s.bound, c ≠ .destroy⟩
    | _ => none
  else none

/-- The sessions with one result set. -/
def machine : Machine ResultSession ResultCall where
  init s := (∃ array row, s.rs = ⟨[], array, .new, none, false, row, none⟩) ∧ s.bound = [] ∧ s.alive
  step := step tsize fields

/-- A column is in the array, or the array may grow. If it moves, there is no pointer into it. -/
def Grows (rs : ResultSet) (column : UInt32) (moved : Bool) : Prop :=
  column.toNat < rs.res_bindings.length ∨
    (column.toNat + 1) * tsize < 2 ^ 32 ∧
      (moved = true → ∀ b ∈ rs.res_bindings, b.is_null = none)

instance (rs : ResultSet) (column : UInt32) (moved : Bool) :
    Decidable (Grows tsize rs column moved) :=
  inferInstanceAs (Decidable (_ ∨ _ ∧ (_ → _)))

/-- The calls that go well: columns that the array has or can get, a null handler for a column
that it has, a reset while nothing is bound, and rows with columns. -/
def Good (s : ResultSession) : ResultCall → Prop
  | .bindResult column _ moved => Grows tsize s.rs column moved
  | .bindNullHandler column _ => column.toNat < s.rs.res_bindings.length
  | .bindResultReset => s.rs.res_conversions = none
  | .next _ _ => fields ≠ 0 ∧ fields.toNat * tsize < 2 ^ 32
  | .destroy => True

instance (s : ResultSession) : (c : ResultCall) → Decidable (Good tsize fields s c)
  | .bindResult column _ moved => inferInstanceAs (Decidable (Grows tsize s.rs column moved))
  | .bindNullHandler _ _ => inferInstanceAs (Decidable (_ < _))
  | .bindResultReset => inferInstanceAs (Decidable (_ = _))
  | .next _ _ => inferInstanceAs (Decidable (_ ∧ _))
  | .destroy => inferInstanceAs (Decidable True)

end ResultSession

namespace ResultSet

variable {tsize : Nat} {fields : UInt32} {rs rs' : ResultSet} {bound : List Nat}

/-- The pointers of the entries. -/
def nulls (rs : ResultSet) : List (Option NullPointer) := rs.res_bindings.map ResultBind.is_null

/-- The entries point to their own values, if anywhere, and all of them do while they are bound. No
entry does before there is one for every column. -/
structure Pointed (fields : UInt32) (rs : ResultSet) : Prop where
  own : ∀ (i : Nat) (p : NullPointer), rs.nulls[i]? = some (some p) → p = ⟨rs.array, i⟩
  wide : ∀ (i : Nat) (p : NullPointer), rs.nulls[i]? = some (some p) →
    fields.toNat ≤ rs.res_bindings.length
  done : rs.res_binding_done → rs.given = some rs.array ∧ none ∉ rs.nulls

/-- Where a record leads to. -/
def links (memory : Ledger Conversion) (a : Nat) : Option Nat :=
  (memory.cell a).bind Conversion.next

/-- The list consists of the records that are not freed, and their columns are in the array. -/
structure Records (rs : ResultSet) (bound : List Nat) : Prop where
  owned : rs.memory.Owned (bound : Multiset Nat)
  chain : Chain (links rs.memory) rs.res_conversions bound
  columns : ∀ a conv, rs.memory.cell a = some conv → conv.column < rs.res_bindings.length

/-- The records are the same, and the array is not smaller. -/
structure Grown (rs rs' : ResultSet) : Prop where
  memory : rs'.memory = rs.memory
  head : rs'.res_conversions = rs.res_conversions
  count : rs.res_bindings.length ≤ rs'.res_bindings.length

theorem Records.grown (h : rs.Records bound) (hgrown : rs.Grown rs') : rs'.Records bound := by
  refine ⟨?_, ?_, fun a conv hcell => ?_⟩
  · rw [hgrown.memory]
    exact h.owned
  · rw [hgrown.memory, hgrown.head]
    exact h.chain
  · rw [hgrown.memory] at hcell
    exact lt_of_lt_of_le (h.columns a conv hcell) hgrown.count

theorem nulls_getElem? {i : Nat} {p : Option NullPointer} :
    rs.nulls[i]? = some p ↔ ∃ b, rs.res_bindings[i]? = some b ∧ b.is_null = p := by
  rw [nulls, List.getElem?_map, map_eq_some_iff]

/-- The array gets an entry for a column. -/
theorem exists_allocResBinding {column : UInt32} {moved : Bool} (h : rs.Pointed fields)
    (hgrows : ResultSession.Grows tsize rs column moved) :
    ∃ rs', rs.allocResBinding tsize column moved = .ok rs' ∧ rs'.Pointed fields ∧ rs.Grown rs' ∧
      column.toNat < rs'.res_bindings.length ∧ rs'.res_binding_done = false := by
  rw [allocResBinding]
  by_cases hlt : column.toNat < rs.res_bindings.length
  · rw [if_pos hlt]
    refine ⟨_, rfl, ⟨h.own, h.wide, fun hdone => ?_⟩, ⟨rfl, rfl, le_rfl⟩, hlt, rfl⟩
    cases hdone
  · obtain ⟨hsize, hmoved⟩ := hgrows.resolve_left hlt
    rw [if_neg hlt, if_pos hsize]
    refine ⟨_, rfl, ?_, ⟨rfl, rfl, ?_⟩, ?_, rfl⟩
    · -- the entries that are added have no pointers
      have hold : ∀ (i : Nat) (p : NullPointer), (nulls { rs with
            res_bindings := rs.res_bindings ++
              List.replicate (column.toNat + 1 - rs.res_bindings.length) added })[i]? =
          some (some p) → rs.nulls[i]? = some (some p) := by
        intro i p hp
        rw [nulls, map_append, map_replicate, List.getElem?_append] at hp
        by_cases hi : i < (rs.res_bindings.map ResultBind.is_null).length
        · rwa [if_pos hi] at hp
        · rw [if_neg hi, List.getElem?_replicate] at hp
          simp [added] at hp
      refine ⟨fun i p hp => ?_, fun i p hp => ?_, fun hdone => ?_⟩
      · have hpointed := hold i p hp
        cases moved with
        | false => exact h.own i p hpointed
        | true =>
          obtain ⟨b, hentry, hb⟩ := nulls_getElem?.mp hpointed
          rw [hmoved rfl b (mem_of_getElem? hentry)] at hb
          cases hb
      · exact le_trans (h.wide i p (hold i p hp)) (by simp)
      · cases hdone
    · simp
    · simp only [length_append, length_replicate]
      omega

variable {f : ResultBind → ResultBind}

theorem nulls_modifyBinding (hf : ∀ b, (f b).is_null = b.is_null) (column : UInt32) :
    (rs.modifyBinding column f).nulls = rs.nulls := by
  ext j
  rw [nulls, modifyBinding, List.getElem?_map, List.getElem?_modify, nulls, List.getElem?_map]
  cases rs.res_bindings[j]? with
  | none => rfl
  | some b =>
    by_cases hij : column.toNat = j
    · simp [hij, hf]
    · simp [hij]

theorem length_modifyBinding (f : ResultBind → ResultBind) (column : UInt32) :
    (rs.modifyBinding column f).res_bindings.length = rs.res_bindings.length :=
  length_modify f rs.res_bindings column.toNat

theorem Pointed.modifyBinding (h : rs.Pointed fields) (hf : ∀ b, (f b).is_null = b.is_null)
    (column : UInt32) : (rs.modifyBinding column f).Pointed fields := by
  refine ⟨fun j p hp => ?_, fun j p hp => ?_, fun hdone => ?_⟩
  · rw [nulls_modifyBinding hf] at hp
    exact h.own j p hp
  · rw [nulls_modifyBinding hf] at hp
    exact (h.wide j p hp).trans (length_modifyBinding f column).ge
  · rw [nulls_modifyBinding hf]
    exact h.done hdone

theorem Grown.modifyBinding (h : rs.Grown rs') (f : ResultBind → ResultBind) (column : UInt32) :
    rs.Grown (rs'.modifyBinding column f) :=
  ⟨h.memory, h.head, h.count.trans (length_modifyBinding f column).ge⟩

theorem Pointed.of_eq (h : rs.Pointed fields) (hentries : rs'.res_bindings = rs.res_bindings)
    (harray : rs'.array = rs.array) (hdone : rs'.res_binding_done = rs.res_binding_done)
    (hgiven : rs'.given = rs.given) : rs'.Pointed fields := by
  have hnulls : rs'.nulls = rs.nulls := by rw [nulls, hentries, nulls]
  refine ⟨?_, ?_, ?_⟩
  · rw [hnulls, harray]
    exact h.own
  · rw [hnulls, hentries]
    exact h.wide
  · rw [hnulls, harray, hdone, hgiven]
    exact h.done

/-- A record is added in front. -/
theorem Records.addResConversion {column : Nat} (h : rs.Records bound)
    (hcolumn : column < rs.res_bindings.length) (convertor : Convertor) (user_var : Nat) :
    (rs.addResConversion convertor column user_var).Records (rs.memory.next :: bound) := by
  have hnotMem : rs.memory.next ∉ bound := fun hmem => lt_irrefl _ (h.owned.lt hmem)
  refine ⟨?_, ?_, fun a conv hcell => ?_⟩
  · rw [← Multiset.cons_coe]
    exact h.owned.alloc _
  · refine Chain.push (h.chain.congr fun b hb => ?_) ?_
    · have hne : b ≠ rs.memory.next := ne_of_mem_of_not_mem hb hnotMem
      simp [ResultSet.addResConversion, links, Ledger.alloc, hne]
    · simp [ResultSet.addResConversion, links, Ledger.alloc]
  · by_cases ha : a = rs.memory.next
    · subst ha
      simp only [ResultSet.addResConversion, Ledger.alloc, Function.update_self] at hcell
      cases hcell
      exact hcolumn
    · simp only [ResultSet.addResConversion, Ledger.alloc, Function.update_of_ne ha] at hcell
      exact h.columns a conv hcell

/-- All records are freed. -/
theorem freeConversions_owned {memory : Ledger Conversion} {head : Option Nat} {fuel : Nat}
    (howned : memory.Owned (bound : Multiset Nat)) (hchain : Chain (links memory) head bound)
    (hfuel : bound.length ≤ fuel) :
    ∃ memory', freeConversions fuel head memory = .ok memory' ∧ memory'.Owned 0 := by
  induction bound generalizing memory head fuel with
  | nil =>
    rw [Chain.nil_iff.mp hchain]
    exact ⟨memory, by rw [freeConversions], howned⟩
  | cons a bound ih =>
    obtain ⟨rfl, hrest⟩ := hchain
    obtain ⟨fuel, rfl⟩ := Nat.exists_eq_succ_of_ne_zero (Nat.ne_of_gt (Nat.lt_of_lt_of_le
      (Nat.succ_pos _) hfuel))
    rw [← Multiset.cons_coe] at howned
    obtain ⟨conv, hcell, hload⟩ := howned.load (Multiset.mem_cons_self a _)
    have hnotMem := (Multiset.nodup_cons.mp howned.nodup).1
    obtain ⟨memory', hfree, howned', hcells⟩ := howned.free
    have hnext : links memory a = conv.next := by rw [links, hcell, bind_some]
    rw [hnext] at hrest
    obtain ⟨memory'', hall, howned''⟩ := ih howned' (hrest.congr fun b hb => by
      rw [links, links, hcells, Function.update_of_ne (ne_of_mem_of_not_mem hb hnotMem)])
      (Nat.le_of_succ_le_succ hfuel)
    exact ⟨memory'', by rw [freeConversions, hload, ok_bind, hfree, ok_bind, hall],
      howned''⟩

theorem bindResultReset_spec (h : rs.Records bound) :
    ∃ memory, rs.bindResultReset = .ok { rs.clear with memory := memory } ∧ memory.Owned 0 := by
  obtain ⟨memory, hfree, howned⟩ := freeConversions_owned h.owned h.chain h.owned.card_le
  have hclear : freeConversions rs.clear.memory.next rs.clear.res_conversions rs.clear.memory =
    .ok memory := hfree
  exact ⟨memory, by rw [bindResultReset, hclear, ok_bind], howned⟩

theorem Pointed.clear (fields : UInt32) (rs : ResultSet) (memory : Ledger Conversion) :
    Pointed fields { rs.clear with memory := memory } := by
  have hnone : ∀ (i : Nat) (p : NullPointer), rs.clear.nulls[i]? ≠ some (some p) := by
    intro i p hp
    obtain ⟨b, hentry, hb⟩ := nulls_getElem?.mp hp
    simp only [ResultSet.clear, List.getElem?_map, map_eq_some_iff] at hentry
    obtain ⟨b', -, rfl⟩ := hentry
    cases hb
  refine ⟨fun i p hp => absurd hp (hnone i p), fun i p hp => absurd hp (hnone i p), fun hdone => ?_⟩
  cases hdone

theorem checkNull_ok {column : Nat} (h : rs.Pointed fields) (hbound : none ∉ rs.nulls)
    (hcolumn : column < rs.res_bindings.length) : rs.checkNull column = .ok () := by
  obtain ⟨b, hentry⟩ : ∃ b, rs.res_bindings[column]? = some b :=
    ⟨_, List.getElem?_eq_getElem hcolumn⟩
  rw [checkNull, hentry]
  cases hnull : b.is_null with
  | none => exact absurd (mem_of_getElem? (nulls_getElem?.mpr ⟨b, hentry, hnull⟩)) hbound
  | some p =>
    obtain rfl := h.own column p (nulls_getElem?.mpr ⟨b, hentry, hnull⟩)
    simp [hnull, hcolumn]

theorem checkNulls_ok (h : rs.Pointed fields) (hbound : none ∉ rs.nulls) {n : Nat}
    (hn : n ≤ rs.res_bindings.length) : rs.checkNulls n = .ok () := by
  induction n with
  | zero => rfl
  | succ n ih =>
    rw [checkNulls, checkNull_ok h hbound hn, ok_bind, ih (Nat.le_of_succ_le hn)]

/-- The conversions run one after another, up to one that fails. -/
theorem runConversions_ok (nulls broken : List Nat) {head : Option Nat} {fuel : Nat}
    (hchain : Chain (links rs.memory) head bound)
    (hcell : ∀ a ∈ bound, ∃ conv, rs.memory.cell a = some conv ∧ rs.checkNull conv.column = .ok ())
    (hfuel : bound.length ≤ fuel) :
    rs.runConversions nulls broken fuel head = .ok bound ∨
      rs.runConversions nulls broken fuel head = .raise .mysql := by
  induction bound generalizing head fuel with
  | nil =>
    rw [Chain.nil_iff.mp hchain]
    exact .inl (by rw [runConversions])
  | cons a bound ih =>
    obtain ⟨rfl, hrest⟩ := hchain
    obtain ⟨fuel, rfl⟩ := Nat.exists_eq_succ_of_ne_zero (Nat.ne_of_gt (Nat.lt_of_lt_of_le
      (Nat.succ_pos _) hfuel))
    obtain ⟨conv, hconv, hnull⟩ := hcell a mem_cons_self
    have hnext : links rs.memory a = conv.next := by rw [links, hconv, bind_some]
    rw [hnext] at hrest
    have hload : (rs.memory.load a : Outcome ResultError Conversion) = .ok conv := by
      rw [Ledger.load, hconv, ofOption_some]
    rw [runConversions, hload, ok_bind, hnull, ok_bind]
    by_cases hfails : conv.convertor ≠ .resConv_nullHandler ∧ conv.column ∉ nulls ∧
        conv.column ∈ broken
    · rw [if_pos hfails]
      exact .inr rfl
    · rw [if_neg hfails]
      obtain hok | hraise := ih hrest (fun b hb => hcell b (mem_cons_of_mem a hb))
        (Nat.le_of_succ_le_succ hfuel)
      · rw [hok]
        exact .inl rfl
      · rw [hraise]
        exact .inr rfl

/-- What `next` does: it answers, after all conversions or none, or raises an exception, and what
holds of the pointers and the records still does. -/
structure Answers (fields : UInt32) (bound : List Nat)
    (result : Outcome ResultError (Bool × List Nat) × ResultSet) : Prop where
  answer : result.1 = .ok (true, bound) ∨ result.1 = .ok (false, []) ∨ result.1 = .raise .mysql
  pointed : result.2.Pointed fields
  records : result.2.Records bound

theorem fetch_answers (h : rs.Pointed fields) (hrecords : rs.Records bound)
    (hdone : rs.res_binding_done) (answer : FetchAnswer) :
    Answers fields bound (fetch answer rs) := by
  obtain ⟨hgiven, hbound⟩ := h.done hdone
  unfold fetch
  rw [if_neg (not_not_intro hgiven)]
  have hrow : Pointed fields { rs with current_row := rs.current_row + 1 } :=
    h.of_eq rfl rfl rfl rfl
  have hrecords' : Records { rs with current_row := rs.current_row + 1 } bound :=
    hrecords.grown ⟨rfl, rfl, le_rfl⟩
  cases answer with
  | refused | failed => exact ⟨.inr (.inr rfl), h, hrecords⟩
  | noData => exact ⟨.inr (.inl rfl), hrow, hrecords'⟩
  | row nulls broken =>
    have hcell : ∀ a ∈ bound, ∃ conv, rs.memory.cell a = some conv ∧
        checkNull { rs with current_row := rs.current_row + 1 } conv.column = .ok () := by
      intro a ha
      obtain ⟨conv, hconv⟩ := isSome_iff_exists.mp ((hrecords.owned.live a).mpr ha)
      exact ⟨conv, hconv, checkNull_ok hrow hbound (hrecords.columns a conv hconv)⟩
    simp only [checkNulls_ok hrow hbound le_rfl, ok_bind]
    obtain hok | hraise :=
      runConversions_ok nulls broken hrecords'.chain hcell hrecords'.owned.card_le
    · rw [hok]
      exact ⟨.inl rfl, hrow, hrecords'⟩
    · rw [hraise]
      exact ⟨.inr (.inr rfl), hrow, hrecords'⟩

theorem nulls_pointNulls (i : Nat) :
    rs.pointNulls.nulls[i]? =
      rs.nulls[i]?.map fun p => some (p.getD ⟨rs.array, i⟩) := by
  rw [nulls, pointNulls, List.getElem?_map, List.getElem?_mapIdx, nulls, List.getElem?_map]
  cases rs.res_bindings[i]? with
  | none => rfl
  | some b =>
    cases hnull : b.is_null with
    | none => simp [hnull]
    | some p => simp [hnull]

section

variable (h : rs.Pointed fields)
include h

theorem Pointed.pointNulls (hwide : fields.toNat ≤ rs.res_bindings.length) (done : Bool) :
    Pointed fields { rs.pointNulls with given := some rs.array, res_binding_done := done } := by
  have hlength : rs.pointNulls.res_bindings.length = rs.res_bindings.length := by
    simp [ResultSet.pointNulls]
  have hown : ∀ (i : Nat) (p : Option NullPointer), rs.pointNulls.nulls[i]? = some p →
      p = some ⟨rs.array, i⟩ := by
    intro i p hp
    rw [nulls_pointNulls, map_eq_some_iff] at hp
    obtain ⟨q, hq, rfl⟩ := hp
    cases q with
    | none => rfl
    | some q => rw [h.own i q hq, getD_some]
  refine ⟨fun i p hp => ?_, fun i p _ => ?_, fun _ => ⟨rfl, fun hnone => ?_⟩⟩
  · exact Option.some.inj (hown i (some p) hp)
  · exact hwide.trans hlength.ge
  · obtain ⟨i, hi⟩ := mem_iff_getElem?.mp hnone
    cases hown i none hi

/-- A row has columns, and the array can get an entry for each. -/
theorem grows_fields (hfields : fields ≠ 0) (hsize : fields.toNat * tsize < 2 ^ 32) (moved : Bool) :
    (fields - 1).toNat + 1 = fields.toNat ∧ ResultSession.Grows tsize rs (fields - 1) moved := by
  have hlast : (fields - 1).toNat + 1 = fields.toNat := by
    have hne : fields.toNat ≠ 0 := fun hzero => hfields (UInt32.toNat_inj.mp hzero)
    have hone : (1 : UInt32) ≤ fields := by
      rw [UInt32.le_iff_toNat_le]
      exact Nat.one_le_iff_ne_zero.mpr hne
    rw [UInt32.toNat_sub_of_le fields 1 hone, UInt32.toNat_one]
    omega
  refine ⟨hlast, ?_⟩
  by_cases hlt : (fields - 1).toNat < rs.res_bindings.length
  · exact .inl hlt
  · refine .inr ⟨by rwa [hlast], fun _ b hb => ?_⟩
    -- there is no pointer before there are as many entries as columns
    by_contra hpointer
    obtain ⟨p, hp⟩ := ne_none_iff_exists'.mp hpointer
    obtain ⟨i, hi⟩ := mem_iff_getElem?.mp hb
    have hwide := h.wide i p (nulls_getElem?.mpr ⟨b, hi, hp⟩)
    omega

theorem next_answers (hrecords : rs.Records bound) (hfields : fields ≠ 0)
    (hsize : fields.toNat * tsize < 2 ^ 32) (answer : FetchAnswer) (moved : Bool) :
    Answers fields bound (next tsize fields answer moved rs) := by
  by_cases hdone : rs.res_binding_done
  · have hbind : bindAll tsize fields answer moved rs = (.ok (), rs) := by
      unfold bindAll
      rw [if_pos hdone]
    rw [next, Keeping.bind_ok hbind]
    exact fetch_answers h hrecords hdone answer
  · obtain ⟨hlast, hgrows⟩ := grows_fields h hfields hsize moved
    obtain ⟨rs', halloc, hpointed, hgrown, hlt, -⟩ := exists_allocResBinding h hgrows
    have hwide : fields.toNat ≤ rs'.res_bindings.length := by omega
    have hrecords' : ∀ done : Bool,
        Records { rs'.pointNulls with given := some rs'.array, res_binding_done := done } bound :=
      fun done => (hrecords.grown hgrown).grown
        ⟨rfl, rfl, le_of_le_of_eq le_rfl (by simp [ResultSet.pointNulls])⟩
    by_cases hrefused : answer = .refused
    · have hbind : bindAll tsize fields answer moved rs =
          (.raise .mysql, { rs'.pointNulls with given := some rs'.array }) := by
        unfold bindAll
        rw [if_neg hdone, halloc]
        exact if_pos hrefused
      rw [next, Keeping.bind_raise hbind]
      exact ⟨.inr (.inr rfl), hpointed.pointNulls hwide _, hrecords' _⟩
    · have hbind : bindAll tsize fields answer moved rs = (.ok (),
          { rs'.pointNulls with given := some rs'.array, res_binding_done := true }) := by
        unfold bindAll
        rw [if_neg hdone, halloc]
        exact if_neg hrefused
      rw [next, Keeping.bind_ok hbind]
      exact fetch_answers (hpointed.pointNulls hwide true) (hrecords' true) rfl answer

/-- A result is bound, with a record if it is converted. -/
theorem bindResult_spec {column : UInt32} {moved : Bool} (hrecords : rs.Records bound)
    (hgrows : ResultSession.Grows tsize rs column moved) (value : ResultVariable) :
    ∃ rs', rs.bindResult tsize column moved value = .ok rs' ∧ rs'.Pointed fields ∧
      rs'.Records (if value.converted then rs.memory.next :: bound else bound) := by
  obtain ⟨rs', halloc, hpointed, hgrown, hlt, -⟩ := exists_allocResBinding h hgrows
  have hnumber : ∀ type var, ∃ rs'', rs.bindNumber tsize column type var moved = .ok rs'' ∧
      rs''.Pointed fields ∧ rs''.Records bound := by
    intro type var
    rw [bindNumber, halloc, ok_bind]
    have hset := hpointed.modifyBinding
      (f := fun b => { b with buffer_type := type, buffer := some var }) (fun _ => rfl) column
    exact ⟨_, rfl, hset, hrecords.grown (hgrown.modifyBinding _ column)⟩
  have hconversion : ∀ convertor var, ∃ rs'',
      rs.bindConversion tsize column convertor var moved = .ok rs'' ∧
        rs''.Pointed fields ∧ rs''.Records (rs.memory.next :: bound) := by
    intro convertor var
    rw [bindConversion, halloc, ok_bind, ← hgrown.memory]
    have hlength := rs'.length_modifyBinding
      (fun b => { b with buffer_type := .MYSQL_TYPE_NULL }) column
    have hcolumn := hlt.trans_eq hlength.symm
    have hset := hpointed.modifyBinding (f := fun b => { b with buffer_type := .MYSQL_TYPE_NULL })
      (fun _ => rfl) column
    exact ⟨_, rfl, hset.of_eq rfl rfl rfl rfl,
      (hrecords.grown (hgrown.modifyBinding _ column)).addResConversion hcolumn convertor var⟩
  cases value with
  | string var => exact hconversion .resConv_String var
  | blob var => exact hconversion .resConv_Blob var
  | variant var => exact hconversion .resConv_Variant var
  | sint8 var => exact hnumber .MYSQL_TYPE_TINY var
  | sint16 var => exact hnumber .MYSQL_TYPE_SHORT var
  | sint32 var => exact hnumber .MYSQL_TYPE_LONG var
  | sint64 var | date var => exact hnumber .MYSQL_TYPE_LONGLONG var
  | float var => exact hnumber .MYSQL_TYPE_FLOAT var
  | double var => exact hnumber .MYSQL_TYPE_DOUBLE var

end

end ResultSet

namespace ResultSession

open ResultSet

variable {tsize : Nat} {fields : UInt32} {s t : ResultSession}

/-- What holds in every state of a run. -/
structure Invariant (fields : UInt32) (s : ResultSession) : Prop where
  pointed : s.rs.Pointed fields
  owned : s.rs.memory.Owned (s.bound : Multiset Nat)
  records : s.alive → s.rs.Records s.bound
  dead : s.alive = false → s.bound = []

/-- What a good call does to a result set that is not destroyed: it returns or raises an exception,
and the invariant holds after it. -/
theorem exists_step (h : s.Invariant fields) (halive : s.alive) {c : ResultCall}
    (hgood : Good tsize fields s c) : ∃ t, step tsize fields s c = some t ∧ t.Invariant fields := by
  have hrecords := h.records halive
  cases c with
  | bindResult column value moved =>
    obtain ⟨rs', hbind, hpointed, hrecords'⟩ := bindResult_spec h.pointed hrecords hgood value
    refine ⟨⟨rs', s.record (.bindResult column value moved), true⟩, ?_, hpointed,
      hrecords'.owned, fun _ => hrecords', fun hdead => by cases hdead⟩
    simp [step, halive, call, Keeping.lift, hbind]
  | bindNullHandler column handler =>
    obtain ⟨b, hentry⟩ : ∃ b, s.rs.res_bindings[column.toNat]? = some b :=
      ⟨_, List.getElem?_eq_getElem hgood⟩
    by_cases hbuffer : b.buffer = none
    · refine ⟨⟨s.rs, s.bound, true⟩, ?_, h.pointed, h.owned, fun _ => hrecords,
        fun hdead => by cases hdead⟩
      simp [step, halive, call, Keeping.lift, bindNullHandler, hentry, hbuffer]
    · have hadded := hrecords.addResConversion hgood .resConv_nullHandler handler
      refine ⟨⟨s.rs.addResConversion .resConv_nullHandler column.toNat handler,
        s.rs.memory.next :: s.bound, true⟩, ?_, h.pointed.of_eq rfl rfl rfl rfl,
        hadded.owned, fun _ => hadded, fun hdead => by cases hdead⟩
      simp [step, halive, call, Keeping.lift, bindNullHandler, hentry, hbuffer, record]
  | bindResultReset =>
    obtain ⟨memory, hreset, howned⟩ := bindResultReset_spec hrecords
    have hchain := hrecords.chain
    have hhead : s.rs.res_conversions = none := hgood
    rw [hhead, Chain.none_iff] at hchain
    refine ⟨⟨{ s.rs.clear with memory := memory }, [], true⟩, ?_,
      Pointed.clear fields s.rs memory, howned,
      fun _ => ⟨howned, hhead, fun a conv hcell => ?_⟩, fun hdead => by cases hdead⟩
    · simp [step, halive, call, Keeping.lift, hreset, record]
    · have hmem := (howned.live a).mp (isSome_of_eq_some hcell)
      cases Multiset.notMem_zero a hmem
  | next answer moved =>
    obtain ⟨hanswer, hpointed, hrecords'⟩ :=
      next_answers h.pointed hrecords hgood.1 hgood.2 answer moved
    rcases hnext : ResultSet.next tsize fields answer moved s.rs with ⟨result, rs'⟩
    rw [hnext] at hanswer hpointed hrecords'
    refine ⟨⟨rs', s.bound, true⟩, ?_, hpointed, hrecords'.owned, fun _ => hrecords',
      fun hdead => by cases hdead⟩
    obtain hanswer | hanswer | hanswer := hanswer
    · cases hanswer
      rw [step, if_pos halive, call, Keeping.bind_ok hnext]
      rfl
    · cases hanswer
      rw [step, if_pos halive, call, Keeping.bind_ok hnext]
      rfl
    · cases hanswer
      simp [step, halive, call, Keeping.bind_raise hnext]
  | destroy =>
    obtain ⟨memory, hreset, howned⟩ := bindResultReset_spec hrecords
    refine ⟨⟨{ s.rs.clear with memory := memory }, [], false⟩, ?_, ?_⟩
    · rw [step, if_pos halive, call, Keeping.lift, hreset]
      rfl
    · exact ⟨Pointed.clear fields s.rs memory, howned, fun hlive => absurd hlive Bool.false_ne_true,
        fun _ => rfl⟩

theorem step_invariant {c : ResultCall} (h : s.Invariant fields) (hgood : Good tsize fields s c)
    (hstep : step tsize fields s c = some t) : t.Invariant fields := by
  have halive : s.alive := by
    by_contra hdead
    rw [step, if_neg hdead] at hstep
    cases hstep
  obtain ⟨t', hstep', hinv⟩ := exists_step h halive hgood
  rw [hstep'] at hstep
  exact Option.some.inj hstep ▸ hinv

theorem reachable_invariant
    (h : (machine tsize fields).ReachableWith (Good tsize fields) s) : s.Invariant fields := by
  refine h.invariant (Invariant fields) ?_ fun _ _ _ hinv hgood hstep =>
    step_invariant hinv hgood hstep
  rintro s ⟨⟨array, row, hrs⟩, hbound, halive⟩
  have howned : s.rs.memory.Owned (s.bound : Multiset Nat) := by
    rw [hrs, hbound]
    exact Ledger.Owned.new
  refine ⟨?_, howned, fun _ => ⟨howned, ?_, fun a conv hcell => ?_⟩, fun _ => hbound⟩
  · rw [hrs]
    refine ⟨fun i p hp => ?_, fun i p hp => ?_, fun hdone => ?_⟩
    · cases hp
    · cases hp
    · cases hdone
  · rw [hrs, hbound]
    exact rfl
  · rw [hrs] at hcell
    cases hcell

/-- In every run of good calls each record is freed exactly once, no call reads or frees what it
must not, `next` runs the conversions that were bound since the last reset, and the pointers of the
entries lead to their own values in the array as it is now. -/
theorem reachable_bindings
    (h : (machine tsize fields).ReachableWith (Good tsize fields) s) :
    s.rs.memory.Owned (s.bound : Multiset Nat) ∧
      (s.alive = false → s.rs.memory.freed.Perm (List.range s.rs.memory.next)) ∧
      (s.alive → ∀ c, Good tsize fields s c → ∃ t, step tsize fields s c = some t) ∧
      (s.alive → ∀ answer moved, Good tsize fields s (.next answer moved) → ∀ ran rs,
        ResultSet.next tsize fields answer moved s.rs = (.ok (true, ran), rs) → ran = s.bound) ∧
      ∀ (i : Nat) b p, s.rs.res_bindings[i]? = some b → b.is_null = some p →
        p = ⟨s.rs.array, i⟩ := by
  have hinv := reachable_invariant h
  refine ⟨hinv.owned, fun hdead => ?_, fun halive c hgood => ?_,
    fun halive answer moved hgood ran rs hnext => ?_, fun i b p hentry hp => ?_⟩
  · have howned := hinv.owned
    rw [hinv.dead hdead] at howned
    exact howned.freed_once
  · obtain ⟨t, hstep, -⟩ := exists_step hinv halive hgood
    exact ⟨t, hstep⟩
  · obtain ⟨hanswer, -, -⟩ :=
      next_answers hinv.pointed (hinv.records halive) hgood.1 hgood.2 answer moved
    rw [hnext] at hanswer
    obtain hanswer | hanswer | hanswer := hanswer
    · cases hanswer
      rfl
    · cases hanswer
    · cases hanswer
  · exact hinv.pointed.own i p (nulls_getElem?.mpr ⟨b, hentry, hp⟩)

/-- A result set that nothing was done with. -/
def fresh : ResultSession := ⟨⟨[], 0, .new, none, false, 0, none⟩, [], true⟩

theorem init_fresh : (machine 112 1).init fresh := ⟨⟨0, 0, rfl⟩, rfl, rfl⟩

/-- The result set after a string was bound. -/
def converting : ResultSession where
  rs := ⟨[⟨.MYSQL_TYPE_NULL, none, none⟩], 0,
    Ledger.new.alloc ⟨.resConv_String, 0, 7, none⟩, some 0, false, 0, none⟩
  bound := [0]
  alive := true

/-- A string, a number with a null handler, and a blob are bound, and a row is read. The second time
the string is bound, its conversion comes twice. All of them are freed with the result set. -/
theorem reachable_bindings_three : ∃ s t : ResultSession,
    (machine 112 3).ReachableWith (Good 112 3) s ∧ s.bound = [3, 2, 1, 0] ∧
      s.rs.memory.Owned (s.bound : Multiset Nat) ∧
      (ResultSet.next 112 3 (.row [1] []) false s.rs).1 = .ok (true, [3, 2, 1, 0]) ∧
      step 112 3 s .destroy = some t ∧ t.rs.memory.freed.Perm [0, 1, 2, 3] := by
  have start : (machine 112 3).ReachableWith (Good 112 3) fresh := .init init_fresh
  have bound₁ := start.next
    (show Good 112 3 _ (.bindResult 0 (.string 7) false) from by decide) rfl
  have bound₂ := bound₁.next
    (show Good 112 3 _ (.bindResult 1 (.sint32 8) true) from by decide) rfl
  have bound₃ := bound₂.next (show Good 112 3 _ (.bindNullHandler 1 9) from by decide) rfl
  have bound₄ := bound₃.next
    (show Good 112 3 _ (.bindResult 2 (.blob 10) false) from by decide) rfl
  have read := bound₄.next (show Good 112 3 _ (.next (.row [2] []) false) from by decide) rfl
  have again := read.next
    (show Good 112 3 _ (.bindResult 0 (.string 7) false) from by decide) rfl
  have freed := again.next (show Good 112 3 _ .destroy from trivial) rfl
  exact ⟨_, _, again, rfl, (reachable_bindings again).1, rfl, rfl,
    (reachable_bindings freed).2.1 rfl⟩

/-- The result set after a reset. The record is freed, and is still on the list. -/
def dangling : ResultSession where
  rs := ⟨[⟨.MYSQL_TYPE_NULL, none, none⟩], 0,
    ⟨Function.update (Ledger.new.alloc ⟨.resConv_String, 0, 7, none⟩).cell 0 none, 1, [0]⟩,
    some 0, false, 0, none⟩
  bound := []
  alive := true

/-- The record is read and freed once more. -/
theorem dangling_not_freed_once :
    (machine 112 1).Reachable dangling ∧ dangling.alive ∧
      (call 112 1 (.next (.row [] []) false) dangling.rs).1 = .fault ∧
      (call 112 1 .destroy dangling.rs).1 = .fault := by
  have hbind : (machine 112 1).step fresh (.bindResult 0 (.string 7) false) = some converting :=
    rfl
  have hreset : (machine 112 1).step converting .bindResultReset = some dangling := rfl
  exact ⟨((Machine.ReachableWith.init init_fresh).next trivial hbind).next trivial hreset,
    rfl, rfl, rfl⟩

end ResultSession

end Drt
