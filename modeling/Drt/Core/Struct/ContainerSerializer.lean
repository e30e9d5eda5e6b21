import Drt.Core.Struct.THash

/-!
# Serializing containers

The elements of an array or a hash are written one by one through an encoder, between a length
and an end mark. What reads them reads into variables of its own: the array is never filled, and
the hash gets a key that nobody read.
-/

open List

namespace Drt

/-- The types of scalars that are integers or strings. -/
inductive ScalarType where
  | sint8
  | sint16
  | sint32
  | sint64
  | uint8
  | uint16
  | uint32
  | uint64
  | string
  deriving DecidableEq, Repr

namespace ScalarType

/-- The values of a type. -/
def Value : ScalarType → Type
  | sint8 => Int8
  | sint16 => Int16
  | sint32 => Int32
  | sint64 => Int64
  | uint8 => UInt8
  | uint16 => UInt16
  | uint32 => UInt32
  | uint64 => UInt64
  | string => String

instance : (t : ScalarType) → DecidableEq t.Value
  | sint8 => inferInstanceAs (DecidableEq Int8)
  | sint16 => inferInstanceAs (DecidableEq Int16)
  | sint32 => inferInstanceAs (DecidableEq Int32)
  | sint64 => inferInstanceAs (DecidableEq Int64)
  | uint8 => inferInstanceAs (DecidableEq UInt8)
  | uint16 => inferInstanceAs (DecidableEq UInt16)
  | uint32 => inferInstanceAs (DecidableEq UInt32)
  | uint64 => inferInstanceAs (DecidableEq UInt64)
  | string => inferInstanceAs (DecidableEq String)

end ScalarType

/-- What a `SerializeEncoder` is asked to write. -/
inductive SerializeItem where
  | value (type : ScalarType) (x : type.Value)
  | arrayLength (count : Nat)
  | structLength (count : Nat)
  | memberName (name : String)
  | arrayEnd
  | structEnd
  deriving DecidableEq

/-- A `SerializeEncoder` and a `SerializeDecoder` that belong together. A decoder stands before
the items that are still to be read, and a count that was given to `checkArrayNext` stands for
the elements that are left. -/
structure SerializePair (σ δ ε : Type) where
  empty : σ
  write : σ → SerializeItem → σ
  decode : σ → δ
  readValue : (type : ScalarType) → δ → Outcome ε (type.Value × δ)
  readArrayLength : δ → Outcome ε (Int × δ)
  checkArrayNext : Int → δ → Outcome ε (Bool × Int × δ)
  readStructLength : δ → Outcome ε (Int × δ)
  checkStructNext : Int → δ → Outcome ε (Bool × Int × δ)
  readMemberName : δ → Outcome ε (String × δ)
  /-- The items before which a decoder stands. -/
  Before : δ → List SerializeItem → Prop
  /-- The elements or members that a count stands for. -/
  Counts : Int → Nat → Prop
  before_decode : ∀ items, Before (decode (items.foldl write empty)) items
  readValue_eq : ∀ d type x rest, Before d (.value type x :: rest) →
    ∃ d', readValue type d = .ok (x, d') ∧ Before d' rest
  readArrayLength_eq : ∀ d n rest, Before d (.arrayLength n :: rest) →
    ∃ cnt d', readArrayLength d = .ok (cnt, d') ∧ Counts cnt n ∧ Before d' rest
  checkArrayNext_next : ∀ d cnt n item rest, Before d (item :: rest) → item ≠ .arrayEnd →
    Counts cnt (n + 1) →
    ∃ cnt' d', checkArrayNext cnt d = .ok (true, cnt', d') ∧ Counts cnt' n ∧
      Before d' (item :: rest)
  checkArrayNext_end : ∀ d cnt rest, Before d (.arrayEnd :: rest) → Counts cnt 0 →
    ∃ cnt' d', checkArrayNext cnt d = .ok (false, cnt', d') ∧ Before d' rest
  readStructLength_eq : ∀ d n rest, Before d (.structLength n :: rest) →
    ∃ cnt d', readStructLength d = .ok (cnt, d') ∧ Counts cnt n ∧ Before d' rest
  checkStructNext_next : ∀ d cnt n name rest, Before d (.memberName name :: rest) →
    Counts cnt (n + 1) →
    ∃ cnt' d', checkStructNext cnt d = .ok (true, cnt', d') ∧ Counts cnt' n ∧
      Before d' (.memberName name :: rest)
  checkStructNext_end : ∀ d cnt rest, Before d (.structEnd :: rest) → Counts cnt 0 →
    ∃ cnt' d', checkStructNext cnt d = .ok (false, cnt', d') ∧ Before d' rest
  readMemberName_eq : ∀ d name rest, Before d (.memberName name :: rest) →
    ∃ d', readMemberName d = .ok (name, d') ∧ Before d' rest

namespace SerializePair

variable {σ δ ε : Type} (p : SerializePair σ δ ε) {κ ν : ScalarType}

/-! ### Arrays -/

def serializeArray (array : List ν.Value) (stream : σ) : σ :=
  let stream := p.write stream (.arrayLength array.length)
  let stream := array.foldl (fun stream x => p.write stream (.value ν x)) stream
  p.write stream .arrayEnd

/-- The loop of `unserializeArray`. -/
def unserializeElements (ν : ScalarType) : Nat → Int → δ → Outcome ε δ
  | 0, _, _ => .outOfFuel
  | fuel + 1, cnt, stream => do
    let (more, cnt, stream) ← p.checkArrayNext cnt stream
    if more then do
      let (_, stream) ← p.readValue ν stream
      unserializeElements ν fuel cnt stream
    else .ok stream

/-- `unserializeArray`: the array and the decoder after it. -/
def unserializeArray (array : List ν.Value) (stream : δ) (fuel : Nat) :
    Outcome ε (List ν.Value × δ) := do
  let (cnt, stream) ← p.readArrayLength stream
  let stream ← p.unserializeElements ν fuel cnt stream
  .ok (array, stream)

/-! ### Hashes -/

/-- What is written of a node. -/
def serializeNode (stream : σ) (node : κ.Value × ν.Value) : σ :=
  let stream := p.write stream (.structLength 2)
  let stream := p.write stream (.memberName "k")
  let stream := p.write stream (.value κ node.1)
  let stream := p.write stream (.memberName "v")
  let stream := p.write stream (.value ν node.2)
  p.write stream .structEnd

/-- `serializeHash`, of the nodes in the order of the iteration. -/
def serializeHash (nodes : List (κ.Value × ν.Value)) (stream : σ) : σ :=
  let stream := p.write stream (.arrayLength nodes.length)
  let stream := nodes.foldl p.serializeNode stream
  p.write stream .arrayEnd

/-- The loop of `unserializeHash`, with what `k` happens to hold. -/
def unserializeNodes (k : κ.Value) :
    Nat → Int → THash κ.Value ν.Value → δ → Outcome ε (THash κ.Value ν.Value × δ)
  | 0, _, _, _ => .outOfFuel
  | fuel + 1, cnt, hash, stream => do
    let (more, cnt, stream) ← p.checkArrayNext cnt stream
    if more then do
      let (v, stream) ← p.readValue ν stream
      let hash ← hash.set k v
      unserializeNodes k fuel cnt hash stream
    else .ok (hash, stream)

def unserializeHash (k : κ.Value) (hash : THash κ.Value ν.Value) (stream : δ) (fuel : Nat) :
    Outcome ε (THash κ.Value ν.Value × δ) := do
  let (cnt, stream) ← p.readArrayLength stream
  p.unserializeNodes k fuel cnt hash stream

/-! ### What is written and read -/

/-- The items of an array. -/
def arrayItems (array : List ν.Value) : List SerializeItem :=
  .arrayLength array.length :: (array.map (.value ν ·) ++ [.arrayEnd])

/-- The items of a node. -/
def nodeItems (node : κ.Value × ν.Value) : List SerializeItem :=
  [.structLength 2, .memberName "k", .value κ node.1, .memberName "v", .value ν node.2, .structEnd]

/-- The items of a hash. -/
def hashItems (nodes : List (κ.Value × ν.Value)) : List SerializeItem :=
  .arrayLength nodes.length :: (nodes.flatMap nodeItems ++ [.arrayEnd])

theorem serializeArray_eq (array : List ν.Value) (stream : σ) :
    p.serializeArray array stream = (arrayItems array).foldl p.write stream := by
  rw [arrayItems, foldl_cons, foldl_append, foldl_map]
  rfl

theorem serializeHash_eq (nodes : List (κ.Value × ν.Value)) (stream : σ) :
    p.serializeHash nodes stream = (hashItems nodes).foldl p.write stream := by
  rw [hashItems, foldl_cons, foldl_append, foldl_flatMap]
  rfl

/-- The elements are all read, whatever pair wrote them, and nothing is done with them. -/
theorem unserializeElements_returns (array : List ν.Value) {rest : List SerializeItem} {cnt : Int}
    {stream : δ} (hcounts : p.Counts cnt array.length)
    (hbefore : p.Before stream (array.map (.value ν ·) ++ .arrayEnd :: rest)) :
    ∃ stream', Outcome.Returns (fun fuel => p.unserializeElements ν fuel cnt stream) stream' ∧
      p.Before stream' rest := by
  induction array generalizing cnt stream with
  | nil =>
    obtain ⟨cnt', stream', hnext, hrest⟩ := p.checkArrayNext_end stream cnt rest hbefore hcounts
    refine ⟨stream', .of_succ_ok fun fuel => ?_, hrest⟩
    rw [unserializeElements, hnext]
    rfl
  | cons x array ih =>
    obtain ⟨cnt', stream', hnext, hcounts', hbefore'⟩ :=
      p.checkArrayNext_next stream cnt array.length _ _ hbefore (by simp) hcounts
    obtain ⟨stream'', hread, hbefore''⟩ := p.readValue_eq _ _ _ _ hbefore'
    obtain ⟨last, hreturns, hrest⟩ := ih hcounts' hbefore''
    refine ⟨last, hreturns.of_succ fun fuel => ?_, hrest⟩
    rw [unserializeElements, hnext]
    simp only [Outcome.ok_bind, if_true, hread]

/-- The array stays as it was. -/
theorem unserializeArray_returns (initial array : List ν.Value) (rest : List SerializeItem) :
    ∃ stream, Outcome.Returns (p.unserializeArray initial
        (p.decode (rest.foldl p.write (p.serializeArray array p.empty)))) (initial, stream) ∧
      p.Before stream rest := by
  have hbefore := p.before_decode (arrayItems array ++ rest)
  rw [foldl_append, ← serializeArray_eq, arrayItems, cons_append, append_assoc,
    singleton_append] at hbefore
  obtain ⟨cnt, stream, hlength, hcounts, hbefore'⟩ := p.readArrayLength_eq _ _ _ hbefore
  obtain ⟨stream', hreturns, hrest⟩ := p.unserializeElements_returns array hcounts hbefore'
  refine ⟨stream', ?_, hrest⟩
  have hread : Outcome.Returns (fun fuel =>
      p.unserializeElements ν fuel cnt stream >>= fun stream => .ok (initial, stream))
      (initial, stream') := hreturns.bind (.ok _)
  refine hread.congr fun fuel => ?_
  rw [unserializeArray, hlength]
  rfl

/-- An empty hash is read. -/
theorem unserializeHash_nil (k : κ.Value) (rest : List SerializeItem) :
    ∃ stream, Outcome.Returns (p.unserializeHash k (∅ : THash κ.Value ν.Value)
        (p.decode (rest.foldl p.write (p.serializeHash ([] : List (κ.Value × ν.Value)) p.empty))))
        (∅, stream) ∧
      p.Before stream rest := by
  have hbefore := p.before_decode (hashItems ([] : List (κ.Value × ν.Value)) ++ rest)
  rw [foldl_append, ← serializeHash_eq] at hbefore
  obtain ⟨cnt, stream, hlength, hcounts, hbefore'⟩ := p.readArrayLength_eq _ _ _ hbefore
  obtain ⟨cnt', stream', hnext, hrest⟩ := p.checkArrayNext_end _ _ _ hbefore' hcounts
  refine ⟨stream', .of_succ_ok fun fuel => ?_, hrest⟩
  simp only [unserializeHash, hlength, Outcome.ok_bind, unserializeNodes, hnext,
    Bool.false_eq_true, if_false]

end SerializePair

/-! ### Round trips -/

open SerializePair

/-- The nodes of a hash, in the order of its iteration. -/
structure HashNodes (κ ν : ScalarType) where
  nodes : List (κ.Value × ν.Value)
  nodup : (nodes.map Prod.fst).Nodup

/-- The hash with these nodes. -/
def HashNodes.toHash {κ ν : ScalarType} (h : HashNodes κ ν) : THash κ.Value ν.Value :=
  (h.nodes.map fun node => (⟨node.1, node.2⟩ : Sigma fun _ : κ.Value => ν.Value)).toFinmap

/-- What was written of an array is read into an empty one, and no more, through any pair. -/
def ArrayRoundTrips {ν : ScalarType} (array : List ν.Value) : Prop :=
  ∀ {σ δ ε : Type} (p : SerializePair σ δ ε) (rest : List SerializeItem),
    ∃ stream, Outcome.Returns (p.unserializeArray []
        (p.decode (rest.foldl p.write (p.serializeArray array p.empty)))) (array, stream) ∧
      p.Before stream rest

/-- What was written of a hash is read into an empty one, and no more, through any pair. -/
def HashRoundTrips {κ ν : ScalarType} (h : HashNodes κ ν) : Prop :=
  ∀ {σ δ ε : Type} (p : SerializePair σ δ ε) (k : κ.Value) (rest : List SerializeItem),
    ∃ stream, Outcome.Returns (p.unserializeHash k ∅
        (p.decode (rest.foldl p.write (p.serializeHash h.nodes p.empty)))) (h.toHash, stream) ∧
      p.Before stream rest

/-- A pair that keeps the items themselves, and refuses what was not written. -/
def itemPair : SerializePair (List SerializeItem) (List SerializeItem) Unit where
  empty := []
  write items item := items ++ [item]
  decode items := items
  readValue
    | type, .value type' x :: rest => if h : type' = type then .ok (h ▸ x, rest) else .raise ()
    | _, _ => .raise ()
  readArrayLength
    | .arrayLength n :: rest => .ok (n, rest)
    | _ => .raise ()
  checkArrayNext
    | cnt, .arrayEnd :: rest => .ok (false, cnt, rest)
    | cnt, items => .ok (true, cnt, items)
  readStructLength
    | .structLength n :: rest => .ok (n, rest)
    | _ => .raise ()
  checkStructNext
    | cnt, .structEnd :: rest => .ok (false, cnt, rest)
    | cnt, items => .ok (true, cnt, items)
  readMemberName
    | .memberName name :: rest => .ok (name, rest)
    | _ => .raise ()
  Before d items := d = items
  Counts _ _ := True
  before_decode := by
    intro items
    induction items using List.reverseRecOn with
    | nil => rfl
    | append_singleton items item ih => rw [List.foldl_append, ih]; rfl
  readValue_eq := by
    rintro _ type x rest rfl
    exact ⟨rest, by simp, rfl⟩
  readArrayLength_eq := by
    rintro _ n rest rfl
    exact ⟨n, rest, rfl, trivial, rfl⟩
  checkArrayNext_next := by
    rintro _ cnt n item rest rfl hitem _
    refine ⟨cnt, item :: rest, ?_, trivial, rfl⟩
    cases item with
    | arrayEnd => exact absurd rfl hitem
    | value type x => rfl
    | arrayLength n => rfl
    | structLength n => rfl
    | memberName name => rfl
    | structEnd => rfl
  checkArrayNext_end := by
    rintro _ cnt rest rfl _
    exact ⟨cnt, rest, rfl, rfl⟩
  readStructLength_eq := by
    rintro _ n rest rfl
    exact ⟨n, rest, rfl, trivial, rfl⟩
  checkStructNext_next := by
    rintro _ cnt n name rest rfl _
    exact ⟨cnt, _, rfl, trivial, rfl⟩
  checkStructNext_end := by
    rintro _ cnt rest rfl _
    exact ⟨cnt, rest, rfl, rfl⟩
  readMemberName_eq := by
    rintro _ name rest rfl
    exact ⟨rest, rfl, rfl⟩

theorem foldl_itemPair (items written : List SerializeItem) :
    items.foldl itemPair.write written = written ++ items := by
  induction items generalizing written with
  | nil => exact (append_nil written).symm
  | cons item items ih => rw [foldl_cons, ih]; exact append_assoc written [item] items

/-- Where a value of a hash is to be read, `itemPair` has the start of a structure. -/
theorem unserializeHash_raise {κ ν : ScalarType} (k : κ.Value) (node : κ.Value × ν.Value)
    (nodes : List (κ.Value × ν.Value)) (fuel : Nat) :
    itemPair.unserializeHash k (∅ : THash κ.Value ν.Value)
      (itemPair.decode (itemPair.serializeHash (node :: nodes) itemPair.empty)) (fuel + 1) =
        .raise () := by
  have hitems : itemPair.decode (itemPair.serializeHash (node :: nodes) itemPair.empty) =
      hashItems (node :: nodes) := by
    rw [serializeHash_eq, foldl_itemPair]
    rfl
  rw [hitems]
  rfl

/-- Arrays and hashes survive their serialization exactly if they are empty. -/
theorem containers_roundTrip_iff {κ ν : ScalarType} (array : List ν.Value) (h : HashNodes κ ν) :
    (ArrayRoundTrips array ↔ array = []) ∧ (HashRoundTrips h ↔ h.nodes = []) := by
  constructor
  · constructor
    · intro h
      obtain ⟨stream, hreturns, -⟩ := h itemPair []
      obtain ⟨stream', hempty, -⟩ := itemPair.unserializeArray_returns [] array []
      exact congrArg Prod.fst (hreturns.unique hempty)
    · rintro rfl σ δ ε p rest
      exact p.unserializeArray_returns [] [] rest
  · obtain ⟨nodes, hnodup⟩ := h
    constructor
    · intro h
      cases nodes with
      | nil => rfl
      | cons node nodes =>
        obtain ⟨stream, ⟨least, hreturns⟩, -⟩ := h itemPair node.1 []
        have hraise := hreturns (least + 1) (Nat.le_succ least)
        rw [foldl_nil, unserializeHash_raise] at hraise
        cases hraise
    · rintro rfl σ δ ε p k rest
      exact p.unserializeHash_nil k rest

/-- An array with one number does not survive. -/
theorem not_arrayRoundTrips : ¬ @ArrayRoundTrips .sint32 [(5 : Int32)] := by
  intro h
  obtain ⟨stream, hreturns, -⟩ := h itemPair []
  obtain ⟨stream', hempty, -⟩ :=
    itemPair.unserializeArray_returns ([] : List (ScalarType.Value .sint32)) [(5 : Int32)] []
  have heq := congrArg Prod.fst (hreturns.unique hempty)
  cases heq

end Drt
