import Drt.Core.Base.Exception
import Drt.Lib.Buckets
import Drt.Lib.Fuel
import Drt.Lib.Heap

/-!
# The hash container

`Hash_c`: an array of `hashmask + 1` slots, each heading a chain of nodes. A pointer
to a node is its address, a pointer to a pointer is a link, and a `long` index is
the bit pattern of its offset, so that a negative one is beyond every array. The
bound on loop passes is handed to every loop of a call.
-/

namespace Drt

/-- `THashNode`: the fields of `Hash_c::Node_c`, the key and the value. -/
structure HashNode (K V : Type) where
  hash : BitVec 64
  next : Option Addr
  k : K
  v : V

/-- The fields of `Hash_c`, and the nodes that are allocated. -/
structure Hash (K V : Type) where
  /-- An `ssize_t`. -/
  hashmask : Int
  /-- The array of slots; absent when the pointer is NULL. -/
  list : Option (List (Option Addr))
  item_count : UInt32
  nodes : Heap (HashNode K V)

/-- What the template parameters decide for the container. -/
structure HashEnv (K V : Type) where
  /-- `Compar::khash`. -/
  khash : K → BitVec 64
  /-- The value in a node made by `node_undef`. -/
  undef : V
  /-- `allocK` takes the memory of a node from here. -/
  alloc : Allocator (HashNode K V)
  /-- `reallocList`: the array in its new size. -/
  reallocList : List (Option Addr) → Nat → List (Option Addr)
  /-- The new size is as asked for. -/
  length_reallocList : ∀ list size, (reallocList list size).length = size
  /-- The old slots are kept; the others hold anything. -/
  getElem?_reallocList : ∀ list size i, i < list.length → i < size →
    (reallocList list size)[i]? = list[i]?

namespace Hash

variable {K V : Type}

/-- `Hash_c()`. -/
def new : Hash K V where
  hashmask := -1
  list := none
  item_count := 0
  nodes := .empty

/-- The offset `hash & hashmask`. -/
def bucket (h : Hash K V) (hash : BitVec 64) : Nat :=
  (hash &&& BitVec.ofInt 64 h.hashmask).toNat

/-- Read what a `Node_c **` points to. -/
def load (h : Hash K V) : Link Nat Addr → Call (Option Addr)
  | .slot i =>
    match h.list with
    | none => .fault
    | some list => .ofOption list[i]?
  | .next a => do
    let n ← h.nodes.load a
    .ok n.next

/-- Write what a `Node_c **` points to. -/
def store (h : Hash K V) : Link Nat Addr → Option Addr → Call (Hash K V)
  | .slot i, v =>
    match h.list with
    | none => .fault
    | some list => if i < list.length then .ok { h with list := some (list.set i v) } else .fault
  | .next a, v => do
    let n ← h.nodes.load a
    .ok { h with nodes := h.nodes.put a { n with next := v } }

/-- The loop of `find_g` from a node of the chain. -/
def findFrom [DecidableEq K] (h : Hash K V) (hash_value : BitVec 64) (key : K) :
    Nat → Option Addr → Call (Option Addr)
  | 0, _ => .outOfFuel
  | _ + 1, none => .ok none
  | fuel + 1, some r => do
    let n ← h.nodes.load r
    if n.hash ≠ hash_value then findFrom h hash_value key fuel n.next
    else if n.k ≠ key then findFrom h hash_value key fuel n.next
    else .ok (some r)

def find_g [DecidableEq K] (fuel : Nat) (h : Hash K V) (hash_value : BitVec 64) (key : K) :
    Call (Option Addr) :=
  match h.list with
  | none => .ok none
  | some _ => do
    let r ← h.load (.slot (h.bucket hash_value))
    findFrom h hash_value key fuel r

/-- `for (; i <= (unsigned)hashmask; i++) list[i] = NULL` with an `unsigned i`. -/
def clearFrom (last : UInt32) : Nat → UInt32 → Hash K V → Call (Hash K V)
  | 0, _, _ => .outOfFuel
  | fuel + 1, i, h =>
    if i ≤ last then do
      let h ← h.store (.slot i.toNat) none
      clearFrom last fuel (i + 1) h
    else .ok h

/-- The inner loop of the rehash moves a node: out of its chain by the link `p`, and to the
front of its own bucket. -/
def moveNode (h : Hash K V) (p : Link Nat Addr) (r : Addr) : Call (Hash K V) := do
  let n ← h.nodes.load r
  let h ← h.store p n.next
  let first ← h.load (.slot (h.bucket n.hash))
  let h ← h.store (.next r) first
  h.store (.slot (h.bucket n.hash)) (some r)

/-- The inner loop of the rehash: nodes that do not belong in bucket `i` are moved. -/
def rehashBucket (i : UInt32) : Nat → Link Nat Addr → Hash K V → Call (Hash K V)
  | 0, _, _ => .outOfFuel
  | fuel + 1, p, h => do
    match ← h.load p with
    | none => .ok h
    | some r =>
      let n ← h.nodes.load r
      if UInt32.ofNat (h.bucket n.hash) ≠ i then
        let h ← h.moveNode p r
        rehashBucket i fuel p h
      else rehashBucket i fuel (.next r) h

/-- The outer loop of the rehash, over the `olim` buckets there were. -/
def rehashFrom (olim : UInt32) : Nat → UInt32 → Hash K V → Call (Hash K V)
  | 0, _, _ => .outOfFuel
  | fuel + 1, i, h =>
    if i < olim then do
      let h ← rehashBucket i fuel (.slot i.toNat) h
      rehashFrom olim fuel (i + 1) h
    else .ok h

/-- `list` and `hashmask` after the `reallocList` of a growth. -/
def widen (env : HashEnv K V) (h : Hash K V) : Hash K V :=
  match h.list with
  | some list =>
    { h with
      list := some (env.reallocList list ((h.hashmask + 1) * 2).toNat)
      hashmask := 2 * h.hashmask + 1 }
  | none => { h with list := some (env.reallocList [] 4), hashmask := 3 }

/-- The growth in `create_g` and `addNewNode_g`. -/
def grow (env : HashEnv K V) (fuel : Nat) (h : Hash K V) : Call (Hash K V) := do
  let olim := UInt32.ofInt (h.hashmask + 1)
  let h := h.widen env
  let h ← clearFrom (.ofInt h.hashmask) fuel olim h
  rehashFrom olim fuel 0 h

/-- `(int)item_count >= hashmask-hashmask/4`. -/
def full (h : Hash K V) : Prop :=
  h.item_count.toInt32.toInt ≥ h.hashmask - h.hashmask.tdiv 4

instance (h : Hash K V) : Decidable h.full := inferInstanceAs (Decidable (_ ≥ _))

/-- What `create_g` and `addNewNode_g` do before they link a node: grow, or have an array. -/
def reserve (env : HashEnv K V) (fuel : Nat) (h : Hash K V) : Call (Hash K V) :=
  if h.full then h.grow env fuel
  else if h.list.isSome then .ok h else .fault

/-- The end of `create_g`: `node_undef` and the links of the new node. -/
def pushNew (env : HashEnv K V) (h : Hash K V) (hash_value : BitVec 64) (key : K) :
    Call (Addr × Hash K V) := do
  let r := env.alloc.addr h.nodes
  let first ← h.load (.slot (h.bucket hash_value))
  let h := { h with nodes := h.nodes.put r ⟨hash_value, first, key, env.undef⟩ }
  let h ← h.store (.slot (h.bucket hash_value)) (some r)
  .ok (r, { h with item_count := h.item_count + 1 })

/-- `create_g`: the node, and what is stored through `created`. -/
def create_g [DecidableEq K] (env : HashEnv K V) (fuel : Nat) (h : Hash K V)
    (hash_value : BitVec 64) (key : K) : Call ((Addr × Bool) × Hash K V) := do
  match ← h.find_g fuel hash_value key with
  | some r => .ok ((r, false), h)
  | none =>
    let h ← h.reserve env fuel
    let (r, h) ← h.pushNew env hash_value key
    .ok ((r, true), h)

/-- `item_count--; node_destroy(r)`. -/
def destroyNode (h : Hash K V) (r : Addr) : Hash K V :=
  { h with item_count := h.item_count - 1, nodes := h.nodes.erase r }

/-- The loop of `remove_g` from the link `s`. -/
def removeFrom [DecidableEq K] (h : Hash K V) (hash_value : BitVec 64) (key : K) :
    Nat → Link Nat Addr → Call (Bool × Hash K V)
  | 0, _ => .outOfFuel
  | fuel + 1, s => do
    match ← h.load s with
    | none => .ok (false, h)
    | some r =>
      let n ← h.nodes.load r
      if n.hash ≠ hash_value then removeFrom h hash_value key fuel (.next r)
      else if n.k ≠ key then removeFrom h hash_value key fuel (.next r)
      else
        let h ← h.store s n.next
        .ok (true, h.destroyNode r)

def remove_g [DecidableEq K] (fuel : Nat) (h : Hash K V) (hash_value : BitVec 64) (key : K) :
    Call (Bool × Hash K V) :=
  match h.list with
  | none => .ok (false, h)
  | some _ => removeFrom h hash_value key fuel (.slot (h.bucket hash_value))

/-- The inner loop of `clean_g`: destroy the nodes from `r`. -/
def cleanChain : Nat → Option Addr → Hash K V → Call (Hash K V)
  | 0, _, _ => .outOfFuel
  | _ + 1, none, h => .ok h
  | fuel + 1, some r, h => do
    let n ← h.nodes.load r
    cleanChain fuel n.next (h.destroyNode r)

/-- The outer loop of `clean_g`. -/
def cleanFrom : Nat → Nat → Hash K V → Call (Hash K V)
  | 0, _, _ => .outOfFuel
  | fuel + 1, i, h =>
    if (i : Int) ≤ h.hashmask then do
      let r ← h.load (.slot i)
      let h ← cleanChain fuel r h
      let h ← h.store (.slot i) none
      cleanFrom fuel (i + 1) h
    else .ok h

def clean_g (fuel : Nat) (h : Hash K V) : Call (Hash K V) :=
  match h.list with
  | none => .ok h
  | some _ => cleanFrom fuel 0 h

/-- `for (; i <= hashmask; i++)` in the iteration: the first node from bucket `i` on. -/
def firstFrom (h : Hash K V) : Nat → Nat → Call (Option Addr)
  | 0, _ => .outOfFuel
  | fuel + 1, i =>
    if (i : Int) ≤ h.hashmask then do
      match ← h.load (.slot i) with
      | some r => .ok (some r)
      | none => firstFrom h fuel (i + 1)
    else .ok none

def iterFirst_g (fuel : Nat) (h : Hash K V) : Call (Option Addr) := h.firstFrom fuel 0

def iterNext_g (fuel : Nat) (h : Hash K V) (c : Addr) : Call (Option Addr) := do
  let n ← h.nodes.load c
  match n.next with
  | some r => .ok (some r)
  | none => h.firstFrom fuel (h.bucket n.hash + 1)

/-- `for (c = iterFirst_g(); c; c = iterNext_g(c))` from `c`: the nodes it visits. -/
def iterateFrom (h : Hash K V) : Nat → Option Addr → Call (List Addr)
  | 0, _ => .outOfFuel
  | _ + 1, none => .ok []
  | fuel + 1, some c => do
    let next ← h.iterNext_g fuel c
    let rest ← iterateFrom h fuel next
    .ok (c :: rest)

/-- The nodes that an iteration visits, in its order. -/
def iterate (fuel : Nat) (h : Hash K V) : Call (List Addr) := do
  let first ← h.iterFirst_g fuel
  h.iterateFrom fuel first

end Hash

end Drt
