import Drt.Core.Base.Exception
import Drt.Lib.Comparison
import Drt.Lib.Fuel
import Drt.Lib.Heap

/-!
# The AVL container

`Avl_c`: a binary tree whose nodes know their parent and the side on which they hang from it. The
three pointers of a node are an array, so that code for one side is code for the other one with
the opposite sign. Where the code reads a field more than once without a write to it in between,
it is read once.
-/

namespace Drt

/-- `TAvlNode`: the fields of `Avl_c::Node_c`, the key and the value. -/
structure AvlNode (K V : Type) where
  /-- `refs[0]`. -/
  lchild : Option Addr
  /-- `refs[1]`. -/
  parent : Option Addr
  /-- `refs[2]`. -/
  rchild : Option Addr
  /-- `-1` left heavier, `0` balanced, `1` right heavier. -/
  balance : Int
  /-- The direction relative to the parent; the root has `0`. -/
  direction : Int
  k : K
  v : V

/-- The fields of `Avl_c`, and the nodes that are allocated. -/
structure Avl (K V : Type) where
  root : Option Addr
  lowest : Option Addr
  /-- A `size_t`, that is never less than the number of addresses. -/
  item_count : Nat
  nodes : Heap (AvlNode K V)

/-- `i >= 0 ? i > 0 : -1`. -/
def cmpSign (i : Int) : Int := if i ≥ 0 then (if i > 0 then 1 else 0) else -1

/-- What the template parameters decide for the container. -/
structure AvlEnv (K V : Type) where
  /-- `Compar::kcmp`. -/
  kcmp : K → K → Int
  /-- `alloc2` takes the memory of a node from here. -/
  alloc : Allocator (AvlNode K V)
  /-- What a new node holds where its balance and its direction belong. -/
  uninit : Int
  /-- The signs of the results order the keys. -/
  comparison : Comparison.IsComparisonOn (fun k l => cmpSign (kcmp k l)) Set.univ

namespace AvlEnv

variable {K V : Type}

def node_cmp (env : AvlEnv K V) (node : AvlNode K V) (key : K) : Int :=
  cmpSign (env.kcmp node.k key)

end AvlEnv

namespace AvlNode

variable {K V : Type}

/-- `refs[i]`. -/
def ref (n : AvlNode K V) (i : Int) : Call (Option Addr) :=
  if i = 0 then .ok n.lchild
  else if i = 1 then .ok n.parent
  else if i = 2 then .ok n.rchild
  else .fault

/-- `refs[i] = c`. -/
def setRef (n : AvlNode K V) (i : Int) (c : Option Addr) : Call (AvlNode K V) :=
  if i = 0 then .ok { n with lchild := c }
  else if i = 1 then .ok { n with parent := c }
  else if i = 2 then .ok { n with rchild := c }
  else .fault

end AvlNode

/-- A `Node_c **`: the pointer to the root, or an element of the array of a node. -/
inductive AvlSlot where
  | root
  | ref (a : Addr) (i : Int)
  deriving DecidableEq

namespace Avl

variable {K V : Type}

/-- `Avl_c()`. -/
def new : Avl K V where
  root := none
  lowest := none
  item_count := 0
  nodes := .empty

/-- Write to a node. -/
def modify (s : Avl K V) (a : Addr) (f : AvlNode K V → Call (AvlNode K V)) : Call (Avl K V) := do
  let n ← s.nodes.load a
  let n ← f n
  .ok { s with nodes := s.nodes.put a n }

/-- `node_def`: `Node_c()` clears the pointers only. -/
def node_def (env : AvlEnv K V) (s : Avl K V) (key : K) (value : V) : Addr × Avl K V :=
  (env.alloc.addr s.nodes, { s with
    nodes := s.nodes.put (env.alloc.addr s.nodes)
      ⟨none, none, none, env.uninit, env.uninit, key, value⟩ })

def node_destroy (s : Avl K V) (node : Addr) : Call (Avl K V) := do
  let _ ← s.nodes.load node
  .ok { s with nodes := s.nodes.erase node }

/-- Read a `Node_c **`. -/
def loadSlot (s : Avl K V) : AvlSlot → Call (Option Addr)
  | .root => .ok s.root
  | .ref a i => do
    let n ← s.nodes.load a
    n.ref i

/-- Write a `Node_c **`. -/
def storeSlot (s : Avl K V) (cur : AvlSlot) (c : Option Addr) : Call (Avl K V) :=
  match cur with
  | .root => .ok { s with root := c }
  | .ref a i => s.modify a fun n => n.setRef i c

/-- `if (c != NULL) c->parent = a`. -/
def setParent (s : Avl K V) (c : Option Addr) (a : Addr) : Call (Avl K V) :=
  match c with
  | some c => s.modify c fun n => .ok { n with parent := some a }
  | none => .ok s

/-- `if ((a->refs[i] = c) != NULL) { c->parent = a; c->direction = direction; }`. -/
def hang (s : Avl K V) (a : Addr) (i : Int) (c : Option Addr) (direction : Int) :
    Call (Avl K V) := do
  let s ← s.modify a fun n => n.setRef i c
  match c with
  | some c => s.modify c fun n => .ok { n with parent := some a, direction := direction }
  | none => .ok s

/-- `if (parent != NULL) parent->refs[1+direction] = c; else root = c`. -/
def replaceChild (s : Avl K V) (parent : Option Addr) (direction : Int) (c : Addr) :
    Call (Avl K V) :=
  match parent with
  | some parent => s.modify parent fun n => n.setRef (1 + direction) (some c)
  | none => .ok { s with root := some c }

/-- The loop of `find_g`. -/
def findFrom (env : AvlEnv K V) (s : Avl K V) (key : K) : Nat → Option Addr → Call (Option Addr)
  | 0, _ => .outOfFuel
  | _ + 1, none => .ok none
  | fuel + 1, some cur => do
    let n ← s.nodes.load cur
    let c := -env.node_cmp n key
    if c = 0 then .ok (some cur)
    else
      let cur ← n.ref (1 + c)
      findFrom env s key fuel cur

def find_g (env : AvlEnv K V) (fuel : Nat) (s : Avl K V) (key : K) : Call (Option Addr) :=
  findFrom env s key fuel s.root

/-- The single rotation that brings `added` up over `parent`. In `rebalanceRemoved_g`, where they
are `other` and `node`, the writes come in another order. -/
def rotateSingle (s : Avl K V) (parent added : Addr) (direction parent_balance balance : Int) :
    Call (Avl K V) := do
  let a ← s.nodes.load added
  let inner ← a.ref (1 - direction)
  let s ← s.hang parent (1 + direction) inner direction
  let p ← s.nodes.load parent
  let s ← s.modify parent fun n => .ok { n with direction := -direction, balance := parent_balance }
  let s ← s.modify added fun n =>
    .ok { n with balance := balance, direction := p.direction, parent := p.parent }
  let s ← s.replaceChild p.parent p.direction added
  let s ← s.modify added fun n => n.setRef (1 - direction) (some parent)
  s.modify parent fun n => .ok { n with parent := some added }

/-- The double rotation that brings `child` up over `parent` and `added`. In `rebalanceRemoved_g`,
where they are `node` and `other`, the last writes come in another order. -/
def rotateDouble (s : Avl K V) (parent added child : Addr) (direction inner : Int) :
    Call (Avl K V) := do
  let c ← s.nodes.load child
  let near ← c.ref (1 - direction)
  let s ← s.hang parent (1 + direction) near direction
  let s ← s.modify parent fun n =>
    .ok { n with balance := if c.balance = direction then -direction else 0 }
  let far ← c.ref (1 + direction)
  let s ← s.hang added (1 - direction) far (-direction)
  let s ← s.modify added fun n =>
    .ok { n with balance := if c.balance = inner then direction else 0 }
  let p ← s.nodes.load parent
  let s ← s.modify child fun n => .ok { n with direction := p.direction, parent := p.parent }
  let s ← s.replaceChild p.parent p.direction child
  let s ← s.modify parent fun n => .ok { n with parent := some child, direction := -direction }
  let s ← s.modify added fun n => .ok { n with parent := some child }
  let s ← s.modify child fun n => .ok { n with balance := 0 }
  let s ← s.modify child fun n => n.setRef (1 - direction) (some parent)
  s.modify child fun n => n.setRef (1 + direction) (some added)

/-- `rebalanceAdded_g` from `next`. -/
def rebalanceAddedFrom : Nat → Addr → Addr → Avl K V → Call (Avl K V)
  | 0, _, _, _ => .outOfFuel
  | fuel + 1, parent, added, s => do
    let p ← s.nodes.load parent
    let a ← s.nodes.load added
    if p.balance = 0 then
      let s ← s.modify parent fun n => .ok { n with balance := a.direction }
      match p.parent with
      | some grandparent => rebalanceAddedFrom fuel grandparent parent s
      | none => .ok s
    else if p.balance ≠ a.direction then s.modify parent fun n => .ok { n with balance := 0 }
    else if p.balance ≠ a.balance then
      let child ← a.ref (1 - a.direction)
      let child ← .ofOption child
      let c ← s.nodes.load child
      s.rotateDouble parent added child a.direction c.direction
    else s.rotateSingle parent added a.direction 0 0

def rebalanceAdded_g (fuel : Nat) (s : Avl K V) (added : Addr) : Call (Avl K V) := do
  let a ← s.nodes.load added
  let parent ← .ofOption a.parent
  rebalanceAddedFrom fuel parent added s

/-- The loop at the beginning of `create_g`, `ncreate_g` and `replace_g`: where the key is, or
belongs, and `last_step`. -/
def seekFrom (env : AvlEnv K V) (s : Avl K V) (key : K) :
    Nat → AvlSlot → Int → Call (AvlSlot × Int)
  | 0, _, _ => .outOfFuel
  | fuel + 1, cur, last_step => do
    match ← s.loadSlot cur with
    | none => .ok (cur, last_step)
    | some a =>
      let n ← s.nodes.load a
      let last_step := -env.node_cmp n key
      if last_step = 0 then .ok (cur, last_step)
      else seekFrom env s key fuel (.ref a (1 + last_step)) last_step

/-- What follows in the three functions when the key is not there. Up to the rebalancing `*cur` is
the new node; its parent is computed as the node that the element `*cur` belongs to. -/
def insertAt (env : AvlEnv K V) (fuel : Nat) (s : Avl K V) (cur : AvlSlot) (last_step : Int)
    (key : K) (value : V) : Call (Avl K V) := do
  let (r, s) := s.node_def env key value
  let s ← s.storeSlot cur (some r)
  let s := { s with item_count := s.item_count + 1 }
  let s ← s.modify r fun n => .ok { n with balance := 0, direction := last_step }
  if last_step = 0 then
    let s ← s.modify r fun n => .ok { n with parent := none }
    .ok { s with lowest := some r }
  else
    match cur with
    | .root => .fault
    | .ref parent _ =>
      let s ← s.modify r fun n => .ok { n with parent := some parent }
      let s := if some parent = s.lowest ∧ last_step < 0 then { s with lowest := some r } else s
      s.rebalanceAdded_g fuel r

def create_g (env : AvlEnv K V) (fuel : Nat) (s : Avl K V) (key : K) (value : V) :
    Call (Bool × Avl K V) := do
  let (cur, last_step) ← seekFrom env s key fuel .root 0
  match ← s.loadSlot cur with
  | some _ => .ok (false, s)
  | none =>
    let s ← s.insertAt env fuel cur last_step key value
    .ok (true, s)

def ncreate_g (env : AvlEnv K V) (fuel : Nat) (s : Avl K V) (key : K) (value : V) :
    Call (Option Addr × Avl K V) := do
  let (cur, last_step) ← seekFrom env s key fuel .root 0
  match ← s.loadSlot cur with
  | some a => .ok (some a, s)
  | none =>
    let s ← s.insertAt env fuel cur last_step key value
    let r ← s.loadSlot cur
    .ok (r, s)

/-- `accCreating`: the node whose value is returned. -/
def accCreating (env : AvlEnv K V) (fuel : Nat) (s : Avl K V) (key : K) (dummy : V) :
    Call (Addr × Avl K V) := do
  let (r, s) ← s.ncreate_g env fuel key dummy
  let a ← .ofOption r
  .ok (a, s)

def replace_g (env : AvlEnv K V) (fuel : Nat) (s : Avl K V) (key : K) (value : V) :
    Call (Bool × Avl K V) := do
  let (cur, last_step) ← seekFrom env s key fuel .root 0
  match ← s.loadSlot cur with
  | some a =>
    let s ← s.modify a fun n => .ok { n with v := value }
    .ok (false, s)
  | none =>
    let s ← s.insertAt env fuel cur last_step key value
    .ok (true, s)

def rebalanceRemoved_g : Nat → Addr → Int → Avl K V → Call (Avl K V)
  | 0, _, _, _ => .outOfFuel
  | fuel + 1, node, direction, s => do
    let n ← s.nodes.load node
    if n.balance = 0 then s.modify node fun n => .ok { n with balance := n.balance - direction }
    else if n.balance = direction then
      let s ← s.modify node fun n => .ok { n with balance := 0 }
      match n.parent with
      | some parent => rebalanceRemoved_g fuel parent n.direction s
      | none => .ok s
    else
      let other ← n.ref (1 - direction)
      let other ← .ofOption other
      let o ← s.nodes.load other
      if o.balance = direction then
        let child ← o.ref (1 + direction)
        let child ← .ofOption child
        let s ← s.rotateDouble node other child (-direction) direction
        let c ← s.nodes.load child
        match c.parent with
        | some parent => rebalanceRemoved_g fuel parent c.direction s
        | none => .ok s
      else
        let s ← s.rotateSingle node other (-direction)
          (if o.balance = -direction then 0 else -direction) (o.balance + direction)
        let decreased := o.balance = -direction
        match n.parent with
        | some parent =>
          if decreased then rebalanceRemoved_g fuel parent n.direction s else .ok s
        | none => .ok s

/-- `for (; c->refs[i] != NULL; c = c->refs[i])`. -/
def descend (s : Avl K V) (i : Int) : Nat → Addr → Call Addr
  | 0, _ => .outOfFuel
  | fuel + 1, c => do
    let n ← s.nodes.load c
    match ← n.ref i with
    | some c => descend s i fuel c
    | none => .ok c

/-- `if ((repl->refs[i] = node->refs[i]) != NULL) repl->refs[i]->parent = repl`. -/
def takeOver (s : Avl K V) (repl node : Addr) (i : Int) : Call (Avl K V) := do
  let n ← s.nodes.load node
  let c ← n.ref i
  let s ← s.modify repl fun r => r.setRef i c
  s.setParent c repl

/-- The end of `remove_g`: `repl` comes in the place of `node`. -/
def replaceNode (fuel : Nat) (s : Avl K V) (node repl parent : Addr) (dir : Int) :
    Call (Avl K V) := do
  let n ← s.nodes.load node
  let s ← s.modify repl fun r =>
    .ok { r with balance := n.balance, direction := n.direction, parent := n.parent }
  let s ← s.replaceChild n.parent n.direction repl
  let s ← rebalanceRemoved_g fuel parent dir s
  s.node_destroy node

/-- `remove_g` behind the search for another lowest node. -/
def removeNode (fuel : Nat) (s : Avl K V) (node : Addr) : Call (Avl K V) := do
  let n ← s.nodes.load node
  if n.balance = 0 ∧ n.lchild = none then
    let parent ← .ofOption n.parent
    let s ← s.modify parent fun p => p.setRef (1 + n.direction) none
    let s ← rebalanceRemoved_g fuel parent n.direction s
    s.node_destroy node
  else
    let dir := if n.balance = 0 then 1 else n.balance
    let top ← n.ref (1 + dir)
    let top ← .ofOption top
    let repl ← s.descend (1 - dir) fuel top
    let r ← s.nodes.load repl
    let parent ← .ofOption r.parent
    if parent = node then
      let s ← s.takeOver repl node (1 - dir)
      s.replaceNode fuel node repl repl dir
    else
      let inner ← r.ref (1 + dir)
      let s ← s.hang parent (1 - dir) inner (-dir)
      let s ← s.takeOver repl node (1 - dir)
      let s ← s.takeOver repl node (1 + dir)
      s.replaceNode fuel node repl parent (-dir)

/-- `remove_g` from the node that was found. -/
def removeFound (fuel : Nat) (s : Avl K V) (node : Addr) : Call (Avl K V) := do
  let s := { s with item_count := s.item_count - 1 }
  let n ← s.nodes.load node
  if some node = s.lowest then
    let s := { s with lowest := n.rchild.or n.parent }
    if s.lowest = none then
      let s := { s with root := none }
      s.node_destroy node
    else s.removeNode fuel node
  else s.removeNode fuel node

def remove_g (env : AvlEnv K V) (fuel : Nat) (s : Avl K V) (key : K) : Call (Bool × Avl K V) := do
  match ← s.find_g env fuel key with
  | none => .ok (false, s)
  | some node =>
    let s ← s.removeFound fuel node
    .ok (true, s)

def destroyRecursive_g : Nat → Addr → Avl K V → Call (Avl K V)
  | 0, _, _ => .outOfFuel
  | fuel + 1, node, s => do
    let n ← s.nodes.load node
    let s ← (match n.lchild with
      | some l => destroyRecursive_g fuel l s
      | none => .ok s)
    let s ← (match n.rchild with
      | some r => destroyRecursive_g fuel r s
      | none => .ok s)
    s.node_destroy node

def clean_g (fuel : Nat) (s : Avl K V) : Call (Avl K V) :=
  match s.root with
  | some root => do
    let s ← destroyRecursive_g fuel root s
    .ok { s with root := none, lowest := none, item_count := 0 }
  | none => .ok s

/-- `runOne_g`: the nodes for which the callback is called. The pointer is followed whether or not
it is NULL. -/
def runOne_g (s : Avl K V) : Nat → Option Addr → Call (List Addr)
  | 0, _ => .outOfFuel
  | _ + 1, none => .fault
  | fuel + 1, some n => do
    let x ← s.nodes.load n
    let left ← (match x.lchild with
      | some l => runOne_g s fuel (some l)
      | none => .ok [])
    let right ← (match x.parent with
      | some _ => runOne_g s fuel x.rchild
      | none => .ok [])
    .ok (left ++ n :: right)

def run_g (fuel : Nat) (s : Avl K V) : Call (List Addr) :=
  match s.root with
  | some root => s.runOne_g fuel (some root)
  | none => .ok []

def iterFirst_g (s : Avl K V) : Option Addr := s.lowest

/-- The last loop of `iterNext_g`. -/
def climbFrom (s : Avl K V) : Nat → Option Addr → Call (Option Addr)
  | 0, _ => .outOfFuel
  | _ + 1, none => .ok none
  | fuel + 1, some c => do
    let n ← s.nodes.load c
    if n.direction < 0 then .ok n.parent else climbFrom s fuel n.parent

def iterNext_g (fuel : Nat) (s : Avl K V) (c : Addr) : Call (Option Addr) := do
  let n ← s.nodes.load c
  match n.rchild with
  | some r =>
    let c ← s.descend 0 fuel r
    .ok (some c)
  | none => if n.direction < 0 then .ok n.parent else s.climbFrom fuel n.parent

/-- `for (c = iterFirst_g(); c; c = iterNext_g(c))` from `c`: the nodes it visits. -/
def iterateFrom (s : Avl K V) : Nat → Option Addr → Call (List Addr)
  | 0, _ => .outOfFuel
  | _ + 1, none => .ok []
  | fuel + 1, some c => do
    let next ← s.iterNext_g fuel c
    let rest ← iterateFrom s fuel next
    .ok (c :: rest)

/-- The nodes that an iteration visits, in its order. -/
def iterate (fuel : Nat) (s : Avl K V) : Call (List Addr) := s.iterateFrom fuel s.iterFirst_g

end Avl

end Drt
