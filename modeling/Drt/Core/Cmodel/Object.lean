import Drt.Core.Types.DrString
import Mathlib.Data.List.FinRange

/-!
# Interface tables

A class has a table of the interfaces it offers: 32 lists of nodes, chosen by the hash of
the name. A node has the offset of the interface in the object, or a negative one and a
function that creates the interface. The table of a class is merged from those of its
parent and of its interfaces.
-/

namespace Drt

/-- The strings of a program: what the data of a `String` is, and the hash of a content. -/
structure StringStore where
  text : Nat → DrString
  getHash : DrString → Nat

/-- A node of an interface table. A negative offset comes with a function. -/
structure IfaceNode (Create : Type) where
  /-- The data of the name. -/
  name : Nat
  offs : Int
  create_func : Option Create
  callable : offs < 0 → create_func.isSome = true

/-- A node for an interface that is part of the object. -/
def IfaceNode.plain {Create : Type} (name : Nat) : IfaceNode Create :=
  ⟨name, 0, none, fun h => absurd h (Int.lt_irrefl 0)⟩

/-- A node for an interface that a function creates. -/
def IfaceNode.dynamic {Create : Type} (name : Nat) (offs : Int) (create_func : Create) :
    IfaceNode Create :=
  ⟨name, offs, some create_func, fun _ => rfl⟩

/-- The node for an interface of a part of the object. -/
def IfaceNode.shift {Create : Type} (node : IfaceNode Create) (offs : Nat) : IfaceNode Create :=
  ⟨node.name, offs + node.offs, node.create_func, fun h => node.callable (by omega)⟩

/-- `Static`: the name of a class and its table. -/
structure Static (Create : Type) where
  comp_name : Nat
  ifaces : Fin 32 → List (IfaceNode Create)

namespace Static

variable {Create : Type} (store : StringStore)

/-- The index of the list for a name. -/
def index (name : Nat) : Fin 32 :=
  ⟨store.getHash (store.text name) % 32, Nat.mod_lt _ (by decide)⟩

/-- `Static::create`, with all lists empty. -/
def create (cname : Nat) : Static Create := ⟨cname, fun _ => []⟩

def getCount (os : Static Create) : Nat :=
  (List.finRange 32).foldl (fun count i => count + (os.ifaces i).length) 0

/-- `addNode` at the place `node_mem` of the storage; it returns the next place. -/
def addNode (os : Static Create) (node_mem : Nat) (node : IfaceNode Create) :
    Static Create × Nat :=
  ({ os with
    ifaces := Function.update os.ifaces (index store node.name)
      (node :: os.ifaces (index store node.name)) }, node_mem + 1)

/-- The body of the loops of `merge`: a node is added unless there is one of its name. -/
def mergeNode (offs : Nat) (table : Static Create × Nat) (node : IfaceNode Create) :
    Static Create × Nat :=
  if (table.1.ifaces (index store node.name)).any
      (fun tnode => store.text tnode.name = store.text node.name) then table
  else addNode store table.1 table.2 (node.shift offs)

/-- The nodes of a table, list by list. -/
def nodes (os : Static Create) : List (IfaceNode Create) :=
  (List.finRange 32).flatMap os.ifaces

def merge (os : Static Create) (node_mem : Nat) (offs : Nat) (second : Static Create) :
    Static Create × Nat :=
  second.nodes.foldl (mergeNode store offs) (os, node_mem)

/-- The variable arguments of `createObjectStatic` and `createIfaceStatic`. -/
inductive Arg (Create : Type) where
  | pair (offs : Nat) (defs : Static Create)
  | dynamic (offs : Int) (negative : offs < 0) (if_name : Nat) (create_func : Create)

/-- The number of nodes that an argument may need. -/
def Arg.count : Arg Create → Nat
  | .pair _ defs => defs.getCount
  | .dynamic _ _ _ _ => 1

/-- What an argument adds to the table. -/
def addArg (table : Static Create × Nat) : Arg Create → Static Create × Nat
  | .pair offs defs => merge store table.1 table.2 offs defs
  | .dynamic offs _ if_name create_func =>
    addNode store table.1 table.2 (.dynamic if_name offs create_func)

/-- A table with the number of nodes allocated for it, and the number used. -/
structure Allocated (Create : Type) where
  os : Static Create
  count : Nat
  free_node : Nat

/-- `Iface::createIfaceStatic`. -/
def createIfaceStatic (iface_name : Nat) (args : List (Arg Create)) : Allocated Create :=
  let count := args.foldl (fun count arg => count + arg.count) 1
  let table := addNode store (create iface_name) 0 (.plain iface_name)
  let table := args.foldl (addArg store) table
  ⟨table.1, count, table.2⟩

/-- `Object::createObjectStatic`. -/
def createObjectStatic (cname : Nat) (parent : Static Create) (args : List (Arg Create)) :
    Allocated Create :=
  let count := args.foldl (fun count arg => count + arg.count) (1 + parent.getCount)
  let table := addNode store (create cname) 0 (.plain cname)
  let table := merge store table.1 table.2 0 parent
  let table := args.foldl (addArg store) table
  ⟨table.1, count, table.2⟩

/-- The search at the start of `getIface`: the data of the names are compared first, then
their contents. -/
def find (os : Static Create) (iface : Nat) : Option (IfaceNode Create) :=
  let list := os.ifaces (index store iface)
  (list.find? fun node => node.name = iface).or
    (list.find? fun node =>
      store.getHash (store.text node.name) = store.getHash (store.text iface) ∧
        store.text node.name = store.text iface)

end Static

/-! ### Asking an object for an interface

`getIface`, `getIfaceUnref` and `getCheckIface` search the table of the object's class and
differ in who owns the reference afterwards. A `CastException` takes over a reference to
the object it is about, and keeps it as long as it lives. -/

/-- The references to the objects, and those of them that a `CastException` has taken over. -/
structure RefCounts where
  refcnt : Nat → Int
  thrown : Nat → Int

namespace RefCounts

def ref (r : RefCounts) (obj : Nat) : RefCounts :=
  { r with refcnt := Function.update r.refcnt obj (r.refcnt obj + 1) }

def drop (r : RefCounts) (obj : Nat) : RefCounts :=
  { r with refcnt := Function.update r.refcnt obj (r.refcnt obj - 1) }

/-- `CastException::throwInstance`: the reference is lost. -/
def throwInstance (r : RefCounts) (obj : Nat) : RefCounts :=
  { r with thrown := Function.update r.thrown obj (r.thrown obj + 1) }

/-- The references in the hands of others than exceptions. -/
def owned (r : RefCounts) (obj : Nat) : Int := r.refcnt obj - r.thrown obj

@[simp] theorem owned_ref_self (r : RefCounts) (obj : Nat) :
    (r.ref obj).owned obj = r.owned obj + 1 := by
  simp only [owned, ref, Function.update_self]
  omega

@[simp] theorem owned_drop_self (r : RefCounts) (obj : Nat) :
    (r.drop obj).owned obj = r.owned obj - 1 := by
  simp only [owned, drop, Function.update_self]
  omega

@[simp] theorem owned_throwInstance_self (r : RefCounts) (obj : Nat) :
    (r.throwInstance obj).owned obj = r.owned obj - 1 := by
  simp only [owned, throwInstance, Function.update_self]
  omega

theorem owned_ref_throwInstance (r : RefCounts) (obj x : Nat) :
    ((r.ref obj).throwInstance obj).owned x = r.owned x := by
  by_cases hx : x = obj
  · subst hx
    simp
  · simp [owned, ref, throwInstance, Function.update_of_ne hx]

/-- The references to one object, after giving up one to another. -/
def dropped (x obj : Nat) : Int := if x = obj then 1 else 0

theorem owned_drop (r : RefCounts) (obj x : Nat) :
    (r.drop obj).owned x = r.owned x - dropped x obj := by
  unfold dropped
  by_cases hx : x = obj
  · subst hx
    simp
  · simp [owned, drop, hx]

theorem refcnt_drop (r : RefCounts) (obj x : Nat) :
    (r.drop obj).refcnt x = r.refcnt x - dropped x obj := by
  unfold dropped
  by_cases hx : x = obj
  · subst hx
    simp [drop]
  · simp [drop, hx]

end RefCounts

/-- How the function of a dynamic entry ends. -/
inductive Created where
  | iface (ret : Nat)
  | null
  | raised
  deriving DecidableEq, Repr

/-- The function of a dynamic entry, called with the object and the offset of the entry. -/
abbrev CreateFunc := Nat → Int → RefCounts → Created × RefCounts

/-- How a request for an interface ends: with a part of the object, with what the function of
the entry has created, with `NULL`, or with an exception. -/
inductive Request where
  | part (obj : Nat) (offs : Int)
  | created (ret : Nat)
  | null
  | raised
  deriving DecidableEq, Repr

/-- What is left of a request: a reference to a part of the object is the caller's. -/
def Request.gained (this : Nat) : Request → Nat → Int
  | .part _ _, x => if x = this then 1 else 0
  | _, _ => 0

namespace Object

section Requests

variable (store : StringStore) (os : Static CreateFunc) (destroyRaises : Nat → Bool)

/-- Whether `unref` raises: it gives up the last reference, and `destroy` fails. -/
def unrefRaises (r : RefCounts) (obj : Nat) : Bool := r.refcnt obj = 1 && destroyRaises obj

/-- The function of a node with a negative offset. -/
def createOf (node : IfaceNode CreateFunc) (h : node.offs < 0) : CreateFunc :=
  node.create_func.get (node.callable h)

def getIface (this iface : Nat) (r : RefCounts) : Request × RefCounts :=
  match Static.find store os iface with
  | none => (.raised, (r.ref this).throwInstance this)
  | some node =>
    if h : node.offs < 0 then
      match createOf node h this node.offs r with
      | (.iface ret, r) => (.created ret, r)
      | (.null, r) => (.raised, (r.ref this).throwInstance this)
      | (.raised, r) => (.raised, r)
    else (.part this node.offs, r.ref this)

/-- What `getIfaceUnref` and `getCheckIface` do after the function has returned an interface:
the inner and the outer handler give up references when `unref` raises. -/
def unrefCreated (this ret : Nat) (r : RefCounts) : Request × RefCounts :=
  if unrefRaises destroyRaises r this then (.raised, ((r.drop this).drop ret).drop this)
  else (.created ret, r.drop this)

def getIfaceUnref (this iface : Nat) (r : RefCounts) : Request × RefCounts :=
  match Static.find store os iface with
  | none => (.raised, r.throwInstance this)
  | some node =>
    if h : node.offs < 0 then
      match createOf node h this node.offs r with
      | (.iface ret, r) => unrefCreated destroyRaises this ret r
      | (.null, r) => (.raised, (r.throwInstance this).drop this)
      | (.raised, r) => (.raised, r.drop this)
    else (.part this node.offs, r)

def getCheckIface (this iface : Nat) (r : RefCounts) : Request × RefCounts :=
  match Static.find store os iface with
  | none => (.null, r)
  | some node =>
    if h : node.offs < 0 then
      match createOf node h this node.offs r with
      | (.iface ret, r) => unrefCreated destroyRaises this ret r
      | (.null, r) => (.null, r)
      | (.raised, r) => (.raised, r.drop this)
    else (.part this node.offs, r)

/-- What the function of the entry does, if the entry has one that is called. -/
def creation (this iface : Nat) (r : RefCounts) : Option (Created × RefCounts) :=
  match Static.find store os iface with
  | none => none
  | some node =>
    if h : node.offs < 0 then some (createOf node h this node.offs r) else none

/-- The references after the function of the entry, before anything else is done. -/
def afterCreation (this iface : Nat) (r : RefCounts) : RefCounts :=
  match creation store os this iface r with
  | none => r
  | some (_, r) => r

/-- `getIface` hands out one new reference and leaves the caller's own. -/
def HandsOut (this iface : Nat) (r : RefCounts) : Prop :=
  let answer := getIface store os this iface r
  ∀ x, answer.2.owned x =
    (afterCreation store os this iface r).owned x + answer.1.gained this x

/-- `getIfaceUnref` consumes one reference to the object, and may hand out a new one. -/
def ConsumesOne (this iface : Nat) (r : RefCounts) : Prop :=
  let answer := getIfaceUnref store os destroyRaises this iface r
  answer.2.owned this + 1 =
    (afterCreation store os this iface r).owned this + answer.1.gained this this

/-- `getCheckIface` leaves the reference counter of the object as it is. -/
def LeavesCount (this iface : Nat) (r : RefCounts) : Prop :=
  (getCheckIface store os destroyRaises this iface r).2.refcnt this = r.refcnt this

/-- Each of the three requests does with the references what its kind has to. -/
structure Balanced (this iface : Nat) (r : RefCounts) : Prop where
  handsOut : HandsOut store os this iface r
  consumesOne : ConsumesOne store os destroyRaises this iface r
  leavesCount : LeavesCount store os destroyRaises this iface r

/-- The entry is not dynamic, or its function raises, or returns an interface and the object can
be unreferenced after that. -/
def UnrefSafe (this iface : Nat) (r : RefCounts) : Prop :=
  match creation store os this iface r with
  | none => True
  | some (.iface _, r') => unrefRaises destroyRaises r' this = false
  | some (.null, _) => False
  | some (.raised, _) => True

/-- The references to the object that its own function has added are those that `getCheckIface`
gives up after it. -/
def CheckSafe (this iface : Nat) (r : RefCounts) : Prop :=
  match creation store os this iface r with
  | none => True
  | some (.iface ret, r') =>
    r'.refcnt this = r.refcnt this +
      if unrefRaises destroyRaises r' this then 2 + RefCounts.dropped this ret else 1
  | some (.null, r') => r'.refcnt this = r.refcnt this
  | some (.raised, r') => r'.refcnt this = r.refcnt this + 1

variable {store : StringStore} {os : Static CreateFunc} {destroyRaises : Nat → Bool}

end Requests

/-- A request sees that there is no entry, a part, or what the function of the entry does. -/
theorem creation_cases (store : StringStore) (os : Static CreateFunc) (this iface : Nat)
    (r : RefCounts) (P : Prop)
    (absent : Static.find store os iface = none → creation store os this iface r = none → P)
    (part : ∀ node, Static.find store os iface = some node → ¬ node.offs < 0 →
      creation store os this iface r = none → P)
    (dynamic : ∀ node (h : node.offs < 0) outcome r', Static.find store os iface = some node →
      createOf node h this node.offs r = (outcome, r') →
      creation store os this iface r = some (outcome, r') → P) : P := by
  cases hfind : Static.find store os iface with
  | none => exact absent hfind (by simp only [creation, hfind])
  | some node =>
    by_cases h : node.offs < 0
    · obtain ⟨outcome, r', hcreate⟩ : ∃ outcome r', createOf node h this node.offs r =
          (outcome, r') := ⟨_, _, rfl⟩
      exact dynamic node h outcome r' hfind hcreate (by
        simp only [creation, hfind, dif_pos h, hcreate])
    · exact part node hfind h (by simp only [creation, hfind, dif_neg h])

variable {store : StringStore} {os : Static CreateFunc} {destroyRaises : Nat → Bool}

/-- `getIface` always hands out one reference. -/
theorem handsOut (this iface : Nat) (r : RefCounts) : HandsOut store os this iface r := by
  refine creation_cases store os this iface r _ ?_ ?_ ?_
  · intro hfind hcreation x
    simp only [getIface, hfind, afterCreation, hcreation, Request.gained]
    rw [RefCounts.owned_ref_throwInstance, Int.add_zero]
  · intro node hfind h hcreation x
    simp only [getIface, hfind, dif_neg h, afterCreation, hcreation, Request.gained]
    by_cases hx : x = this
    · subst hx
      simp
    · simp [RefCounts.owned, RefCounts.ref, hx]
  · intro node h outcome r' hfind hcreate hcreation x
    cases outcome with
    | iface ret | raised =>
      simp [getIface, hfind, h, hcreate, afterCreation, hcreation, Request.gained]
    | null =>
      simp only [getIface, hfind, dif_pos h, hcreate, afterCreation, hcreation, Request.gained]
      rw [RefCounts.owned_ref_throwInstance, Int.add_zero]

/-- The references to the object after the function has returned an interface. -/
theorem owned_unrefCreated (this ret : Nat) (r : RefCounts) :
    (unrefCreated destroyRaises this ret r).2.owned this = r.owned this -
      if unrefRaises destroyRaises r this then 2 + RefCounts.dropped this ret else 1 := by
  unfold unrefCreated
  by_cases hraises : unrefRaises destroyRaises r this = true
  · simp only [hraises, if_true, RefCounts.owned_drop_self, RefCounts.owned_drop]
    omega
  · simp [hraises]

theorem refcnt_unrefCreated (this ret : Nat) (r : RefCounts) :
    (unrefCreated destroyRaises this ret r).2.refcnt this = r.refcnt this -
      if unrefRaises destroyRaises r this then 2 + RefCounts.dropped this ret else 1 := by
  unfold unrefCreated
  by_cases hraises : unrefRaises destroyRaises r this = true
  · simp only [hraises, if_true, RefCounts.refcnt_drop]
    simp only [RefCounts.dropped, if_true]
    omega
  · simp [hraises, RefCounts.refcnt_drop, RefCounts.dropped]

/-- Nothing of the object is handed out after the function has returned an interface. -/
theorem gained_unrefCreated (this ret : Nat) (r : RefCounts) :
    (unrefCreated destroyRaises this ret r).1.gained this this = 0 := by
  unfold unrefCreated
  split <;> rfl

theorem dropped_nonneg (x obj : Nat) : 0 ≤ RefCounts.dropped x obj := by
  unfold RefCounts.dropped
  split <;> omega

theorem consumesOne_iff (this iface : Nat) (r : RefCounts) :
    ConsumesOne store os destroyRaises this iface r ↔
      UnrefSafe store os destroyRaises this iface r := by
  refine creation_cases store os this iface r _ ?_ ?_ ?_
  · intro hfind hcreation
    simp [ConsumesOne, UnrefSafe, getIfaceUnref, hfind, afterCreation, hcreation, Request.gained]
  · intro node hfind h hcreation
    simp only [ConsumesOne, UnrefSafe, getIfaceUnref, hfind, dif_neg h, afterCreation, hcreation,
      Request.gained, if_true]
  · intro node h outcome r' hfind hcreate hcreation
    cases outcome with
    | iface ret =>
      simp only [ConsumesOne, UnrefSafe, getIfaceUnref, hfind, dif_pos h, hcreate, afterCreation,
        hcreation, owned_unrefCreated, gained_unrefCreated]
      have hdropped := dropped_nonneg this ret
      by_cases hraises : unrefRaises destroyRaises r' this = true
      · simp only [hraises, if_true, Bool.true_eq_false, iff_false]
        omega
      · simp [hraises]
    | null =>
      simp only [ConsumesOne, UnrefSafe, getIfaceUnref, hfind, dif_pos h, hcreate, afterCreation,
        hcreation, Request.gained, RefCounts.owned_drop_self, RefCounts.owned_throwInstance_self,
        iff_false]
      omega
    | raised =>
      simp [ConsumesOne, UnrefSafe, getIfaceUnref, hfind, h, hcreate, afterCreation, hcreation,
        Request.gained]

theorem leavesCount_iff (this iface : Nat) (r : RefCounts) :
    LeavesCount store os destroyRaises this iface r ↔
      CheckSafe store os destroyRaises this iface r := by
  refine creation_cases store os this iface r _ ?_ ?_ ?_
  · intro hfind hcreation
    simp only [LeavesCount, CheckSafe, getCheckIface, hfind, hcreation]
  · intro node hfind h hcreation
    simp only [LeavesCount, CheckSafe, getCheckIface, hfind, dif_neg h, hcreation]
  · intro node h outcome r' hfind hcreate hcreation
    cases outcome with
    | iface ret =>
      simp only [LeavesCount, CheckSafe, getCheckIface, hfind, dif_pos h, hcreate, hcreation,
        refcnt_unrefCreated]
      omega
    | null =>
      simp only [LeavesCount, CheckSafe, getCheckIface, hfind, dif_pos h, hcreate, hcreation]
    | raised =>
      simp only [LeavesCount, CheckSafe, getCheckIface, hfind, dif_pos h, hcreate, hcreation,
        RefCounts.refcnt_drop, RefCounts.dropped, if_true]
      omega

/-- The references are balanced exactly when the function of the entry behaves. -/
theorem balanced_iff (this iface : Nat) (r : RefCounts) :
    Balanced store os destroyRaises this iface r ↔
      UnrefSafe store os destroyRaises this iface r ∧
        CheckSafe store os destroyRaises this iface r := by
  constructor
  · rintro ⟨-, hconsumes, hleaves⟩
    exact ⟨(consumesOne_iff this iface r).mp hconsumes, (leavesCount_iff this iface r).mp hleaves⟩
  · rintro ⟨hunref, hcheck⟩
    exact ⟨handsOut this iface r, (consumesOne_iff this iface r).mpr hunref, (leavesCount_iff this iface r).mpr hcheck⟩

/-- A class with one function, that returns `NULL`. -/
def refusing : Static CreateFunc :=
  ⟨0, fun _ => [.dynamic 0 (-1) fun _ _ r => (.null, r)]⟩

/-- The refused object has lost two references, one to the exception and one to the handler. -/
theorem not_balanced_refusing :
    ¬ Balanced ⟨fun _ => .bytes [], fun _ => 0⟩ refusing (fun _ => false) 7 0
      ⟨fun _ => 1, fun _ => 0⟩ := by
  intro h
  have hconsumes := h.consumesOne
  unfold ConsumesOne at hconsumes
  exact absurd hconsumes (by decide)

end Object

end Drt
