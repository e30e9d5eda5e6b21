import Drt.Lib.Fuel
import Drt.Util.Drtag

/-!
# Resolving the types of a model

A model has classes, typedefs and enumerations. The type of an attribute, a result or a
parameter is the name of a primitive type, of a class, or a reference to an attribute, whose
type is resolved in turn. Each level merges its own tags into those of the level below.
-/

namespace Drt

/-- The kinds of the members in the field list of a class. -/
inductive FieldType where
  | field
  | assoc
  | compos
  | child
  deriving DecidableEq, Repr

/-- `AttrBase`: an attribute has a type, an association a reference. -/
structure ModelField where
  name : String
  stype : FieldType
  type : String
  ref : String
  drtag : Drtag

structure OperParam where
  name : String
  type : String
  drtag : Drtag

structure Oper where
  name : String
  returntype : String
  param_list : List OperParam
  drtag : Drtag

inductive ClassKind where
  | cls (field_list : List ModelField) (oper_list : List Oper)
  | typedef (base : String)
  | enum

/-- `ClassBase`, as it is loaded. -/
structure ModelClass where
  package : String
  kind : ClassKind
  drtag : Drtag

/-- A loaded model: its classes, and where a name leads to. -/
structure Model where
  classes : Nat → ModelClass
  class_hash : String → Option Nat

/-- What a type is resolved to: a class, or a primitive type. -/
inductive ModelRef where
  | cls (c : Nat)
  | primitive (type : String)
  deriving DecidableEq, Repr

/-- What resolving may change: the tags of the classes, and the primitive types that typedefs
have entered into `class_hash`. -/
structure ModelStore where
  tags : Nat → Drtag
  primitives : List String

namespace ModelClass

def field_list (c : ModelClass) : List ModelField :=
  match c.kind with
  | .cls field_list _ => field_list
  | _ => []

def oper_list (c : ModelClass) : List Oper :=
  match c.kind with
  | .cls _ oper_list => oper_list
  | _ => []

end ModelClass

/-- The characters of `\s`. -/
def isBlank (c : Char) : Bool := c ∈ [' ', '\t', '\n', '\r', Char.ofNat 11, Char.ofNat 12]

/-- `Primitive::checkPrimitive`. -/
def checkPrimitive (type : String) : Bool :=
  !decide ("ref:".toList <+: type.toList) && !decide ("::".toList <:+: type.toList)

/-- A reference: to the attribute of the same name, to an attribute of a class, to the attribute
of the same name of a class, or to an attribute of the class that `typeref` names. -/
inductive TypeRef where
  | bare
  | attr (cls field : String)
  | dotted (cls : String)
  | own (field : String)
  deriving DecidableEq, Repr

/-- The parts before and after the last dot. -/
def splitLastDot : List Char → Option (List Char × List Char)
  | [] => none
  | c :: rest =>
    match splitLastDot rest with
    | some (before, after) => some (c :: before, after)
    | none => if c = '.' then some ([], rest) else none

/-- The alternatives of the expression, in their order. The third keeps the dot. -/
def refAt (rest : List Char) : Option TypeRef :=
  if rest.all isBlank then some .bare
  else
    match splitLastDot rest with
    | some (c :: before, a :: after) =>
      some (.attr (String.ofList (c :: before)) (String.ofList (a :: after)))
    | some (c :: before, []) => some (.dotted (String.ofList (c :: before ++ ['.'])))
    | some ([], a :: after) => some (.own (String.ofList (a :: after)))
    | some ([], []) => none
    | none => none

/-- The blanks after `ref:` are skipped, as many as possible first. -/
def refAfter : List Char → Option TypeRef
  | [] => refAt []
  | c :: rest => if isBlank c then (refAfter rest).or (refAt (c :: rest)) else refAt (c :: rest)

/-- The first place where the expression for references matches; a value is one line. -/
def matchRef : List Char → Option TypeRef
  | [] => none
  | c :: rest =>
    (if "ref:".toList <+: c :: rest then refAfter ((c :: rest).drop 4) else none).or
      (matchRef rest)

/-- `formatTyperef`, and the start of `getSubModel`. -/
def formatTyperef (package typeref : String) : String :=
  match typeref.toList with
  | '.' :: rest => package ++ "::" ++ String.ofList rest
  | _ => typeref

/-- What `getSubFinalTypeWithTagger` is to find. -/
inductive Ask where
  | primitive (type : String)
  | attr (cls field : String)
  | model (name : String)
  deriving DecidableEq, Repr

/-- What is resolved: the type of a part of a class, with the tags of the part, a member of a
field list, or a class or primitive type. -/
inductive ModelTarget where
  | sub (c : Nat) (subname : Option String) (subtype : String) (drtag : Drtag)
  | attr (c i : Nat)
  | model (ref : ModelRef)

/-- The tagger that is returned: the tags of a class themselves, or a set of its own. -/
inductive Tagger where
  | shared (c : Nat)
  | own (drtag : Drtag)

/-- A type with a tagger, and the store. -/
structure Resolved where
  type : ModelRef
  tagger : Tagger
  store : ModelStore

namespace Resolved

/-- `mergeReplacing` on the tagger. -/
def merge (r : Resolved) (drtag : Drtag) : Resolved :=
  match r.tagger with
  | .shared c =>
    { r with store := { r.store with
        tags := Function.update r.store.tags c ((r.store.tags c).mergeReplacing drtag) } }
  | .own tags => { r with tagger := .own (tags.mergeReplacing drtag) }

/-- The tags that are returned. -/
def tags (r : Resolved) : Drtag :=
  match r.tagger with
  | .shared c => r.store.tags c
  | .own tags => tags

end Resolved

namespace Model

variable (m : Model)

/-- The store after loading. -/
def fresh : ModelStore := ⟨fun c => (m.classes c).drtag, []⟩

/-- `getSubModel` of a class. -/
def getSubModel (st : ModelStore) (c : Nat) (modelName : String) : Option ModelRef :=
  let name := formatTyperef (m.classes c).package modelName
  match st.primitives.find? fun type => "::" ++ type = name with
  | some type => some (.primitive type)
  | none => (m.class_hash name).map .cls

/-- `field_hash`: the last attribute of the name. -/
def getAttr (c : Nat) (field_name : String) : Option Nat :=
  let fields := (m.classes c).field_list
  (List.range fields.length).reverse.find? fun i =>
    fields[i]?.any fun fd => fd.stype = .field ∧ fd.name = field_name

/-- `getRole`, for the role `primary`. -/
def isPrimary (fd : ModelField) : Bool :=
  ((fd.drtag.checkTagValue "role").any fun value =>
    "primary".toList ∈ value.toList.splitBy fun a b => isBlank a == isBlank b) ||
  ((fd.drtag.checkTagValue "primary").any fun value => value ≠ "" ∧ value ≠ "0")

def getPrimary (c : Nat) : List Nat :=
  let fields := (m.classes c).field_list
  (List.range fields.length).filter fun i => fields[i]?.any isPrimary

/-- The class that a reference without one is about. -/
def refClass (st : ModelStore) (c : Nat) : String :=
  match (st.tags c).checkTagValue "typeref" with
  | some typeref => formatTyperef (m.classes c).package typeref
  | none => (m.classes c).package

/-- The cases of `getSubFinalTypeWithTagger`; `none` if it dies. -/
def request (st : ModelStore) (c : Nat) (subname : Option String) (subtype : String) :
    Option Ask :=
  if checkPrimitive subtype then some (.primitive subtype)
  else
    match matchRef subtype.toList with
    | some .bare => subname.map (.attr (m.refClass st c))
    | some (.attr cls field) => some (.attr cls field)
    | some (.dotted cls) => subname.map (.attr cls)
    | some (.own field) => some (.attr (m.refClass st c) field)
    | none => some (.model subtype)

/-- The name that is looked up for a request. -/
def askedName (c : Nat) : Ask → Option String
  | .primitive _ => none
  | .attr cls _ => some (formatTyperef (m.classes c).package cls)
  | .model name => some (formatTyperef (m.classes c).package name)

/-- What a request leads to. -/
def follow (st : ModelStore) (c : Nat) : Ask → Option ModelTarget
  | .primitive _ => none
  | .attr cls field =>
    match m.getSubModel st c cls with
    | some (.cls c') => (m.getAttr c' field).map (.attr c')
    | _ => none
  | .model name => (m.getSubModel st c name).map .model

/-- The kind of a member of a field list. -/
def stypeAt (c j : Nat) : Option FieldType := ((m.classes c).field_list[j]?).map ModelField.stype

/-- `expandAssocAttrs`, under a bound on the depth: the attributes. -/
def expandAssocAttrs (st : ModelStore) : Nat → Nat → Nat → Outcome Unit (List (Nat × Nat))
  | 0, _, _ => .outOfFuel
  | fuel + 1, c, i =>
    match (m.classes c).field_list[i]? with
    | none => .raise ()
    | some fd =>
      match m.getSubModel st c fd.ref with
      | some (.cls c') =>
        if m.getPrimary c' = [] then .raise ()
        else
          (m.getPrimary c').foldr (fun j rest =>
            match m.stypeAt c' j with
            | some .field => rest >>= fun others => .ok ((c', j) :: others)
            | some .assoc | some .compos =>
              expandAssocAttrs st fuel c' j >>= fun attrs =>
                rest >>= fun others => .ok (attrs ++ others)
            | some .child | none => .raise ()) (.ok [])
      | _ => .raise ()

/-- `getFinalTypeWithTagger` of all kinds, and `getSubFinalTypeWithTagger` with the merge that
follows it, under a bound on the depth. -/
def resolve : Nat → ModelStore → ModelTarget → Outcome Unit Resolved
  | 0, _, _ => .outOfFuel
  | fuel + 1, st, .sub c subname subtype drtag =>
    match m.request st c subname subtype with
    | none => .raise ()
    | some (.primitive type) =>
      -- The class gives its own tags away here.
      .ok ((⟨.primitive type, .shared c, st⟩ : Resolved).merge drtag)
    | some ask =>
      match m.follow st c ask with
      | none => .raise ()
      | some target => resolve fuel st target >>= fun r => .ok (r.merge drtag)
  | fuel + 1, st, .attr c i =>
    match (m.classes c).field_list[i]? with
    | none => .raise ()
    | some fd =>
      if fd.stype = .field then resolve fuel st (.sub c (some fd.name) fd.type fd.drtag)
      else
        m.expandAssocAttrs st fuel c i >>= fun refs =>
          match refs with
          | [(c', j)] => resolve fuel st (.attr c' j) >>= fun r => .ok (r.merge fd.drtag)
          | _ => .raise ()
  | _ + 1, st, .model (.primitive type) => .ok ⟨.primitive type, .own .new, st⟩
  | fuel + 1, st, .model (.cls c) =>
    match (m.classes c).kind with
    | .typedef base =>
      if checkPrimitive base then
        .ok ⟨.primitive base, .own (st.tags c), { st with primitives := base :: st.primitives }⟩
      else
        match m.getSubModel st c base with
        | none => .raise ()
        | some ref =>
          resolve fuel st (.model ref) >>= fun r => .ok (r.merge (r.store.tags c))
    | _ => .ok ⟨.cls c, .own (st.tags c), st⟩

/-- The calls of a generator: of the type of an attribute, a result or a parameter. -/
inductive Call where
  | attr (c i : Nat)
  | ret (c k : Nat)
  | param (c k j : Nat)
  deriving DecidableEq, Repr

/-- What a call resolves. -/
def target : Call → Option ModelTarget
  | .attr c i => some (.attr c i)
  | .ret c k => ((m.classes c).oper_list[k]?).map fun oper =>
      .sub c none oper.returntype oper.drtag
  | .param c k j => ((m.classes c).oper_list[k]?).bind fun oper =>
      (oper.param_list[j]?).map fun param => .sub c (some param.name) param.type param.drtag

end Model

end Drt
