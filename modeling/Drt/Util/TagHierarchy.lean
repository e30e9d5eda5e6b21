import Drt.Lib.Fuel
import Drt.Util.Drtag

/-!
# Tags of the models around a class

A model is named by the package it is in and a name of its own, and a package may itself be
the name of a model. `checkDrTagHierarchicalValue` goes from a class to the model named like its
package, and on, but asks the class that it came from for the tag each time.
-/

namespace Drt

namespace TagHierarchy

/-- A name, split at `::`. -/
abbrev ModelName := List String

/-- What a `clsdef` file holds, after the fixers were called. -/
structure ClsDef where
  package : ModelName
  name : String
  drtag : Drtag

/-- `ClassBase`. -/
structure ClassBase extends ClsDef where
  location : String

namespace ClassBase

/-- `"$package::$name"`; without a package it starts with the separator. -/
def full (c : ClassBase) : ModelName := (if c.package = [] then [""] else c.package) ++ [c.name]

def checkDrTagValue (c : ClassBase) (tag : String) : Option String := c.drtag.checkTagValue tag

def getParentName (c : ClassBase) : ModelName := c.package

end ClassBase

/-- `ModelStore`, with the files it reads. Files lie where their names say. -/
structure Store where
  class_hash : ModelName → Option ClassBase
  default_location : Option String
  files : String → ModelName → Option ClsDef
  hashed : ∀ name c, class_hash name = some c → c.full = name
  nested : ∀ location name d, files location name = some d → name = d.package ++ [d.name]

namespace Store

/-- `ClassBase::new`: the class is entered into `class_hash`. -/
def createClass (st : Store) (c : ClassBase) : Store :=
  { st with
    class_hash := Function.update st.class_hash c.full (some c)
    hashed := by
      intro name c' h
      by_cases heq : name = c.full
      · rw [heq, Function.update_self] at h
        cases h
        exact heq.symm
      · rw [Function.update_of_ne heq] at h
        exact st.hashed name c' h }

def checkModel (st : Store) (location : Option String) (modelName : ModelName) :
    Outcome String (Option ClassBase × Store) :=
  match location.or st.default_location with
  | none =>
    .raise ("no location nor default location specified while loading " ++
      "::".intercalate modelName)
  | some location =>
    match st.files location modelName with
    | none => .ok (none, st)
    | some d => .ok (some ⟨d, location⟩, st.createClass ⟨d, location⟩)

/-- `checkSubModel` of a class. -/
def checkSubModel (st : Store) (this : ClassBase) (modelName : ModelName) :
    Outcome String (Option ClassBase × Store) :=
  match st.class_hash modelName with
  | some c => .ok (some c, st)
  | none => st.checkModel (some this.location) modelName

/-- The loop of `checkDrTagHierarchicalValue`: at `classdef`, the class itself is asked. -/
def walk (this : ClassBase) (tag : String) :
    Nat → Option ClassBase → Store → Outcome String (Option String × Store)
  | 0, _, _ => .outOfFuel
  | _ + 1, none, st => .ok (none, st)
  | fuel + 1, some classdef, st =>
    match this.checkDrTagValue tag with
    | some value => .ok (some value, st)
    | none => do
      let (classdef, st) ← st.checkSubModel this classdef.getParentName
      walk this tag fuel classdef st

def checkDrTagHierarchicalValue (st : Store) (this : ClassBase) (tag : String) (fuel : Nat) :
    Outcome String (Option String × Store) :=
  walk this tag fuel (some this) st

/-! ### The models around a class -/

/-- The model of a name, in `class_hash` or in a file beside the class. -/
def findModel (st : Store) (this : ClassBase) (modelName : ModelName) : Option ClassBase :=
  (st.class_hash modelName).or
    ((st.files this.location modelName).map fun d => ⟨d, this.location⟩)

/-- The enclosing models of a class that exist, from the inside out. -/
def enclosing (st : Store) (this : ClassBase) : List ClassBase :=
  (this.package.inits.reverse.filter (· ≠ [])).filterMap (st.findModel this)

/-- The value of the tag in the nearest of the class and its enclosing models that has it. -/
def nearestValue (st : Store) (this : ClassBase) (tag : String) : Option String :=
  (this :: st.enclosing this).findSome? (·.checkDrTagValue tag)

variable {st : Store} {this : ClassBase} {tag : String}

theorem length_package_lt (c : ClassBase) : c.package.length < c.full.length := by
  unfold ClassBase.full
  split_ifs with h
  · simp [h]
  · simp

/-- `checkSubModel` finds the model of a name, and the package of the model is shorter. -/
theorem checkSubModel_eq (st : Store) (this : ClassBase) (modelName : ModelName) :
    ∃ st', st.checkSubModel this modelName = .ok (st.findModel this modelName, st') ∧
      ∀ c, st.findModel this modelName = some c → c.package.length < modelName.length := by
  cases hhash : st.class_hash modelName with
  | some c =>
    refine ⟨st, by rw [checkSubModel, findModel, hhash]; rfl, ?_⟩
    intro c' hc'
    rw [findModel, hhash] at hc'
    cases hc'
    exact st.hashed _ _ hhash ▸ length_package_lt c
  | none =>
    cases hfile : st.files this.location modelName with
    | none =>
      refine ⟨st, ?_, ?_⟩
      · simp [checkSubModel, checkModel, findModel, hhash, hfile]
      · simp [findModel, hhash, hfile]
    | some d =>
      refine ⟨st.createClass ⟨d, this.location⟩, ?_, ?_⟩
      · simp [checkSubModel, checkModel, findModel, hhash, hfile]
      · intro c hc
        rw [findModel, hhash, hfile] at hc
        cases hc
        rw [st.nested _ _ _ hfile]
        simp

/-- From any model the walk comes to its end, with the tag of the class it started from. -/
theorem walk_returns (this : ClassBase) (tag : String) (n : Nat) :
    ∀ (classdef : ClassBase) (st : Store), classdef.package.length = n →
      ∃ st', Outcome.Returns (fun fuel => walk this tag fuel (some classdef) st)
        (this.checkDrTagValue tag, st') := by
  induction n using Nat.strong_induction_on with
  | _ n ih =>
    intro classdef st hn
    cases hvalue : this.checkDrTagValue tag with
    | some value => exact ⟨st, .of_succ_ok fun fuel => by rw [walk, hvalue]⟩
    | none =>
      obtain ⟨st', hsub, hlength⟩ := checkSubModel_eq st this classdef.getParentName
      have hpass : ∀ fuel, walk this tag (fuel + 1) (some classdef) st =
          walk this tag fuel (st.findModel this classdef.getParentName) st' := by
        intro fuel
        rw [walk, hvalue, hsub]
        rfl
      cases hfind : st.findModel this classdef.getParentName with
      | none =>
        rw [hfind] at hpass
        have hend : Outcome.Returns (fun fuel => walk this tag fuel none st') (none, st') :=
          .of_succ_ok fun fuel => rfl
        exact ⟨st', hend.of_succ hpass⟩
      | some parent =>
        rw [hfind] at hpass
        have hlt : parent.package.length < n := hn ▸ hlength parent hfind
        obtain ⟨st'', hwalk⟩ := ih _ hlt parent st' rfl
        rw [hvalue] at hwalk
        exact ⟨st'', hwalk.of_succ hpass⟩

/-- The walk ends for every class and tag, and with the value of the nearest model that has the
tag exactly if the class has it itself or no model around it does. -/
theorem checkDrTagHierarchicalValue_iff (st : Store) (this : ClassBase) (tag : String) :
    (∃ value st', Outcome.Returns (st.checkDrTagHierarchicalValue this tag) (value, st')) ∧
      ((∃ st', Outcome.Returns (st.checkDrTagHierarchicalValue this tag)
          (st.nearestValue this tag, st')) ↔
        this.checkDrTagValue tag ≠ none ∨
          ∀ c ∈ st.enclosing this, c.checkDrTagValue tag = none) := by
  obtain ⟨st', hwalk⟩ := walk_returns this tag _ this st rfl
  refine ⟨⟨_, st', hwalk⟩, ?_⟩
  have hvalue : (∃ st'', Outcome.Returns (st.checkDrTagHierarchicalValue this tag)
      (st.nearestValue this tag, st'')) ↔
        this.checkDrTagValue tag = st.nearestValue this tag := by
    constructor
    · rintro ⟨st'', hnearest⟩
      exact congrArg Prod.fst (hwalk.unique hnearest)
    · exact fun heq => ⟨st', heq ▸ hwalk⟩
  rw [hvalue, nearestValue, List.findSome?_cons]
  cases this.checkDrTagValue tag with
  | some value => simp
  | none =>
    rw [eq_comm, List.findSome?_eq_none_iff]
    simp

/-- A package with a model of its own, whose file has a tag. -/
def package : ClsDef := ⟨[], "net", Drtag.new.addTag "export" none "yes"⟩

/-- Nothing is loaded yet. -/
def unloaded : Store where
  class_hash := fun _ => none
  default_location := none
  files := fun _ name => if name = ["net"] then some package else none
  hashed := fun _ _ h => nomatch h
  nested := by
    intro _ name d h
    split at h
    · next heq => cases h; exact heq
    · cases h

/-- A class of the package, without any tag. -/
def server : ClassBase := ⟨⟨["net"], "Server", .new⟩, "lib"⟩

/-- The package has the tag, but it is not found. -/
theorem server_not_nearest :
    unloaded.nearestValue server "export" = some "yes" ∧
      ¬ ∃ st', Outcome.Returns (unloaded.checkDrTagHierarchicalValue server "export")
        (some "yes", st') := by
  refine ⟨rfl, ?_⟩
  rintro ⟨st', hyes⟩
  obtain ⟨st'', hwalk⟩ := walk_returns server "export" _ server unloaded rfl
  have heq : server.checkDrTagValue "export" = some "yes" := congrArg Prod.fst (hwalk.unique hyes)
  exact absurd heq (by decide)

end Store

end TagHierarchy

end Drt
