import Mathlib.Data.Finmap

/-!
# Tags of a model

The tags of a class, an attribute, an operation or a parameter: those without a specifier in
a list, and by name in a hash, and the others by name and specifier. The tags that a type is
resolved to are merged from those on the way.
-/

namespace Drt

/-- A tag. -/
structure Tag where
  name : String
  spec : Option String
  value : String
  order : Nat
  deriving DecidableEq, Repr

/-- `Drtag`. A tag of the hash is in the list. -/
structure Drtag where
  drtag_list : List Tag
  drtag_hash : String → Option Tag
  drtag_spec : Finmap fun _ : String => Finmap fun _ : String => Tag
  drtag_cnt : Nat
  listed : ∀ name, (drtag_hash name).isSome → ∃ tag ∈ drtag_list, tag.name = name

namespace Drtag

def new : Drtag := ⟨[], fun _ => none, ∅, 0, fun _ h => nomatch h⟩

/-- A tag goes to the front of the list; if the hash has its name already, its first place in
the list is given up. -/
def moveFront (d : Drtag) (tag : Tag) : Drtag where
  drtag_list := tag ::
    if (d.drtag_hash tag.name).isSome then d.drtag_list.eraseP fun old => old.name = tag.name
    else d.drtag_list
  drtag_hash := Function.update d.drtag_hash tag.name (some tag)
  drtag_spec := d.drtag_spec
  drtag_cnt := d.drtag_cnt
  listed := by
    intro name hname
    by_cases heq : name = tag.name
    · exact ⟨tag, List.mem_cons_self, heq.symm⟩
    · rw [Function.update_of_ne heq] at hname
      obtain ⟨old, hmem, hold⟩ := d.listed name hname
      refine ⟨old, List.mem_cons_of_mem tag ?_, hold⟩
      split
      · refine (List.mem_eraseP_of_neg ?_).mpr hmem
        simpa only [hold, decide_eq_true_eq] using heq
      · exact hmem

/-- `addTag`, with the parts of the tag. -/
def addTag (d : Drtag) (name : String) (spec : Option String) (value : String) : Drtag :=
  let tag : Tag := ⟨name, spec, value, d.drtag_cnt + 1⟩
  match spec with
  | some s =>
    { d with
      drtag_spec := d.drtag_spec.insert name (((d.drtag_spec.lookup name).getD ∅).insert s tag)
      drtag_cnt := d.drtag_cnt + 1 }
  | none =>
    { drtag_list := d.drtag_list ++ [tag]
      drtag_hash := Function.update d.drtag_hash name (some tag)
      drtag_spec := d.drtag_spec
      drtag_cnt := d.drtag_cnt + 1
      listed := by
        intro other hother
        by_cases heq : other = name
        · exact ⟨tag, List.mem_append_right _ (List.mem_singleton_self tag), heq.symm⟩
        · rw [Function.update_of_ne heq] at hother
          obtain ⟨old, hmem, hold⟩ := d.listed other hother
          exact ⟨old, List.mem_append_left _ hmem, hold⟩ }

def checkTagValue (d : Drtag) (tag : String) : Option String := (d.drtag_hash tag).map (·.value)

/-- `mergeReplacing`. For each name of the other's specifiers the own ones are looked up under
the address of the other's hash, so that they are replaced by those of the other. -/
def mergeReplacing (d merge : Drtag) : Drtag :=
  let merged := merge.drtag_list.foldl moveFront d
  if merge.drtag_spec.keys = ∅ then merged
  else { merged with drtag_spec := merge.drtag_spec }

end Drtag

end Drt
