import Drt.Util.Drtag

/-!
# Merging tags

Two sets of tags are merged into the first of them. Of the tags in the lists the last one with a
name is what replaces, and the first one is what is added, whichever the hash of the set has. The
specialised tags are looked up under the address of the other's hash, where none are found.
-/

open List Function Option

namespace Drt

namespace Drtag

def checkTag (d : Drtag) (tag : String) : Option Tag := d.drtag_hash tag

def getSpec (d : Drtag) (tag : String) : Finmap fun _ : String => Tag :=
  (d.drtag_spec.lookup tag).getD ∅

/-- A tag goes to the end of the list, if the hash does not have its name. -/
def pushNew (d : Drtag) (tag : Tag) : Drtag :=
  if (d.drtag_hash tag.name).isSome then d
  else
    { drtag_list := d.drtag_list ++ [tag]
      drtag_hash := Function.update d.drtag_hash tag.name (some tag)
      drtag_spec := d.drtag_spec
      drtag_cnt := d.drtag_cnt
      listed := by
        intro name hname
        by_cases heq : name = tag.name
        · exact ⟨tag, List.mem_append_right _ (List.mem_singleton_self tag), heq.symm⟩
        · rw [Function.update_of_ne heq] at hname
          obtain ⟨old, hmem, hold⟩ := d.listed name hname
          exact ⟨old, List.mem_append_left _ hmem, hold⟩ }

/-- `mergeAdding`, with the specifiers as in `mergeReplacing`. -/
def mergeAdding (d merge : Drtag) : Drtag :=
  let merged := merge.drtag_list.foldl pushNew d
  if merge.drtag_spec.keys = ∅ then merged
  else { merged with drtag_spec := merge.drtag_spec }

/-- The first tag of a list with this name. -/
def firstNamed (tags : List Tag) (name : String) : Option Tag := tags.find? (·.name = name)

/-- The last tag of a list with this name. -/
def lastNamed (tags : List Tag) (name : String) : Option Tag := firstNamed tags.reverse name

theorem firstNamed_append (tags : List Tag) (tag : Tag) (name : String) :
    firstNamed (tags ++ [tag]) name =
      (firstNamed tags name).or (if tag.name = name then some tag else none) := by
  rw [firstNamed, firstNamed, List.find?_append, List.find?_singleton]
  simp only [decide_eq_true_eq]

theorem lastNamed_append (tags : List Tag) (tag : Tag) (name : String) :
    lastNamed (tags ++ [tag]) name =
      if tag.name = name then some tag else lastNamed tags name := by
  rw [lastNamed, lastNamed, reverse_append, reverse_singleton, singleton_append,
    firstNamed, List.find?_cons]
  by_cases h : tag.name = name
  · simp [h]
  · simp [h, firstNamed]

theorem drtag_hash_moveFront (d : Drtag) (tag : Tag) :
    (d.moveFront tag).drtag_hash = update d.drtag_hash tag.name (some tag) := rfl

/-- Replacing: the last tag with a name is what the hash has in the end. -/
theorem drtag_hash_foldl_moveFront (d : Drtag) (tags : List Tag) (name : String) :
    (tags.foldl moveFront d).drtag_hash name = (lastNamed tags name).or (d.drtag_hash name) := by
  induction tags using List.reverseRecOn with
  | nil => rfl
  | append_singleton tags tag ih =>
    rw [foldl_append, foldl_cons, foldl_nil, lastNamed_append, drtag_hash_moveFront]
    by_cases h : tag.name = name
    · subst h
      rw [update_self, if_pos rfl, some_or]
    · rw [update_of_ne (Ne.symm h), if_neg h, ih]

/-- Adding: the first tag with a name is what the hash has in the end, if it had none. -/
theorem drtag_hash_foldl_pushNew (d : Drtag) (tags : List Tag) (name : String) :
    (tags.foldl pushNew d).drtag_hash name = (d.drtag_hash name).or (firstNamed tags name) := by
  induction tags using List.reverseRecOn with
  | nil => rw [List.foldl_nil, firstNamed, List.find?_nil, Option.or_none]
  | append_singleton tags tag ih =>
    rw [List.foldl_append, List.foldl_cons, List.foldl_nil, firstNamed_append, ← Option.or_assoc,
      ← ih, pushNew]
    by_cases h : tag.name = name
    · subst h
      cases hash : (tags.foldl pushNew d).drtag_hash tag.name with
      | some old => simp [hash]
      | none => simp
    · rw [if_neg h, Option.or_none]
      split
      · rfl
      · exact Function.update_of_ne (Ne.symm h) _ _

theorem drtag_spec_foldl_moveFront (d : Drtag) (tags : List Tag) :
    (tags.foldl moveFront d).drtag_spec = d.drtag_spec := by
  induction tags generalizing d with
  | nil => rfl
  | cons tag tags ih => rw [foldl_cons, ih, moveFront]

theorem drtag_spec_foldl_pushNew (d : Drtag) (tags : List Tag) :
    (tags.foldl pushNew d).drtag_spec = d.drtag_spec := by
  induction tags generalizing d with
  | nil => rfl
  | cons tag tags ih =>
    rw [foldl_cons, ih, pushNew]
    split <;> rfl

/-- The hash has every name of the list. -/
def Hashed (d : Drtag) : Prop := ∀ tag ∈ d.drtag_list, (d.drtag_hash tag.name).isSome

theorem hashed_update {d : Drtag} (h : d.Hashed) (tag : Tag) {other : Tag}
    (hother : other = tag ∨ other ∈ d.drtag_list) :
    (update d.drtag_hash tag.name (some tag) other.name).isSome := by
  by_cases heq : other.name = tag.name
  · rw [heq, update_self]
    rfl
  · rw [update_of_ne heq]
    refine h other (hother.resolve_left ?_)
    rintro rfl
    exact heq rfl

theorem hashed_moveFront {d : Drtag} (h : d.Hashed) (tag : Tag) : (d.moveFront tag).Hashed := by
  intro other hother
  refine hashed_update h tag ?_
  rcases mem_cons.mp hother with heq | hmem
  · exact .inl heq
  · right
    split at hmem
    · exact mem_of_mem_eraseP hmem
    · exact hmem

theorem hashed_pushNew {d : Drtag} (h : d.Hashed) (tag : Tag) : (d.pushNew tag).Hashed := by
  unfold pushNew
  split
  · exact h
  · intro other hother
    refine hashed_update h tag ?_
    rcases mem_append.mp hother with hmem | hmem
    · exact .inr hmem
    · exact .inl (mem_singleton.mp hmem)

theorem hashed_foldl {f : Drtag → Tag → Drtag} (hf : ∀ d tag, d.Hashed → (f d tag).Hashed)
    {d : Drtag} (h : d.Hashed) (tags : List Tag) : (tags.foldl f d).Hashed := by
  induction tags generalizing d with
  | nil => exact h
  | cons tag tags ih => exact ih (hf d tag h)

section Merge

variable (d merge : Drtag)

theorem drtag_hash_mergeReplacing (name : String) :
    (d.mergeReplacing merge).drtag_hash name =
      (lastNamed merge.drtag_list name).or (d.drtag_hash name) := by
  rw [← drtag_hash_foldl_moveFront]
  simp only [mergeReplacing]
  split_ifs <;> rfl

theorem drtag_hash_mergeAdding (name : String) :
    (d.mergeAdding merge).drtag_hash name =
      (d.drtag_hash name).or (firstNamed merge.drtag_list name) := by
  rw [← drtag_hash_foldl_pushNew]
  simp only [mergeAdding]
  split_ifs <;> rfl

/-- The specialised tags of the second set are all that is left, if it has any. -/
theorem drtag_spec_mergeReplacing :
    (d.mergeReplacing merge).drtag_spec =
      if merge.drtag_spec.keys = ∅ then d.drtag_spec else merge.drtag_spec := by
  simp only [mergeReplacing]
  split_ifs
  · exact drtag_spec_foldl_moveFront d merge.drtag_list
  · rfl

theorem drtag_spec_mergeAdding :
    (d.mergeAdding merge).drtag_spec =
      if merge.drtag_spec.keys = ∅ then d.drtag_spec else merge.drtag_spec := by
  simp only [mergeAdding]
  split_ifs
  · exact drtag_spec_foldl_pushNew d merge.drtag_list
  · rfl

variable {d}

theorem hashed_mergeReplacing (h : d.Hashed) : (d.mergeReplacing merge).Hashed := by
  have hfold := hashed_foldl (fun _ tag hd => hashed_moveFront hd tag) h merge.drtag_list
  simp only [mergeReplacing]
  split_ifs <;> exact hfold

theorem hashed_mergeAdding (h : d.Hashed) : (d.mergeAdding merge).Hashed := by
  have hfold := hashed_foldl (fun _ tag hd => hashed_pushNew hd tag) h merge.drtag_list
  simp only [mergeAdding]
  split_ifs <;> exact hfold

end Merge

end Drtag

/-- A `Drtag` as its methods make it: the list and the hash have the same names. -/
structure TagSet extends Drtag where
  hashed : toDrtag.Hashed

namespace TagSet

def new : TagSet := ⟨.new, by intro tag h; cases h⟩

/-- `addTag`, with the parts of the tag. -/
def addTag (a : TagSet) (name : String) (spec : Option String) (value : String) : TagSet where
  toDrtag := a.toDrtag.addTag name spec value
  hashed := by
    cases spec with
    | some spec => exact a.hashed
    | none =>
      intro other hother
      refine Drtag.hashed_update a.hashed ⟨name, none, value, a.drtag_cnt + 1⟩ ?_
      rcases List.mem_append.mp hother with hmem | hmem
      · exact .inr hmem
      · exact .inl (List.mem_singleton.mp hmem)

def mergeReplacing (a b : TagSet) : TagSet :=
  ⟨a.toDrtag.mergeReplacing b.toDrtag, Drtag.hashed_mergeReplacing b.toDrtag a.hashed⟩

def mergeAdding (a b : TagSet) : TagSet :=
  ⟨a.toDrtag.mergeAdding b.toDrtag, Drtag.hashed_mergeAdding b.toDrtag a.hashed⟩

/-- A specialised tag. -/
def spec (a : TagSet) (name specifier : String) : Option Tag := (a.getSpec name).lookup specifier

/-- The list has an entry for exactly the tags of the hash. -/
def ListsHash (a : TagSet) : Prop :=
  ∀ name, (∃ tag ∈ a.drtag_list, tag.name = name) ↔ (a.checkTag name).isSome

/-- The specialised tags are those of the first and, where it has none, of the second. -/
def JoinsSpecs (merged a b : TagSet) : Prop :=
  ∀ name specifier, merged.spec name specifier = (a.spec name specifier).or (b.spec name specifier)

/-- What is left of two sets that were merged on either way. -/
structure MergesRight (a b replaced added : TagSet) : Prop where
  replacing : ∀ name, replaced.checkTagValue name =
    (b.checkTagValue name).or (a.checkTagValue name)
  adding : ∀ name, added.checkTagValue name =
    (a.checkTagValue name).or (b.checkTagValue name)
  replacingLists : replaced.ListsHash
  addingLists : added.ListsHash
  replacingSpecs : replaced.JoinsSpecs a b
  addingSpecs : added.JoinsSpecs a b

/-- When merging is right: of the second set, the last entry of each name in the list has the
value of the hash, and the first one has it where the first set lacks the name; and if the second
set has specialised tags at all, it has those of the first. -/
structure Mergeable (a b : TagSet) : Prop where
  last : ∀ name, (Drtag.lastNamed b.drtag_list name).map (·.value) = b.checkTagValue name
  first : ∀ name, a.checkTag name = none →
    (Drtag.firstNamed b.drtag_list name).map (·.value) = b.checkTagValue name
  specs : b.drtag_spec.keys = ∅ ∨
    ∀ name specifier tag, a.spec name specifier = some tag → b.spec name specifier = some tag

variable (a b : TagSet)

/-- The list and the hash have the same names, whatever was merged. -/
theorem listsHash : a.ListsHash := by
  intro name
  constructor
  · rintro ⟨tag, htag, rfl⟩
    exact a.hashed tag htag
  · exact a.listed name

theorem checkTagValue_mergeReplacing (name : String) :
    (a.mergeReplacing b).checkTagValue name =
      ((Drtag.lastNamed b.drtag_list name).map (·.value)).or (a.checkTagValue name) := by
  rw [Drtag.checkTagValue, mergeReplacing, Drtag.drtag_hash_mergeReplacing, map_or]
  rfl

theorem checkTagValue_mergeAdding (name : String) :
    (a.mergeAdding b).checkTagValue name =
      (a.checkTagValue name).or ((Drtag.firstNamed b.drtag_list name).map (·.value)) := by
  rw [Drtag.checkTagValue, mergeAdding, Drtag.drtag_hash_mergeAdding, map_or]
  rfl

/-- A name that the hash has, the list has, and the other way round. -/
theorem isSome_firstNamed (name : String) :
    (Drtag.firstNamed b.drtag_list name).isSome = (b.checkTagValue name).isSome := by
  rw [Bool.eq_iff_iff, Drtag.firstNamed, List.find?_isSome, Drtag.checkTagValue, isSome_map]
  simpa [Drtag.checkTag] using b.listsHash name

theorem isSome_lastNamed (name : String) :
    (Drtag.lastNamed b.drtag_list name).isSome = (b.checkTagValue name).isSome := by
  rw [← isSome_firstNamed, Bool.eq_iff_iff, Drtag.lastNamed, Drtag.firstNamed, Drtag.firstNamed,
    List.find?_isSome, List.find?_isSome]
  simp

/-- Specialised tags, after either way of merging. -/
theorem joinsSpecs_iff {merged : TagSet}
    (h : merged.drtag_spec =
      if b.drtag_spec.keys = ∅ then a.drtag_spec else b.drtag_spec) :
    merged.JoinsSpecs a b ↔ b.drtag_spec.keys = ∅ ∨
      ∀ name specifier tag,
        a.spec name specifier = some tag → b.spec name specifier = some tag := by
  have hspec : ∀ name specifier, merged.spec name specifier =
      if b.drtag_spec.keys = ∅ then a.spec name specifier else b.spec name specifier := by
    intro name specifier
    rw [spec, Drtag.getSpec, h]
    split_ifs <;> rfl
  constructor
  · intro hjoins
    refine or_iff_not_imp_left.mpr fun hkeys name specifier tag htag => ?_
    have hname := hjoins name specifier
    rwa [hspec, if_neg hkeys, htag, some_or] at hname
  · intro hor name specifier
    rw [hspec]
    split_ifs with hkeys
    · have hnone : b.spec name specifier = none := by
        have hlookup : b.drtag_spec.lookup name = none := by
          rw [Finmap.lookup_eq_none, ← Finmap.mem_keys, hkeys]
          exact Finset.notMem_empty name
        rw [spec, Drtag.getSpec, hlookup]
        rfl
      rw [hnone, or_none]
    · have hsub := hor.resolve_left hkeys
      cases hown : a.spec name specifier with
      | some tag => rw [hsub name specifier tag hown, some_or]
      | none => rw [none_or]

/-- Merging is right exactly for sets that are mergeable. -/
theorem mergesRight_iff :
    MergesRight a b (a.mergeReplacing b) (a.mergeAdding b) ↔ a.Mergeable b := by
  constructor
  · intro h
    refine ⟨?_, ?_, ?_⟩
    · intro name
      have hname := h.replacing name
      have hsome := isSome_lastNamed b name
      rw [checkTagValue_mergeReplacing] at hname
      cases hlast : Drtag.lastNamed b.drtag_list name with
      | none =>
        rw [hlast, isSome_none, eq_comm, isSome_eq_false_iff] at hsome
        exact (isNone_iff_eq_none.mp hsome).symm
      | some tag =>
        rw [hlast, isSome_some, eq_comm] at hsome
        obtain ⟨value, hvalue⟩ := isSome_iff_exists.mp hsome
        rw [hlast, hvalue] at hname
        rw [hvalue]
        exact hname
    · intro name hnone
      have hname := h.adding name
      have hvalue : a.checkTagValue name = none := congrArg (Option.map Tag.value) hnone
      rwa [checkTagValue_mergeAdding, hvalue, none_or, none_or] at hname
    · exact (joinsSpecs_iff a b (Drtag.drtag_spec_mergeReplacing _ _)).mp h.replacingSpecs
  · intro h
    refine ⟨?_, ?_, listsHash _, listsHash _, ?_, ?_⟩
    · intro name
      rw [checkTagValue_mergeReplacing, h.last]
    · intro name
      rw [checkTagValue_mergeAdding]
      cases hown : a.checkTag name with
      | none => rw [h.first name hown]
      | some tag =>
        have hvalue : a.checkTagValue name = some tag.value := congrArg (Option.map Tag.value) hown
        rw [hvalue, some_or, some_or]
    · exact (joinsSpecs_iff a b (Drtag.drtag_spec_mergeReplacing _ _)).mpr h.specs
    · exact (joinsSpecs_iff a b (Drtag.drtag_spec_mergeAdding _ _)).mpr h.specs

/-- `mergeReplacing` of one object with another. -/
def replaceAt (objects : Nat → TagSet) (this merge : Nat) : Nat → TagSet :=
  Function.update objects this ((objects this).mergeReplacing (objects merge))

/-- `mergeAdding` of one object with another. -/
def addAt (objects : Nat → TagSet) (this merge : Nat) : Nat → TagSet :=
  Function.update objects this ((objects this).mergeAdding (objects merge))

/-- Two objects are merged rightly, and the second one stays as it is, exactly if the tags of the
two are mergeable. -/
theorem objects_mergesRight_iff (objects : Nat → TagSet) {this merge : Nat} (hne : this ≠ merge) :
    (MergesRight (objects this) (objects merge) (replaceAt objects this merge this)
        (addAt objects this merge this) ∧
      replaceAt objects this merge merge = objects merge ∧
      addAt objects this merge merge = objects merge) ↔
      (objects this).Mergeable (objects merge) := by
  have hreplace : replaceAt objects this merge merge = objects merge :=
    update_of_ne hne.symm _ _
  have hadd : addAt objects this merge merge = objects merge := update_of_ne hne.symm _ _
  rw [replaceAt, addAt, update_self, update_self]
  constructor
  · exact fun h => (mergesRight_iff _ _).mp h.1
  · exact fun h => ⟨(mergesRight_iff _ _).mpr h, hreplace, hadd⟩

/-- A set with a plain and a specialised tag, and one with two plain tags, the one of which the
first set has. -/
def plainTags : Nat → TagSet
  | 0 => (new.addTag "export" none "no").addTag "sql" (some "mysql") "int"
  | _ => (new.addTag "export" none "yes").addTag "doc" none "text"

/-- Plain tags that are added once are merged rightly. -/
theorem plainTags_mergesRight :
    MergesRight (plainTags 0) (plainTags 1) (replaceAt plainTags 0 1 0) (addAt plainTags 0 1 0) ∧
      replaceAt plainTags 0 1 1 = plainTags 1 ∧ addAt plainTags 0 1 1 = plainTags 1 := by
  have hfound : ∀ name, (Drtag.lastNamed (plainTags 1).drtag_list name).map (·.value) =
        (plainTags 1).checkTagValue name ∧
      (Drtag.firstNamed (plainTags 1).drtag_list name).map (·.value) =
        (plainTags 1).checkTagValue name := by
    intro name
    by_cases hexport : name = "export"
    · subst hexport
      exact ⟨rfl, rfl⟩
    by_cases hdoc : name = "doc"
    · subst hdoc
      exact ⟨rfl, rfl⟩
    have hhash : (plainTags 1).checkTagValue name = none := by
      have hnone : (plainTags 1).drtag_hash name = none :=
        (update_of_ne hdoc _ _).trans (update_of_ne hexport _ _)
      exact congrArg (Option.map Tag.value) hnone
    have hlist : (plainTags 1).drtag_list =
        [⟨"export", none, "yes", 1⟩, ⟨"doc", none, "text", 2⟩] := rfl
    rw [hhash, hlist]
    simp [Drtag.lastNamed, Drtag.firstNamed, Ne.symm hexport, Ne.symm hdoc]
  exact (objects_mergesRight_iff plainTags (by decide)).mpr
    ⟨fun name => (hfound name).1, fun name _ => (hfound name).2, .inl (by decide)⟩

/-- Two sets with a specialised tag each. -/
def specialTags : Nat → TagSet
  | 0 => new.addTag "sql" (some "mysql") "int"
  | _ => new.addTag "sql" (some "oracle") "number"

/-- The specialised tag of the first set is lost. -/
theorem specialTags_not_mergesRight :
    ¬ MergesRight (specialTags 0) (specialTags 1) (replaceAt specialTags 0 1 0)
      (addAt specialTags 0 1 0) := by
  intro h
  have hspec := h.replacingSpecs "sql" "mysql"
  exact absurd hspec (by decide)

end TagSet

end Drt
