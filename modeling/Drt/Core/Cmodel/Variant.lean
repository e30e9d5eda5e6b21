import Drt.Lib.Release

/-!
# Variants

A `Variant` holds a value of its own, or a reference: to the data of a blob or a string, to
an object, or to an array or a hash of further Variants. The destructor has no case for the
last two.
-/

namespace Drt

/-- The number of an object, or of the data that blobs and strings share. -/
abbrev ObjectId := Nat

/-- `Variant`: the type, with the member of the union that belongs to it. -/
inductive VariantData where
  | VT_Invalid
  | VT_Null
  | VT_Bool (bool_val : Bool)
  | VT_Int (int_val : Int64)
  | VT_Double (double_val : UInt64)
  | VT_Binary (binary_val : ObjectId)
  | VT_String (string_val : ObjectId)
  | VT_Object (object_val : ObjectId)
  | VT_Array (array_val : ObjectId)
  | VT_Hash (hash_val : ObjectId)
  deriving DecidableEq, Repr

namespace VariantData

/-- The arguments of the ten constructors. A `none` is a NULL pointer, blob or string. -/
inductive Arg where
  | default
  | null
  | bool (bool_val : Bool)
  | int (int_val : Int64)
  | double (double_val : UInt64)
  | blob (binary_val : Option ObjectId)
  | string (string_val : Option ObjectId)
  | object (object_val : Option ObjectId)
  | array (array : Option ObjectId)
  | hash (hash : Option ObjectId)
  deriving DecidableEq, Repr

/-- The reference that a constructor takes. -/
def Arg.taken : Arg → List ObjectId
  | default | null | bool _ | int _ | double _ => []
  | blob d | string d => d.toList
  | object o | array o | hash o => o.toList

/-- `Variant::Variant`. -/
def construct : Arg → VariantData
  | .default => VT_Invalid
  | .null => VT_Null
  | .bool bool_val => VT_Bool bool_val
  | .int int_val => VT_Int int_val
  | .double double_val => VT_Double double_val
  | .blob binary_val => binary_val.elim VT_Null VT_Binary
  | .string string_val => string_val.elim VT_Null VT_String
  | .object object_val => object_val.elim VT_Null VT_Object
  | .array array => array.elim VT_Null VT_Array
  | .hash hash => hash.elim VT_Null VT_Hash

/-- The reference in the union. -/
def held : VariantData → List ObjectId
  | VT_Invalid | VT_Null | VT_Bool _ | VT_Int _ | VT_Double _ => []
  | VT_Binary o | VT_String o | VT_Object o | VT_Array o | VT_Hash o => [o]

/-- The Variant is over an array or a hash. -/
def container : VariantData → Bool
  | VT_Array _ | VT_Hash _ => true
  | _ => false

/-- `Variant::~Variant`: the reference it gives up, or the assertion. -/
def destroy : VariantData → Outcome Empty (List ObjectId)
  | VT_Invalid | VT_Null => .ok []
  | VT_Bool _ | VT_Int _ | VT_Double _ => .ok []
  | VT_Binary binary_val => .ok [binary_val]
  | VT_String string_val => .ok [string_val]
  | VT_Object object_val => .ok [object_val]
  | _ => .fault

theorem held_construct (arg : Arg) : (construct arg).held = arg.taken := by
  cases arg with
  | blob d | string d | object d | array d | hash d => cases d <;> rfl
  | _ => rfl

theorem destroy_eq (v : VariantData) : v.destroy = if v.container then .fault else .ok v.held := by
  cases v <;> rfl

end VariantData

/-- What lives under a number. Of the other objects only the references count. -/
inductive ObjectItem where
  | variant (v : VariantData)
  | array (items : List (Option ObjectId))
  | hash (nodes : List (ObjectId × Option ObjectId))
  | data
  | other (held : List ObjectId)
  deriving DecidableEq, Repr

namespace ObjectItem

/-- The references an item holds, as its destructor meets them: an array gives up its last
element first, and a node its value before its key. -/
def held : ObjectItem → List ObjectId
  | variant v => v.held
  | array items => items.reverse.reduceOption
  | hash nodes => nodes.flatMap fun node => node.2.toList ++ [node.1]
  | data => []
  | other held => held

/-- The destructor of an item. -/
def destroy : ObjectItem → Outcome Empty (List ObjectId)
  | variant v => v.destroy
  | item => .ok item.held

/-- A Variant over an array or a hash. -/
def container : ObjectItem → Bool
  | variant v => v.container
  | _ => false

/-- The contents of an array, a hash or another object may change, a Variant may not. -/
def mayBecome : ObjectItem → ObjectItem → Bool
  | array _, array _ | hash _, hash _ | other _, other _ => true
  | _, _ => false

/-- The item that a constructor takes a reference to. -/
def suits : VariantData.Arg → ObjectItem → Bool
  | .blob _, data | .string _, data => true
  | .object _, variant _ | .object _, array _ | .object _, hash _ | .object _, other _ => true
  | .array _, array _ => true
  | .hash _, hash _ => true
  | _, _ => false

theorem destroy_eq (item : ObjectItem) :
    item.destroy = if item.container then .fault else .ok item.held := by
  cases item with
  | variant v => exact v.destroy_eq
  | _ => rfl

end ObjectItem

/-- The objects of a program, and the references that its variables hold. -/
structure Objects where
  counters : Counters ObjectId
  item : ObjectId → ObjectItem
  roots : List ObjectId

namespace Objects

/-- Nothing is there. -/
def init : Objects := ⟨⟨∅, fun _ => 0⟩, fun _ => .data, []⟩

/-- The references that an object holds. -/
def held (s : Objects) (o : ObjectId) : List ObjectId := (s.item o).held

/-- `new` of an object that holds nothing. -/
def create (s : Objects) (o : ObjectId) (item : ObjectItem) : Objects :=
  ⟨s.counters.create o, Function.update s.item o item, o :: s.roots⟩

/-- An object takes references, and leaves others to the program. -/
def exchange (s : Objects) (o : ObjectId) (item : ObjectItem) (taken given : List ObjectId) : Objects :=
  ⟨s.counters.refAll taken, Function.update s.item o item, given ++ s.roots⟩

/-- `new Variant`. -/
def newVariant (s : Objects) (o : ObjectId) (arg : VariantData.Arg) : Objects :=
  (s.create o (.variant .VT_Invalid)).exchange o (.variant (.construct arg)) arg.taken []

/-- `unref`: the references that are given up one after the other, under a bound. -/
def unref (s : Objects) (o : ObjectId) (fuel : Nat) : Outcome Empty (Counters ObjectId) :=
  Counters.release (fun b => (s.item b).destroy) fuel [o] s.counters

/-- What a program does: it builds objects and Variants, stores and removes references in
arrays, hashes and other objects, and copies and gives up those of its own. -/
inductive Step : Objects → Objects → Prop
  | create (s : Objects) (o : ObjectId) (item : ObjectItem) (hnew : o ∉ s.counters.live)
      (hitem : item = .array [] ∨ item = .hash [] ∨ item = .data ∨ item = .other []) :
      Step s (s.create o item)
  | newVariant (s : Objects) (o : ObjectId) (arg : VariantData.Arg) (hnew : o ∉ s.counters.live)
      (harg : ∀ x ∈ arg.taken, x ∈ s.counters.live ∧ ObjectItem.suits arg (s.item x)) :
      Step s (s.newVariant o arg)
  | exchange (s : Objects) (o : ObjectId) (item : ObjectItem) (taken given : List ObjectId)
      (hlive : o ∈ s.counters.live) (hitem : ObjectItem.mayBecome (s.item o) item)
      (htaken : ∀ x ∈ taken, x ∈ s.counters.live)
      (hrefs : (taken ++ s.held o).Perm (item.held ++ given)) :
      Step s (s.exchange o item taken given)
  | ref (s : Objects) (o : ObjectId) (hlive : o ∈ s.counters.live) :
      Step s { s with counters := s.counters.ref o, roots := o :: s.roots }
  | unref (s : Objects) (o : ObjectId) (counters : Counters ObjectId) (hroot : o ∈ s.roots)
      (hrun : Outcome.Returns (s.unref o) counters) :
      Step s { s with counters := counters, roots := s.roots.erase o }

/-- The states of the programs. -/
inductive Reachable : Objects → Prop
  | init : Reachable init
  | step {s s' : Objects} (h : Reachable s) (hstep : Step s s') : Reachable s'

/-- The references of the program and of the objects are all that are counted. -/
def Counted (s : Objects) : Prop := Counters.Counted s.held s.counters s.roots

/-- What the object takes with it when the program gives up its reference to it. -/
def DiesWith (s : Objects) (o b : ObjectId) : Prop :=
  Counters.Dies s.held s.counters.live (s.roots.erase o) b

/-- Every reference of what is gone has been given up, once. -/
def ReleasedOnce (s : Objects) (o : ObjectId) (counters : Counters ObjectId) : Prop :=
  counters.live ⊆ s.counters.live ∧
    ∀ a, counters.refcnt a +
      ([o].count a + ∑ b ∈ s.counters.live \ counters.live, (s.held b).count a) =
        s.counters.refcnt a

/-- Without the assertion the object is given up, with all that dies with it, and
every reference is released once. -/
def Destroys (s : Objects) (o : ObjectId) : Prop :=
  ∃ counters, Outcome.Returns (s.unref o) counters ∧ s.ReleasedOnce o counters ∧
    ∀ b, b ∈ counters.live ↔ b ∈ s.counters.live ∧ ¬ s.DiesWith o b

/-- No Variant over an array or a hash dies with the object. -/
def KeepsContainers (s : Objects) (o : ObjectId) : Prop :=
  ∀ b ∈ s.counters.live, s.DiesWith o b → ¬ (s.item b).container

variable {s s' : Objects} {o : ObjectId}

theorem counted_create (h : s.Counted) {item : ObjectItem} (hnew : o ∉ s.counters.live)
    (hempty : item.held = []) : (s.create o item).Counted := by
  have hcongr : Counters.Counted (s.create o item).held s.counters s.roots := by
    refine Counters.Counted.congr h fun b hb => ?_
    have hne : b ≠ o := fun heq => hnew (heq ▸ hb)
    simp only [held, create, Function.update_of_ne hne]
  refine hcongr.create hnew ?_
  simpa only [held, create, Function.update_self] using hempty

theorem counted_exchange (h : s.Counted) {item : ObjectItem} {taken given : List ObjectId}
    (hlive : o ∈ s.counters.live) (htaken : ∀ x ∈ taken, x ∈ s.counters.live)
    (hrefs : (taken ++ s.held o).Perm (item.held ++ given)) :
    (s.exchange o item taken given).Counted := by
  have hcounted := Counters.Counted.refAll h htaken
  refine hcounted.exchange (by rwa [Counters.live_refAll]) ?_ fun x hx => ?_
  · simpa only [held, exchange, Function.update_self] using hrefs
  · simp only [held, exchange, Function.update_of_ne hx]

theorem counted_newVariant (h : s.Counted) {arg : VariantData.Arg} (hnew : o ∉ s.counters.live)
    (htaken : ∀ x ∈ arg.taken, x ∈ s.counters.live) : (s.newVariant o arg).Counted := by
  have hcreate : (s.create o (.variant .VT_Invalid)).Counted := counted_create h hnew rfl
  refine counted_exchange hcreate (Finset.mem_insert_self o _) (fun x hx => ?_) ?_
  · exact Finset.mem_insert_of_mem (htaken x hx)
  · simp only [held, create, Function.update_self, ObjectItem.held, VariantData.held_construct]
    exact List.Perm.refl _

theorem destroy_held (s : Objects) (a : ObjectId) (l : List ObjectId)
    (h : (s.item a).destroy = .ok l) : l = s.held a := by
  rw [ObjectItem.destroy_eq] at h
  split at h
  · cases h
  · exact (Outcome.ok.inj h).symm

theorem counted_pending (h : s.Counted) (hroot : o ∈ s.roots) :
    Counters.Counted s.held s.counters ([o] ++ s.roots.erase o) :=
  Counters.Counted.perm h (List.perm_cons_erase hroot)

/-- What a reference that was given up without the assertion has done. -/
theorem counted_unref (h : s.Counted) (hroot : o ∈ s.roots) {counters : Counters ObjectId}
    (hrun : Outcome.Returns (s.unref o) counters) :
    Counters.Counted s.held counters (s.roots.erase o) ∧ counters.live ⊆ s.counters.live := by
  obtain ⟨least, hrun⟩ := hrun
  obtain ⟨hcounted, hlive, _⟩ := Counters.release_ok (fun a l => s.destroy_held a l)
    (counted_pending h hroot) (hrun least (Nat.le_refl least))
  exact ⟨hcounted, hlive⟩

theorem counted_step (h : s.Counted) (hstep : Step s s') : s'.Counted := by
  cases hstep with
  | create o item hnew hitem =>
    refine counted_create h hnew ?_
    rcases hitem with rfl | rfl | rfl | rfl <;> rfl
  | newVariant o arg hnew harg => exact counted_newVariant h hnew fun x hx => (harg x hx).1
  | exchange o item taken given hlive _ htaken hrefs =>
    exact counted_exchange h hlive htaken hrefs
  | ref o hlive => exact Counters.Counted.ref h hlive
  | unref o counters hroot hrun => exact (counted_unref h hroot hrun).1

theorem counted_of_reachable (h : Reachable s) : s.Counted := by
  induction h with
  | init => exact ⟨fun _ => rfl, fun _ hpos => absurd hpos (Nat.lt_irrefl 0),
      fun _ hmem => absurd hmem (Finset.notMem_empty _)⟩
  | step _ hstep ih => exact counted_step ih hstep

/-- An object is destroyed with all that dies with it exactly if no Variant over an array or
a hash is among that. -/
theorem destroys_iff (h : Reachable s) (hroot : o ∈ s.roots) :
    s.Destroys o ↔ s.KeepsContainers o := by
  have hpending := counted_pending (counted_of_reachable h) hroot
  have hiff := Counters.release_returns_iff (fun a l => s.destroy_held a l) hpending
  have hdestroy : ∀ b, (s.item b).destroy = .ok (s.held b) ↔ ¬ (s.item b).container := by
    intro b
    rw [ObjectItem.destroy_eq, held]
    split <;> simp_all
  constructor
  · rintro ⟨counters, hrun, _⟩ b hb hdies
    exact (hdestroy b).mp (hiff.mp ⟨counters, hrun⟩ b hb hdies)
  · intro hkeeps
    obtain ⟨counters, hrun⟩ := hiff.mpr fun b hb hdies => (hdestroy b).mpr (hkeeps b hb hdies)
    obtain ⟨hcounted, hlive⟩ := counted_unref (counted_of_reachable h) hroot hrun
    refine ⟨counters, hrun, ⟨hlive, ?_⟩, fun b => ?_⟩
    · exact Counters.Counted.given_up hpending hcounted hlive
    · exact Counters.mem_live_of_release (fun a l => s.destroy_held a l) hpending hrun

/-- A reference of the program is given up, where there are others. -/
def dropRoot (s : Objects) (o : ObjectId) : Objects :=
  { s with counters := s.counters.drop o, roots := s.roots.erase o }

theorem Reachable.dropRoot (h : Reachable s) (hroot : o ∈ s.roots) (hlive : o ∈ s.counters.live)
    (hmore : s.counters.refcnt o ≠ 1) : Reachable (s.dropRoot o) := by
  refine h.step (.unref s o (s.counters.drop o) hroot ⟨1, fun fuel hfuel => ?_⟩)
  obtain ⟨k, rfl⟩ := Nat.exists_eq_add_of_le' hfuel
  rw [unref, Counters.release, if_neg (not_not_intro hlive), if_neg hmore]
  cases k <;> rfl

/-- Variants over a string, over an array and over the same array as an object. -/
def threeVariants : Objects :=
  (((init.create 0 .data).newVariant 1 (.string (some 0))).create 2 (.array [])).newVariant 3
    (.array (some 2)) |>.newVariant 5 (.object (some 2))

/-- They are stored in another array, and the program keeps this and the second one. -/
def storedVariants : Objects :=
  ((threeVariants.create 4 (.array [])).exchange 4 (.array [some 1, some 3, some 5]) [1, 3, 5] [])
    |>.dropRoot 0 |>.dropRoot 1 |>.dropRoot 2 |>.dropRoot 5

theorem reachable_storedVariants : Reachable storedVariants := by
  have hdata : Reachable (init.create 0 .data) :=
    .step .init (.create init 0 .data (Finset.notMem_empty 0) (by decide))
  have hstring := hdata.step (.newVariant _ 1 (.string (some 0)) (by decide) (by decide))
  have harray := hstring.step (.create _ 2 (.array []) (by decide) (by decide))
  have hover := harray.step (.newVariant _ 3 (.array (some 2)) (by decide) (by decide))
  have hthree : Reachable threeVariants :=
    hover.step (.newVariant _ 5 (.object (some 2)) (by decide) (by decide))
  have houter := hthree.step (.create _ 4 (.array []) (by decide) (by decide))
  have hstored := houter.step (.exchange _ 4 (.array [some 1, some 3, some 5]) [1, 3, 5] []
    (by decide) (by decide) (by decide) (by decide))
  have h₁ := hstored.dropRoot (o := 0) (by decide) (by decide) (by decide)
  have h₂ := h₁.dropRoot (o := 1) (by decide) (by decide) (by decide)
  have h₃ := h₂.dropRoot (o := 2) (by decide) (by decide) (by decide)
  exact h₃.dropRoot (by decide) (by decide) (by decide)

/-- The outer array dies with the Variants over the string and the object. The one over the inner
array stays, with it the array. -/
theorem destroys_storedVariants : storedVariants.roots = [4, 3] ∧ storedVariants.Destroys 4 := by
  refine ⟨by decide, (destroys_iff reachable_storedVariants (by decide)).mpr fun b hb hdies => ?_⟩
  by_cases hkept : b = 3
  · obtain ⟨hnot, -⟩ := hdies
    exact absurd (by decide) (hkept ▸ hnot)
  · have hnone : ∀ b ∈ storedVariants.counters.live, b ≠ 3 →
        ¬ (storedVariants.item b).container := by decide
    exact hnone b hb hkept

/-- A Variant over an array, and the array. -/
def arrayVariant : Objects := (init.create 0 (.array [])).newVariant 1 (.array (some 0))

theorem reachable_arrayVariant : Reachable arrayVariant := by
  refine .step (.step .init (.create init 0 (.array []) (Finset.notMem_empty 0) (by decide))) ?_
  exact .newVariant _ 1 (.array (some 0)) (by decide) (by decide)

/-- Giving up the Variant reaches the assertion. -/
theorem not_destroys_arrayVariant :
    Reachable arrayVariant ∧ 1 ∈ arrayVariant.roots ∧ ¬ arrayVariant.Destroys 1 := by
  refine ⟨reachable_arrayVariant, by decide, ?_⟩
  rintro ⟨counters, ⟨least, hrun⟩, _⟩
  have hfault : arrayVariant.unref 1 (least + 1) = .fault := rfl
  rw [hrun (least + 1) (Nat.le_succ least)] at hfault
  cases hfault

end Objects

end Drt
