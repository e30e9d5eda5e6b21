import Drt.Core.Struct.AvlIteration
import Mathlib.Data.Finmap

/-!
# An AVL container as a finite map

A run of operations is compared with the reference, a finite map from keys to values. The two agree
after every operation, and the container is a balanced tree with all its pointers in place.
-/

open Finmap

open List

namespace Drt

open AvlTree Outcome

/-- The operations of a container that change it. -/
inductive AvlOp (K V : Type) where
  | create (key : K) (value : V)
  | ncreate (key : K) (value : V)
  | replace (key : K) (value : V)
  | remove (key : K)
  | clean

namespace Avl

variable {K V : Type}

/-- One operation, and what it says of its key. -/
def apply (env : AvlEnv K V) (fuel : Nat) (s : Avl K V) :
    AvlOp K V → Call (Option Bool × Avl K V)
  | .create key value => do
    let (created, s) ← s.create_g env fuel key value
    .ok (some created, s)
  | .ncreate key value => do
    let (_, s) ← s.ncreate_g env fuel key value
    .ok (none, s)
  | .replace key value => do
    let (created, s) ← s.replace_g env fuel key value
    .ok (some created, s)
  | .remove key => do
    let (removed, s) ← s.remove_g env fuel key
    .ok (some removed, s)
  | .clean => do
    let s ← s.clean_g fuel
    .ok (none, s)

/-- The operations one after another: what they say, and the container at the end. -/
def applyAll (env : AvlEnv K V) (fuel : Nat) :
    Avl K V → List (AvlOp K V) → Call (List (Option Bool) × Avl K V)
  | s, [] => .ok ([], s)
  | s, op :: ops => do
    let (result, s) ← s.apply env fuel op
    let (results, s) ← applyAll env fuel s ops
    .ok (result :: results, s)

end Avl

namespace AvlOp

variable {K V : Type} [DecidableEq K]

/-- The reference: what an operation says, and the pairs afterwards. -/
def refer (m : Finmap fun _ : K => V) : AvlOp K V → Option Bool × Finmap fun _ : K => V
  | create key value => (some (decide (key ∉ m)), if key ∈ m then m else m.insert key value)
  | ncreate key value => (none, if key ∈ m then m else m.insert key value)
  | replace key value => (some (decide (key ∉ m)), m.insert key value)
  | remove key => (some (decide (key ∈ m)), m.erase key)
  | clean => (none, ∅)

/-- The operations one after another. -/
def referAll (m : Finmap fun _ : K => V) :
    List (AvlOp K V) → List (Option Bool) × Finmap fun _ : K => V
  | [] => ([], m)
  | op :: ops =>
    let rest := referAll (op.refer m).2 ops
    ((op.refer m).1 :: rest.1, rest.2)

end AvlOp

namespace Avl

variable {K V : Type} {env : AvlEnv K V} {s s' : Avl K V} {T T' : AvlShape K V} {key : K}
  {value : V} {e : AvlEntry K V} {X Y l : List (AvlEntry K V)}

/-- The whole representation: the nodes are those of a balanced tree with its keys in strict order.
Each has the pointers to its children and its parent, its balance and its direction. -/
structure Represents (env : AvlEnv K V) (s : Avl K V) (T : AvlShape K V) : Prop where
  root : s.root = top T
  nodes : HoldsTree s.nodes.cell T none 0
  distinct : (addrs T).Nodup
  complete : ∀ a, (s.nodes.cell a).isSome → a ∈ addrs T
  balanced : T.Balanced
  ordered : Ordered env T.entries
  lowest : s.lowest = T.entries.head?.map AvlEntry.addr
  item_count : s.item_count = T.entries.length

/-- What holds between two calls is the representation. -/
theorem Inv.represents (h : s.Inv env T) : Represents env s T where
  root := h.root_eq
  nodes := h.focus.pieces.get (i := 1) rfl
  distinct := h.nodup
  complete a ha := by
    obtain ⟨e, he, rfl⟩ := h.exists_entry ha
    exact mem_map_of_mem he
  balanced := h.balanced
  ordered := h.ordered
  lowest := h.focus.lowest
  item_count := h.focus.count

/-- A list of entries has the pairs of a finite map. -/
def Stores [DecidableEq K] (l : List (AvlEntry K V)) (m : Finmap fun _ : K => V) : Prop :=
  ∀ k v, (∃ e ∈ l, e.k = k ∧ e.v = v) ↔ m.lookup k = some v

namespace Stores

variable [DecidableEq K] {m : Finmap fun _ : K => V}

theorem perm {l' : List (AvlEntry K V)} (h : Stores l m) (hperm : l.Perm l') : Stores l' m := by
  intro k v
  simp only [← hperm.mem_iff]
  exact h k v

theorem mem_iff (h : Stores l m) : key ∈ m ↔ ∃ e ∈ l, e.k = key := by
  rw [Finmap.mem_iff]
  constructor
  · rintro ⟨v, hv⟩
    obtain ⟨e, he, hk, -⟩ := (h key v).mpr hv
    exact ⟨e, he, hk⟩
  · rintro ⟨e, he, hk⟩
    exact ⟨e.v, (h key e.v).mp ⟨e, he, hk, rfl⟩⟩

theorem notMem (h : Stores l m) (habsent : ∀ e ∈ l, ¬ env.Same e.k key) :
    key ∉ m ∧ ∀ e ∈ l, e.k ≠ key := by
  have hne : ∀ e ∈ l, e.k ≠ key := fun e he heq => habsent e he (heq ▸ .refl env e.k)
  refine ⟨fun hmem => ?_, hne⟩
  obtain ⟨e, he, hk⟩ := h.mem_iff.mp hmem
  exact hne e he hk

/-- An entry with a key that no other one has. -/
theorem cons (h : Stores l m) (hne : ∀ f ∈ l, f.k ≠ e.k) : Stores (e :: l) (m.insert e.k e.v) := by
  intro k v
  by_cases hk : k = e.k
  · subst hk
    rw [lookup_insert]
    constructor
    · rintro ⟨f, hf, hfk, rfl⟩
      obtain rfl | hf := mem_cons.mp hf
      · rfl
      · exact absurd hfk (hne f hf)
    · intro hv
      exact ⟨e, mem_cons_self, rfl, Option.some.inj hv⟩
  · rw [lookup_insert_of_ne m hk, ← h k v]
    constructor
    · rintro ⟨f, hf, hfk, hfv⟩
      obtain rfl | hf := mem_cons.mp hf
      · exact absurd hfk.symm hk
      · exact ⟨f, hf, hfk, hfv⟩
    · rintro ⟨f, hf, hfk, hfv⟩
      exact ⟨f, mem_cons_of_mem e hf, hfk, hfv⟩

theorem erase (h : Stores (e :: l) m) (hne : ∀ f ∈ l, f.k ≠ e.k) : Stores l (m.erase e.k) := by
  intro k v
  by_cases hk : k = e.k
  · subst hk
    rw [lookup_erase]
    refine iff_of_false ?_ (by simp)
    rintro ⟨f, hf, hfk, -⟩
    exact hne f hf hfk
  · rw [lookup_erase_ne hk, ← h k v]
    constructor
    · rintro ⟨f, hf, hfk, hfv⟩
      exact ⟨f, mem_cons_of_mem e hf, hfk, hfv⟩
    · rintro ⟨f, hf, hfk, hfv⟩
      obtain rfl | hf := mem_cons.mp hf
      · exact absurd hfk.symm hk
      · exact ⟨f, hf, hfk, hfv⟩

theorem congr {m' : Finmap fun _ : K => V} (h : Stores l m) (heq : ∀ k, m'.lookup k = m.lookup k) :
    Stores l m' := by
  intro k v
  rw [heq]
  exact h k v

end Stores

theorem Ordered.ne (h : Ordered env (X ++ e :: Y)) : ∀ f ∈ X ++ Y, f.k ≠ e.k := by
  rw [Ordered, pairwise_append, pairwise_cons] at h
  obtain ⟨-, ⟨hright, -⟩, hleft⟩ := h
  intro f hf heq
  have hself : env.Same f.k e.k := heq ▸ .refl env f.k
  obtain hf | hf := mem_append.mp hf
  · exact (hleft f hf e mem_cons_self).not_same hself
  · exact (hright f hf).not_same' hself

section Steps

variable [DecidableEq K] {m : Finmap fun _ : K => V} {answer : Bool}

theorem Inserted.stores (hinserted : Inserted T e T') (hm : Stores T.entries m)
    (hne : ∀ f ∈ T.entries, f.k ≠ e.k) : Stores T'.entries (m.insert e.k e.v) := by
  obtain ⟨X, Y, hT, hT'⟩ := hinserted
  rw [hT] at hm hne
  rw [hT']
  exact (hm.cons hne).perm perm_middle.symm

variable (hstrict : ∀ k l, env.Same k l → k = l)

include hstrict

theorem Created.stores (hm : Stores T.entries m) (h : Created env T key value answer T') :
    answer = decide (key ∉ m) ∧
      Stores T'.entries (if key ∈ m then m else m.insert key value) := by
  obtain ⟨rfl, rfl, e, he, hsame⟩ | ⟨rfl, habsent, a, hinserted⟩ := h
  · have hmem : key ∈ m := hm.mem_iff.mpr ⟨e, he, hstrict _ _ hsame⟩
    exact ⟨by simp [hmem], by rwa [if_pos hmem]⟩
  · obtain ⟨hmem, hne⟩ := hm.notMem habsent
    exact ⟨by simp [hmem], by rw [if_neg hmem]; exact hinserted.stores hm hne⟩

/-- A replacement, and what the reference says of it. -/
theorem Replaced.stores (hm : Stores T.entries m) (hordered : Ordered env T.entries)
    (h : Replaced env T key value answer T') :
    answer = decide (key ∉ m) ∧ Stores T'.entries (m.insert key value) := by
  obtain ⟨rfl, X, e, Y, hT, hsame, hT'⟩ | ⟨rfl, habsent, a, hinserted⟩ := h
  · obtain rfl := hstrict _ _ hsame
    have hmem : e.k ∈ m := hm.mem_iff.mpr ⟨e, by simp [hT], rfl⟩
    rw [hT] at hm hordered
    have hrest := (hm.perm perm_middle).erase hordered.ne
    have hset := Stores.cons (e := { e with v := value }) hrest hordered.ne
    refine ⟨by simp [hmem], ?_⟩
    rw [hT']
    refine (hset.perm perm_middle.symm).congr fun k => ?_
    by_cases hk : k = e.k
    · subst hk
      rw [lookup_insert, lookup_insert]
    · rw [lookup_insert_of_ne _ hk, lookup_insert_of_ne _ hk,
        lookup_erase_ne hk]
  · obtain ⟨hmem, hne⟩ := hm.notMem habsent
    exact ⟨by simp [hmem], hinserted.stores hm hne⟩

/-- A removal, and what the reference says of it. -/
theorem Removed.stores (hm : Stores T.entries m) (hordered : Ordered env T.entries)
    (h : Removed env T key answer T') :
    answer = decide (key ∈ m) ∧ Stores T'.entries (m.erase key) := by
  obtain ⟨rfl, rfl, habsent⟩ | ⟨rfl, X, e, Y, hT, hsame, hT'⟩ := h
  · obtain ⟨hmem, -⟩ := hm.notMem habsent
    refine ⟨by simp [hmem], hm.congr fun k => ?_⟩
    by_cases hk : k = key
    · subst hk
      rw [lookup_erase, lookup_eq_none.mpr hmem]
    · rw [lookup_erase_ne hk]
  · obtain rfl := hstrict _ _ hsame
    have hmem : e.k ∈ m := hm.mem_iff.mpr ⟨e, by simp [hT], rfl⟩
    rw [hT] at hm hordered
    refine ⟨by simp [hmem], ?_⟩
    rw [hT']
    exact (hm.perm perm_middle).erase hordered.ne

end Steps

namespace Inv

/-- `ncreate_g` changes the container as `create_g` does. -/
theorem ncreate_created (hinv : s.Inv env T) (key : K) (value : V) :
    Yields (fun fuel => s.ncreate_g env fuel key value) fun x =>
      ∃ T' created, x.2.Inv env T' ∧ Created env T key value created T' := by
  refine (hinv.ncreate_yields key value).imp ?_
  rintro ⟨r, s'⟩ ⟨T', hinv', ⟨rfl, e, he, hsame, -⟩ | ⟨p, rfl, hleads, hgrown, -⟩⟩
  · exact ⟨T, false, hinv, .inl ⟨rfl, rfl, e, he, hsame⟩⟩
  · refine ⟨T', true, hinv', .inr ⟨rfl, hleads.not_same hinv.ordered, env.alloc.addr s.nodes,
      before p, after p, by simp, ?_⟩⟩
    rw [hgrown.entries, entries_plug]
    rfl

theorem exists_node_iff (hinv : s.Inv env T) (k : K) (v : V) :
    (∃ a n, s.nodes.cell a = some n ∧ n.k = k ∧ n.v = v) ↔ ∃ e ∈ T.entries, e.k = k ∧ e.v = v := by
  constructor
  · rintro ⟨a, n, hn, rfl, rfl⟩
    obtain ⟨e, he, rfl⟩ := hinv.exists_entry (a := a) (by simp [hn])
    obtain ⟨n', hn', hk, hv⟩ := hinv.exists_cell he
    obtain rfl := Option.some.inj (hn'.symm.trans hn)
    exact ⟨e, he, hk.symm, hv.symm⟩
  · rintro ⟨e, he, rfl, rfl⟩
    obtain ⟨n, hn, hk, hv⟩ := hinv.exists_cell he
    exact ⟨e.addr, n, hn, hk, hv⟩

variable [DecidableEq K] {m : Finmap fun _ : K => V}

/-- One operation and the reference. -/
theorem apply_yields (hstrict : ∀ k l, env.Same k l → k = l) (hinv : s.Inv env T)
    (hm : Stores T.entries m) (op : AvlOp K V) :
    Yields (fun fuel => s.apply env fuel op) fun x =>
      ∃ T', x.2.Inv env T' ∧ x.1 = (op.refer m).1 ∧ Stores T'.entries (op.refer m).2 := by
  cases op with
  | create key value =>
    refine (hinv.create_yields key value).bind ?_
    rintro ⟨created, s'⟩ ⟨T', hinv', hcreated⟩
    obtain ⟨hanswer, hm'⟩ := hcreated.stores hstrict hm
    exact .ok ⟨T', hinv', congrArg some hanswer, hm'⟩
  | ncreate key value =>
    refine (hinv.ncreate_created key value).bind ?_
    rintro ⟨r, s'⟩ ⟨T', created, hinv', hcreated⟩
    exact .ok ⟨T', hinv', rfl, (hcreated.stores hstrict hm).2⟩
  | replace key value =>
    refine (hinv.replace_yields key value).bind ?_
    rintro ⟨created, s'⟩ ⟨T', hinv', hreplaced⟩
    obtain ⟨hanswer, hm'⟩ := hreplaced.stores hstrict hm hinv.ordered
    exact .ok ⟨T', hinv', congrArg some hanswer, hm'⟩
  | remove key =>
    refine (hinv.remove_yields key).bind ?_
    rintro ⟨removed, s'⟩ ⟨T', hinv', hremoved⟩
    obtain ⟨hanswer, hm'⟩ := hremoved.stores hstrict hm hinv.ordered
    exact .ok ⟨T', hinv', congrArg some hanswer, hm'⟩
  | clean =>
    refine hinv.clean_yields.bind fun s' hinv' => ?_
    refine .ok ⟨.nil, hinv', rfl, fun k v => ?_⟩
    simp [AvlOp.refer]

/-- The operations one after another and the reference. -/
theorem applyAll_yields (hstrict : ∀ k l, env.Same k l → k = l) (hinv : s.Inv env T)
    (hm : Stores T.entries m) (ops : List (AvlOp K V)) :
    Yields (fun fuel => applyAll env fuel s ops) fun x =>
      ∃ T', x.2.Inv env T' ∧ x.1 = (AvlOp.referAll m ops).1 ∧
        Stores T'.entries (AvlOp.referAll m ops).2 := by
  induction ops generalizing s T m with
  | nil => exact .ok ⟨T, hinv, rfl, hm⟩
  | cons op ops ih =>
    refine (hinv.apply_yields hstrict hm op).bind ?_
    rintro ⟨result, s₁⟩ ⟨T₁, hinv₁, rfl, hm₁⟩
    refine (ih hinv₁ hm₁).bind ?_
    rintro ⟨results, s₂⟩ ⟨T₂, hinv₂, rfl, hm₂⟩
    exact .ok ⟨T₂, hinv₂, rfl, hm₂⟩

end Inv

/-- Any operations on a new container come to an end. They say of their keys what the reference
says, and leave the pairs of the reference in a balanced tree with all its pointers in place. -/
theorem applyAll_refers [DecidableEq K] (hstrict : ∀ k l, env.Same k l → k = l)
    (ops : List (AvlOp K V)) :
    ∃ results s T, Returns (fun fuel => applyAll env fuel new ops) (results, s) ∧
      Represents env s T ∧ results = (AvlOp.referAll ∅ ops).1 ∧
      ∀ k v, (∃ a n, s.nodes.cell a = some n ∧ n.k = k ∧ n.v = v) ↔
        (AvlOp.referAll ∅ ops).2.lookup k = some v := by
  have hnone : Stores ([] : List (AvlEntry K V)) ∅ := fun k v => by simp
  obtain ⟨⟨results, s⟩, hrun, T, hinv, hresults, hm⟩ :=
    (Inv.initial env).applyAll_yields hstrict hnone ops
  refine ⟨results, s, T, hrun, hinv.represents, hresults, fun k v => ?_⟩
  rw [hinv.exists_node_iff]
  exact hm k v

/-- A removal that leads to a rotation. -/
theorem applyAll_refers_removed :
    ∃ results s T, Returns (fun fuel => applyAll natEnv fuel new
        [.create 2 (), .create 1 (), .create 3 (), .create 4 (), .remove 1]) (results, s) ∧
      Represents natEnv s T ∧ results = [some true, some true, some true, some true, some true] := by
  have hstrict : ∀ k l, natEnv.Same k l → k = l := by
    intro k l h
    simp only [AvlEnv.Same, natEnv] at h
    omega
  obtain ⟨results, s, T, hrun, hrepresents, hresults, -⟩ := applyAll_refers hstrict
    [.create 2 (), .create 1 (), .create 3 (), .create 4 (), .remove 1]
  exact ⟨results, s, T, hrun, hrepresents, hresults.trans (by decide)⟩

end Avl

end Drt
