import Drt.Core.Cmodel.Object

/-!
# What an interface table inherits

A class offers itself, and what its parent and its interfaces offer, each at the sum of
the offsets on the way. The offset of a dynamic entry is its mark: once the offsets added
to it make it positive, it is taken for a part of the object.
-/

namespace Drt

/-- How a table is put together: `createIfaceStatic` begins with a name of its own, and takes
the entries of other tables, or dynamic ones, after each other. -/
inductive Decl (Create : Type) where
  | own (name : Nat)
  | pair (decl : Decl Create) (offs : Nat) (defs : Decl Create)
  | dynamic (decl : Decl Create) (offs : Int) (negative : offs < 0) (if_name : Nat)
      (create_func : Create)

/-- An interface that a class offers; the offset is the sum along the way. -/
structure Entry (Create : Type) where
  name : Nat
  offs : Int
  create_func : Option Create

namespace Entry

variable {Create : Type}

def shift (e : Entry Create) (offs : Nat) : Entry Create := { e with offs := offs + e.offs }

/-- What a node says of an interface. -/
def ofNode (node : IfaceNode Create) : Entry Create := ⟨node.name, node.offs, node.create_func⟩

/-- The node is right about the entry: the offset of a part, or the function behind a negative
offset. -/
def Matches (e : Entry Create) (node : IfaceNode Create) : Prop :=
  node.create_func = e.create_func ∧
    (e.create_func = none → node.offs = e.offs ∧ 0 ≤ node.offs) ∧
    (e.create_func.isSome = true → node.offs < 0)

end Entry

namespace Decl

variable {Create : Type} (store : StringStore)

open Static

/-- The table, and the number of nodes used for it. -/
def build : Decl Create → Static Create × Nat
  | own name => addNode store (create name) 0 (.plain name)
  | pair decl offs defs =>
    merge store decl.build.1 decl.build.2 offs defs.build.1
  | dynamic decl offs _ if_name create_func =>
    addNode store decl.build.1 decl.build.2 (.dynamic if_name offs create_func)

/-- The interfaces offered along all ways of inheritance. -/
inductive Offers : Decl Create → Entry Create → Prop where
  | own (name : Nat) : Offers (own name) ⟨name, 0, none⟩
  | earlier {decl : Decl Create} {e : Entry Create} (offs : Nat) (defs : Decl Create)
      (h : Offers decl e) : Offers (pair decl offs defs) e
  | inherited (decl : Decl Create) {e : Entry Create} (offs : Nat) {defs : Decl Create}
      (h : Offers defs e) : Offers (pair decl offs defs) (e.shift offs)
  | before {decl : Decl Create} {e : Entry Create} {offs : Int} (negative : offs < 0)
      (if_name : Nat) (create_func : Create) (h : Offers decl e) :
      Offers (dynamic decl offs negative if_name create_func) e
  | dynamic (decl : Decl Create) {offs : Int} (negative : offs < 0) (if_name : Nat)
      (create_func : Create) :
      Offers (dynamic decl offs negative if_name create_func) ⟨if_name, offs, some create_func⟩

/-- The entry of another table is taken, unless there is one of its name. -/
def take (offs : Nat) (entries : List (Entry Create)) (e : Entry Create) : List (Entry Create) :=
  if entries.any (fun t => store.text t.name = store.text e.name) then entries
  else e.shift offs :: entries

/-- The entries that a table has, the last one first. -/
def entries : Decl Create → List (Entry Create)
  | own name => [⟨name, 0, none⟩]
  | pair decl offs defs => defs.entries.foldl (take store offs) decl.entries
  | dynamic decl offs _ if_name create_func => ⟨if_name, offs, some create_func⟩ :: decl.entries

/-- The entry which wins when a name is looked up: one with the same data, or else the first
one with the same content. -/
def winner (decl : Decl Create) (iface : Nat) : Option (Entry Create) :=
  ((decl.entries store).find? fun e => e.name = iface).or
    ((decl.entries store).find? fun e => store.text e.name = store.text iface)

/-- Every dynamic entry that wins a lookup has a negative offset, also with the offsets of all
tables it went through. -/
def KeepsDynamic (decl : Decl Create) : Prop :=
  ∀ iface e, decl.winner store iface = some e → e.create_func.isSome = true → e.offs < 0

/-- The table finds what the class offers, and is right about it. -/
structure Inherits (decl : Decl Create) (os : Static Create) : Prop where
  found : ∀ iface, (find store os iface).isSome = true ↔
    ∃ e, decl.Offers e ∧ store.text e.name = store.text iface
  right : ∀ iface node, find store os iface = some node →
    ∃ e, decl.Offers e ∧ store.text e.name = store.text iface ∧ e.Matches node

/-- The entries of a list of the table. -/
def bucket (i : Fin 32) (l : List (Entry Create)) : List (Entry Create) :=
  l.filter fun e => index store e.name = i

variable {store}

theorem index_congr {name name' : Nat} (h : store.text name = store.text name') :
    index store name = index store name' :=
  Fin.ext (congrArg (fun text => store.getHash text % 32) h)

variable {es l : List (Entry Create)} {e : Entry Create} {iface offs : Nat} {decl : Decl Create}

theorem mem_bucket {i : Fin 32} : e ∈ bucket store i l ↔ e ∈ l ∧ index store e.name = i := by
  simp [bucket]

/-- Only the list for its name decides whether an entry is taken. -/
theorem any_bucket (l : List (Entry Create)) (name : Nat) :
    (bucket store (index store name) l).any (fun t => store.text t.name = store.text name) =
      l.any (fun t => store.text t.name = store.text name) := by
  rw [Bool.eq_iff_iff, List.any_eq_true, List.any_eq_true]
  constructor
  · rintro ⟨e, he, heq⟩
    exact ⟨e, (mem_bucket.mp he).1, heq⟩
  · rintro ⟨e, he, heq⟩
    exact ⟨e, mem_bucket.mpr ⟨he, index_congr (of_decide_eq_true heq)⟩, heq⟩

variable (store) in
/-- The lists of a table are those of the entries. -/
def Represents (os : Static Create) (l : List (Entry Create)) : Prop :=
  ∀ i, (os.ifaces i).map Entry.ofNode = bucket store i l

theorem represents_addNode {os : Static Create} (h : Represents store os l) (node_mem : Nat)
    (node : IfaceNode Create) :
    Represents store (addNode store os node_mem node).1 (.ofNode node :: l) := by
  intro i
  by_cases hi : i = index store node.name
  · subst hi
    have hkeep : decide (index store (Entry.ofNode node).name = index store node.name) = true :=
      decide_eq_true rfl
    simp only [addNode, Function.update_self, List.map_cons, bucket, List.filter_cons, hkeep,
      if_true]
    rw [h]
    rfl
  · have hdrop : decide (index store (Entry.ofNode node).name = i) = false :=
      decide_eq_false (Ne.symm hi)
    simp only [addNode, Function.update_of_ne hi, bucket, List.filter_cons, hdrop,
      Bool.false_eq_true, if_false]
    exact h i

theorem represents_mergeNode {table : Static Create × Nat} (h : Represents store table.1 l)
    (offs : Nat) (node : IfaceNode Create) :
    Represents store (mergeNode store offs table node).1
      (take store offs l (.ofNode node)) := by
  have hany : (table.1.ifaces (index store node.name)).any
      (fun tnode => store.text tnode.name = store.text node.name) =
      l.any (fun t => store.text t.name = store.text node.name) := by
    rw [← any_bucket, ← h, List.any_map]
    rfl
  unfold mergeNode take
  rw [hany]
  change Represents store _ (if (l.any fun t => store.text t.name = store.text node.name) = true
    then l else _)
  split
  · exact h
  · exact represents_addNode h _ _

theorem represents_foldl (nodes : List (IfaceNode Create)) (offs : Nat) :
    ∀ {table : Static Create × Nat}, Represents store table.1 l →
      Represents store (nodes.foldl (mergeNode store offs) table).1
        ((nodes.map Entry.ofNode).foldl (take store offs) l) := by
  induction nodes generalizing l with
  | nil => exact fun h => h
  | cons node nodes ih => exact fun h => ih (represents_mergeNode h offs node)

/-- An entry changes the list of its own name only. -/
theorem bucket_take (offs : Nat) (i : Fin 32) (l : List (Entry Create)) (e : Entry Create) :
    bucket store i (take store offs l e) =
      if index store e.name = i then take store offs (bucket store i l) e
      else bucket store i l := by
  by_cases hi : index store e.name = i
  · subst hi
    have hkeep : decide (index store (e.shift offs).name = index store e.name) = true :=
      decide_eq_true rfl
    rw [if_pos rfl]
    unfold take
    rw [any_bucket]
    split
    · rfl
    · simp only [bucket, List.filter_cons, hkeep, if_true]
  · have hdrop : decide (index store (e.shift offs).name = i) = false := decide_eq_false hi
    rw [if_neg hi]
    unfold take
    split
    · rfl
    · simp only [bucket, List.filter_cons, hdrop, Bool.false_eq_true, if_false]

/-- The lists of a merged table depend on the lists that are merged, not on their order. -/
theorem bucket_foldl (offs : Nat) (i : Fin 32) (es : List (Entry Create)) :
    ∀ l : List (Entry Create), bucket store i (es.foldl (take store offs) l) =
      (bucket store i es).foldl (take store offs) (bucket store i l) := by
  induction es with
  | nil => exact fun _ => rfl
  | cons e es ih =>
    intro l
    rw [List.foldl_cons, ih, bucket_take]
    by_cases hi : index store e.name = i
    · have hcons : bucket store i (e :: es) = e :: bucket store i es :=
        List.filter_cons_of_pos (decide_eq_true hi)
      rw [if_pos hi, hcons, List.foldl_cons]
    · have hskip : bucket store i (e :: es) = bucket store i es :=
        List.filter_cons_of_neg (by simpa using hi)
      rw [if_neg hi, hskip]

theorem flatMap_single {α β : Type} [DecidableEq α] {l : List α} (hl : l.Nodup) {i : α}
    (hi : i ∈ l) (f : α → List β) (hf : ∀ j, j ≠ i → f j = []) : l.flatMap f = f i := by
  induction l with
  | nil => cases hi
  | cons a l ih =>
    rw [List.flatMap_cons]
    by_cases ha : a = i
    · subst ha
      have hnone : l.flatMap f = [] := by
        rw [List.flatMap_eq_nil_iff]
        intro j hj
        exact hf j fun heq => (List.nodup_cons.mp hl).1 (heq ▸ hj)
      rw [hnone, List.append_nil]
    · rw [hf a ha, List.nil_append]
      exact ih (List.nodup_cons.mp hl).2 ((List.mem_cons.mp hi).resolve_left (Ne.symm ha))

/-- Going through the lists of a table gives every list as it is. -/
theorem bucket_nodes {os : Static Create} (h : Represents store os l) (i : Fin 32) :
    bucket store i (os.nodes.map Entry.ofNode) = bucket store i l := by
  have hnodes : os.nodes.map Entry.ofNode =
      (List.finRange 32).flatMap fun j => bucket store j l := by
    rw [nodes, List.map_flatMap]
    exact List.flatMap_congr fun j _ => h j
  have hsame : bucket store i (bucket store i l) = bucket store i l := by
    simp [bucket, List.filter_filter]
  rw [hnodes, bucket, List.filter_flatMap]
  rw [flatMap_single (List.nodup_finRange 32) (List.mem_finRange i)]
  · exact hsame
  · intro j hj
    rw [List.filter_eq_nil_iff]
    intro e he heq
    exact hj ((mem_bucket.mp he).2.symm.trans (of_decide_eq_true heq))

variable (store) in
theorem represents_build (decl : Decl Create) :
    Represents store (decl.build store).1 (decl.entries store) := by
  induction decl with
  | own name =>
    refine represents_addNode (l := []) ?_ 0 (.plain name)
    exact fun _ => rfl
  | pair decl offs defs ih ihdefs =>
    intro i
    rw [build, merge]
    rw [represents_foldl _ offs ih i, entries, bucket_foldl, bucket_foldl, bucket_nodes ihdefs]
  | dynamic decl offs negative if_name create_func ih =>
    exact represents_addNode ih _ (.dynamic if_name offs create_func)

variable (store) in
/-- A lookup in the table gives the entry that wins. -/
theorem find_build (decl : Decl Create) (iface : Nat) :
    (find store (decl.build store).1 iface).map Entry.ofNode = decl.winner store iface := by
  have hlist := represents_build store decl (index store iface)
  have hbucket (p : Entry Create → Bool)
      (hp : ∀ e, p e = true → index store e.name = index store iface) :
      (bucket store (index store iface) (decl.entries store)).find? p =
        (decl.entries store).find? p := by
    rw [bucket, List.find?_filter]
    congr 1
    funext e
    rw [Bool.eq_iff_iff]
    simp only [decide_eq_true_eq]
    exact ⟨And.right, fun h => ⟨hp e h, h⟩⟩
  have hhash : ∀ node : IfaceNode Create,
      decide (store.getHash (store.text node.name) = store.getHash (store.text iface) ∧
        store.text node.name = store.text iface) =
      decide (store.text (Entry.ofNode node).name = store.text iface) := by
    intro node
    refine decide_eq_decide.mpr ⟨And.right, fun h => ⟨congrArg store.getHash h, h⟩⟩
  unfold find winner
  simp only [hhash]
  rw [Option.map_or]
  congr 1
  · rw [← hbucket _ (fun e he => by rw [of_decide_eq_true he]), ← hlist, List.find?_map]
    rfl
  · rw [← hbucket _ (fun e he => index_congr (of_decide_eq_true he)), ← hlist, List.find?_map]
    rfl

theorem mem_foldl_take (h : e ∈ es.foldl (take store offs) l) :
    e ∈ l ∨ ∃ e' ∈ es, e = e'.shift offs := by
  induction es generalizing l with
  | nil => exact .inl h
  | cons e' es ih =>
    rcases ih h with hmem | ⟨e'', hmem, heq⟩
    · unfold take at hmem
      split at hmem
      · exact .inl hmem
      · rcases List.mem_cons.mp hmem with rfl | hmem
        · exact .inr ⟨e', List.mem_cons_self, rfl⟩
        · exact .inl hmem
    · exact .inr ⟨e'', List.mem_cons_of_mem _ hmem, heq⟩

theorem mem_foldl_take_of_mem (h : e ∈ l) : e ∈ es.foldl (take store offs) l := by
  induction es generalizing l with
  | nil => exact h
  | cons e' es ih =>
    refine ih ?_
    unfold take
    split
    · exact h
    · exact List.mem_cons_of_mem _ h

/-- Every name of the second table is there afterwards. -/
theorem exists_foldl_take (offs : Nat) (h : e ∈ es) (l : List (Entry Create)) :
    ∃ t ∈ es.foldl (take store offs) l, store.text t.name = store.text e.name := by
  induction es generalizing l with
  | nil => cases h
  | cons e' es ih =>
    rcases List.mem_cons.mp h with rfl | h
    · have hthere : ∃ t ∈ take store offs l e, store.text t.name = store.text e.name := by
        unfold take
        split
        · rename_i hany
          obtain ⟨t, ht, heq⟩ := List.any_eq_true.mp hany
          exact ⟨t, ht, of_decide_eq_true heq⟩
        · exact ⟨e.shift offs, List.mem_cons_self, rfl⟩
      obtain ⟨t, ht, heq⟩ := hthere
      have hkept : t ∈ es.foldl (take store offs) (take store offs l e) :=
        mem_foldl_take_of_mem ht
      exact ⟨t, hkept, heq⟩
    · exact ih h _

theorem offers_of_mem (h : e ∈ decl.entries store) : decl.Offers e := by
  induction decl generalizing e with
  | own name =>
    obtain rfl := List.mem_singleton.mp h
    exact .own name
  | pair decl offs defs ih ihdefs =>
    rcases mem_foldl_take h with hmem | ⟨e', hmem, rfl⟩
    · exact .earlier offs defs (ih hmem)
    · exact .inherited decl offs (ihdefs hmem)
  | dynamic decl offs negative if_name create_func ih =>
    rcases List.mem_cons.mp h with rfl | hmem
    · exact .dynamic decl negative if_name create_func
    · exact .before negative if_name create_func (ih hmem)

variable (store) in
/-- Every name that is offered has an entry. -/
theorem exists_entry (h : decl.Offers e) :
    ∃ t ∈ decl.entries store, store.text t.name = store.text e.name := by
  induction h with
  | own name => exact ⟨_, List.mem_singleton.mpr rfl, rfl⟩
  | earlier offs defs h ih =>
    obtain ⟨t, ht, heq⟩ := ih
    exact ⟨t, mem_foldl_take_of_mem ht, heq⟩
  | inherited decl offs h ih =>
    obtain ⟨t, ht, heq⟩ := ih
    obtain ⟨t', ht', heq'⟩ := exists_foldl_take offs ht (decl.entries store)
    exact ⟨t', ht', heq'.trans heq⟩
  | before negative if_name create_func h ih =>
    obtain ⟨t, ht, heq⟩ := ih
    exact ⟨t, List.mem_cons_of_mem _ ht, heq⟩
  | dynamic decl negative if_name create_func => exact ⟨_, List.mem_cons_self, rfl⟩

/-- The sum of the offsets on the way to a part of the object is not negative. -/
theorem Offers.nonneg (h : decl.Offers e) (hpart : e.create_func = none) : 0 ≤ e.offs := by
  induction h with
  | own name => exact le_rfl
  | earlier offs defs h ih => exact ih hpart
  | inherited decl offs h ih => exact Int.add_nonneg (Int.natCast_nonneg offs) (ih hpart)
  | before negative if_name create_func h ih => exact ih hpart
  | dynamic decl negative if_name create_func => cases hpart

theorem mem_of_winner (h : decl.winner store iface = some e) :
    e ∈ decl.entries store ∧ store.text e.name = store.text iface := by
  unfold winner at h
  rcases Option.or_eq_some_iff.mp h with hdata | ⟨-, htext⟩
  · have hname := List.find?_some hdata
    exact ⟨List.mem_of_find?_eq_some hdata, congrArg store.text (of_decide_eq_true hname)⟩
  · have hname := List.find?_some htext
    exact ⟨List.mem_of_find?_eq_some htext, of_decide_eq_true hname⟩

theorem isSome_winner_iff :
    (decl.winner store iface).isSome = true ↔
      ∃ e, decl.Offers e ∧ store.text e.name = store.text iface := by
  constructor
  · intro h
    obtain ⟨e, he⟩ := Option.isSome_iff_exists.mp h
    obtain ⟨hmem, htext⟩ := mem_of_winner he
    exact ⟨e, offers_of_mem hmem, htext⟩
  · rintro ⟨e, he, htext⟩
    obtain ⟨t, ht, heq⟩ := exists_entry store he
    unfold winner
    rw [Option.isSome_or, Bool.or_eq_true]
    right
    rw [List.find?_isSome]
    exact ⟨t, ht, decide_eq_true (heq.trans htext)⟩

/-- The table of a class is right if and only if the dynamic entries keep their mark. -/
theorem inherits_build_iff (decl : Decl Create) :
    Inherits store decl (decl.build store).1 ↔ KeepsDynamic store decl := by
  constructor
  · intro h iface e he hdynamic
    have hfind := find_build store decl iface
    rw [he] at hfind
    obtain ⟨node, hnode, rfl⟩ := Option.map_eq_some_iff.mp hfind
    obtain ⟨e', -, -, hsame, -, hnegative⟩ := h.right iface node hnode
    refine hnegative ?_
    rw [← hsame]
    exact hdynamic
  · intro h
    refine ⟨?_, ?_⟩
    · intro iface
      rw [← isSome_winner_iff, ← find_build, Option.isSome_map]
    · intro iface node hnode
      have hwinner : decl.winner store iface = some (.ofNode node) := by
        rw [← find_build, hnode]
        rfl
      obtain ⟨hmem, htext⟩ := mem_of_winner hwinner
      have hoffers := offers_of_mem hmem
      refine ⟨.ofNode node, hoffers, htext, rfl, ?_, ?_⟩
      · exact fun hpart => ⟨rfl, hoffers.nonneg hpart⟩
      · exact fun hdynamic => h iface _ hwinner hdynamic

/-- An argument of `createObjectStatic`, with the way its table was put together. -/
inductive Item (Create : Type) where
  | pair (offs : Nat) (defs : Decl Create)
  | dynamic (offs : Int) (negative : offs < 0) (if_name : Nat) (create_func : Create)

variable (store) in
def Item.toArg : Item Create → Arg Create
  | .pair offs defs => .pair offs (defs.build store).1
  | .dynamic offs negative if_name create_func => .dynamic offs negative if_name create_func

def add (decl : Decl Create) : Item Create → Decl Create
  | .pair offs defs => .pair decl offs defs
  | .dynamic offs negative if_name create_func => .dynamic decl offs negative if_name create_func

/-- The declaration of a class. -/
def ofObject (cname : Nat) (parent : Decl Create) (items : List (Item Create)) : Decl Create :=
  items.foldl add (.pair (.own cname) 0 parent)

theorem foldl_addArg (items : List (Item Create)) (decl : Decl Create) :
    (items.map (Item.toArg store)).foldl (addArg store) (decl.build store) =
      (items.foldl add decl).build store := by
  induction items generalizing decl with
  | nil => rfl
  | cons item items ih =>
    rw [List.map_cons, List.foldl_cons, List.foldl_cons, ← ih]
    cases item <;> rfl

variable (store) in
theorem createObjectStatic_eq (cname : Nat) (parent : Decl Create) (items : List (Item Create)) :
    let table := createObjectStatic store cname (parent.build store).1
      (items.map (Item.toArg store))
    (table.os, table.free_node) = (ofObject cname parent items).build store :=
  foldl_addArg items (.pair (.own cname) 0 parent)

variable (store) in
/-- Adding nodes takes as many places as there are nodes to add, at most. -/
theorem free_node_merge (nodes : List (IfaceNode Create)) (offs : Nat)
    (table : Static Create × Nat) :
    (nodes.foldl (mergeNode store offs) table).2 ≤ table.2 + nodes.length := by
  induction nodes generalizing table with
  | nil => exact le_rfl
  | cons node nodes ih =>
    have hnode : (mergeNode store offs table node).2 ≤ table.2 + 1 := by
      unfold mergeNode
      split
      · exact Nat.le_succ _
      · exact le_rfl
    have hrest := ih (mergeNode store offs table node)
    rw [List.foldl_cons, List.length_cons]
    omega

theorem length_nodes (os : Static Create) : os.nodes.length = os.getCount := by
  have hfold : ∀ (l : List (Fin 32)) (n : Nat),
      l.foldl (fun count i => count + (os.ifaces i).length) n =
        n + (l.flatMap os.ifaces).length := by
    intro l
    induction l with
    | nil => exact fun _ => rfl
    | cons i l ih =>
      intro n
      rw [List.foldl_cons, ih, List.flatMap_cons, List.length_append, Nat.add_assoc]
  unfold nodes getCount
  rw [hfold, Nat.zero_add]

/-- The arguments take no more nodes than were counted for them. -/
theorem free_node_foldl (args : List (Arg Create)) :
    ∀ (table : Static Create × Nat) (count : Nat), table.2 ≤ count →
      (args.foldl (addArg store) table).2 ≤ args.foldl (fun count arg => count + arg.count) count := by
  induction args with
  | nil => exact fun _ _ h => h
  | cons arg args ih =>
    intro table count h
    refine ih _ _ ?_
    cases arg with
    | pair offs defs =>
      have hmerge := free_node_merge store defs.nodes offs table
      rw [length_nodes] at hmerge
      exact hmerge.trans (Nat.add_le_add_right h _)
    | dynamic offs negative if_name create_func => exact Nat.succ_le_succ h

theorem free_node_le_count (cname : Nat) (parent : Static Create) (args : List (Arg Create)) :
    (createObjectStatic store cname parent args).free_node ≤
      (createObjectStatic store cname parent args).count := by
  refine free_node_foldl args _ _ ?_
  have hmerge := free_node_merge store parent.nodes 0
    (addNode store (create cname) 0 (.plain cname))
  rw [length_nodes] at hmerge
  exact hmerge

variable (store) in
/-- A table that is right, within its storage. -/
structure Complete (decl : Decl Create) (table : Allocated Create) : Prop where
  inherits : Inherits store decl table.os
  within : table.free_node ≤ table.count

/-- What `createObjectStatic` builds is right, within its storage, if and only if no dynamic entry
that wins a lookup has lost its mark on the way. -/
theorem complete_iff_keepsDynamic (store : StringStore) (cname : Nat) (parent : Decl Create)
    (items : List (Item Create)) :
    Complete store (ofObject cname parent items)
        (createObjectStatic store cname (parent.build store).1 (items.map (Item.toArg store))) ↔
      KeepsDynamic store (ofObject cname parent items) := by
  have htable := congrArg Prod.fst (createObjectStatic_eq store cname parent items)
  simp only at htable
  rw [← inherits_build_iff, ← htable]
  exact ⟨Complete.inherits, fun h => ⟨h, free_node_le_count _ _ _⟩⟩

/-- The interface 1 has a dynamic entry 2 at -1. A class which has it at the offset 8 finds 2 as
its part at the offset 7. -/
theorem not_complete_shifted :
    ¬ ∀ (store : StringStore) (cname : Nat) (parent : Decl Unit) (items : List (Item Unit)),
      Complete store (ofObject cname parent items)
        (createObjectStatic store cname (parent.build store).1
          (items.map (Item.toArg store))) := by
  intro h
  let store : StringStore := ⟨fun d => .bytes [UInt8.ofNat d], fun _ => 0⟩
  let interface : Decl Unit := .dynamic (.own 1) (-1) (by decide) 2 ()
  have hright := (h store 3 (.own 0) [.pair 8 interface]).inherits.right 2
  have hfind : ((find store (createObjectStatic store 3 ((Decl.own 0).build store).1
      [Item.toArg store (.pair 8 interface)]).os 2).map fun node =>
        (node.offs, node.create_func)) = some (7, some ()) := by decide
  obtain ⟨node, hnode, hnode'⟩ := Option.map_eq_some_iff.mp hfind
  obtain ⟨hoffs, hcreate⟩ := Prod.mk.inj hnode'
  obtain ⟨e, -, -, hsame, -, hnegative⟩ := hright node hnode
  have hnegative' := hnegative (by rw [← hsame, hcreate]; rfl)
  omega

end Decl

end Drt
