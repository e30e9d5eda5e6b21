import Drt.Core.Struct.AvlOperations

/-!
# Runs of an AVL container

The states that creations, replacements, removals and cleanings reach from a new container are
those of balanced trees with their keys in order.
-/

namespace Drt

open AvlTree Outcome

namespace Avl

variable {K V : Type} {env : AvlEnv K V} {s s' : Avl K V} {T T' : AvlShape K V} {key : K} {value : V}

/-- How the search for a key ends. -/
inductive Search (env : AvlEnv K V) (s : Avl K V) (T : AvlShape K V) (key : K) : Prop
  /-- There is a node with the key. -/
  | present (p : AvlPath K V) (l : AvlShape K V) (e : AvlEntry K V) (b : Int) (r : AvlShape K V)
      (hT : T = plug (node l e b r) p) (hsame : env.Same e.k key)
      (hseek : Returns (fun fuel => seekFrom env s key fuel .root 0) (slotOf p, 0))
      (hslot : s.loadSlot (slotOf p) = .ok (some e.addr))
      (hfind : Returns (fun fuel => s.find_g env fuel key) (some e.addr))
  /-- There is none. -/
  | absent (p : AvlPath K V) (hT : T = plug .nil p) (hleads : Leads env key p)
      (hseek : Returns (fun fuel => seekFrom env s key fuel .root 0) (slotOf p, dirOf p))
      (hslot : s.loadSlot (slotOf p) = .ok none)
      (hfind : Returns (fun fuel => s.find_g env fuel key) none)

/-- Another tree with the same nodes and a new one, at a place between them. -/
def Inserted (T : AvlShape K V) (e : AvlEntry K V) (T' : AvlShape K V) : Prop :=
  ∃ X Y, T.entries = X ++ Y ∧ T'.entries = X ++ e :: Y

/-- What a creation makes of the tree: with a key that is there, and with another one. -/
def Created (env : AvlEnv K V) (T : AvlShape K V) (key : K) (value : V) (created : Bool)
    (T' : AvlShape K V) : Prop :=
  (created = false ∧ T' = T ∧ ∃ e ∈ T.entries, env.Same e.k key) ∨
    (created = true ∧ (∀ e ∈ T.entries, ¬ env.Same e.k key) ∧
      ∃ a, Inserted T ⟨a, key, value⟩ T')

/-- What a replacement makes of the tree. -/
def Replaced (env : AvlEnv K V) (T : AvlShape K V) (key : K) (value : V) (created : Bool)
    (T' : AvlShape K V) : Prop :=
  (created = false ∧ ∃ X e Y, T.entries = X ++ e :: Y ∧ env.Same e.k key ∧
      T'.entries = X ++ { e with v := value } :: Y) ∨
    (created = true ∧ (∀ e ∈ T.entries, ¬ env.Same e.k key) ∧
      ∃ a, Inserted T ⟨a, key, value⟩ T')

/-- What a removal makes of the tree. -/
def Removed (env : AvlEnv K V) (T : AvlShape K V) (key : K) (removed : Bool)
    (T' : AvlShape K V) : Prop :=
  (removed = false ∧ T' = T ∧ ∀ e ∈ T.entries, ¬ env.Same e.k key) ∨
    (removed = true ∧ ∃ X e Y, T.entries = X ++ e :: Y ∧ env.Same e.k key ∧ T'.entries = X ++ Y)

namespace Inv

theorem initial (env : AvlEnv K V) : (new : Avl K V).Inv env .nil := by
  refine ⟨⟨⟨?_, by simp, by simp [new]⟩, rfl, rfl, rfl⟩, trivial, List.Pairwise.nil⟩
  simp only [List.forall_mem_cons]
  exact ⟨trivial, trivial, by simp⟩

/-- The search in a container. -/
theorem search (hinv : s.Inv env T) (key : K) : Search env s T key := by
  have hplug := plug_locate env key T []
  have hleads : Leads env key (locate env key T []).1 := leads_locate (by simp [Leads])
  have hseek := seek_returns env hinv.focus key
  have hfind := find_returns env hinv.focus key
  rw [← hinv.root_eq] at hfind
  have hfocus : s.Focus (lowestOf T) T.entries.length (locate env key T []).1
      (locate env key T []).2 [] := by
    rw [Focus.plug_iff, hplug]
    exact hinv.focus
  have hslot := hfocus.loadSlot
  rw [plug_nil] at hplug
  obtain hnil | ⟨l, e, b, r, hnode, hsame⟩ := locate_cases env key T []
  · rw [hnil] at hplug hseek hfind hslot
    exact .absent _ hplug.symm hleads hseek hslot hfind
  · rw [hnode] at hplug hseek hfind hslot
    exact .present _ l e b r hplug.symm hsame hseek hslot hfind

theorem insert_yields {p : AvlPath K V} (hinv : s.Inv env (plug .nil p))
    (hleads : Leads env key p) (value : V) :
    Yields (fun fuel => s.insertAt env fuel (slotOf p) (dirOf p) key value) fun s' =>
      ∃ T', s'.Inv env T' ∧ (∀ e ∈ (plug .nil p).entries, ¬ env.Same e.k key) ∧
        ∃ a, Inserted (plug .nil p) ⟨a, key, value⟩ T' := by
  refine (hinv.insertAt_yields rfl hleads value).imp ?_
  rintro s' ⟨T', hgrown, hinv'⟩
  refine ⟨T', hinv', hleads.not_same hinv.ordered, env.alloc.addr s.nodes, before p, after p,
    by simp, ?_⟩
  rw [hgrown.entries, entries_plug]
  rfl

/-- `create_g` returns. -/
theorem create_yields (hinv : s.Inv env T) (key : K) (value : V) :
    Yields (fun fuel => s.create_g env fuel key value) fun x =>
      ∃ T', x.2.Inv env T' ∧ Created env T key value x.1 T' := by
  cases hinv.search key with
  | present p l e b r hT hsame hseek hslot _ =>
    subst hT
    refine .bind_returns hseek (.bind_eq hslot (.ok ⟨_, hinv, .inl ⟨rfl, rfl, e, ?_, hsame⟩⟩))
    simp
  | absent p hT hleads hseek hslot _ =>
    subst hT
    refine .bind_returns hseek (.bind_eq hslot ?_)
    refine (hinv.insert_yields hleads value).bind ?_
    rintro s' ⟨T', hinv', habsent, hinserted⟩
    exact .ok ⟨T', hinv', .inr ⟨rfl, habsent, hinserted⟩⟩

/-- `replace_g` returns. -/
theorem replace_yields (hinv : s.Inv env T) (key : K) (value : V) :
    Yields (fun fuel => s.replace_g env fuel key value) fun x =>
      ∃ T', x.2.Inv env T' ∧ Replaced env T key value x.1 T' := by
  cases hinv.search key with
  | present p l e b r hT hsame hseek hslot _ =>
    subst hT
    refine .bind_returns hseek (.bind_eq hslot ?_)
    refine (hinv.setValue_yields value).bind fun s' hinv' => ?_
    refine .ok ⟨_, hinv', .inl ⟨rfl, before p ++ l.entries, e, r.entries ++ after p, ?_, hsame, ?_⟩⟩
    all_goals simp
  | absent p hT hleads hseek hslot _ =>
    subst hT
    refine .bind_returns hseek (.bind_eq hslot ?_)
    refine (hinv.insert_yields hleads value).bind ?_
    rintro s' ⟨T', hinv', habsent, hinserted⟩
    exact .ok ⟨T', hinv', .inr ⟨rfl, habsent, hinserted⟩⟩

/-- `remove_g` returns. -/
theorem remove_yields (hinv : s.Inv env T) (key : K) :
    Yields (fun fuel => s.remove_g env fuel key) fun x =>
      ∃ T', x.2.Inv env T' ∧ Removed env T key x.1 T' := by
  cases hinv.search key with
  | present p l e b r hT hsame _ _ hfind =>
    subst hT
    refine .bind_returns hfind (hinv.removeFound_yields.bind ?_)
    rintro s' ⟨T', hT', hinv'⟩
    refine .ok ⟨T', hinv', .inr ⟨rfl, before p ++ l.entries, e, r.entries ++ after p, ?_, hsame,
      hT'⟩⟩
    simp
  | absent p hT hleads _ _ hfind =>
    subst hT
    exact .bind_returns hfind (.ok ⟨_, hinv, .inl ⟨rfl, rfl, hleads.not_same hinv.ordered⟩⟩)

/-- `ncreate_g` returns. With a new key it returns what is behind the pointer that led to the new
node before the rebalancing. -/
theorem ncreate_yields (hinv : s.Inv env T) (key : K) (value : V) :
    Yields (fun fuel => s.ncreate_g env fuel key value) fun x =>
      ∃ T', x.2.Inv env T' ∧
        ((x.2 = s ∧ ∃ e ∈ T.entries, env.Same e.k key ∧ x.1 = some e.addr) ∨
          ∃ p, T = plug .nil p ∧ Leads env key p ∧
            Grown (leaf ⟨env.alloc.addr s.nodes, key, value⟩) p T' ∧
            x.2.loadSlot (slotOf p) = .ok x.1) := by
  cases hinv.search key with
  | present p l e b r hT hsame hseek hslot _ =>
    subst hT
    refine .bind_returns hseek (.bind_eq hslot (.ok ⟨_, hinv, .inl ⟨rfl, e, ?_, hsame, rfl⟩⟩))
    simp
  | absent p hT hleads hseek hslot _ =>
    subst hT
    refine .bind_returns hseek (.bind_eq hslot ?_)
    refine (hinv.insertAt_yields rfl hleads value).bind ?_
    rintro s' ⟨T', hgrown, hinv'⟩
    obtain ⟨r, hr⟩ : ∃ r, s'.loadSlot (slotOf p) = .ok r := by
      cases p with
      | nil => exact ⟨_, rfl⟩
      | cons f p =>
        have hmem : f.entry ∈ T'.entries := by
          rw [hgrown.entries, plug_cons, entries_plug, attach, entries_join]
          cases f.side <;> simp [Side.line]
        obtain ⟨l, b, r, q, rfl⟩ := exists_plug hmem
        cases hd : f.side with
        | left => exact ⟨_, hd ▸ hinv'.loadSlot_of_sub (d := .left) ((sub_refl _).plug q)⟩
        | right => exact ⟨_, hd ▸ hinv'.loadSlot_of_sub (d := .right) ((sub_refl _).plug q)⟩
    exact .bind_eq hr (.ok ⟨T', hinv', .inr ⟨p, rfl, hleads, hgrown, hr⟩⟩)

end Inv

/-- The states that are reached from a new container. -/
inductive Reachable (env : AvlEnv K V) : Avl K V → Prop
  | new : Reachable env new
  | create {s s' : Avl K V} {key : K} {value : V} {created : Bool} (h : Reachable env s)
      (hrun : Returns (fun fuel => s.create_g env fuel key value) (created, s')) : Reachable env s'
  | ncreate {s s' : Avl K V} {key : K} {value : V} {r : Option Addr} (h : Reachable env s)
      (hrun : Returns (fun fuel => s.ncreate_g env fuel key value) (r, s')) : Reachable env s'
  | replace {s s' : Avl K V} {key : K} {value : V} {created : Bool} (h : Reachable env s)
      (hrun : Returns (fun fuel => s.replace_g env fuel key value) (created, s')) :
      Reachable env s'
  | remove {s s' : Avl K V} {key : K} {removed : Bool} (h : Reachable env s)
      (hrun : Returns (fun fuel => s.remove_g env fuel key) (removed, s')) : Reachable env s'
  | clean {s s' : Avl K V} (h : Reachable env s)
      (hrun : Returns (fun fuel => s.clean_g fuel) s') : Reachable env s'

/-- Every state that is reached is a balanced tree with its keys in order. -/
theorem Reachable.exists_inv (h : Reachable env s) : ∃ T, s.Inv env T := by
  induction h with
  | new => exact ⟨.nil, Inv.initial env⟩
  | create _ hrun ih =>
    obtain ⟨T, hinv⟩ := ih
    obtain ⟨T', hinv', -⟩ := (hinv.create_yields _ _).of_returns hrun
    exact ⟨T', hinv'⟩
  | ncreate _ hrun ih =>
    obtain ⟨T, hinv⟩ := ih
    obtain ⟨T', hinv', -⟩ := (hinv.ncreate_yields _ _).of_returns hrun
    exact ⟨T', hinv'⟩
  | replace _ hrun ih =>
    obtain ⟨T, hinv⟩ := ih
    obtain ⟨T', hinv', -⟩ := (hinv.replace_yields _ _).of_returns hrun
    exact ⟨T', hinv'⟩
  | remove _ hrun ih =>
    obtain ⟨T, hinv⟩ := ih
    obtain ⟨T', hinv', -⟩ := (hinv.remove_yields _).of_returns hrun
    exact ⟨T', hinv'⟩
  | clean _ hrun ih =>
    obtain ⟨T, hinv⟩ := ih
    exact ⟨.nil, hinv.clean_yields.of_returns hrun⟩

end Avl

end Drt

/-!
## Iteration over an AVL container

`iterNext_g` goes down into the right subtree, or up to the first place that hangs on the left. That
is the next node of the tree from left to right, so an iteration goes through the nodes in the order
of their keys.
-/

namespace Drt

open AvlTree Outcome

namespace Avl

variable {K V : Type} {env : AvlEnv K V} {s : Avl K V} {lo : Option Addr} {n : Nat}
  {p : AvlPath K V} {rest : List (Piece (AvlNode K V))} {l r t T : AvlShape K V}
  {e : AvlEntry K V} {b : Int}

/-- The way up ends at the first node that lies to the right. -/
theorem climb_returns (H : s.Focus lo n p t rest) :
    Returns (fun fuel => if dirOf p < 0 then .ok (parentOf p) else s.climbFrom fuel (parentOf p))
      ((after p).head?.map AvlEntry.addr) := by
  induction p generalizing t with
  | nil => exact .of_succ_ok fun fuel => rfl
  | cons f p ih =>
    have hload := Open.load_above H
    have hup := ih (Focus.cons_iff.mp H)
    obtain ⟨side, e, b, w⟩ := f
    cases side with
    | left => exact .ok _
    | right =>
      refine hup.of_succ fun fuel => ?_
      change s.climbFrom (fuel + 1) (some e.addr) = _
      rw [climbFrom, hload]
      simp

/-- `iterNext_g` returns the next node from left to right. -/
theorem iterNext_returns (H : s.Focus lo n p (node l e b r) rest) :
    Returns (fun fuel => s.iterNext_g fuel e.addr)
      ((r.entries ++ after p).head?.map AvlEntry.addr) := by
  have hload := Focus.load_join (d := .left) (x := l) (y := r) H
  by_cases hr : r = .nil
  · subst hr
    refine Returns.congr (climb_returns H) fun fuel => ?_
    rw [iterNext_g, hload]
    rfl
  · obtain ⟨a, ha⟩ := exists_top hr
    obtain ⟨x, g, b', q, rfl, hq⟩ := exists_descent .left hr
    have Hr : s.Focus lo n (⟨.right, e, b, l⟩ :: p) (plug (join .right x g b' .nil) q) rest :=
      Focus.join_iff (d := .left).mp H
    have hdown : Returns (fun fuel => do
        let c ← s.descend 0 fuel a
        .ok (some c)) (some g.addr) := (descend_returns Hr hq ha).bind (.ok _)
    simp only [entries_plug, before_eq_nil hq, entries_join, Side.line, entries_nil,
      List.nil_append, List.cons_append, List.head?_cons, Option.map_some]
    refine hdown.congr fun fuel => ?_
    rw [iterNext_g, hload]
    simp only [AvlEntry.rchild_left, Outcome.ok_bind]
    rw [show top (plug (join .left .nil g b' x) q) = some a from ha]

/-- These are the nodes, each of them once, in the order of their keys. -/
structure Enumerates (env : AvlEnv K V) (s : Avl K V) (order : List Addr) : Prop where
  nodup : order.Nodup
  mem_iff : ∀ a, a ∈ order ↔ (s.nodes.cell a).isSome
  sorted : order.Pairwise fun a b =>
    ∃ m m', s.nodes.cell a = some m ∧ s.nodes.cell b = some m' ∧ env.Lt m.k m'.k

namespace Inv

/-- From a place between two nodes, an iteration visits what is to the right. -/
theorem iterateFrom_returns (hinv : s.Inv env T) {X Y : List (AvlEntry K V)}
    (hT : T.entries = X ++ Y) :
    Returns (fun fuel => s.iterateFrom fuel (Y.head?.map AvlEntry.addr)) (Y.map AvlEntry.addr) := by
  induction Y generalizing X with
  | nil => exact .of_succ_ok fun fuel => rfl
  | cons e Y ih =>
    have hrest := ih (X := X ++ [e]) (by simp [hT])
    obtain ⟨l, b, r, p, rfl⟩ := exists_plug (t := T) (a := e) (by simp [hT])
    have hnodup : (plug (node l e b r) p).entries.Nodup := hinv.nodup.of_map
    have hentries : X ++ e :: Y = (before p ++ l.entries) ++ e :: (r.entries ++ after p) := by
      simp [← hT]
    rw [hT] at hnodup
    simp only [List.nodup_middle, List.nodup_cons, List.mem_append, not_or] at hnodup
    obtain ⟨-, -, hY⟩ := (List.append_cons_inj_of_notMem hnodup.1.1 hnodup.1.2).mp hentries
    have hnext := iterNext_returns hinv.focus_at
    rw [← hY] at hnext
    exact (hnext.bind (hrest.bind (.ok (e.addr :: Y.map AvlEntry.addr)))).of_succ fun fuel => rfl

theorem iterate_returns (hinv : s.Inv env T) : Returns (fun fuel => s.iterate fuel) (addrs T) := by
  have hall := hinv.iterateFrom_returns (X := []) rfl
  refine hall.congr fun fuel => ?_
  rw [iterate, iterFirst_g, hinv.focus.lowest]
  rfl

/-- From left to right there are all nodes, in the order of their keys. -/
theorem enumerates (hinv : s.Inv env T) : Enumerates env s (addrs T) where
  nodup := hinv.nodup
  mem_iff a := ⟨HoldsTree.live (hinv.focus.pieces.get (i := 1) rfl) a, fun ha => by
    obtain ⟨e, he, rfl⟩ := hinv.exists_entry ha
    exact List.mem_map_of_mem he⟩
  sorted := by
    refine List.pairwise_map.mpr (hinv.ordered.imp_of_mem fun {e f} he hf hlt => ?_)
    obtain ⟨m, hm, hmk, -⟩ := hinv.exists_cell he
    obtain ⟨m', hm', hmk', -⟩ := hinv.exists_cell hf
    exact ⟨m, m', hm, hm', by rw [hmk, hmk']; exact hlt⟩

end Inv

/-- An iteration over a container that is reached comes to an end, and has visited every node once,
in the order of the keys. -/
theorem iterates (h : Reachable env s) :
    ∃ order, Returns (fun fuel => s.iterate fuel) order ∧ Enumerates env s order := by
  obtain ⟨T, hinv⟩ := h.exists_inv
  exact ⟨addrs T, hinv.iterate_returns, hinv.enumerates⟩

theorem isComparisonOn_sub :
    Comparison.IsComparisonOn (fun k l : Nat => cmpSign ((k : Int) - l)) Set.univ where
  unit k _ l _ := by
    unfold cmpSign
    omega
  swap k _ l _ := by
    unfold cmpSign
    omega
  trans k _ l _ m _ hkl hlm := by
    unfold cmpSign at hkl hlm ⊢
    omega

/-- A container of numbers. -/
def natEnv : AvlEnv Nat Unit where
  kcmp k l := (k : Int) - l
  alloc := .lowest
  uninit := 0
  comparison := isComparisonOn_sub

/-- Containers with any numbers of keys are reached. -/
theorem exists_reachable {keys : List Nat} (hkeys : keys.Nodup) :
    ∃ s, Reachable natEnv s ∧ s.item_count = keys.length := by
  suffices h : ∃ s T, Reachable natEnv s ∧ s.Inv natEnv T ∧
      (T.entries.map AvlEntry.k).Perm keys by
    obtain ⟨s, T, hs, hinv, hperm⟩ := h
    exact ⟨s, hs, by simpa [hinv.focus.count] using hperm.length_eq⟩
  induction keys with
  | nil => exact ⟨_, .nil, .new, Inv.initial natEnv, .refl _⟩
  | cons k keys ih =>
    obtain ⟨hk, hkeys⟩ := List.nodup_cons.mp hkeys
    obtain ⟨s, T, hs, hinv, hperm⟩ := ih hkeys
    obtain ⟨⟨created, s'⟩, hrun, T', hinv', hcreated⟩ := hinv.create_yields k ()
    refine ⟨s', T', .create hs hrun, hinv', ?_⟩
    obtain ⟨-, -, e, he, hsame⟩ | ⟨-, -, a, X, Y, hT, hT'⟩ := hcreated
    · have hmem : e.k ∈ keys := hperm.subset (List.mem_map_of_mem he)
      obtain rfl : e.k = k := by
        simp only [AvlEnv.Same, natEnv] at hsame
        omega
      exact absurd hmem hk
    · rw [hT, List.map_append] at hperm
      rw [hT', List.map_append, List.map_cons]
      exact List.perm_middle.trans (hperm.cons k)

/-- Two keys are visited in their order. -/
theorem iterates_two : ∃ s, Reachable natEnv s ∧ s.item_count = 2 ∧
    ∃ order, Returns (fun fuel => s.iterate fuel) order ∧ Enumerates natEnv s order := by
  obtain ⟨s, hs, hcount⟩ := exists_reachable (show [1, 2].Nodup by decide)
  exact ⟨s, hs, hcount, iterates hs⟩

end Avl

/-! ### Traversal of an AVL container by `run_g`

Before it goes into the right subtree of a node, `runOne_g` looks whether the node has a parent, and
not whether there is a subtree. So the right subtree of the root is left out, and from any other
node the way to the right goes through NULL. -/

namespace Avl

variable {K V : Type} {env : AvlEnv K V} {s : Avl K V} {lo : Option Addr} {n : Nat}
  {f : Above (AvlEntry K V)} {p : AvlPath K V} {rest : List (Piece (AvlNode K V))}
  {l r t T : AvlShape K V} {e : AvlEntry K V} {b : Int}

theorem runOne_node (H : s.Focus lo n p (node l e b r) rest) (fuel : Nat) :
    s.runOne_g (fuel + 1) (some e.addr) = (do
      let left ← (if (top l).isSome then s.runOne_g fuel (top l) else .ok [])
      let right ← (if (parentOf p).isSome then s.runOne_g fuel (top r) else .ok [])
      .ok (left ++ e.addr :: right)) := by
  have hload := Focus.load_join (d := .left) (x := l) (y := r) H
  rw [runOne_g, hload]
  cases l <;> cases p <;> rfl

/-- Below the root `runOne_g` does not return. -/
theorem runOne_ne_ok (H : s.Focus lo n (f :: p) t rest) (fuel : Nat) (order : List Addr) :
    s.runOne_g fuel (top t) ≠ .ok order := by
  induction t generalizing f p fuel order with
  | nil => cases fuel <;> exact fun h => nomatch h
  | node l e b r _ ihr =>
    cases fuel with
    | zero => exact fun h => nomatch h
    | succ fuel =>
      intro h
      change s.runOne_g (fuel + 1) (some e.addr) = _ at h
      rw [runOne_node H] at h
      obtain ⟨left, -, h⟩ := bind_eq_ok.mp h
      obtain ⟨right, hright, -⟩ := bind_eq_ok.mp h
      exact ihr (Focus.join_iff (d := .left).mp H) fuel right hright

/-- At the root it returns if there is no left subtree, and leaves out the right one. -/
theorem runOne_root (H : s.Focus lo n [] (node l e b r) rest) (fuel : Nat) (order : List Addr) :
    s.runOne_g (fuel + 1) (some e.addr) = .ok order ↔ l = .nil ∧ order = [e.addr] := by
  rw [runOne_node H]
  by_cases hl : l = .nil
  · subst hl
    simp [parentOf, eq_comm]
  · obtain ⟨a, ha⟩ := exists_top hl
    have hleft := runOne_ne_ok (Focus.join_iff (d := .right).mp H) fuel
    refine iff_of_false (fun h => ?_) (fun h => hl h.1)
    rw [ha, Option.isSome_some, if_pos rfl, ← ha] at h
    obtain ⟨left, hleft', -⟩ := bind_eq_ok.mp h
    exact hleft left hleft'

/-- `run_g` calls its callback for the nodes that an iteration visits: for every node once, in the
order of the keys. -/
def RunsInOrder (env : AvlEnv K V) (s : Avl K V) : Prop :=
  ∃ order, Returns (fun fuel => s.run_g fuel) order ∧ Returns (fun fuel => s.iterate fuel) order ∧
    Enumerates env s order

namespace Inv

theorem run_node (hinv : s.Inv env (node l e b r)) (fuel : Nat) :
    s.run_g fuel = s.runOne_g fuel (some e.addr) := by
  rw [run_g, hinv.root_eq]
  rfl

/-- If `run_g` does as an iteration does, there is at most one node. -/
theorem count_le (hinv : s.Inv env T) (hruns : RunsInOrder env s) : s.item_count ≤ 1 := by
  obtain ⟨order, ⟨least, hleast⟩, hiterate, -⟩ := hruns
  obtain rfl := hinv.iterate_returns.unique hiterate
  rw [hinv.focus.count]
  cases T with
  | nil => simp
  | node l e b r =>
    have hroot : s.run_g (least + 1) = .ok _ := hleast (least + 1) (by omega)
    rw [hinv.run_node, runOne_root hinv.focus] at hroot
    have hlength := congrArg List.length hroot.2
    rw [addrs, List.length_map, List.length_singleton] at hlength
    exact hlength.le

/-- It does so for one node. -/
theorem runsInOrder (hinv : s.Inv env T) (hcount : s.item_count ≤ 1) : RunsInOrder env s := by
  rw [hinv.focus.count] at hcount
  refine ⟨addrs T, ?_, hinv.iterate_returns, hinv.enumerates⟩
  cases T with
  | nil =>
    refine .of_eq fun fuel => ?_
    rw [run_g, hinv.root_eq]
    rfl
  | node l e b r =>
    simp only [entries_node, List.length_append, List.length_cons] at hcount
    have hr : r.entries = [] := List.length_eq_zero_iff.mp (by omega)
    refine .of_succ_ok fun fuel => ?_
    rw [hinv.run_node, runOne_root hinv.focus]
    cases l with
    | nil => simp [addrs, hr]
    | node _ _ _ _ =>
      simp only [entries_node, List.length_append, List.length_cons] at hcount
      omega

end Inv

/-- `run_g` does as an iteration does exactly if there is at most one node. -/
theorem runsInOrder_iff (h : Reachable env s) : RunsInOrder env s ↔ s.item_count ≤ 1 := by
  obtain ⟨T, hinv⟩ := h.exists_inv
  exact ⟨hinv.count_le, hinv.runsInOrder⟩

/-- It does with a single key. -/
theorem runsInOrder_single :
    ∃ s, Reachable natEnv s ∧ RunsInOrder natEnv s := by
  obtain ⟨s, hs, hcount⟩ := exists_reachable (List.nodup_singleton 1)
  exact ⟨s, hs, (runsInOrder_iff hs).mpr hcount.le⟩

/-- It does not with two keys. -/
theorem not_runsInOrder_two :
    ∃ s, Reachable natEnv s ∧ s.item_count = 2 ∧ ¬ RunsInOrder natEnv s := by
  obtain ⟨s, hs, hcount⟩ := exists_reachable (show [1, 2].Nodup by decide)
  obtain ⟨T, hinv⟩ := hs.exists_inv
  exact ⟨s, hs, hcount, fun h => absurd (hcount ▸ hinv.count_le h) (by decide)⟩

end Avl

end Drt
