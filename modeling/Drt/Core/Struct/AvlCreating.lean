import Drt.Core.Struct.AvlIteration

/-!
# The node that `ncreate_g` returns

`ncreate_g` reads the pointer to the new node again after the rebalancing. A double rotation that
brings up the new node, or the one above it, leaves another node behind that pointer, or none.
-/

namespace Drt

open AvlTree Outcome

namespace AvlEnv

variable {K V : Type} {env : AvlEnv K V} {key : K}

theorem Toward.node_cmp {d : Side} {n : AvlNode K V} (h : env.Toward d n.k key) :
    -env.node_cmp n key = d.sign := by
  unfold AvlEnv.node_cmp
  have hsign := cmpSign_cases (env.kcmp n.k key)
  cases d with
  | left =>
    have hgt := gt_iff.mp h
    rw [Side.sign_left]
    omega
  | right =>
    have hlt : env.kcmp n.k key < 0 := h
    rw [Side.sign_right]
    omega

end AvlEnv

namespace Avl

variable {K V : Type} {env : AvlEnv K V} {s s' : Avl K V} {T T' : AvlShape K V} {key : K} {value : V}
  {p q : AvlPath K V} {t : AvlShape K V} {cur : AvlSlot} {steps : List (Int × Int)} {r : Option Addr}

/-- On the way by the comparisons, the search is that in the subtree. -/
theorem locate_plug (hp : Leads env key p) :
    locate env key (plug t p) q = locate env key t (p ++ q) := by
  induction p generalizing t with
  | nil => rfl
  | cons f p ih =>
    obtain ⟨hf, hp⟩ := List.forall_mem_cons.mp hp
    rw [plug_cons, ih hp]
    obtain ⟨side, e, b, w⟩ := f
    cases side with
    | left =>
      have hgt : 0 < env.kcmp e.k key := AvlEnv.gt_iff.mp hf
      change locate env key (node t e b w) (p ++ q) = _
      rw [locate, if_neg (by omega), if_pos hgt]
      rfl
    | right =>
      have hlt : env.kcmp e.k key < 0 := hf
      change locate env key (node w e b t) (p ++ q) = _
      rw [locate, if_neg (by omega), if_neg (by omega)]
      rfl

theorem Leads.unique (hp : Leads env key p) (hq : Leads env key q) (h : plug .nil p = plug .nil q) :
    p = q := by
  have hlocate := congrArg (fun t => (locate env key t []).1) h
  simpa [locate_plug hp, locate_plug hq, locate] using hlocate

/-- The search for a key passes nodes with these balances to these sides, the last one first, and
comes to a pointer. -/
inductive Passes (env : AvlEnv K V) (s : Avl K V) (key : K) : AvlSlot → List (Int × Int) → Prop
  | root : Passes env s key .root []
  | node {cur : AvlSlot} {steps : List (Int × Int)} {a : Addr} {n : AvlNode K V}
      (h : Passes env s key cur steps) (hcur : s.loadSlot cur = .ok (some a))
      (hn : s.nodes.cell a = some n) (hcmp : env.node_cmp n key ≠ 0) :
      Passes env s key (.ref a (1 + -env.node_cmp n key))
        ((n.balance, -env.node_cmp n key) :: steps)

namespace Inv

/-- The search passes the nodes above the place of the key. -/
theorem passes (hinv : s.Inv env (plug t p)) (hleads : Leads env key p) :
    Passes env s key (slotOf p) (AvlTree.steps p) := by
  induction p generalizing t with
  | nil => exact .root
  | cons f p ih =>
    obtain ⟨hf, hp⟩ := List.forall_mem_cons.mp hleads
    have H : s.Focus _ _ p (attach f t) [] := hinv.focus_at (t := attach f t)
    have hslot := H.loadSlot
    rw [attach, top_join] at hslot
    obtain ⟨hcell, -⟩ := holdsTree_join.mp (H.pieces.get (i := 1) rfl)
    have hcmp : -env.node_cmp _ key = f.side.sign :=
      AvlEnv.Toward.node_cmp (n := f.entry.node f.side (top t) (top f.sibling) (parentOf p) f.balance
        (dirOf p)) (by rwa [AvlEntry.k_node])
    have hne : env.node_cmp _ key ≠ 0 := fun h => f.side.sign_ne_zero (by rw [← hcmp, h]; rfl)
    have hpasses := Passes.node (ih (t := attach f t) hinv hp) hslot hcell hne
    rwa [hcmp, AvlEntry.balance_node] at hpasses

/-- Every search passes nodes above a place. -/
theorem exists_path_of_passes (hinv : s.Inv env T) (h : Passes env s key cur steps) :
    ∃ p t, T = plug t p ∧ Leads env key p ∧ cur = slotOf p ∧ steps = AvlTree.steps p := by
  induction h with
  | root => exact ⟨[], T, rfl, by simp [Leads], rfl, rfl⟩
  | @node cur steps a n _ hcur hn hcmp ih =>
    obtain ⟨p, t, rfl, hleads, rfl, rfl⟩ := ih
    have H := hinv.focus_at
    have htop : top t = some a := Outcome.ok.inj (H.loadSlot.symm.trans hcur)
    obtain ⟨-, hzero⟩ | ⟨d, htoward, hstep⟩ := env.node_cmp_cases n key
    · exact absurd hzero hcmp
    obtain ⟨x, e, y, ht⟩ := exists_join d (t := t) (by rintro rfl; cases htop)
    rw [ht] at H htop
    obtain ⟨hcell, -⟩ := holdsTree_join.mp (H.pieces.get (i := 1) rfl)
    obtain rfl : e.addr = a := by simpa using htop
    obtain rfl := Option.some.inj (hcell.symm.trans hn)
    rw [AvlEntry.k_node] at htoward
    refine ⟨⟨d, e, t.balance, y⟩ :: p, x, ?_, List.forall_mem_cons.mpr ⟨htoward, hleads⟩, ?_, ?_⟩
    · rw [plug_cons, attach, ← ht]
    · rw [hstep]
      rfl
    · rw [hstep, AvlEntry.balance_node]
      rfl

end Inv

/-- `ncreate_g` returns the node of the key: the one there was, or a new one that holds the key and
the value. `accCreating` yields the value of that node. -/
def ReturnsNode (env : AvlEnv K V) (s : Avl K V) (key : K) (value : V) : Prop :=
  ∃ a s' n, Returns (fun fuel => s.ncreate_g env fuel key value) (some a, s') ∧
    Returns (fun fuel => s.accCreating env fuel key value) (a, s') ∧
    s'.nodes.cell a = some n ∧ env.Same n.k key ∧
    (s' = s ∨ s.nodes.cell a = none ∧ n.k = key ∧ n.v = value)

/-- The search for a key ends where there is no node, and a new one there, or the one above it,
comes up in a double rotation. -/
def Misplaces (env : AvlEnv K V) (s : Avl K V) (key : K) : Prop :=
  ∃ cur steps, Passes env s key cur steps ∧ s.loadSlot cur = .ok none ∧ Lifts steps

namespace Inv

/-- What is behind the pointer to a new node after the rebalancing: that node, or at most one of
those above it. -/
theorem slot_cases {e : AvlEntry K V} (hinv : s.Inv env T) (hgrown : Grown (leaf e) p T)
    (hslot : s.loadSlot (slotOf p) = .ok r) :
    (r = some e.addr ∧ ¬ Lifts (AvlTree.steps p)) ∨
      (Lifts (AvlTree.steps p) ∧ ∀ a, r = some a → ∃ g ∈ p, a = g.entry.addr) := by
  cases p with
  | nil =>
    obtain rfl := hgrown.eq_of_nil
    refine .inl ⟨?_, not_false⟩
    exact (Outcome.ok.inj hslot).symm.trans hinv.root_eq
  | cons f p =>
    cases hgrown.settled with
    | kept b y hsub hsteps =>
      exact .inl ⟨Outcome.ok.inj (hslot.symm.trans (hinv.loadSlot_of_sub hsub)), hsteps⟩
    | emptied b y hsub hsteps =>
      obtain rfl := Outcome.ok.inj (hslot.symm.trans (hinv.loadSlot_of_sub hsub))
      exact .inr ⟨hsteps, fun a ha => nomatch ha⟩
    | taken b g d x y z b' hg hsub hsteps =>
      obtain rfl := Outcome.ok.inj (hslot.symm.trans (hinv.loadSlot_of_sub hsub))
      refine .inr ⟨hsteps, fun a ha => ⟨g, List.mem_cons_of_mem f hg, ?_⟩⟩
      rw [top_join] at ha
      exact (Option.some.inj ha).symm

/-- A node that is returned is that of the key. -/
theorem returnsNode (hinv : s.Inv env T) (value : V)
    (hstays : ∀ p, T = plug .nil p → Leads env key p → ¬ Lifts (AvlTree.steps p)) :
    ReturnsNode env s key value := by
  obtain ⟨⟨r, s'⟩, hrun, T', hinv', hcases⟩ := hinv.ncreate_yields key value
  obtain ⟨rfl, e, he, hsame, rfl⟩ | ⟨p, rfl, hleads, hgrown, hslot⟩ := hcases
  · obtain ⟨n, hn, hk, -⟩ := hinv.exists_cell he
    exact ⟨_, _, n, hrun, hrun.bind (.ok _), hn, hk ▸ hsame, .inl rfl⟩
  · obtain ⟨rfl, -⟩ | ⟨hlifts, -⟩ := hinv'.slot_cases hgrown hslot
    · have hmem : ⟨env.alloc.addr s.nodes, key, value⟩ ∈ T'.entries := by
        rw [hgrown.entries, entries_plug]
        simp [leaf]
      obtain ⟨n, hn, hk, hv⟩ := hinv'.exists_cell hmem
      exact ⟨_, _, n, hrun, hrun.bind (.ok _), hn, hk ▸ .refl env key,
        .inr ⟨env.alloc.fresh s.nodes, hk, hv⟩⟩
    · exact absurd hlifts (hstays p rfl hleads)

theorem ncreate_absent (hinv : s.Inv env (plug .nil p)) (hleads : Leads env key p) (value : V) :
    Yields (fun fuel => s.ncreate_g env fuel key value) fun x =>
      ∃ T', x.2.Inv env T' ∧ Grown (leaf ⟨env.alloc.addr s.nodes, key, value⟩) p T' ∧
        x.2.loadSlot (slotOf p) = .ok x.1 := by
  refine (hinv.ncreate_yields key value).imp ?_
  rintro x ⟨T', hinv', hcases⟩
  obtain ⟨-, e, he, hsame, -⟩ | ⟨q, hq, hleads', hgrown, hslot⟩ := hcases
  · exact absurd hsame (hleads.not_same hinv.ordered e he)
  · obtain rfl := hleads.unique hleads' hq
    exact ⟨T', hinv', hgrown, hslot⟩

/-- Where a double rotation brings up the new node, or the one above it, another node is returned,
or none. -/
theorem not_returnsNode (hinv : s.Inv env (plug .nil p)) (hleads : Leads env key p)
    (hlifts : Lifts (AvlTree.steps p)) : ¬ ReturnsNode env s key value := by
  rintro ⟨a, s', n, hrun, -, hn, hsame, hcases⟩
  obtain ⟨T', hinv', hgrown, hslot⟩ := (hinv.ncreate_absent hleads value).of_returns hrun
  obtain ⟨-, hnot⟩ | ⟨-, habove⟩ := hinv'.slot_cases hgrown hslot
  · exact hnot hlifts
  obtain ⟨g, hg, rfl⟩ := habove a rfl
  have hmem : g.entry ∈ (plug .nil p).entries := mem_entries_plug .nil p hg
  obtain ⟨m, hm, hmk, -⟩ := hinv.exists_cell hmem
  obtain rfl | ⟨hfree, -⟩ := hcases
  · obtain rfl := Option.some.inj (hm.symm.trans hn)
    exact hleads.not_same hinv.ordered g.entry hmem (hmk ▸ hsame)
  · rw [hm] at hfree
    cases hfree

end Inv

/-- `ncreate_g` returns the node of the key exactly if no double rotation brings up a new node or
the one above it. -/
theorem returnsNode_iff (h : Reachable env s) (key : K) (value : V) :
    ReturnsNode env s key value ↔ ¬ Misplaces env s key := by
  obtain ⟨T, hinv⟩ := h.exists_inv
  constructor
  · rintro hreturns ⟨cur, steps, hpasses, hcur, hlifts⟩
    obtain ⟨p, t, rfl, hleads, rfl, rfl⟩ := hinv.exists_path_of_passes hpasses
    obtain rfl := top_eq_none.mp (Outcome.ok.inj (hinv.focus_at.loadSlot.symm.trans hcur))
    exact hinv.not_returnsNode hleads hlifts hreturns
  · intro hnot
    refine hinv.returnsNode value fun p hp hleads hlifts => hnot ?_
    subst hp
    exact ⟨slotOf p, _, hinv.passes hleads, hinv.focus_at.loadSlot, hlifts⟩

/-- Two keys are created in a new container, the second one on a side of the first one. -/
theorem exists_pair {first second : Nat} {d : Side} (h : natEnv.Toward d first second) :
    ∃ r₁ s₁ r₂ s₂ a b,
      Returns (fun fuel => ncreate_g natEnv fuel new first ()) (r₁, s₁) ∧
      Returns (fun fuel => ncreate_g natEnv fuel s₁ second ()) (r₂, s₂) ∧
      s₂.Inv natEnv (plug (leaf ⟨b, second, ()⟩) [⟨d, ⟨a, first, ()⟩, d.sign, .nil⟩]) := by
  have hnew : (new : Avl Nat Unit).Inv natEnv (plug .nil []) := Inv.initial natEnv
  have hfirst : Leads natEnv first [] := by simp [Leads]
  obtain ⟨⟨r₁, s₁⟩, hrun₁, T₁, hinv₁, hgrown₁, -⟩ := hnew.ncreate_absent hfirst ()
  obtain rfl := hgrown₁.eq_of_nil
  generalize natEnv.alloc.addr _ = a at hinv₁
  -- The second key belongs beside the root.
  have hsecond : Leads natEnv second [⟨d, ⟨a, first, ()⟩, 0, .nil⟩] := by simpa [Leads] using h
  have hinv₁ : s₁.Inv natEnv (plug .nil [⟨d, ⟨a, first, ()⟩, 0, .nil⟩]) := by
    cases d <;> exact hinv₁
  obtain ⟨⟨r₂, s₂⟩, hrun₂, T₂, hinv₂, hgrown₂, -⟩ := hinv₁.ncreate_absent hsecond ()
  obtain rfl := (hgrown₂.of_even rfl).eq_of_nil
  exact ⟨r₁, s₁, r₂, s₂, a, _, hrun₁, hrun₂, hinv₂⟩

/-- The key `3` gets its node after `1` and `2`, where a single rotation brings `2` up. -/
theorem returnsNode_rotated : ∃ r₁ s₁ r₂ s₂,
    Returns (fun fuel => ncreate_g natEnv fuel new 1 ()) (r₁, s₁) ∧
      Returns (fun fuel => ncreate_g natEnv fuel s₁ 2 ()) (r₂, s₂) ∧
      ReturnsNode natEnv s₂ 3 () := by
  have htwo : natEnv.Toward .right 1 2 := by simp [AvlEnv.Toward, AvlEnv.Lt, natEnv]
  obtain ⟨r₁, s₁, r₂, s₂, a, b, hrun₁, hrun₂, hinv⟩ := exists_pair htwo
  refine ⟨r₁, s₁, r₂, s₂, hrun₁, hrun₂,
    (returnsNode_iff (.ncreate (.ncreate .new hrun₁) hrun₂) 3 ()).mpr ?_⟩
  -- The search passes both nodes to the right.
  have hthree : Leads natEnv 3
      [⟨.right, ⟨b, 2, ()⟩, 0, .nil⟩, ⟨.right, ⟨a, 1, ()⟩, 1, .nil⟩] := by
    simp [Leads, AvlEnv.Toward, AvlEnv.Lt, natEnv]
  rintro ⟨cur, steps, hpasses, hcur, hlifts⟩
  obtain ⟨p, t, hplug, hleads, rfl, rfl⟩ := hinv.exists_path_of_passes hpasses
  rw [hplug] at hinv
  obtain rfl := top_eq_none.mp (Outcome.ok.inj (hinv.focus_at.loadSlot.symm.trans hcur))
  obtain rfl := hthree.unique hleads hplug
  obtain ⟨-, ⟨-, hne⟩ | ⟨hzero, -⟩⟩ := hlifts
  · exact hne rfl
  · cases hzero

/-- The key `2` does not, after `3` and `1`. -/
theorem not_returnsNode_between : ∃ r₁ s₁ r₂ s₂,
    Returns (fun fuel => ncreate_g natEnv fuel new 3 ()) (r₁, s₁) ∧
      Returns (fun fuel => ncreate_g natEnv fuel s₁ 1 ()) (r₂, s₂) ∧
      ¬ ReturnsNode natEnv s₂ 2 () := by
  have hone : natEnv.Toward .left 3 1 := by simp [AvlEnv.Toward, AvlEnv.Lt, natEnv]
  obtain ⟨r₁, s₁, r₂, s₂, a, b, hrun₁, hrun₂, hinv⟩ := exists_pair hone
  -- The key `2` belongs on the left of the root, on the right of the other node.
  have htwo : Leads natEnv 2
      [⟨.right, ⟨b, 1, ()⟩, 0, .nil⟩, ⟨.left, ⟨a, 3, ()⟩, -1, .nil⟩] := by
    simp [Leads, AvlEnv.Toward, AvlEnv.Lt, natEnv]
  refine ⟨r₁, s₁, r₂, s₂, hrun₁, hrun₂, ?_⟩
  refine Inv.not_returnsNode ?_ htwo ⟨rfl, .inl ⟨rfl, by simp⟩⟩
  exact hinv

end Avl

end Drt
