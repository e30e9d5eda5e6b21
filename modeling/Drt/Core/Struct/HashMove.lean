import Drt.Core.Struct.HashReplace

/-!
# Moving a hash

`moveFrom_g` destroys the nodes of the hash and takes over the array of the source. The source
is left without an array, but with the mask `0` where the constructor sets `-1`: an iteration
over it takes the array for one of a single slot, and reads through a null pointer.
-/

namespace Drt

namespace Hash

variable {K V : Type}

/-- `node_destroy`, that leaves `item_count` alone. -/
def node_destroy (h : Hash K V) (c : Addr) : Hash K V := { h with nodes := h.nodes.erase c }

/-- The inner loop of `destroy_g`: destroy the nodes from `c`. -/
def destroyChain : Nat → Option Addr → Hash K V → Call (Hash K V)
  | 0, _, _ => .outOfFuel
  | _ + 1, none, h => .ok h
  | fuel + 1, some c, h => do
    let n ← h.nodes.load c
    destroyChain fuel n.next (h.node_destroy c)

/-- The outer loop of `destroy_g`, with an `int i`. -/
def destroyFrom : Nat → Nat → Hash K V → Call (Hash K V)
  | 0, _, _ => .outOfFuel
  | fuel + 1, i, h =>
    if (i : Int) ≤ h.hashmask then do
      let c ← h.load (.slot i)
      let h ← destroyChain fuel c h
      if i + 1 < 2 ^ 31 then destroyFrom fuel (i + 1) h else .fault
    else .ok h

def destroy_g (fuel : Nat) (h : Hash K V) : Call (Hash K V) :=
  match h.list with
  | none => .ok h
  | some _ => do
    let h ← destroyFrom fuel 0 h
    .ok { h with list := none }

/-- The fields that `moveFrom_g` leaves to the source. -/
def moved (source : Hash K V) : Hash K V :=
  { source with hashmask := 0, list := none, item_count := 0, nodes := .empty }

/-- `moveFrom_g`: the hash and the source afterwards. The nodes go with the array. -/
def moveFrom_g (fuel : Nat) (h source : Hash K V) : Call (Hash K V × Hash K V) := do
  let h ← h.destroy_g fuel
  .ok ({ h with
      hashmask := source.hashmask
      item_count := source.item_count
      list := source.list
      nodes := source.nodes }, source.moved)

variable {env : HashEnv K V} {h source : Hash K V}

/-- Nodes are gone, and nothing else has changed. -/
structure Lost (h h' : Hash K V) (gone : List Addr) : Prop where
  hashmask : h'.hashmask = h.hashmask
  list : h'.list = h.list
  cell : ∀ a, h'.nodes.cell a = if a ∈ gone then none else h.nodes.cell a

theorem Lost.node_destroy {h' : Hash K V} {gone : List Addr} (hlost : Lost h h' gone) (c : Addr) :
    Lost h (h'.node_destroy c) (gone ++ [c]) := by
  refine ⟨hlost.hashmask, hlost.list, fun a => ?_⟩
  by_cases hac : a = c
  · subst hac
    simp [Hash.node_destroy]
  · simp [Hash.node_destroy, hac, hlost.cell]

/-- The inner loop destroys the nodes of the chain. -/
theorem destroyChain_returns {h' : Hash K V} {c : Option Addr} {gone rest : List Addr}
    (hchain : Chain h.links.next c rest) (hlive : ∀ a ∈ rest, (h.info a).isSome)
    (hnodup : (gone ++ rest).Nodup) (hlost : Lost h h' gone) :
    ∃ h'', Outcome.Returns (fun fuel => destroyChain fuel c h') h'' ∧
      Lost h h'' (gone ++ rest) := by
  induction rest generalizing h' c gone with
  | nil =>
    obtain rfl : c = none := hchain
    exact ⟨h', .of_succ_ok fun fuel => rfl, by simpa using hlost⟩
  | cons a rest ih =>
    obtain ⟨rfl, hrest⟩ := hchain
    obtain ⟨x, hx⟩ := Option.isSome_iff_exists.mp (hlive a List.mem_cons_self)
    have hout : a ∉ gone := fun ha =>
      List.disjoint_of_nodup_append hnodup ha List.mem_cons_self
    have hload : (h'.nodes.load a : Call _) = .ok ⟨x.hash, h.links.next a, x.k, x.v⟩ := by
      refine Heap.load_of_cell ?_
      rw [hlost.cell, if_neg hout]
      exact cell_of_info hx
    rw [← List.singleton_append, ← List.append_assoc] at hnodup ⊢
    obtain ⟨h'', hrun, hlost'⟩ := ih hrest (fun b hb => hlive b (List.mem_cons_of_mem a hb))
      hnodup (hlost.node_destroy a)
    refine ⟨h'', hrun.of_succ fun fuel => ?_, hlost'⟩
    rw [destroyChain, hload]
    rfl

/-- The outer loop destroys the nodes of the buckets from `i` on. -/
theorem destroyFrom_returns {h' : Hash K V} {chains : Nat → List Addr} (hs : h.Stored chains)
    (hmask : h.hashmask + 1 = h.size) (hint : h.size < 2 ^ 31) {i : Nat} {gone : List Addr}
    (hnodup : (gone ++ h.nodesFrom chains i).Nodup) (hlost : Lost h h' gone) :
    ∃ h'', Outcome.Returns (fun fuel => destroyFrom fuel i h') h'' ∧
      Lost h h'' (gone ++ h.nodesFrom chains i) := by
  generalize hleft : h.size - i = left
  induction left generalizing i gone h' with
  | zero =>
    rw [nodesFrom_of_size_le (by omega), List.append_nil]
    refine ⟨h', .of_succ_ok fun fuel => ?_, hlost⟩
    rw [destroyFrom, hlost.hashmask, if_neg (by omega)]
  | succ left ih =>
    have hlt : i < h.size := by omega
    rw [nodesFrom_of_lt hlt, ← List.append_assoc] at hnodup ⊢
    have hload : h'.load (.slot i) = .ok (h.links.slot i) := by
      have hvalid : h.Valid (.slot i) := hlt
      have hold := load_of_valid hvalid
      simp only [load] at hold ⊢
      rw [hlost.list]
      exact hold
    obtain ⟨h₁, hrun, hlost₁⟩ := destroyChain_returns (hs.buckets.chain i)
      (fun a ha => (hs.isSome_iff a).mpr ⟨i, ha⟩) hnodup.of_append_left hlost
    obtain ⟨h₂, hrest, hlost₂⟩ := ih hnodup hlost₁ (by omega)
    have hpass : Outcome.Returns (fun fuel => do
        let h₁ ← destroyChain fuel (h.links.slot i) h'
        if i + 1 < 2 ^ 31 then destroyFrom fuel (i + 1) h₁ else .fault) h₂ :=
      hrun.bind (hrest.congr fun fuel => if_pos (by omega))
    refine ⟨h₂, hpass.of_succ fun fuel => ?_, hlost₂⟩
    rw [destroyFrom, hlost.hashmask, if_pos (by omega), hload]
    rfl

theorem moved_of_returns {h' source' : Hash K V}
    (hrun : Outcome.Returns (fun fuel => moveFrom_g fuel h source) (h', source')) :
    source' = source.moved := by
  obtain ⟨least, hall⟩ := hrun
  obtain ⟨h₁, _, heq⟩ := Outcome.bind_eq_ok.mp (hall least (Nat.le_refl least))
  exact (Prod.mk.inj (Outcome.ok.inj heq)).2.symm

theorem iterate_moved (source : Hash K V) (fuel : Nat) :
    source.moved.iterate (fuel + 1) = .fault := by
  rfl

theorem not_wellFormed_moved (source : Hash K V) : ¬ source.moved.WellFormed := by
  intro h
  obtain ⟨order, ⟨least, hrun⟩, _⟩ := h.iteration
  have hok := hrun (least + 1) (Nat.le_add_right least 1)
  simp only [iterate_moved] at hok
  cases hok

variable [DecidableEq K] {m ms : NodeMap K}

/-- A run of operations returns, and it is one that a new hash may have. -/
def ActsAsNew (env : HashEnv K V) (h : Hash K V) (ops : List (HashOp K)) : Prop :=
  ∃ steps, Outcome.Returns (fun fuel => trace env fuel h ops) steps ∧
    h.WellFormed ∧ Follows ∅ ops steps

/-- The entries have moved from one hash to the other. -/
structure MovedFrom (env : HashEnv K V) (source h' source' : Hash K V) : Prop where
  /-- The hash has the entries of the source. -/
  values : ∀ k, ∃ v, Outcome.Returns (fun fuel => source.accValue env fuel k) v ∧
    Outcome.Returns (fun fuel => h'.accValue env fuel k) v
  /-- It is well formed. -/
  wellFormed : h'.WellFormed
  /-- The source behaves as a new hash does. -/
  source : ∀ ops, Behaves env ops → ActsAsNew env source' ops

/-- `moveFrom_g` returns, and moves the entries. -/
def MovesFrom (env : HashEnv K V) (h source : Hash K V) : Prop :=
  ∃ h' source', Outcome.Returns (fun fuel => moveFrom_g fuel h source) (h', source') ∧
    MovedFrom env source h' source'

/-- `destroy_g` leaves no node, unless the array has `2 ^ 31` slots. -/
theorem Inv.destroy_returns (hinv : h.Inv env m) (hint : h.size < 2 ^ 31) :
    ∃ h', Outcome.Returns (fun fuel => h.destroy_g fuel) h' ∧ h'.list = none ∧
      ∀ a, h'.nodes.cell a = none := by
  obtain ⟨chains, hs, _⟩ := hinv.chains
  cases hlist : h.list with
  | none =>
    refine ⟨h, .of_eq fun fuel => by simp [destroy_g, hlist], hlist, fun a => ?_⟩
    have hnone : h.info a = none := by
      cases hx : h.info a with
      | none => rfl
      | some x =>
        have hk := hinv.holds.lookup_of_info hx
        rw [hinv.lookup_eq_none hlist] at hk
        cases hk
    simpa [info] using hnone
  | some list =>
    have hnothing : Lost h h [] := ⟨rfl, rfl, fun a => by simp⟩
    obtain ⟨h', hrun, hlost⟩ := destroyFrom_returns (i := 0) hs hinv.shape.hashmask_add_one hint
      (by simpa using nodup_nodesFrom hs 0) hnothing
    have hend : Outcome.Returns (fun fuel => do
        let h' ← destroyFrom fuel 0 h
        .ok { h' with list := none }) { h' with list := none } := hrun.bind (.ok _)
    refine ⟨_, hend.congr fun fuel => by simp [destroy_g, hlist], rfl, fun a => ?_⟩
    change h'.nodes.cell a = none
    rw [hlost.cell, List.nil_append]
    by_cases ha : a ∈ h.nodesFrom chains 0
    · exact if_pos ha
    · rw [if_neg ha]
      simpa [mem_nodesFrom_zero hs, info] using ha

theorem Inv.moveFrom_returns (hinv : h.Inv env m) (hint : h.size < 2 ^ 31) (source : Hash K V) :
    Outcome.Returns (fun fuel => moveFrom_g fuel h source) (source, source.moved) := by
  obtain ⟨h', hrun, _⟩ := hinv.destroy_returns hint
  exact hrun.bind (.ok _)

theorem not_movedFrom_moved (h' : Hash K V) : ¬ MovedFrom env source h' source.moved := by
  intro hmoved
  have hbehaves : Behaves env [] := (behaves_iff_fits env []).mpr trivial
  obtain ⟨_, _, hwell, _⟩ := hmoved.source [] hbehaves
  exact not_wellFormed_moved source hwell

/-- Moving never leaves a source that behaves as a new hash. -/
theorem not_movesFrom (env : HashEnv K V) (h source : Hash K V) : ¬ MovesFrom env h source := by
  rintro ⟨h', source', hrun, hmoved⟩
  obtain rfl := moved_of_returns hrun
  exact not_movedFrom_moved h' hmoved

/-- Moving a hash with the key `7` to a new one. -/
theorem not_movesFrom_seven : ∃ source ms, Seven source ms ∧
    Outcome.Returns (fun fuel => moveFrom_g fuel new source) (source, source.moved) ∧
    ¬ MovesFrom natEnv new source := by
  obtain ⟨source, ms, hseven⟩ := exists_seven
  have hrun := (Inv.initial natEnv).moveFrom_returns (by decide) source
  refine ⟨source, ms, hseven, hrun, ?_⟩
  rintro ⟨h', source', hrun', hmoved⟩
  obtain rfl := moved_of_returns hrun'
  exact not_movedFrom_moved h' hmoved

end Hash

end Drt
