import Drt.Core.Struct.HashGrow
import Mathlib.Data.Finmap

/-!
# Lookup and creation in a hash

`Holds` relates the nodes of a hash to a finite map from the present keys to the
nodes created for them. `find_g` reads the map, and `create_g` adds to it, with the
nodes arranged in their buckets before and after.
-/

open Finmap

open Function

namespace Drt

/-- The present keys, each with the node that was created for it. -/
abbrev NodeMap (K : Type) := Finmap fun _ : K => Addr

namespace Hash

variable {K V : Type} {env : HashEnv K V} {h h' : Hash K V} {chains : Nat → List Addr}
  {m : NodeMap K} {i : Nat} {a : Addr} {k : K}

variable {x : HashInfo K V}

theorem mem_bucket (hs : h.Stored chains) (hplaced : ∀ j, h.Placed chains j)
    (hx : h.info a = some x) : a ∈ chains (h.bucket x.hash) := by
  obtain ⟨j, hj⟩ := (hs.isSome_iff a).mp (by simp [hx])
  have hhome := hplaced j a hj
  rw [home, hx] at hhome
  obtain rfl : h.bucket x.hash = j := Option.some.inj hhome
  exact hj

/-- A new node in its bucket leaves the other nodes where they belong. -/
theorem placed_push (hplaced : ∀ j, h.Placed chains j) (same : SameArray h h')
    (hinfo : h'.info = update h.info a (some x)) (hnone : h.info a = none) (j : Nat) :
    h'.Placed (update chains (h.bucket x.hash) (a :: chains (h.bucket x.hash))) j := by
  intro b hb
  by_cases hba : b = a
  · subst hba
    have hj : j = h.bucket x.hash := by
      by_contra hne
      rw [update_of_ne hne] at hb
      have hhome := hplaced j b hb
      simp [home, hnone] at hhome
    simp [home, hinfo, same.bucket, hj]
  · have hbj : b ∈ chains j := by
      by_cases hj : j = h.bucket x.hash
      · subst hj
        simpa [hba] using hb
      · rwa [update_of_ne hj] at hb
    have hhome := hplaced j b hbj
    simpa [home, hinfo, hba, same.bucket] using hhome

/-- The links of a new node: `n->next = list[n->hash&hashmask]` and what follows. -/
def linkNode (h : Hash K V) (a : Addr) (x : HashInfo K V) : Call (Hash K V) := do
  let first ← h.load (.slot (h.bucket x.hash))
  let h := { h with nodes := h.nodes.put a ⟨x.hash, first, x.k, x.v⟩ }
  let h ← h.store (.slot (h.bucket x.hash)) (some a)
  .ok { h with item_count := h.item_count + 1 }

/-- A new node is at the front of its bucket. -/
theorem linkNode_eq (hs : h.Stored chains) (hfree : h.info a = none)
    (hlt : h.bucket x.hash < h.size) :
    ∃ h', h.linkNode a x = .ok h' ∧ SameArray h h' ∧ h'.item_count = h.item_count + 1 ∧
      h'.info = update h.info a (some x) ∧
      h'.Stored (update chains (h.bucket x.hash) (a :: chains (h.bucket x.hash))) := by
  have hout : ∀ j, a ∉ chains j := fun j hj => by
    obtain ⟨y, hy⟩ := hs.exists_info hj
    simp [hfree] at hy
  have hload : h.load (.slot (h.bucket x.hash)) = .ok (h.links.slot (h.bucket x.hash)) :=
    load_of_valid (by exact hlt)
  generalize hfirst : h.links.slot (h.bucket x.hash) = first at hload
  let h₁ : Hash K V := { h with nodes := h.nodes.put a ⟨x.hash, first, x.k, x.v⟩ }
  have hinfo : h₁.info = update h.info a (some x) := by
    funext b
    by_cases hba : b = a
    · subst hba
      simp [h₁, info, HashNode.info]
    · simp [h₁, info, hba]
  have hlinks : h₁.links = h.links.set (.next a) first := by
    simp only [h₁, links, Links.set, Heap.cell_put, Links.mk.injEq, true_and]
    funext b
    by_cases hba : b = a
    · subst hba
      simp
    · simp [hba]
  obtain ⟨h₂, hstore, hlinks₂, hre⟩ := store_of_valid (h := h₁)
    (p := .slot (h.bucket x.hash)) (by exact hlt) (some a)
  refine ⟨{ h₂ with item_count := h₂.item_count + 1 }, ?_,
    ⟨hre.hashmask, hre.size, hre.isSome⟩, ?_, hre.info.trans hinfo, ?_, fun b => ?_⟩
  · simp only [linkNode, hload, Outcome.ok_bind]
    rw [show bucket { h with nodes := h.nodes.put a ⟨x.hash, first, x.k, x.v⟩ } =
      h.bucket from rfl]
    simp [h₁, hstore]
  · change h₂.item_count + 1 = _
    rw [hre.item_count]
  · change Buckets h₂.links _
    rw [hlinks₂, hlinks, ← hfirst]
    exact hs.buckets.push hout
  · change (h₂.info b).isSome ↔ _
    rw [hre.info, hinfo]
    by_cases hba : b = a
    · subst hba
      exact iff_of_true (by simp) ⟨h.bucket x.hash, by simp⟩
    · rw [update_of_ne hba, hs.isSome_iff]
      refine exists_congr fun k => ?_
      by_cases hk : k = h.bucket x.hash
      · subst hk
        simp [hba]
      · simp [hk]

theorem pushNew_of_linkNode {hash_value : BitVec 64} {key : K}
    (hlink : h.linkNode (env.alloc.addr h.nodes) ⟨hash_value, key, env.undef⟩ = .ok h') :
    h.pushNew env hash_value key = .ok (env.alloc.addr h.nodes, h') := by
  obtain ⟨first, hload, hlink⟩ := Outcome.bind_eq_ok.mp hlink
  obtain ⟨h₂, hstore, heq⟩ := Outcome.bind_eq_ok.mp hlink
  cases heq
  simp only [pushNew, hload, Outcome.ok_bind, hstore]

theorem info_alloc (env : HashEnv K V) (h : Hash K V) : h.info (env.alloc.addr h.nodes) = none := by
  simp [info, env.alloc.fresh h.nodes]

variable [DecidableEq K]

/-- The nodes are those of the map: a node for each present key, with its hash value. -/
structure Holds (env : HashEnv K V) (h : Hash K V) (m : NodeMap K) : Prop where
  lookup : ∀ k a, m.lookup k = some a ↔ ∃ v, h.info a = some ⟨env.khash k, k, v⟩
  hash : ∀ a x, h.info a = some x → x.hash = env.khash x.k
  count : h.item_count.toNat = m.keys.card

/-- The whole state of a hash with these nodes. -/
structure Inv (env : HashEnv K V) (h : Hash K V) (m : NodeMap K) : Prop where
  chains : ∃ chains, h.Stored chains ∧ ∀ i, h.Placed chains i
  holds : h.Holds env m
  shape : h.Shape m.keys.card

namespace Holds

theorem lookup_of_info (hm : h.Holds env m) {x : HashInfo K V} (hx : h.info a = some x) :
    m.lookup x.k = some a := by
  refine (hm.lookup x.k a).mpr ⟨x.v, ?_⟩
  rw [hx, ← hm.hash a x hx]

theorem keys_insert (k : K) (a : Addr) (m : NodeMap K) : (m.insert k a).keys = insert k m.keys := by
  ext k'
  rw [mem_keys, mem_insert, Finset.mem_insert, mem_keys]

/-- The nodes with a new one. -/
theorem insert (hm : h.Holds env m) (hk : m.lookup k = none) (ha : h.info a = none) {v : V}
    (hinfo : h'.info = update h.info a (some ⟨env.khash k, k, v⟩))
    (hitem : h'.item_count = h.item_count + 1) (hlt : m.keys.card + 1 < 2 ^ 32) :
    h'.Holds env (m.insert k a) := by
  refine ⟨fun k' b => ?_, fun b y hy => ?_, ?_⟩
  · rw [hinfo]
    by_cases hkk : k' = k
    · subst hkk
      rw [lookup_insert]
      by_cases hba : b = a
      · subst hba
        simp
      · rw [update_of_ne hba]
        refine iff_of_false (fun heq => hba (Option.some.inj heq).symm) ?_
        rw [← hm.lookup, hk]
        simp
    · rw [lookup_insert_of_ne m hkk, hm.lookup]
      by_cases hba : b = a
      · subst hba
        simp only [ha, reduceCtorEq, exists_false, update_self, false_iff]
        rintro ⟨w, hw⟩
        obtain ⟨_, rfl, _⟩ := HashInfo.mk.inj (Option.some.inj hw)
        exact hkk rfl
      · rw [update_of_ne hba]
  · rw [hinfo] at hy
    by_cases hba : b = a
    · subst hba
      rw [update_self] at hy
      obtain rfl := Option.some.inj hy
      rfl
    · rw [update_of_ne hba] at hy
      exact hm.hash b y hy
  · have habsent : k ∉ m.keys := fun hmem =>
      lookup_eq_none.mp hk (mem_keys.mp hmem)
    have hcount := hm.count
    rw [hitem, keys_insert, Finset.card_insert_of_notMem habsent, UInt32.toNat_add, hcount,
      UInt32.toNat_one, Nat.mod_eq_of_lt hlt]

end Holds

/-- The walk of `find_g` over a chain finds a node with the key, or there is none on it. -/
theorem findFrom_returns {head : Option Addr} {l : List Addr} (hash_value : BitVec 64) (key : K)
    (hchain : Chain h.links.next head l) (hlive : ∀ a ∈ l, ∃ x, h.info a = some x) :
    ∃ r, Outcome.Returns (fun fuel => findFrom h hash_value key fuel head) r ∧
      (∀ a, r = some a → ∃ v, h.info a = some ⟨hash_value, key, v⟩) ∧
      (r = none → ∀ a ∈ l, ∀ v, h.info a ≠ some ⟨hash_value, key, v⟩) := by
  induction l generalizing head with
  | nil =>
    obtain rfl : head = none := hchain
    exact ⟨none, .of_succ_ok fun fuel => rfl, by simp, by simp⟩
  | cons a l ih =>
    obtain ⟨rfl, htail⟩ := hchain
    obtain ⟨x, hx⟩ := hlive a (by simp)
    by_cases hmatch : x.hash = hash_value ∧ x.k = key
    · obtain ⟨rfl, rfl⟩ := hmatch
      refine ⟨some a, .of_succ_ok fun fuel => by simp [findFrom, load_node hx], ?_, by simp⟩
      rintro b heq
      obtain rfl := Option.some.inj heq
      exact ⟨x.v, hx⟩
    · obtain ⟨r, hrun, hfound, hnone⟩ := ih htail fun b hb => hlive b (by simp [hb])
      refine ⟨r, hrun.of_succ fun fuel => ?_, hfound, fun hr b hb v hv => ?_⟩
      · by_cases hhash : x.hash = hash_value
        · have hkey : x.k ≠ key := fun heq => hmatch ⟨hhash, heq⟩
          simp [findFrom, load_node hx, hhash, hkey]
        · simp [findFrom, load_node hx, hhash]
      · rcases List.mem_cons.mp hb with rfl | hb
        · rw [hx] at hv
          obtain rfl := Option.some.inj hv
          exact hmatch ⟨rfl, rfl⟩
        · exact hnone hr b hb v hv

namespace Inv

section

variable (hinv : h.Inv env m)
include hinv

theorem lookup_eq_none (hlist : h.list = none) (k : K) : m.lookup k = none := by
  have hzero := hinv.shape.eq_zero hlist
  rw [Finmap.lookup_eq_none, ← Finmap.mem_keys, Finset.card_eq_zero.mp hzero]
  simp

/-- `find_g` returns the node of a present key. -/
theorem find_returns (k : K) :
    Outcome.Returns (fun fuel => h.find_g fuel (env.khash k) k) (m.lookup k) := by
  obtain ⟨chains, hs, hplaced⟩ := hinv.chains
  cases hlist : h.list with
  | none =>
    rw [hinv.lookup_eq_none hlist]
    exact .of_eq fun fuel => by simp [find_g, hlist]
  | some list =>
    have hlt := hinv.shape.bucket_lt (by simp [hlist]) (env.khash k)
    obtain ⟨r, hrun, hfound, hnone⟩ := findFrom_returns (env.khash k) k
      (hs.buckets.chain (h.bucket (env.khash k))) fun a ha => hs.exists_info ha
    have hr : r = m.lookup k := by
      cases r with
      | some a => exact ((hinv.holds.lookup k a).mpr (hfound a rfl)).symm
      | none =>
        cases hk : m.lookup k with
        | none => rfl
        | some a =>
          obtain ⟨v, hv⟩ := (hinv.holds.lookup k a).mp hk
          exact absurd hv (hnone rfl a (mem_bucket hs hplaced hv) v)
    rw [← hr]
    refine hrun.congr fun fuel => ?_
    have hload : h.load (.slot (h.bucket (env.khash k))) =
        .ok (h.links.slot (h.bucket (env.khash k))) := load_of_valid (by exact hlt)
    simp [find_g, hlist, hload]

theorem create_returns_present (hk : m.lookup k = some a) :
    Outcome.Returns (fun fuel => h.create_g env fuel (env.khash k) k) ((a, false), h) := by
  have hfind := hinv.find_returns k
  rw [hk] at hfind
  exact hfind.bind (.ok ((a, false), h))

/-- After the growth, a node for an absent key may be linked wherever there is none yet. -/
theorem reserve_link (hk : m.lookup k = none) (hlt : m.keys.card < nodeLimit) :
    ∃ h₁, Outcome.Returns (fun fuel => h.reserve env fuel) h₁ ∧ h₁.info = h.info ∧
      ∀ a v, h.info a = none → ∃ h', h₁.linkNode a ⟨env.khash k, k, v⟩ = .ok h' ∧
        h'.Inv env (m.insert k a) ∧
        h'.info = update h.info a (some ⟨env.khash k, k, v⟩) := by
  obtain ⟨chains, hs, hplaced⟩ := hinv.chains
  obtain ⟨h₁, chains₁, hreserve, hs₁, hplaced₁, hitem₁, hinfo₁, hshape₁⟩ :=
    reserve_returns env hs hplaced hinv.shape hinv.holds.count hlt
  have hlist₁ : h₁.list.isSome := by
    cases hlist : h₁.list with
    | none => exact absurd (hshape₁.eq_zero hlist) (by omega)
    | some list => rfl
  have habsent : k ∉ m.keys := fun hmem =>
    Finmap.lookup_eq_none.mp hk (Finmap.mem_keys.mp hmem)
  have hm₁ : h₁.Holds env m :=
    ⟨fun k b => by rw [hinfo₁, hinv.holds.lookup], fun b x hx => hinv.holds.hash b x (hinfo₁ ▸ hx),
      hitem₁ ▸ hinv.holds.count⟩
  refine ⟨h₁, hreserve, hinfo₁, fun a v hfree => ?_⟩
  have hfree₁ : h₁.info a = none := hinfo₁ ▸ hfree
  obtain ⟨h₂, hlink, same, hitem₂, hinfo₂, hs₂⟩ := linkNode_eq hs₁ hfree₁
    (x := ⟨env.khash k, k, v⟩) (hshape₁.bucket_lt hlist₁ (env.khash k))
  refine ⟨h₂, hlink, ⟨⟨_, hs₂, fun j => ?_⟩, ?_, ?_⟩, hinfo₁ ▸ hinfo₂⟩
  · exact placed_push hplaced₁ same hinfo₂ hfree₁ j
  · refine hm₁.insert hk hfree₁ hinfo₂ hitem₂ ?_
    unfold nodeLimit at hlt
    omega
  · rw [Holds.keys_insert, Finset.card_insert_of_notMem habsent]
    exact hshape₁.of_sameArray same (Nat.le_refl _)

theorem create_returns_absent (hk : m.lookup k = none) (hlt : m.keys.card < nodeLimit) :
    ∃ a h', Outcome.Returns (fun fuel => h.create_g env fuel (env.khash k) k) ((a, true), h') ∧
      h'.Inv env (m.insert k a) := by
  have hfind := hinv.find_returns k
  rw [hk] at hfind
  obtain ⟨h₁, hreserve, hinfo₁, hlink⟩ := hinv.reserve_link hk hlt
  obtain ⟨h', hlink, hinv', _⟩ := hlink (env.alloc.addr h₁.nodes) env.undef
    (hinfo₁ ▸ info_alloc env h₁)
  refine ⟨env.alloc.addr h₁.nodes, h', hfind.bind (hreserve.bind ?_), hinv'⟩
  exact .of_eq fun fuel => by simp [pushNew_of_linkNode hlink]

/-- At `nodeLimit` keys, `create_g` of an absent one does not return. -/
theorem create_diverges (hk : m.lookup k = none) (hmax : m.keys.card = nodeLimit) :
    Outcome.Diverges fun fuel => h.create_g env fuel (env.khash k) k := by
  have hfind := hinv.find_returns k
  rw [hk] at hfind
  have hreserve : Outcome.Diverges fun fuel => h.reserve env fuel :=
    .of_ne fun fuel h' => reserve_ne_ok hinv.shape hinv.holds.count hmax fuel h'
  exact .after hfind (hreserve.bind _)

end

end Inv

end Hash

end Drt
