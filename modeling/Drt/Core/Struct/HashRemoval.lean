import Drt.Core.Struct.HashOperations

/-!
# Removal from a hash

`remove_g` destroys the node of a key, and `clean_g` every node, bucket by bucket.
While a bucket is being cleaned its slot points to a destroyed node; the chains are
those of the links in which the slot leads to the node that comes next.
-/

open Finmap

open Function

namespace Drt

namespace Hash

variable {K V : Type} {env : HashEnv K V} {h h' : Hash K V} {chains : Nat → List Addr}
  {m : NodeMap K} {i : Nat} {a : Addr} {k : K}

/-- A node is gone, and the array is of the same size. -/
structure Destroyed (h h' : Hash K V) (a : Addr) : Prop extends SameArray h h' where
  item_count : h'.item_count = h.item_count - 1
  info : h'.info = Function.update h.info a none

theorem destroyNode_destroyed (h : Hash K V) (a : Addr) : Destroyed h (h.destroyNode a) a := by
  refine ⟨⟨rfl, rfl, rfl⟩, rfl, funext fun b => ?_⟩
  by_cases hba : b = a
  · subst hba
    simp [info, destroyNode]
  · simp [info, destroyNode, hba]

theorem links_destroyNode (h : Hash K V) (a : Addr) :
    (h.destroyNode a).links = h.links.set (.next a) none := by
  simp only [links, destroyNode, Links.set, Heap.cell_erase, Links.mk.injEq, true_and]
  funext b
  by_cases hba : b = a
  · subst hba
    simp
  · simp [hba]

/-- The nodes that are left are those on the chains without the destroyed one. -/
theorem Destroyed.isSome_iff (hd : Destroyed h h' a) {ls : Links Nat Addr}
    (hb : Buckets ls chains) (hiff : ∀ b, (h.info b).isSome ↔ ∃ j, b ∈ chains j) {l r : List Addr}
    (hl : chains i = l ++ a :: r) (b : Addr) :
    (h'.info b).isSome ↔ ∃ j, b ∈ update chains i (l ++ r) j := by
  rw [hd.info, hb.mem_unlink hl]
  by_cases hba : b = a
  · subst hba
    simp
  · rw [update_of_ne hba, hiff]
    simp [hba]

/-- The walk of `remove_g` destroys a node with the key, or there is none ahead. -/
theorem removeFrom_returns [DecidableEq K] (kept rest : List Addr) (hs : h.Stored chains)
    (hi : i < h.size) (hchain : chains i = kept ++ rest) (hash_value : BitVec 64) (key : K) :
    (∃ l a r v h', chains i = l ++ a :: r ∧ h.info a = some ⟨hash_value, key, v⟩ ∧
      Outcome.Returns (fun fuel => removeFrom h hash_value key fuel (.after i kept)) (true, h') ∧
      Destroyed h h' a ∧ h'.Stored (update chains i (l ++ r))) ∨
    Outcome.Returns (fun fuel => removeFrom h hash_value key fuel (.after i kept)) (false, h) ∧
      ∀ a ∈ rest, ∀ v, h.info a ≠ some ⟨hash_value, key, v⟩ := by
  induction rest generalizing kept with
  | nil =>
    refine Or.inr ⟨.of_succ_ok fun fuel => ?_, by simp⟩
    simp [removeFrom, hs.load_after hi hchain]
  | cons a rest ih =>
    obtain ⟨x, hx⟩ := hs.exists_info (i := i) (a := a) (by simp [hchain])
    have hload := hs.load_after hi hchain
    by_cases hmatch : x.hash = hash_value ∧ x.k = key
    · obtain ⟨rfl, rfl⟩ := hmatch
      obtain ⟨h₁, hstore, hre, hb⟩ := hs.unlink hchain
      have hd := destroyNode_destroyed h₁ a
      have hd' : Destroyed h (h₁.destroyNode a) a :=
        ⟨⟨hd.hashmask.trans hre.hashmask, hd.size.trans hre.size, hd.isSome.trans hre.isSome⟩,
          by rw [hd.item_count, hre.item_count], by rw [hd.info, hre.info]⟩
      refine Or.inl ⟨kept, a, rest, x.v, _, hchain, hx, .of_succ_ok fun fuel => ?_, hd', ?_,
        hd'.isSome_iff hs.buckets hs.isSome_iff hchain⟩
      · simp [removeFrom, hload, load_node hx, hstore]
      · rw [links_destroyNode]
        exact hb.set_next (hs.buckets.not_mem_unlink hchain)
    · have hpass : ∀ fuel, removeFrom h hash_value key (fuel + 1) (.after i kept) =
          removeFrom h hash_value key fuel (.after i (kept ++ [a])) := by
        intro fuel
        by_cases hhash : x.hash = hash_value
        · have hkey : x.k ≠ key := fun heq => hmatch ⟨hhash, heq⟩
          simp [removeFrom, hload, load_node hx, hhash, hkey]
        · simp [removeFrom, hload, load_node hx, hhash]
      rcases ih (kept ++ [a]) (by simp [hchain]) with
        ⟨l, b, r, v, h', hl, hb, hrun, hd, hs'⟩ | ⟨hrun, hnone⟩
      · exact Or.inl ⟨l, b, r, v, h', hl, hb, hrun.of_succ hpass, hd, hs'⟩
      · refine Or.inr ⟨hrun.of_succ hpass, fun b hb v hv => ?_⟩
        rcases List.mem_cons.mp hb with rfl | hb
        · rw [hx] at hv
          obtain rfl := Option.some.inj hv
          exact hmatch ⟨rfl, rfl⟩
        · exact hnone b hb v hv

/-- Nodes stay where they belong when one is destroyed. -/
theorem placed_unlink (hplaced : ∀ j, h.Placed chains j) {l r : List Addr}
    (hl : chains i = l ++ a :: r) (hs : h.Stored chains) (hd : Destroyed h h' a) (j : Nat) :
    h'.Placed (update chains i (l ++ r)) j := by
  intro b hb
  have hne : b ≠ a := fun heq => hs.buckets.not_mem_unlink hl j (heq ▸ hb)
  have hbj : b ∈ chains j := by
    by_cases hj : j = i
    · subst hj
      rw [update_self, List.mem_append] at hb
      simp only [hl, List.mem_append, List.mem_cons]
      tauto
    · rwa [update_of_ne hj] at hb
  have hhome := hplaced j b hbj
  simpa [home, hd.info, hne, hd.bucket] using hhome

variable [DecidableEq K]

/-- The nodes without the one that is destroyed. -/
theorem Holds.erase (hm : h.Holds env m) {x : HashInfo K V} (hx : h.info a = some x)
    (hd : Destroyed h h' a) : h'.Holds env (m.erase x.k) := by
  have hlookup := hm.lookup_of_info hx
  refine ⟨fun k b => ?_, fun b y hy => ?_, ?_⟩
  · rw [hd.info]
    by_cases hk : k = x.k
    · subst hk
      rw [lookup_erase]
      refine iff_of_false (by simp) ?_
      rintro ⟨v, hv⟩
      by_cases hba : b = a
      · subst hba
        simp at hv
      · rw [update_of_ne hba] at hv
        have hlookup' := hm.lookup_of_info hv
        rw [hlookup] at hlookup'
        exact hba (Option.some.inj hlookup').symm
    · rw [lookup_erase_ne hk, hm.lookup]
      by_cases hba : b = a
      · subst hba
        simp only [update_self, reduceCtorEq, exists_false, iff_false]
        rintro ⟨v, hv⟩
        rw [hx] at hv
        obtain rfl := Option.some.inj hv
        exact hk rfl
      · rw [update_of_ne hba]
  · rw [hd.info] at hy
    by_cases hba : b = a
    · subst hba
      simp at hy
    · rw [update_of_ne hba] at hy
      exact hm.hash b y hy
  · have hmem : x.k ∈ m.keys := mem_keys.mpr (mem_of_lookup_eq_some hlookup)
    have hpos := Finset.card_pos.mpr ⟨x.k, hmem⟩
    have hcount := hm.count
    have hlt := h.item_count.toNat_lt
    rw [hd.item_count, keys_erase, Finset.card_erase_of_mem hmem, ← hm.count,
      UInt32.toNat_sub_of_le]
    · rfl
    · rw [UInt32.le_iff_toNat_le, UInt32.toNat_one]
      omega

/-- The inner loop of `clean_g` destroys the nodes of a bucket. Its slot is the loop variable. -/
theorem cleanChain_returns (head : Option Addr) {rest : List Addr}
    (hb : Buckets (h.links.set (.slot i) head) chains) (hi : chains i = rest)
    (hiff : ∀ b, (h.info b).isSome ↔ ∃ j, b ∈ chains j) (hm : h.Holds env m) :
    ∃ h' m', Outcome.Returns (fun fuel => cleanChain fuel head h) h' ∧ SameArray h h' ∧
      Buckets (h'.links.set (.slot i) none) (update chains i []) ∧
      (∀ b, (h'.info b).isSome ↔ ∃ j, b ∈ update chains i [] j) ∧ h'.Holds env m' := by
  induction rest generalizing h chains head m with
  | nil =>
    have hslot : (h.links.set (.slot i) head).slot i = head := by simp [Links.set]
    have hchain := hb.chain i
    rw [hslot, hi] at hchain
    obtain rfl : head = none := hchain
    have hsame : update chains i [] = chains := by
      rw [← hi, update_eq_self]
    rw [hsame]
    exact ⟨h, m, .of_succ_ok fun fuel => rfl, ⟨rfl, rfl, rfl⟩, hb, hiff, hm⟩
  | cons a rest ih =>
    have hslot : (h.links.set (.slot i) head).slot i = head := by simp [Links.set]
    have hchain := hb.chain i
    rw [hslot, hi] at hchain
    obtain ⟨rfl, -⟩ := hchain
    obtain ⟨x, hx⟩ := Option.isSome_iff_exists.mp ((hiff a).mpr ⟨i, by simp [hi]⟩)
    have hd := destroyNode_destroyed h a
    have hunlink := (hb.unlink (l := []) (r := rest) hi).set_next (v := none)
      (hb.not_mem_unlink (l := []) (r := rest) hi)
    have hghost : ((h.links.set (.slot i) (some a)).set (.slot i)
        ((h.links.set (.slot i) (some a)).next a)).set (.next a) none =
        (h.destroyNode a).links.set (.slot i) (h.links.next a) := by
      rw [links_destroyNode]
      simp [Links.set]
    rw [Link.after_nil, hghost] at hunlink
    obtain ⟨h', m', hrun, same, hb', hiff', hm'⟩ := ih _ hunlink (by simp)
      (hd.isSome_iff hb hiff (l := []) hi) (hm.erase hx hd)
    rw [update_idem] at hb' hiff'
    refine ⟨h', m', hrun.of_succ fun fuel => ?_, ?_, hb', hiff', hm'⟩
    · simp [cleanChain, load_node hx]
    · exact ⟨same.hashmask.trans hd.hashmask, same.size.trans hd.size,
        same.isSome.trans hd.isSome⟩

/-- The outer loop of `clean_g` from bucket `i` on leaves no node. -/
theorem cleanFrom_returns (hs : h.Stored chains) (hm : h.Holds env m)
    (hempty : ∀ j, j < i → chains j = []) (hmask : h.hashmask + 1 = h.size) :
    ∃ h' m', Outcome.Returns (fun fuel => cleanFrom fuel i h) h' ∧ SameArray h h' ∧
      h'.Stored (fun _ => []) ∧ h'.Holds env m' := by
  generalize hleft : h.size - i = left
  induction left generalizing h chains m i with
  | zero =>
    have hnil : chains = fun _ => [] := by
      funext j
      by_cases hj : j < i
      · exact hempty j hj
      · exact hs.eq_nil (by omega)
    refine ⟨h, m, .of_succ_ok fun fuel => ?_, ⟨rfl, rfl, rfl⟩, hnil ▸ hs, hm⟩
    rw [cleanFrom, if_neg (by omega)]
  | succ left ih =>
    have hlt : i < h.size := by omega
    have hself : h.links.set (.slot i) (h.links.slot i) = h.links := by simp [Links.set]
    have hload : h.load (.slot i) = .ok (h.links.slot i) := load_of_valid (by exact hlt)
    obtain ⟨h₁, m₁, hrun, same, hb, hiff, hm₁⟩ := cleanChain_returns (i := i)
      (h.links.slot i) (by rw [hself]; exact hs.buckets) rfl hs.isSome_iff hm
    have hvalid : h₁.Valid (.slot i) := by
      simp only [Valid]
      rw [same.size]
      exact hlt
    obtain ⟨h₂, hstore, hlinks, hre⟩ := store_of_valid hvalid none
    have hs₂ : h₂.Stored (update chains i []) :=
      ⟨hlinks ▸ hb, fun b => by rw [hre.info, hiff]⟩
    have hm₂ : h₂.Holds env m₁ :=
      ⟨fun k b => by rw [hre.info, hm₁.lookup], fun b x hx => hm₁.hash b x (hre.info ▸ hx),
        hre.item_count ▸ hm₁.count⟩
    have hsize₂ := hre.size.trans same.size
    obtain ⟨h', m', hrest, same', hs', hm'⟩ := ih (i := i + 1) hs₂ hm₂
      (fun j hj => by
        by_cases hji : j = i
        · simp [hji]
        · rw [update_of_ne hji]
          exact hempty j (by omega))
      (by rw [hre.hashmask, same.hashmask, hsize₂, hmask]) (by omega)
    have hpass : Outcome.Returns (fun fuel => do
        let h₁ ← cleanChain fuel (h.links.slot i) h
        let h ← h₁.store (.slot i) none
        cleanFrom fuel (i + 1) h) h' := hrun.bind (by simpa [hstore] using hrest)
    refine ⟨h', m', hpass.of_succ fun fuel => ?_, ?_, hs', hm'⟩
    · rw [cleanFrom, if_pos (by omega), hload]
      rfl
    · exact ⟨same'.hashmask.trans (hre.hashmask.trans same.hashmask), same'.size.trans hsize₂,
        same'.isSome.trans (hre.isSome.trans same.isSome)⟩

namespace Inv

/-- `clean_g` destroys every node. -/
theorem clean_returns (hinv : h.Inv env m) :
    ∃ h', Outcome.Returns (fun fuel => h.clean_g fuel) h' ∧ h'.Inv env ∅ := by
  obtain ⟨chains, hs, hplaced⟩ := hinv.chains
  cases hlist : h.list with
  | none =>
    have hzero : m = ∅ := ext_lookup fun k => by
      rw [hinv.lookup_eq_none hlist, lookup_empty]
    exact ⟨h, .of_eq fun fuel => by simp [clean_g, hlist], hzero ▸ hinv⟩
  | some list =>
    obtain ⟨h', m', hrun, same, hs', hm'⟩ := cleanFrom_returns (i := 0) hs hinv.holds (by simp)
      hinv.shape.hashmask_add_one
    have hnone : ∀ b, h'.info b = none := fun b => by
      have hiff := hs'.isSome_iff b
      simpa using hiff
    have hzero : m' = ∅ := ext_lookup fun k => by
      rw [lookup_empty]
      cases hk : m'.lookup k with
      | none => rfl
      | some a =>
        obtain ⟨v, hv⟩ := (hm'.lookup k a).mp hk
        simp [hnone] at hv
    refine ⟨h', hrun.congr fun fuel => by simp [clean_g, hlist], ⟨_, hs', fun j a ha => ?_⟩,
      hzero ▸ hm', hinv.shape.of_sameArray same (by simp)⟩
    simp at ha

/-- `remove_g` destroys the node of a present key, and says whether there was one. -/
theorem remove_returns (hinv : h.Inv env m) (k : K) :
    ∃ h', Outcome.Returns (fun fuel => h.remove_g fuel (env.khash k) k)
        ((m.lookup k).isSome, h') ∧ h'.Inv env (m.erase k) := by
  obtain ⟨chains, hs, hplaced⟩ := hinv.chains
  have habsent : m.lookup k = none → m.erase k = m := fun hk => by
    refine ext_lookup fun k' => ?_
    by_cases hkk : k' = k
    · subst hkk
      rw [lookup_erase, hk]
    · exact lookup_erase_ne hkk
  cases hlist : h.list with
  | none =>
    have hk := hinv.lookup_eq_none hlist k
    rw [habsent hk, hk]
    exact ⟨h, .of_eq fun fuel => by simp [remove_g, hlist], hinv⟩
  | some list =>
    have hlt := hinv.shape.bucket_lt (by simp [hlist]) (env.khash k)
    have hcall : ∀ fuel, h.remove_g fuel (env.khash k) k =
        removeFrom h (env.khash k) k fuel (.after (h.bucket (env.khash k)) []) := fun fuel => by
      simp [remove_g, hlist]
    rcases removeFrom_returns [] (chains (h.bucket (env.khash k))) hs hlt rfl
        (env.khash k) k with ⟨l, a, r, v, h', hl, ha, hrun, hd, hs'⟩ | ⟨hrun, hnone⟩
    · have hk : m.lookup k = some a := (hinv.holds.lookup k a).mpr ⟨v, ha⟩
      refine ⟨h', ?_, ⟨_, hs', placed_unlink hplaced hl hs hd⟩, hinv.holds.erase ha hd,
        hinv.shape.of_sameArray hd.toSameArray ?_⟩
      · rw [hk]
        exact hrun.congr hcall
      · rw [keys_erase]
        exact Finset.card_erase_le
    · have hk : m.lookup k = none := by
        cases hk : m.lookup k with
        | none => rfl
        | some a =>
          obtain ⟨v, hv⟩ := (hinv.holds.lookup k a).mp hk
          exact absurd hv (hnone a (mem_bucket hs hplaced hv) v)
      rw [habsent hk, hk]
      exact ⟨h, hrun.congr hcall, hinv⟩

end Inv

end Hash

end Drt
