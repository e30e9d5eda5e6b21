import Drt.Core.Struct.Hash
import Mathlib.Tactic.Ring

/-!
# The links of a hash

What the operations of `Hash_c` see of the memory: where the slots and nodes point,
and what the nodes carry. Stores change the first only. `Stored h chains` says that
the slots head these chains and that the chains are all the nodes there are.
-/

open Function Option

namespace Drt

/-- What a node carries besides its link. -/
structure HashInfo (K V : Type) where
  hash : BitVec 64
  k : K
  v : V

/-- What a node carries. -/
def HashNode.info {K V : Type} (n : HashNode K V) : HashInfo K V := ⟨n.hash, n.k, n.v⟩

namespace Hash

variable {K V : Type}

/-- The number of slots. -/
def size (h : Hash K V) : Nat := (h.list.getD []).length

/-- Where the slots and the nodes point. -/
def links (h : Hash K V) : Links Nat Addr where
  slot i := ((h.list.getD [])[i]?).join
  next a := (h.nodes.cell a).bind HashNode.next

/-- What the node at an address carries. -/
def info (h : Hash K V) (a : Addr) : Option (HashInfo K V) := (h.nodes.cell a).map HashNode.info

/-- The bucket that the node at an address belongs in. -/
def home (h : Hash K V) (a : Addr) : Option Nat := (h.info a).map fun x => h.bucket x.hash

/-- A link that may be read and written. -/
def Valid (h : Hash K V) : Link Nat Addr → Prop
  | .slot i => i < h.size
  | .next a => (h.info a).isSome

/-- The array is of the same size. -/
structure SameArray (h h' : Hash K V) : Prop where
  hashmask : h'.hashmask = h.hashmask
  size : h'.size = h.size
  isSome : h'.list.isSome = h.list.isSome

/-- Only links differ. -/
structure Relinked (h h' : Hash K V) : Prop extends SameArray h h' where
  item_count : h'.item_count = h.item_count
  info : h'.info = h.info

variable {h : Hash K V}

theorem SameArray.bucket {h' : Hash K V} (same : SameArray h h') : h'.bucket = h.bucket := by
  funext hash
  simp only [Hash.bucket, same.hashmask]

namespace Relinked

variable {h h' h'' : Hash K V}

theorem refl (h : Hash K V) : Relinked h h := ⟨⟨rfl, rfl, rfl⟩, rfl, rfl⟩

theorem trans (r : Relinked h h') (r' : Relinked h' h'') : Relinked h h'' :=
  ⟨⟨r'.hashmask.trans r.hashmask, r'.size.trans r.size, r'.isSome.trans r.isSome⟩,
    r'.item_count.trans r.item_count, r'.info.trans r.info⟩

theorem home (r : Relinked h h') : h'.home = h.home := by
  funext a
  simp only [Hash.home, r.info, r.bucket]

theorem valid (r : Relinked h h') {p : Link Nat Addr} (hp : h.Valid p) : h'.Valid p := by
  cases p with
  | slot i => simpa only [Valid, r.size] using hp
  | next a => simpa only [Valid, r.info] using hp

end Relinked

theorem cell_of_info {a : Addr} {x : HashInfo K V} (hx : h.info a = some x) :
    h.nodes.cell a = some ⟨x.hash, h.links.next a, x.k, x.v⟩ := by
  obtain ⟨n, hn, rfl⟩ := map_eq_some_iff.mp hx
  simp [links, hn, HashNode.info]

theorem load_node {a : Addr} {x : HashInfo K V} (hx : h.info a = some x) :
    (h.nodes.load a : Call (HashNode K V)) = .ok ⟨x.hash, h.links.next a, x.k, x.v⟩ :=
  Heap.load_of_cell (cell_of_info hx)

theorem load_of_valid {p : Link Nat Addr} (hp : h.Valid p) : h.load p = .ok (h.links.get p) := by
  cases p with
  | slot i =>
    cases hlist : h.list with
    | none => simp [Valid, size, hlist] at hp
    | some list =>
      have hlt : i < list.length := by simpa [Valid, size, hlist] using hp
      simp [load, links, hlist, hlt]
  | next a =>
    obtain ⟨x, hx⟩ := isSome_iff_exists.mp hp
    simp [load, load_node hx]

/-- Writing a link. -/
theorem store_of_valid {p : Link Nat Addr} (hp : h.Valid p) (v : Option Addr) :
    ∃ h', h.store p v = .ok h' ∧ h'.links = h.links.set p v ∧ Relinked h h' := by
  cases p with
  | slot i =>
    cases hlist : h.list with
    | none => simp [Valid, size, hlist] at hp
    | some list =>
      have hlt : i < list.length := by simpa [Valid, size, hlist] using hp
      refine ⟨{ h with list := some (list.set i v) }, by simp [store, hlist, hlt], ?_, ?_⟩
      · simp only [links, Links.set, hlist, getD_some, Links.mk.injEq, and_true]
        funext j
        by_cases hij : j = i
        · subst hij
          simp [hlt]
        · simp [hij, Ne.symm hij]
      · exact ⟨⟨rfl, by simp [size, hlist], by simp [hlist]⟩, rfl, rfl⟩
  | next a =>
    obtain ⟨x, hx⟩ := isSome_iff_exists.mp hp
    refine ⟨{ h with nodes := h.nodes.put a ⟨x.hash, v, x.k, x.v⟩ }, ?_, ?_, ?_⟩
    · simp [store, load_node hx]
    · simp only [links, Links.set, Heap.cell_put, Links.mk.injEq, true_and]
      funext b
      by_cases hab : b = a
      · subst hab
        simp
      · simp [hab]
    · refine ⟨⟨rfl, rfl, rfl⟩, rfl, funext fun b => ?_⟩
      by_cases hab : b = a
      · subst hab
        simp [info, cell_of_info hx, HashNode.info]
      · simp [info, hab]

/-- The slots head these chains, and the chains are all the nodes there are. -/
structure Stored (h : Hash K V) (chains : Nat → List Addr) : Prop where
  buckets : Buckets h.links chains
  isSome_iff : ∀ a, (h.info a).isSome ↔ ∃ i, a ∈ chains i

/-- The nodes of a chain belong in its bucket. -/
def Placed (h : Hash K V) (chains : Nat → List Addr) (i : Nat) : Prop :=
  ∀ a ∈ chains i, h.home a = some i

namespace Stored

variable {h h' : Hash K V} {chains : Nat → List Addr} {i j : Nat} {a : Addr} {l r : List Addr}

section

variable (hs : h.Stored chains)
include hs

theorem exists_info (ha : a ∈ chains i) : ∃ x, h.info a = some x :=
  isSome_iff_exists.mp ((hs.isSome_iff a).mpr ⟨i, ha⟩)

theorem eq_nil (hi : h.size ≤ i) : chains i = [] := by
  have hnone : h.links.slot i = none := by
    simp only [links, List.getElem?_eq_none hi, join_none]
  have hchain := hs.buckets.chain i
  rwa [hnone, Chain.none_iff] at hchain

theorem lt_size (ha : a ∈ chains i) : i < h.size := by
  by_contra hle
  rw [hs.eq_nil (by omega)] at ha
  simp at ha

theorem valid_after (hi : i < h.size) (hl : chains i = l ++ r) : h.Valid (.after i l) := by
  obtain rfl | ⟨l, b, rfl⟩ := l.eq_nil_or_concat
  · exact hi
  · rw [List.concat_eq_append] at hl ⊢
    rw [Link.after_append]
    exact (hs.isSome_iff b).mpr ⟨i, by simp [hl]⟩

theorem load_after (hi : i < h.size) (hl : chains i = l ++ r) :
    h.load (.after i l) = .ok r.head? := by
  rw [load_of_valid (hs.valid_after hi hl), hs.buckets.get_after hl]

theorem unlink (hl : chains i = l ++ a :: r) :
    ∃ h', h.store (.after i l) (h.links.next a) = .ok h' ∧ Relinked h h' ∧
      Buckets h'.links (update chains i (l ++ r)) := by
  have hi : i < h.size := hs.lt_size (a := a) (by simp [hl])
  obtain ⟨h', hstore, hlinks, hre⟩ :=
    store_of_valid (hs.valid_after hi hl) (h.links.next a)
  exact ⟨h', hstore, hre, hlinks ▸ hs.buckets.unlink hl⟩

/-- A moved node ends at the front of its own bucket. -/
theorem moveNode (hl : chains i = l ++ a :: r) (hj : h.home a = some j) (hlt : j < h.size)
    (hne : j ≠ i) :
    ∃ h', h.moveNode (.after i l) a = .ok h' ∧ Relinked h h' ∧
      h'.Stored (update (update chains i (l ++ r)) j (a :: chains j)) := by
  obtain ⟨x, hx⟩ := hs.exists_info (i := i) (a := a) (by simp [hl])
  obtain rfl : h.bucket x.hash = j := by simpa [home, hx] using hj
  have hva : h.Valid (.next a) := by simp [Valid, hx]
  obtain ⟨h₁, hstore₁, hre₁, hb₁⟩ := hs.unlink hl
  obtain ⟨h₂, hstore₂, hlinks₂, hre₂⟩ :=
    store_of_valid (hre₁.valid hva) (h₁.links.slot (h.bucket x.hash))
  have hslot : h₂.Valid (.slot (h.bucket x.hash)) := (hre₁.trans hre₂).valid (by exact hlt)
  obtain ⟨h₃, hstore₃, hlinks₃, hre₃⟩ := store_of_valid hslot (some a)
  have hre := (hre₁.trans hre₂).trans hre₃
  have hload : h₁.load (.slot (h.bucket x.hash)) = .ok (h₁.links.slot (h.bucket x.hash)) :=
    load_of_valid (hre₁.valid (by exact hlt))
  refine ⟨h₃, ?_, hre, ?_, fun b => ?_⟩
  · simp [Hash.moveNode, load_node hx, hstore₁, hre₁.bucket, (hre₁.trans hre₂).bucket, hload,
      hstore₂, hstore₃]
  · have hpush := hb₁.push (i := h.bucket x.hash) (hs.buckets.not_mem_unlink hl)
    rwa [update_of_ne hne, ← hlinks₂, ← hlinks₃] at hpush
  · rw [hre.info, hs.isSome_iff]
    have hmem := hs.buckets.mem_unlink hl (b := b)
    by_cases hba : b = a
    · subst hba
      refine iff_of_true ⟨i, by simp [hl]⟩ ⟨h.bucket x.hash, by simp⟩
    · simp only [ne_eq, hba, not_false_eq_true, true_and] at hmem
      rw [← hmem]
      refine exists_congr fun k => ?_
      by_cases hk : k = h.bucket x.hash
      · subst hk
        simp [hba, hne]
      · simp [hk]

end

end Stored

end Hash

end Drt

/-!
## Growth of a hash

The rehash walks every old bucket and moves the nodes that belong elsewhere. Buckets
that are done, and the new ones, stay in order while nodes are pushed on them. The
loop before it, which clears the new slots, has no end for `2 ^ 32` slots.
-/

namespace Drt

namespace Hash

variable {K V : Type} {h : Hash K V} {chains : Nat → List Addr}

/-- The inner loop leaves only nodes of its bucket, and keeps the order of other ones. -/
theorem rehashBucket_returns (i : UInt32) (kept : List Addr) {rest : List Addr} (hs : h.Stored chains)
    (hsize : h.size ≤ 2 ^ 32) (hbucket : ∀ hash, h.bucket hash < h.size) (hi : i.toNat < h.size)
    (hchain : chains i.toNat = kept ++ rest) (hkept : ∀ a ∈ kept, h.home a = some i.toNat) :
    ∃ h' chains',
      Outcome.Returns (fun fuel => rehashBucket i fuel (.after i.toNat kept) h) h' ∧
      Relinked h h' ∧ h'.Stored chains' ∧ h'.Placed chains' i.toNat ∧
      ∀ j, j ≠ i.toNat → h.Placed chains j → h'.Placed chains' j := by
  induction rest generalizing h chains kept with
  | nil =>
    refine ⟨h, chains, .of_succ_ok fun fuel => ?_, .refl h, hs, ?_, fun j _ hj => hj⟩
    · simp [rehashBucket, hs.load_after hi hchain]
    · rw [List.append_nil] at hchain
      exact fun a ha => hkept a (hchain ▸ ha)
  | cons a rest ih =>
    obtain ⟨x, hx⟩ := hs.exists_info (i := i.toNat) (a := a) (by simp [hchain])
    have hhome : h.home a = some (h.bucket x.hash) := by simp [home, hx]
    have hlt := hbucket x.hash
    by_cases hmove : UInt32.ofNat (h.bucket x.hash) ≠ i
    · have hne : h.bucket x.hash ≠ i.toNat := fun heq => hmove (by simp [heq])
      obtain ⟨h₁, hmoved, hre, hs₁⟩ := hs.moveNode hchain hhome hlt hne
      have hplaced : ∀ j, j ≠ i.toNat → h.Placed chains j →
          h₁.Placed (update (update chains i.toNat (kept ++ rest))
            (h.bucket x.hash) (a :: chains (h.bucket x.hash))) j := by
        intro j hji hj b hb
        rw [hre.home]
        by_cases hjx : j = h.bucket x.hash
        · subst hjx
          rw [update_self, List.mem_cons] at hb
          rcases hb with rfl | hb
          · exact hhome
          · exact hj b hb
        · rw [update_of_ne hjx, update_of_ne hji] at hb
          exact hj b hb
      obtain ⟨h', chains', hrun, hre', hs', hdone, hkeep⟩ := ih kept hs₁ (by rwa [hre.size])
        (by rwa [hre.bucket, hre.size]) (by rwa [hre.size])
        (by rw [update_of_ne (Ne.symm hne), update_self])
        (by rwa [hre.home])
      refine ⟨h', chains', hrun.of_succ fun fuel => ?_, hre.trans hre', hs', hdone,
        fun j hji hj => hkeep j hji (hplaced j hji hj)⟩
      simp [rehashBucket, hs.load_after hi hchain, load_node hx, hmove, hmoved]
    · have hstay : h.bucket x.hash = i.toNat := by
        rw [← not_not.mp hmove, UInt32.toNat_ofNat_of_lt' (show h.bucket x.hash < 2 ^ 32 by omega)]
      rw [hstay] at hhome
      obtain ⟨h', chains', hrun, hrest⟩ := ih (kept ++ [a]) hs hsize hbucket hi
        (by simp [hchain]) (by
          intro b hb
          rcases List.mem_append.mp hb with hb | hb
          · exact hkept b hb
          · obtain rfl := List.mem_singleton.mp hb
            exact hhome)
      refine ⟨h', chains', hrun.of_succ fun fuel => ?_, hrest⟩
      simp [rehashBucket, hs.load_after hi hchain, load_node hx, not_not.mp hmove]

/-- The outer loop puts every node in order when the buckets beyond the old ones are. -/
theorem rehashFrom_returns (olim i : UInt32) (hs : h.Stored chains) (hsize : h.size ≤ 2 ^ 32)
    (hbucket : ∀ hash, h.bucket hash < h.size) (holim : olim.toNat ≤ h.size)
    (hplaced : ∀ j, j < i.toNat ∨ olim.toNat ≤ j → h.Placed chains j) :
    ∃ h' chains', Outcome.Returns (fun fuel => rehashFrom olim fuel i h) h' ∧
      Relinked h h' ∧ h'.Stored chains' ∧ ∀ j, h'.Placed chains' j := by
  generalize hleft : olim.toNat - i.toNat = left
  induction left generalizing h chains i with
  | zero =>
    have hge : ¬ i < olim := by
      rw [UInt32.lt_iff_toNat_lt]
      omega
    refine ⟨h, chains, .of_succ_ok fun fuel => by simp [rehashFrom, hge], .refl h, hs, fun j => ?_⟩
    exact hplaced j (by omega)
  | succ left ih =>
    have hlt : i < olim := by
      rw [UInt32.lt_iff_toNat_lt]
      omega
    have hnext : (i + 1).toNat = i.toNat + 1 := by
      have := olim.toNat_lt
      rw [UInt32.toNat_add, UInt32.toNat_one, Nat.mod_eq_of_lt (by omega)]
    obtain ⟨h₁, chains₁, hrun, hre, hs₁, hdone, hkeep⟩ := rehashBucket_returns i [] hs hsize hbucket (by omega) rfl (by simp)
    obtain ⟨h', chains', hrest, hre', hs', hall⟩ := ih (i + 1) hs₁ (by rwa [hre.size])
      (by rwa [hre.bucket, hre.size]) (by rwa [hre.size]) (by
        intro j hj
        by_cases hij : j = i.toNat
        · exact hij ▸ hdone
        · exact hkeep j hij (hplaced j (by omega))) (by omega)
    refine ⟨h', chains', (hrun.bind hrest).of_succ fun fuel => ?_, hre.trans hre', hs', hall⟩
    simp [rehashFrom, hlt]

/-- The slots from `i` to `last` are cleared when `last` is not the greatest `unsigned`. -/
theorem clearFrom_returns (last i : UInt32) (hlast : last.toNat + 1 < 2 ^ 32)
    (hsize : last.toNat < h.size) :
    ∃ h', Outcome.Returns (fun fuel => clearFrom last fuel i h) h' ∧ Relinked h h' ∧
      h'.links.next = h.links.next ∧
      ∀ j, h'.links.slot j = if i.toNat ≤ j ∧ j ≤ last.toNat then none else h.links.slot j := by
  generalize hleft : last.toNat + 1 - i.toNat = left
  induction left generalizing h i with
  | zero =>
    have hgt : ¬ i ≤ last := by
      rw [UInt32.le_iff_toNat_le]
      omega
    refine ⟨h, .of_succ_ok fun fuel => by simp [clearFrom, hgt], .refl h, rfl, fun j => ?_⟩
    rw [if_neg (by omega)]
  | succ left ih =>
    have hle : i ≤ last := by
      rw [UInt32.le_iff_toNat_le]
      omega
    have hnext : (i + 1).toNat = i.toNat + 1 := by
      rw [UInt32.toNat_add, UInt32.toNat_one, Nat.mod_eq_of_lt (by omega)]
    have hvalid : h.Valid (.slot i.toNat) := by
      simp only [Valid]
      omega
    obtain ⟨h₁, hstore, hlinks, hre⟩ := store_of_valid hvalid none
    obtain ⟨h', hrest, hre', hnexts, hslots⟩ := ih (h := h₁) (i + 1) (by rwa [hre.size])
      (by omega)
    refine ⟨h', hrest.of_succ fun fuel => by simp [clearFrom, hle, hstore], hre.trans hre', ?_,
      fun j => ?_⟩
    · rw [hnexts, hlinks]
      rfl
    · rw [hslots, hlinks, hnext]
      by_cases hji : j = i.toNat
      · subst hji
        simp [Links.set]
        omega
      · simp only [Links.set, update_of_ne hji]
        by_cases hin : i.toNat ≤ j ∧ j ≤ last.toNat
        · rw [if_pos hin, if_pos (by omega)]
        · rw [if_neg hin, if_neg (by omega)]

/-- An `unsigned` never exceeds the greatest one: the loop does not come to its end. -/
theorem clearFrom_ne_ok {last : UInt32} (hlast : last.toNat = 2 ^ 32 - 1) (fuel : Nat) (i : UInt32)
    (h h' : Hash K V) : clearFrom last fuel i h ≠ .ok h' := by
  induction fuel generalizing i h with
  | zero => simp [clearFrom]
  | succ fuel ih =>
    have hle : i ≤ last := by
      rw [UInt32.le_iff_toNat_le]
      have := i.toNat_lt
      omega
    intro hok
    rw [clearFrom, if_pos hle] at hok
    obtain ⟨h₁, _, hrest⟩ := Outcome.bind_eq_ok.mp hok
    exact ih (i + 1) h₁ hrest

variable {count k : Nat}

/-- The mask of `2 ^ k` slots selects the low bits of a hash value. -/
theorem bucket_eq_mod (hk : k ≤ 64) (hmask : h.hashmask = 2 ^ k - 1) (hash : BitVec 64) :
    h.bucket hash = hash.toNat % 2 ^ k := by
  have hle : 2 ^ k ≤ 2 ^ 64 := Nat.pow_le_pow_right (by decide) hk
  have hpos : 0 < 2 ^ k := Nat.two_pow_pos k
  have hcast : h.hashmask = ((2 ^ k - 1 : Nat) : Int) := by
    rw [hmask, Int.natCast_sub hpos]
    simp
  rw [bucket, BitVec.toNat_and, hcast, BitVec.ofInt_natCast, BitVec.toNat_ofNat,
    Nat.mod_eq_of_lt (by omega), Nat.and_two_pow_sub_one_eq_mod]

/-- The array of a hash with `count` nodes: none yet, or `2 ^ (k + 2)` slots, with nodes for at
most three quarters of them. -/
inductive Shape (h : Hash K V) (count : Nat) : Prop
  | bare (hlist : h.list = none) (hmask : h.hashmask = -1) (hcount : count = 0)
  | array (k : Nat) (hk : k ≤ 29) (hlist : h.list.isSome) (hsize : h.size = 2 ^ (k + 2))
    (hmask : h.hashmask = 2 ^ (k + 2) - 1) (hcount : count ≤ 3 * 2 ^ k)

namespace Shape

variable {h' : Hash K V} {count count' : Nat}

section

variable (hshape : h.Shape count)
include hshape

theorem of_sameArray (same : SameArray h h') (hle : count' ≤ count) : h'.Shape count' := by
  cases hshape with
  | bare hlist hmask hcount =>
    refine .bare ?_ (same.hashmask.trans hmask) (by omega)
    have hnone := same.isSome
    rw [hlist] at hnone
    simpa using hnone
  | array k hk hlist hsize hmask hcount =>
    exact .array k hk (same.isSome.trans hlist) (same.size.trans hsize)
      (same.hashmask.trans hmask) (by omega)

theorem eq_zero (hlist : h.list = none) : count = 0 := by
  cases hshape with
  | bare _ _ hcount => exact hcount
  | array _ _ hsome => simp [hlist] at hsome

theorem bucket_lt (hlist : h.list.isSome) (hash : BitVec 64) : h.bucket hash < h.size := by
  cases hshape with
  | bare hnone => simp [hnone] at hlist
  | array k hk _ hsize hmask =>
    rw [bucket_eq_mod (by omega) hmask, hsize]
    exact Nat.mod_lt _ (Nat.two_pow_pos _)

theorem hashmask_add_one : h.hashmask + 1 = h.size := by
  cases hshape with
  | bare hlist hmask => simp [hmask, size, hlist]
  | array k hk _ hsize hmask =>
    rw [hmask, hsize]
    push_cast
    ring

end

end Shape

/-- The array is now of `2 ^ (k + 2)` slots, the old ones among them. -/
structure Widened (h w : Hash K V) (k : Nat) : Prop where
  hashmask : w.hashmask = 2 ^ (k + 2) - 1
  size : w.size = 2 ^ (k + 2)
  isSome : w.list.isSome
  item_count : w.item_count = h.item_count
  info : w.info = h.info
  next : w.links.next = h.links.next
  slot : ∀ j, j < h.size → w.links.slot j = h.links.slot j

theorem widened_bare (env : HashEnv K V) (hlist : h.list = none) :
    Widened h (h.widen env) 0 := by
  refine ⟨?_, ?_, ?_, ?_, ?_, ?_, fun j hj => ?_⟩
  · simp [widen, hlist]
  · simp [widen, hlist, size, env.length_reallocList]
  · simp [widen, hlist]
  · simp [widen, hlist]
  · funext a
    simp [widen, hlist, info]
  · simp [widen, hlist, links]
  · simp [size, hlist] at hj

/-- Twice the array. -/
theorem widened_array (env : HashEnv K V) (hlist : h.list.isSome) (hsize : h.size = 2 ^ (k + 2))
    (hmask : h.hashmask = 2 ^ (k + 2) - 1) : Widened h (h.widen env) (k + 1) := by
  obtain ⟨list, hlist⟩ := isSome_iff_exists.mp hlist
  have hlen : list.length = 2 ^ (k + 2) := by simpa [size, hlist] using hsize
  have hdouble : ((h.hashmask + 1) * 2).toNat = 2 ^ (k + 1 + 2) := by
    have hcast : (h.hashmask + 1) * 2 = ((2 ^ (k + 1 + 2) : Nat) : Int) := by
      rw [hmask]
      push_cast
      ring
    rw [hcast, Int.toNat_natCast]
  refine ⟨?_, ?_, ?_, ?_, ?_, ?_, fun j hj => ?_⟩
  · simp only [widen, hlist, hmask]
    ring
  · simp [widen, hlist, size, env.length_reallocList, hdouble]
  · simp [widen, hlist]
  · simp [widen, hlist]
  · funext a
    simp [widen, hlist, info]
  · simp [widen, hlist, links]
  · rw [hsize, ← hlen] at hj
    have hlt : j < 2 ^ (k + 1 + 2) := by
      rw [pow_succ 2 (k + 2), ← hlen] at *
      omega
    simp only [widen, hlist, links, getD_some, hdouble]
    rw [env.getElem?_reallocList list _ j hj hlt]

/-- Below `2 ^ 32` slots, a growth keeps the nodes and puts each in its bucket. -/
theorem grow_returns {env : HashEnv K V} (hs : h.Stored chains) (hw : Widened h (h.widen env) k)
    (hk : k ≤ 29) (hmask : h.hashmask + 1 = h.size) (hsize : h.size ≤ 2 ^ (k + 2)) :
    ∃ h' chains', Outcome.Returns (fun fuel => h.grow env fuel) h' ∧
      Relinked (h.widen env) h' ∧ h'.Stored chains' ∧ ∀ j, h'.Placed chains' j := by
  have hpow : 2 ^ (k + 2) ≤ 2 ^ 31 := Nat.pow_le_pow_right (by decide) (by omega)
  have hpos := Nat.two_pow_pos (k + 2)
  have holim : (UInt32.ofInt (h.hashmask + 1)).toNat = h.size := by
    rw [hmask, UInt32.ofInt, UInt32.toNat_ofNat']
    omega
  have hlast : (UInt32.ofInt (h.widen env).hashmask).toNat = 2 ^ (k + 2) - 1 := by
    have hcast : (h.widen env).hashmask = ((2 ^ (k + 2) - 1 : Nat) : Int) := by
      rw [hw.hashmask, Int.natCast_sub hpos]
      simp
    rw [hcast, UInt32.ofInt, UInt32.toNat_ofNat']
    omega
  obtain ⟨h₁, hclear, hre, hnext, hslot⟩ := clearFrom_returns (h := h.widen env)
    (.ofInt (h.widen env).hashmask) (.ofInt (h.hashmask + 1))
    (by omega) (by rw [hw.size]; omega)
  have hlinks : h₁.links = h.links := by
    have hslots : h₁.links.slot = h.links.slot := by
      funext j
      rw [hslot, holim, hlast]
      by_cases hj : j < h.size
      · rw [if_neg (by omega), hw.slot j hj]
      · have hnone : ∀ g : Hash K V, g.size ≤ j → g.links.slot j = none := fun g hg => by
          simp only [links, List.getElem?_eq_none hg, join_none]
        rw [hnone h (by omega)]
        by_cases hin : h.size ≤ j ∧ j ≤ 2 ^ (k + 2) - 1
        · rw [if_pos hin]
        · rw [if_neg hin, hnone (h.widen env) (by rw [hw.size]; omega)]
    rw [hw.next] at hnext
    cases hl : h₁.links
    cases hl' : h.links
    simp_all
  have hs₁ : h₁.Stored chains :=
    ⟨hlinks ▸ hs.buckets, fun a => by rw [hre.info, hw.info, hs.isSome_iff]⟩
  have hmask₁ : h₁.hashmask = 2 ^ (k + 2) - 1 := hre.hashmask.trans hw.hashmask
  have hsize₁ : h₁.size = 2 ^ (k + 2) := hre.size.trans hw.size
  obtain ⟨h', chains', hrun, hre', hs', hall⟩ := rehashFrom_returns
    (.ofInt (h.hashmask + 1)) 0 hs₁ (by omega)
    (fun hash => by
      rw [bucket_eq_mod (by omega) hmask₁, hsize₁]
      exact Nat.mod_lt _ (Nat.two_pow_pos _))
    (by omega)
    (fun j hj a ha => by
      rw [holim, UInt32.toNat_zero] at hj
      rw [hs.eq_nil (by omega)] at ha
      simp at ha)
  exact ⟨h', chains', hclear.bind hrun, hre.trans hre', hs', hall⟩

/-- The number of nodes for which an array of `2 ^ 31` slots is there. -/
def nodeLimit : Nat := 3 * 2 ^ 29

theorem toInt_item_count (hcount : h.item_count.toNat < 2 ^ 31) :
    h.item_count.toInt32.toInt = h.item_count.toNat := by
  have hlt : 2 * h.item_count.toBitVec.toNat < 2 ^ 32 := by
    rw [UInt32.toNat_toBitVec]
    omega
  change h.item_count.toBitVec.toInt = _
  rw [BitVec.toInt_eq_toNat_of_lt hlt, UInt32.toNat_toBitVec]

theorem full_bare (hmask : h.hashmask = -1) (hcount : h.item_count.toNat = 0) : h.full := by
  rw [full, toInt_item_count (by omega), hmask, hcount]
  decide

theorem full_iff (hmask : h.hashmask = 2 ^ (k + 2) - 1) (hcount : h.item_count.toNat < 2 ^ 31) :
    h.full ↔ 3 * 2 ^ k ≤ h.item_count.toNat := by
  have hpos := Nat.two_pow_pos k
  have hcast : h.hashmask = 4 * ((2 ^ k : Nat) : Int) - 1 := by
    rw [hmask]
    push_cast
    ring
  rw [full, toInt_item_count hcount, hcast, Int.tdiv_eq_ediv_of_nonneg (by omega)]
  omega

/-- Below `nodeLimit` nodes, there is an array with room for one more node afterwards. -/
theorem reserve_returns (env : HashEnv K V) (hs : h.Stored chains)
    (hplaced : ∀ j, h.Placed chains j) (hshape : h.Shape count)
    (hcount : h.item_count.toNat = count) (hlt : count < nodeLimit) :
    ∃ h' chains', Outcome.Returns (fun fuel => h.reserve env fuel) h' ∧ h'.Stored chains' ∧
      (∀ j, h'.Placed chains' j) ∧ h'.item_count = h.item_count ∧ h'.info = h.info ∧
      h'.Shape (count + 1) := by
  unfold nodeLimit at hlt
  have hslots := hshape.hashmask_add_one
  cases hshape with
  | bare hlist hmask hzero =>
    have hw := widened_bare env hlist
    obtain ⟨h', chains', hrun, hre, hs', hall⟩ := grow_returns hs hw (by omega)
      hslots (by simp [size, hlist])
    have hfull : h.full := full_bare hmask (by omega)
    refine ⟨h', chains', hrun.congr fun fuel => by simp [reserve, hfull], hs', hall,
      hre.item_count.trans hw.item_count, hre.info.trans hw.info,
      .array 0 (by omega) (hre.isSome.trans hw.isSome) (hre.size.trans hw.size)
        (hre.hashmask.trans hw.hashmask) (by omega)⟩
  | array k hk hlist hsize hmask hle =>
    have hiff := full_iff hmask (by omega)
    by_cases hfull : h.full
    · have hreached : 3 * 2 ^ k ≤ h.item_count.toNat := hiff.mp hfull
      have hroom : k + 1 ≤ 29 := by
        by_contra hover
        obtain rfl : k = 29 := by omega
        omega
      have hw := widened_array env hlist hsize hmask
      obtain ⟨h', chains', hrun, hre, hs', hall⟩ := grow_returns hs hw hroom hslots
        (by rw [hsize]; exact Nat.pow_le_pow_right (by decide) (by omega))
      refine ⟨h', chains', hrun.congr fun fuel => by simp [reserve, hfull], hs', hall,
        hre.item_count.trans hw.item_count, hre.info.trans hw.info,
        .array (k + 1) hroom (hre.isSome.trans hw.isSome) (hre.size.trans hw.size)
          (hre.hashmask.trans hw.hashmask) ?_⟩
      have hpos := Nat.two_pow_pos k
      rw [pow_succ 2 k]
      omega
    · refine ⟨h, chains, .of_eq fun fuel => by simp [reserve, hfull, hlist], hs, hplaced, rfl, rfl,
        .array k hk hlist hsize hmask ?_⟩
      rw [hiff] at hfull
      omega

/-- With `nodeLimit` nodes, the growth does not come to its end. -/
theorem reserve_ne_ok {env : HashEnv K V} (hshape : h.Shape count)
    (hcount : h.item_count.toNat = count) (hmax : count = nodeLimit) (fuel : Nat) (h' : Hash K V) :
    h.reserve env fuel ≠ .ok h' := by
  unfold nodeLimit at hmax
  cases hshape with
  | bare hlist hmask hzero => omega
  | array k hk hlist hsize hmask hle =>
    have hpow : ¬ k < 29 := fun hlt => by
      have hsmall : 2 ^ k < 2 ^ 29 := Nat.pow_lt_pow_right (by decide) hlt
      omega
    obtain rfl : k = 29 := by omega
    have hfull : h.full := (full_iff hmask (by omega)).mpr (by omega)
    have hw := widened_array env hlist hsize hmask
    rw [reserve, if_pos hfull]
    intro hok
    obtain ⟨h₁, hclear, _⟩ := Outcome.bind_eq_ok.mp hok
    refine clearFrom_ne_ok ?_ _ _ _ _ hclear
    rw [hw.hashmask]
    rfl

end Hash

end Drt
