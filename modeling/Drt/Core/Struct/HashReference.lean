import Drt.Core.Struct.HashRemoval
import Drt.Lib.ListUpdate

/-!
# Iteration over a hash, and a hash as a finite set of keys

`iterFirst_g` and `iterNext_g` look for the next node on the chain of the current one
and then in the buckets after it, so an iteration goes through the chains in the
order of their buckets.
-/

open Finmap

namespace Drt

namespace Hash

variable {K V : Type} {env : HashEnv K V} {h : Hash K V} {chains : Nat → List Addr}
  {i : Nat} {a : Addr}

/-- The nodes of the buckets from `i` on. -/
def nodesFrom (h : Hash K V) (chains : Nat → List Addr) (i : Nat) : List Addr :=
  (List.range' i (h.size - i)).flatMap chains

theorem nodesFrom_of_size_le (hi : h.size ≤ i) : h.nodesFrom chains i = [] := by
  rw [nodesFrom, Nat.sub_eq_zero_of_le hi]
  rfl

/-- The nodes of a bucket come before those of the buckets after it. -/
theorem nodesFrom_of_lt (hi : i < h.size) :
    h.nodesFrom chains i = chains i ++ h.nodesFrom chains (i + 1) := by
  obtain ⟨left, hleft⟩ : ∃ left, h.size - i = left + 1 := ⟨h.size - i - 1, by omega⟩
  rw [nodesFrom, nodesFrom, hleft, List.range'_succ, List.flatMap_cons,
    show h.size - (i + 1) = left by omega]

/-- The loop over the buckets returns the first node there is. -/
theorem firstFrom_returns (hs : h.Stored chains) (hmask : h.hashmask + 1 = h.size) (i : Nat) :
    Outcome.Returns (fun fuel => h.firstFrom fuel i) (h.nodesFrom chains i).head? := by
  generalize hleft : h.size - i = left
  induction left generalizing i with
  | zero =>
    rw [nodesFrom_of_size_le (by omega)]
    exact .of_succ_ok fun fuel => by rw [firstFrom, if_neg (by omega)]; rfl
  | succ left ih =>
    have hlt : i < h.size := by omega
    have hload := hs.load_after hlt (l := []) (r := chains i) rfl
    rw [Link.after_nil] at hload
    rw [nodesFrom_of_lt hlt]
    cases hchain : chains i with
    | nil =>
      rw [hchain] at hload
      refine (ih (i + 1) (by omega)).of_succ fun fuel => ?_
      rw [firstFrom, if_pos (by omega), hload]
      rfl
    | cons a l =>
      rw [hchain] at hload
      refine .of_succ_ok fun fuel => ?_
      rw [firstFrom, if_pos (by omega), hload]
      rfl

/-- `iterNext_g` of a node returns the next one. -/
theorem iterNext_returns (hs : h.Stored chains) (hmask : h.hashmask + 1 = h.size)
    (hplaced : h.Placed chains i) {l r : List Addr} (hl : chains i = l ++ a :: r) :
    Outcome.Returns (fun fuel => h.iterNext_g fuel a)
      (r ++ h.nodesFrom chains (i + 1)).head? := by
  obtain ⟨x, hx⟩ := hs.exists_info (i := i) (a := a) (by simp [hl])
  have hbucket : h.bucket x.hash = i := by
    have hhome := hplaced a (by simp [hl])
    simpa [home, hx] using hhome
  have hnext := hs.buckets.next_of_mem hl
  cases r with
  | nil =>
    refine (firstFrom_returns hs hmask (i + 1)).congr fun fuel => ?_
    simp [iterNext_g, load_node hx, hnext, hbucket]
  | cons b r => exact .of_eq fun fuel => by simp [iterNext_g, load_node hx, hnext]

/-- An iteration that comes to this node goes through these. -/
inductive Visits (h : Hash K V) : Option Addr → List Addr → Prop
  | nil : Visits h none []
  | cons {a : Addr} {next : Option Addr} {rest : List Addr}
      (hnext : Outcome.Returns (fun fuel => h.iterNext_g fuel a) next) (hrest : Visits h next rest) :
      Visits h (some a) (a :: rest)

/-- From a place in a bucket, what is left of it and then the later buckets are visited. -/
theorem visits_bucket (hs : h.Stored chains) (hplaced : h.Placed chains i)
    (hmask : h.hashmask + 1 = h.size) {l r : List Addr} (hl : chains i = l ++ r)
    (hlater : h.Visits (h.nodesFrom chains (i + 1)).head? (h.nodesFrom chains (i + 1))) :
    h.Visits (r ++ h.nodesFrom chains (i + 1)).head? (r ++ h.nodesFrom chains (i + 1)) := by
  induction r generalizing l with
  | nil => exact hlater
  | cons a r ih =>
    exact .cons (iterNext_returns hs hmask hplaced hl) (ih (l := l ++ [a]) (by simp [hl]))

/-- From a bucket on, the nodes of the buckets from there on are visited. -/
theorem visits_nodesFrom (hs : h.Stored chains) (hplaced : ∀ j, h.Placed chains j)
    (hmask : h.hashmask + 1 = h.size) (i : Nat) :
    h.Visits (h.nodesFrom chains i).head? (h.nodesFrom chains i) := by
  generalize hleft : h.size - i = left
  induction left generalizing i with
  | zero =>
    rw [nodesFrom_of_size_le (by omega)]
    exact .nil
  | succ left ih =>
    rw [nodesFrom_of_lt (by omega)]
    exact visits_bucket (l := []) hs (hplaced i) hmask rfl (ih (i + 1) (by omega))

theorem Visits.iterateFrom {c : Option Addr} {order : List Addr} (hvisits : h.Visits c order) :
    Outcome.Returns (fun fuel => h.iterateFrom fuel c) order := by
  induction hvisits with
  | nil => exact .of_succ_ok fun fuel => rfl
  | @cons a next rest hnext _ ih =>
    exact (hnext.bind (ih.bind (.ok (a :: rest)))).of_succ fun fuel => rfl

section

variable (hs : h.Stored chains)
include hs

theorem iterate_returns (hplaced : ∀ j, h.Placed chains j) (hmask : h.hashmask + 1 = h.size) :
    Outcome.Returns (fun fuel => h.iterate fuel) (h.nodesFrom chains 0) :=
  (firstFrom_returns hs hmask 0).bind (visits_nodesFrom hs hplaced hmask 0).iterateFrom

theorem mem_nodesFrom_zero : a ∈ h.nodesFrom chains 0 ↔ (h.info a).isSome := by
  rw [hs.isSome_iff, nodesFrom, List.mem_flatMap]
  refine ⟨fun ⟨i, _, hi⟩ => ⟨i, hi⟩, fun ⟨i, hi⟩ => ⟨i, ?_, hi⟩⟩
  have hlt := hs.lt_size hi
  rw [List.mem_range'_1]
  omega

theorem nodup_nodesFrom (i : Nat) : (h.nodesFrom chains i).Nodup := by
  rw [nodesFrom, List.nodup_flatMap]
  refine ⟨fun j _ => hs.buckets.nodup j, ?_⟩
  refine (List.nodup_range').imp fun {j k} hjk => ?_
  intro b hj hk
  exact hjk (hs.buckets.disjoint j k b hj hk)

/-- There are as many nodes as present keys. -/
theorem length_nodesFrom_zero [DecidableEq K] {m : NodeMap K} (hm : h.Holds env m) :
    (h.nodesFrom chains 0).length = m.keys.card := by
  rw [← List.toFinset_card_of_nodup (nodup_nodesFrom hs 0)]
  have hlookup : ∀ k ∈ m.keys, ∃ a, m.lookup k = some a := fun k hk =>
    mem_iff.mp (mem_keys.mp hk)
  refine (Finset.card_nbij (fun k => (m.lookup k).getD 0) ?_ ?_ ?_).symm
  · intro k hk
    obtain ⟨a, ha⟩ := hlookup k hk
    obtain ⟨v, hv⟩ := (hm.lookup k a).mp ha
    simp [ha, mem_nodesFrom_zero hs, hv]
  · intro k hk k' hk' heq
    obtain ⟨a, ha⟩ := hlookup k hk
    obtain ⟨a', ha'⟩ := hlookup k' hk'
    obtain rfl : a = a' := by simpa [ha, ha'] using heq
    obtain ⟨v, hv⟩ := (hm.lookup k a).mp ha
    obtain ⟨v', hv'⟩ := (hm.lookup k' a).mp ha'
    rw [hv] at hv'
    exact (HashInfo.mk.inj (Option.some.inj hv')).2.1
  · intro a ha
    rw [Finset.mem_coe, List.mem_toFinset, mem_nodesFrom_zero hs] at ha
    obtain ⟨x, hx⟩ := Option.isSome_iff_exists.mp ha
    have hlookup := hm.lookup_of_info hx
    refine ⟨x.k, Finset.mem_coe.mpr (mem_keys.mpr (mem_of_lookup_eq_some hlookup)), ?_⟩
    simp [hlookup]

end

end Hash

/-! ### A hash as a finite set of keys

A run of operations is compared with the reference: a finite set of keys, each with
the node that was created for it. The two agree, and the hash is well formed after
every operation, exactly as long as no more than `nodeLimit` keys are present at a
time: with so many nodes in `2 ^ 31` buckets the next growth clears slots for ever. -/

/-- The operations of a hash. -/
inductive HashOp (K : Type) where
  | create (key : K)
  | find (key : K)
  | remove (key : K)
  | clean

/-- What an operation reports. -/
inductive HashResult where
  | created (r : Addr) (created : Bool)
  | found (r : Option Addr)
  | removed (present : Bool)
  | cleaned

namespace Hash

variable {K V : Type} [DecidableEq K]

/-- One operation, with the hash value of its key. -/
def apply (env : HashEnv K V) (fuel : Nat) (h : Hash K V) :
    HashOp K → Call (HashResult × Hash K V)
  | .create key => do
    let (r, h) ← h.create_g env fuel (env.khash key) key
    .ok (.created r.1 r.2, h)
  | .find key => do
    let r ← h.find_g fuel (env.khash key) key
    .ok (.found r, h)
  | .remove key => do
    let (present, h) ← h.remove_g fuel (env.khash key) key
    .ok (.removed present, h)
  | .clean => do
    let h ← h.clean_g fuel
    .ok (.cleaned, h)

/-- The operations one after another: the result and the hash after each. -/
def trace (env : HashEnv K V) (fuel : Nat) :
    Hash K V → List (HashOp K) → Call (List (HashResult × Hash K V))
  | _, [] => .ok []
  | h, op :: ops => do
    let (r, h) ← h.apply env fuel op
    let steps ← trace env fuel h ops
    .ok ((r, h) :: steps)

end Hash

/-- The keys that are present after an operation. -/
def HashOp.keys {K : Type} [DecidableEq K] (s : Finset K) : HashOp K → Finset K
  | .create key => insert key s
  | .find _ => s
  | .remove key => s.erase key
  | .clean => ∅

/-- What the reference says about an operation: its result, and the nodes afterwards. -/
def HashOp.Expected {K : Type} [DecidableEq K] (m : NodeMap K) :
    HashOp K → HashResult → NodeMap K → Prop
  | .create key, .created r created, m' =>
    (created = true ↔ key ∉ m) ∧ m'.lookup key = some r ∧
      m' = if created then m.insert key r else m
  | .find key, .found r, m' => r = m.lookup key ∧ m' = m
  | .remove key, .removed present, m' => (present = true ↔ key ∈ m) ∧ m' = m.erase key
  | .clean, .cleaned, m' => m' = ∅
  | _, _, _ => False

namespace Hash

variable {K V : Type}

/-- The node at this address hangs in a bucket. -/
def Hangs (h : Hash K V) (i : Nat) (a : Addr) : Prop :=
  ∃ l, Chain h.links.next (h.links.slot i) l ∧ a ∈ l

/-- The structure of a hash. -/
structure WellFormed (h : Hash K V) : Prop where
  /-- An array has one slot more than the mask says, a power of two. -/
  slots : h.list.isSome → h.hashmask + 1 = h.size ∧ ∃ k, h.size = 2 ^ k
  /-- Each node hangs in the bucket of its hash value, and nothing else does. -/
  hangs : ∀ a i, h.Hangs i a ↔ ∃ n, h.nodes.cell a = some n ∧ h.bucket n.hash = i
  /-- An iteration visits every node once, and there are `item_count` of them. -/
  iteration : ∃ order, Outcome.Returns (fun fuel => h.iterate fuel) order ∧ order.Nodup ∧
    (∀ a, a ∈ order ↔ ∃ n, h.nodes.cell a = some n) ∧ h.item_count.toNat = order.length

variable [DecidableEq K]

/-- The nodes are those of the present keys. -/
def Represents (h : Hash K V) (m : NodeMap K) : Prop :=
  ∀ k a, m.lookup k = some a ↔ ∃ n, h.nodes.cell a = some n ∧ n.k = k

/-- The results of a run are those of the reference, and each state it reaches is well formed. -/
def Follows (m : NodeMap K) : List (HashOp K) → List (HashResult × Hash K V) → Prop
  | [], [] => True
  | op :: ops, (r, h) :: steps =>
    ∃ m', op.Expected m r m' ∧ h.WellFormed ∧ h.Represents m' ∧ Follows m' ops steps
  | _, _ => False

/-- A run from the new hash returns, and it follows the reference. -/
def Behaves (env : HashEnv K V) (ops : List (HashOp K)) : Prop :=
  ∃ steps, Outcome.Returns (fun fuel => trace env fuel new ops) steps ∧
    (new : Hash K V).WellFormed ∧ Follows ∅ ops steps

/-- No operation leaves more than `nodeLimit` keys. -/
def Fits (s : Finset K) : List (HashOp K) → Prop
  | [] => True
  | op :: ops => (op.keys s).card ≤ nodeLimit ∧ Fits (op.keys s) ops

namespace Inv

variable {env : HashEnv K V} {h : Hash K V} {m : NodeMap K}

theorem initial (env : HashEnv K V) : (new : Hash K V).Inv env ∅ := by
  have hinfo : ∀ a, (new : Hash K V).info a = none := fun a => rfl
  have hstored : (new : Hash K V).Stored fun _ => [] :=
    ⟨⟨fun i => rfl, by simp⟩, by simp [hinfo]⟩
  exact ⟨⟨_, hstored, by simp [Placed]⟩, ⟨by simp [hinfo], by simp [hinfo], rfl⟩,
    .bare rfl rfl (by simp)⟩

section

variable (hinv : h.Inv env m)
include hinv

/-- The invariant gives the structure. -/
theorem wellFormed : h.WellFormed := by
  obtain ⟨chains, hs, hplaced⟩ := hinv.chains
  have hmask := hinv.shape.hashmask_add_one
  refine ⟨fun hlist => ⟨hmask, ?_⟩, fun a i => ?_, h.nodesFrom chains 0,
    iterate_returns hs hplaced hmask, nodup_nodesFrom hs 0, fun a => ?_, ?_⟩
  · cases hinv.shape with
    | bare hnone => simp [hnone] at hlist
    | array k _ _ hsize => exact ⟨k + 2, hsize⟩
  · constructor
    · rintro ⟨l, hchain, ha⟩
      obtain rfl := hchain.unique (hs.buckets.chain i)
      obtain ⟨x, hx⟩ := hs.exists_info ha
      have hhome := hplaced i a ha
      exact ⟨_, cell_of_info hx, by simpa [home, hx] using hhome⟩
    · rintro ⟨n, hn, rfl⟩
      exact ⟨_, hs.buckets.chain _, mem_bucket hs hplaced (x := n.info) (by simp [info, hn])⟩
  · rw [mem_nodesFrom_zero hs, ← Option.isSome_iff_exists]
    simp [info]
  · rw [length_nodesFrom_zero hs hinv.holds, hinv.holds.count]

theorem represents : h.Represents m := by
  intro k a
  rw [hinv.holds.lookup]
  constructor
  · rintro ⟨v, hv⟩
    exact ⟨_, cell_of_info hv, rfl⟩
  · rintro ⟨n, hn, rfl⟩
    have hx : h.info a = some n.info := by simp [info, hn]
    have hhash : n.hash = env.khash n.k := hinv.holds.hash a n.info hx
    refine ⟨n.v, ?_⟩
    rw [hx, ← hhash]
    rfl

theorem card_le : m.keys.card ≤ nodeLimit := by
  cases hinv.shape with
  | bare _ _ hcount => omega
  | array k hk _ _ _ hcount =>
    have hpow : 2 ^ k ≤ 2 ^ 29 := Nat.pow_le_pow_right (by decide) hk
    unfold nodeLimit
    omega

/-- An operation that leaves at most `nodeLimit` keys returns what the reference says. -/
theorem apply_returns (op : HashOp K) (hfits : (op.keys m.keys).card ≤ nodeLimit) :
    ∃ r h' m', Outcome.Returns (fun fuel => h.apply env fuel op) (r, h') ∧
      op.Expected m r m' ∧ h'.Inv env m' ∧ m'.keys = op.keys m.keys := by
  cases op with
  | create k =>
    cases hk : m.lookup k with
    | some a =>
      have hmem : k ∈ m := Finmap.mem_of_lookup_eq_some hk
      refine ⟨.created a false, h, m, (hinv.create_returns_present hk).bind (.ok _),
        ⟨by simp [hmem], hk, rfl⟩, hinv, ?_⟩
      exact (Finset.insert_eq_of_mem (Finmap.mem_keys.mpr hmem)).symm
    | none =>
      have habsent : k ∉ m := Finmap.lookup_eq_none.mp hk
      have hcard : (HashOp.keys m.keys (.create k)).card = m.keys.card + 1 :=
        Finset.card_insert_of_notMem fun hmem => habsent (Finmap.mem_keys.mp hmem)
      obtain ⟨a, h', hrun, hinv'⟩ := hinv.create_returns_absent hk (by omega)
      exact ⟨.created a true, h', m.insert k a, hrun.bind (.ok _),
        ⟨by simp [habsent], Finmap.lookup_insert m, rfl⟩, hinv', Holds.keys_insert k a m⟩
  | find k =>
    exact ⟨.found (m.lookup k), h, m, (hinv.find_returns k).bind (.ok _), ⟨rfl, rfl⟩, hinv, rfl⟩
  | remove k =>
    obtain ⟨h', hrun, hinv'⟩ := hinv.remove_returns k
    exact ⟨.removed (m.lookup k).isSome, h', m.erase k, hrun.bind (.ok _),
      ⟨Finmap.lookup_isSome, rfl⟩, hinv', Finmap.keys_erase k m⟩
  | clean =>
    obtain ⟨h', hrun, hinv'⟩ := hinv.clean_returns
    exact ⟨.cleaned, h', ∅, hrun.bind (.ok _), rfl, hinv', rfl⟩

/-- A run within the limit returns and follows the reference. -/
theorem trace_returns (ops : List (HashOp K)) (hfits : Fits m.keys ops) :
    ∃ steps, Outcome.Returns (fun fuel => trace env fuel h ops) steps ∧ Follows m ops steps := by
  induction ops generalizing h m with
  | nil => exact ⟨[], .of_eq fun fuel => rfl, trivial⟩
  | cons op ops ih =>
    obtain ⟨r, h', m', hrun, hexpected, hinv', hkeys⟩ := hinv.apply_returns op hfits.1
    obtain ⟨steps, htrace, hfollows⟩ := ih hinv' (hkeys ▸ hfits.2)
    exact ⟨(r, h') :: steps, hrun.bind (htrace.bind (.ok _)), m', hexpected, hinv'.wellFormed,
      hinv'.represents, hfollows⟩

/-- A run that returns is within the limit. -/
theorem fits_of_returns (ops : List (HashOp K)) {steps : List (HashResult × Hash K V)}
    (hrun : Outcome.Returns (fun fuel => trace env fuel h ops) steps) : Fits m.keys ops := by
  induction ops generalizing h m steps with
  | nil => trivial
  | cons op ops ih =>
    by_cases hfits : (op.keys m.keys).card ≤ nodeLimit
    · obtain ⟨r, h', m', happly, -, hinv', hkeys⟩ := hinv.apply_returns op hfits
      obtain ⟨rest, htrace⟩ := (hrun.of_bind happly).of_map
        fun rest rest' heq => (List.cons.inj heq).2
      exact ⟨hfits, hkeys ▸ ih hinv' htrace⟩
    · exfalso
      have hle := hinv.card_le
      cases op with
      | create k =>
        cases hk : m.lookup k with
        | some a =>
          have hmem := mem_keys.mpr (mem_of_lookup_eq_some hk)
          exact hfits (by rwa [HashOp.keys, Finset.insert_eq_of_mem hmem])
        | none =>
          have hcard := Finset.card_insert_le k m.keys
          have hover : nodeLimit < (insert k m.keys).card := Nat.lt_of_not_le hfits
          have hmax : m.keys.card = nodeLimit := by omega
          exact (((hinv.create_diverges hk hmax).bind _).bind _).not_returns hrun
      | find k => exact hfits hle
      | remove k => exact hfits (Finset.card_erase_le.trans hle)
      | clean => exact hfits (Nat.zero_le _)

end

end Inv

/-- Every run of operations returns, agrees with the reference set and reaches well-formed states
only, exactly when no operation leaves more than `nodeLimit` keys. -/
theorem behaves_iff_fits (env : HashEnv K V) (ops : List (HashOp K)) :
    Behaves env ops ↔ Fits ∅ ops := by
  have hinit := Inv.initial (K := K) (V := V) env
  constructor
  · rintro ⟨steps, hrun, -, -⟩
    exact hinit.fits_of_returns ops hrun
  · intro hfits
    obtain ⟨steps, hrun, hfollows⟩ := hinit.trace_returns ops hfits
    exact ⟨steps, hrun, hinit.wellFormed, hfollows⟩

theorem card_foldl_keys_le {s : Finset K} {ops : List (HashOp K)} (hs : s.card ≤ nodeLimit)
    (hfits : Fits s ops) : (ops.foldl HashOp.keys s).card ≤ nodeLimit := by
  induction ops generalizing s with
  | nil => exact hs
  | cons op ops ih => exact ih hfits.1 hfits.2

theorem foldl_keys_create (n : Nat) :
    (((List.range n).map HashOp.create).foldl HashOp.keys ∅ : Finset Nat) = Finset.range n := by
  induction n with
  | zero => rfl
  | succ n ih =>
    rw [List.range_succ, List.map_append, List.foldl_append, ih, Finset.range_add_one]
    rfl

theorem not_fits_create {n : Nat} (hn : nodeLimit < n) :
    ¬ Fits ∅ ((List.range n).map (HashOp.create (K := Nat))) := by
  intro hfits
  have hle := card_foldl_keys_le (by simp) hfits
  rw [foldl_keys_create, Finset.card_range] at hle
  omega

theorem not_behaves_create (env : HashEnv Nat V) {n : Nat} (hn : nodeLimit < n) :
    ¬ Behaves env ((List.range n).map .create) := by
  rintro ⟨steps, hrun, -, -⟩
  have hfits := (Inv.initial env).fits_of_returns _ hrun
  rw [keys_empty] at hfits
  exact not_fits_create hn hfits

/-- A hash of numbers, each its own hash value. -/
def natEnv : HashEnv Nat Unit where
  khash k := BitVec.ofNat 64 k
  undef := ()
  alloc := .lowest
  reallocList list size := (List.range size).map fun i => (list[i]?).getD none
  length_reallocList list size := by simp
  getElem?_reallocList list size i hi hsize := by simp [hi, hsize]

/-- One key more than the limit. -/
theorem not_behaves_overfull : ¬ Behaves natEnv ((List.range (nodeLimit + 1)).map .create) :=
  not_behaves_create natEnv (Nat.lt_add_one nodeLimit)

end Hash

end Drt
