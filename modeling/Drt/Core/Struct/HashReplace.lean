import Drt.Core.Struct.HashReference

/-!
# Replacing from another hash

`replaceFrom_g` goes through the nodes of the source. A key that is there gets the value of
the source, and for another one a node is made by `node_def`, that sets the key and the value
only. What the memory of the node held before is taken for its hash value.
-/

open Finmap

open List Function Option

namespace Drt

namespace Hash

variable {K V : Type}

/-- `node_set`. -/
def setValue (h : Hash K V) (a : Addr) (v : V) : Call (Hash K V) := do
  let n ← h.nodes.load a
  .ok { h with nodes := h.nodes.put a { n with v := v } }

/-- `addNewNode_g`, of a node that is in no bucket yet. -/
def addNewNode_g (env : HashEnv K V) (fuel : Nat) (h : Hash K V) (a : Addr) (n : HashInfo K V) :
    Call (Hash K V) := do
  let h ← h.reserve env fuel
  h.linkNode a n

variable [DecidableEq K]

/-- The body of the loop of `replaceFrom_g`. The memory of the node that `node_def` makes for a
key holds `uninit k` where its hash value belongs. -/
def replaceNode (env : HashEnv K V) (uninit : K → BitVec 64) (fuel : Nat) (h : Hash K V)
    (o_node : HashNode K V) : Call (Hash K V) := do
  match ← h.find_g fuel o_node.hash o_node.k with
  | some n => h.setValue n o_node.v
  | none => h.addNewNode_g env fuel (env.alloc.addr h.nodes) ⟨uninit o_node.k, o_node.k, o_node.v⟩

/-- The loop of `replaceFrom_g`, from a node of the source. -/
def replaceLoop (env : HashEnv K V) (uninit : K → BitVec 64) (source : Hash K V) :
    Nat → Option Addr → Hash K V → Call (Hash K V)
  | 0, _, _ => .outOfFuel
  | _ + 1, none, h => .ok h
  | fuel + 1, some c, h => do
    let o_node ← source.nodes.load c
    let h ← h.replaceNode env uninit fuel o_node
    let next ← source.iterNext_g fuel c
    replaceLoop env uninit source fuel next h

/-- `replaceFrom_g`. The source is only read. -/
def replaceFrom_g (env : HashEnv K V) (uninit : K → BitVec 64) (fuel : Nat) (h source : Hash K V) :
    Call (Hash K V) := do
  let first ← source.iterFirst_g fuel
  replaceLoop env uninit source fuel first h

/-- `accValue`: the value of a key. -/
def accValue (env : HashEnv K V) (fuel : Nat) (h : Hash K V) (k : K) : Call (Option V) := do
  match ← h.find_g fuel (env.khash k) k with
  | none => .ok none
  | some a => do
    let n ← h.nodes.load a
    .ok (some n.v)

/-- The hash has the entries of the source besides its own. -/
structure ReplacedFrom (env : HashEnv K V) (h source h' : Hash K V) : Prop where
  /-- A lookup gives the value of the source, or else the former one. -/
  values : ∀ k, ∃ old new, Outcome.Returns (fun fuel => h.accValue env fuel k) old ∧
    Outcome.Returns (fun fuel => source.accValue env fuel k) new ∧
    Outcome.Returns (fun fuel => h'.accValue env fuel k) (new.or old)
  /-- The hash value of a node is that of its key, and it hangs in that bucket. -/
  hash : ∀ a n, h'.nodes.cell a = some n →
    n.hash = env.khash n.k ∧ h'.Hangs (h'.bucket n.hash) a

/-- The value of a key, by the map of the nodes. -/
def value (h : Hash K V) (m : NodeMap K) (k : K) : Option V :=
  (m.lookup k).bind fun a => (h.info a).map HashInfo.v

/-- The same parameters with another hash function. -/
def withHash (env : HashEnv K V) (khash : K → BitVec 64) : HashEnv K V :=
  { env with khash := khash }

variable {env : HashEnv K V} {khash uninit : K → BitVec 64} {h h' source : Hash K V}
  {m : NodeMap K} {k : K} {a : Addr} {v : V}

variable {m' ms : NodeMap K}

theorem value_update (hinfo : h'.info = update h.info a (some ⟨env.khash k, k, v⟩))
    (hk : m'.lookup k = some a) (hother : ∀ k', k' ≠ k → m'.lookup k' = m.lookup k')
    (hfree : ∀ k', m.lookup k' = some a → k' = k) (k' : K) :
    h'.value m' k' = if k' = k then some v else h.value m k' := by
  unfold value
  by_cases hkk : k' = k
  · subst hkk
    simp [hk, hinfo]
  · rw [if_neg hkk, hother k' hkk]
    cases hlookup : m.lookup k' with
    | none => rfl
    | some b =>
      have hba : b ≠ a := by
        rintro rfl
        exact hkk (hfree k' hlookup)
      simp [hinfo, hba]

namespace Inv

section

variable (hinv : h.Inv env m)
include hinv

/-- A hash knows of the hash function the values for its keys only. -/
theorem change_hash {env' : HashEnv K V} (hsame : ∀ k ∈ m, env'.khash k = env.khash k) :
    h.Inv env' m := by
  have hinfo : ∀ a x, h.info a = some x → x.hash = env'.khash x.k := by
    intro a x hx
    have hmem := mem_of_lookup_eq_some (hinv.holds.lookup_of_info hx)
    rw [hsame x.k hmem]
    exact hinv.holds.hash a x hx
  refine ⟨hinv.chains, ⟨fun k a => ⟨fun hk => ?_, ?_⟩, hinfo, hinv.holds.count⟩, hinv.shape⟩
  · rw [hsame k (mem_of_lookup_eq_some hk)]
    exact (hinv.holds.lookup k a).mp hk
  · rintro ⟨v, hv⟩
    exact hinv.holds.lookup_of_info hv

/-- A key that is not there is not found, whatever its hash value is taken for. -/
theorem find_absent (hk : m.lookup k = none) (hash : BitVec 64) :
    Outcome.Returns (fun fuel => h.find_g fuel hash k) none := by
  have hother : h.Inv (withHash env (update env.khash k hash)) m := by
    refine hinv.change_hash fun k' hk' => update_of_ne ?_ ..
    rintro rfl
    exact Finmap.lookup_eq_none.mp hk hk'
  have hfind := hother.find_returns k
  rw [hk] at hfind
  simpa only [withHash, update_self] using hfind

theorem exists_info (hk : m.lookup k = some a) :
    ∃ v, h.info a = some ⟨env.khash k, k, v⟩ := (hinv.holds.lookup k a).mp hk

/-- A value is set, and nothing else changes. -/
theorem setValue_eq (hk : m.lookup k = some a) (v : V) :
    ∃ h', h.setValue a v = .ok h' ∧ h'.Inv env m ∧
      h'.info = update h.info a (some ⟨env.khash k, k, v⟩) := by
  obtain ⟨old, hold⟩ := hinv.exists_info hk
  let h' : Hash K V :=
    { h with nodes := h.nodes.put a ⟨env.khash k, h.links.next a, k, v⟩ }
  have hlinks : h'.links = h.links := by
    simp only [h', links, Heap.cell_put, Links.mk.injEq, true_and]
    funext b
    by_cases hba : b = a
    · subst hba
      simp
    · simp [hba]
  have hinfo : h'.info = update h.info a (some ⟨env.khash k, k, v⟩) := by
    funext b
    by_cases hba : b = a
    · subst hba
      simp [h', info, HashNode.info]
    · simp [h', info, hba]
  have hsame : SameArray h h' := ⟨rfl, rfl, rfl⟩
  obtain ⟨chains, hs, hplaced⟩ := hinv.chains
  refine ⟨h', by simp [setValue, load_node hold, h'], ⟨⟨chains, ⟨?_, fun b => ?_⟩, ?_⟩, ?_,
    hinv.shape.of_sameArray hsame (Nat.le_refl _)⟩, hinfo⟩
  · rw [hlinks]
    exact hs.buckets
  · rw [← hs.isSome_iff, hinfo]
    by_cases hba : b = a
    · subst hba
      simp [hold]
    · rw [update_of_ne hba]
  · intro j b hb
    have hhome := hplaced j b hb
    by_cases hba : b = a
    · subst hba
      simpa [home, hinfo, hold, hsame.bucket] using hhome
    · simpa [home, hinfo, hba, hsame.bucket] using hhome
  · refine ⟨fun k' b => ?_, fun b x hx => ?_, hinv.holds.count⟩
    · rw [hinv.holds.lookup, hinfo]
      by_cases hba : b = a
      · subst hba
        simp [hold]
      · rw [update_of_ne hba]
    · rw [hinfo] at hx
      by_cases hba : b = a
      · subst hba
        rw [update_self] at hx
        cases hx
        rfl
      · rw [update_of_ne hba] at hx
        exact hinv.holds.hash b x hx

theorem accValue_returns (k : K) :
    Outcome.Returns (fun fuel => h.accValue env fuel k) (h.value m k) := by
  have hfind := hinv.find_returns k
  unfold value
  cases hk : m.lookup k with
  | none =>
    rw [hk] at hfind
    exact hfind.bind (.ok none)
  | some a =>
    rw [hk] at hfind
    obtain ⟨v, hv⟩ := hinv.exists_info hk
    refine hfind.bind (.of_eq fun fuel => ?_)
    simp [load_node hv, hv]

end

/-- One pass of the loop: the key of the node has its value afterwards. -/
theorem replaceNode_returns (hinv : h.Inv (withHash env khash) m) (o_node : HashNode K V)
    (hhash : o_node.hash = env.khash o_node.k)
    (hknown : o_node.k ∈ m → khash o_node.k = env.khash o_node.k)
    (hnew : o_node.k ∉ m → khash o_node.k = uninit o_node.k)
    (hlimit : o_node.k ∈ m ∨ m.keys.card < nodeLimit) :
    ∃ h' m', Outcome.Returns (fun fuel => h.replaceNode env uninit fuel o_node) h' ∧
      h'.Inv (withHash env khash) m' ∧ m'.keys = insert o_node.k m.keys ∧
      ∀ k, h'.value m' k = if k = o_node.k then some o_node.v else h.value m k := by
  cases hk : m.lookup o_node.k with
  | some a =>
    have hmem := Finmap.mem_of_lookup_eq_some hk
    have hfind := hinv.find_returns o_node.k
    rw [hk, show (withHash env khash).khash o_node.k = o_node.hash from
      (hknown hmem).trans hhash.symm] at hfind
    obtain ⟨h', hset, hinv', hinfo⟩ := hinv.setValue_eq hk o_node.v
    refine ⟨h', m, hfind.bind (.of_eq fun fuel => hset), hinv', ?_, ?_⟩
    · exact (Finset.insert_eq_of_mem (Finmap.mem_keys.mpr hmem)).symm
    · refine value_update hinfo hk (fun _ _ => rfl) fun k' hk' => ?_
      obtain ⟨v, hv⟩ := hinv.exists_info hk
      obtain ⟨v', hv'⟩ := hinv.exists_info hk'
      rw [hv] at hv'
      exact (HashInfo.mk.inj (Option.some.inj hv')).2.1.symm
  | none =>
    have habsent : o_node.k ∉ m := Finmap.lookup_eq_none.mp hk
    have hfind := hinv.find_absent hk o_node.hash
    obtain ⟨h₁, hreserve, _, hlink⟩ := hinv.reserve_link hk (hlimit.resolve_left habsent)
    obtain ⟨h', hlink, hinv', hinfo⟩ := hlink (env.alloc.addr h.nodes) o_node.v
      (info_alloc env h)
    rw [show (withHash env khash).khash o_node.k = uninit o_node.k from hnew habsent] at hlink
    refine ⟨h', m.insert o_node.k (env.alloc.addr h.nodes), ?_, hinv', Holds.keys_insert .., ?_⟩
    · exact hfind.bind (hreserve.bind (.of_eq fun fuel => hlink))
    · refine value_update hinfo (Finmap.lookup_insert m)
        (fun k' hk' => Finmap.lookup_insert_of_ne m hk') fun k' hk' => ?_
      obtain ⟨v', hv'⟩ := hinv.exists_info hk'
      rw [info_alloc] at hv'
      cases hv'

theorem replaceNode_diverges (hinv : h.Inv (withHash env khash) m) (o_node : HashNode K V)
    (habsent : o_node.k ∉ m) (hmax : m.keys.card = nodeLimit) :
    Outcome.Diverges fun fuel => h.replaceNode env uninit fuel o_node := by
  have hfind := hinv.find_absent (Finmap.lookup_eq_none.mpr habsent) o_node.hash
  have hreserve : Outcome.Diverges fun fuel => h.reserve env fuel :=
    .of_ne fun fuel h' => reserve_ne_ok hinv.shape hinv.holds.count hmax fuel h'
  exact .after hfind (hreserve.bind _)

end Inv

/-- The nodes that are visited have these contents; their keys are distinct, and their hash
values right. -/
structure Items (env : HashEnv K V) (source : Hash K V) (c : Option Addr)
    (items : List (HashInfo K V)) : Prop where
  visits : ∃ order, source.Visits c order ∧ order.map source.info = items.map some
  nodup : (items.map HashInfo.k).Nodup
  hash : ∀ x ∈ items, x.hash = env.khash x.k

/-- What is to be known of the nodes that new keys get. -/
structure Uninit (env : HashEnv K V) (uninit khash : K → BitVec 64) (m : NodeMap K)
    (items : List (HashInfo K V)) : Prop where
  known : ∀ x ∈ items, x.k ∈ m → khash x.k = env.khash x.k
  new : ∀ x ∈ items, x.k ∉ m → khash x.k = uninit x.k

/-- The keys of nodes. -/
def itemKeys (items : List (HashInfo K V)) : Finset K := (items.map HashInfo.k).toFinset

/-- The value that nodes have for a key. -/
def itemValue (items : List (HashInfo K V)) (k : K) : Option V :=
  (items.find? fun x => x.k = k).map HashInfo.v

variable {c : Option Addr} {items : List (HashInfo K V)} {x : HashInfo K V}

omit [DecidableEq K] in
theorem Items.cons_inv (h : Items env source c (x :: items)) :
    ∃ a next, c = some a ∧ source.info a = some x ∧
      Outcome.Returns (fun fuel => source.iterNext_g fuel a) next ∧
      Items env source next items := by
  obtain ⟨order, hvisits, hmap⟩ := h.visits
  cases hvisits with
  | nil => simp at hmap
  | @cons a next rest hnext hrest =>
    rw [map_cons, map_cons] at hmap
    obtain ⟨hinfo, hmap⟩ := List.cons.inj hmap
    refine ⟨a, next, rfl, hinfo, hnext, ⟨⟨rest, hrest, hmap⟩, ?_, fun y hy => ?_⟩⟩
    · exact (nodup_cons.mp h.nodup).2
    · exact h.hash y (mem_cons_of_mem x hy)

omit [DecidableEq K] in
theorem Items.nil_inv (h : Items env source c []) : c = none := by
  obtain ⟨order, hvisits, hmap⟩ := h.visits
  cases hvisits with
  | nil => rfl
  | cons _ _ => simp at hmap

/-- After a key the others are known as before. -/
theorem Uninit.tail (h : Uninit env uninit khash m (x :: items))
    (hnodup : ((x :: items).map HashInfo.k).Nodup) (hkeys : m'.keys = insert x.k m.keys) :
    Uninit env uninit khash m' items := by
  have hmem : ∀ y ∈ items, (y.k ∈ m' ↔ y.k ∈ m) := by
    intro y hy
    have hne : y.k ≠ x.k := by
      intro heq
      exact (nodup_cons.mp hnodup).1 (heq ▸ mem_map_of_mem hy)
    rw [← Finmap.mem_keys, hkeys, Finset.mem_insert, Finmap.mem_keys]
    simp [hne]
  exact ⟨fun y hy hk => h.known y (mem_cons_of_mem x hy) ((hmem y hy).mp hk),
    fun y hy hk => h.new y (mem_cons_of_mem x hy) (mt (hmem y hy).mpr hk)⟩

theorem union_itemKeys_cons (s : Finset K) (x : HashInfo K V) (items : List (HashInfo K V)) :
    s ∪ itemKeys (x :: items) = insert x.k s ∪ itemKeys items := by
  unfold itemKeys
  rw [map_cons, toFinset_cons, Finset.union_insert, Finset.insert_union]

theorem itemValue_cons (x : HashInfo K V) (items : List (HashInfo K V)) (k : K) :
    itemValue (x :: items) k = if x.k = k then some x.v else itemValue items k := by
  unfold itemValue
  by_cases hk : x.k = k
  · rw [List.find?_cons_of_pos (by simpa using hk), if_pos hk, map_some]
  · rw [List.find?_cons_of_neg (by simpa using hk), if_neg hk]

theorem itemValue_eq_none (hk : k ∉ items.map HashInfo.k) : itemValue items k = none := by
  unfold itemValue
  rw [map_eq_none_iff, List.find?_eq_none]
  rintro x hx heq
  exact hk (of_decide_eq_true heq ▸ mem_map_of_mem hx)

/-- The loop after a pass. -/
def replaceRest (env : HashEnv K V) (uninit : K → BitVec 64) (source : Hash K V) (a : Addr)
    (fuel : Nat) (h : Hash K V) : Call (Hash K V) :=
  source.iterNext_g fuel a >>= fun next => replaceLoop env uninit source fuel next h

theorem replaceLoop_some (hinfo : source.info a = some x) (h : Hash K V) (fuel : Nat) :
    replaceLoop env uninit source (fuel + 1) (some a) h =
      (h.replaceNode env uninit fuel ⟨x.hash, source.links.next a, x.k, x.v⟩ >>=
        replaceRest env uninit source a fuel) := by
  rw [replaceLoop, load_node hinfo]
  rfl

/-- The loop over the nodes gives their keys their values. -/
theorem replaceLoop_returns (hitems : Items env source c items)
    (hinv : h.Inv (withHash env khash) m) (huninit : Uninit env uninit khash m items)
    (hlimit : (m.keys ∪ itemKeys items).card ≤ nodeLimit) :
    ∃ h' m', Outcome.Returns (fun fuel => replaceLoop env uninit source fuel c h) h' ∧
      h'.Inv (withHash env khash) m' ∧ m'.keys = m.keys ∪ itemKeys items ∧
      ∀ k, h'.value m' k = (itemValue items k).or (h.value m k) := by
  induction items generalizing c h m with
  | nil =>
    obtain rfl := hitems.nil_inv
    exact ⟨h, m, .of_succ_ok fun fuel => rfl, hinv, by simp [itemKeys], fun k => rfl⟩
  | cons x items ih =>
    obtain ⟨a, next, rfl, hinfo, hnext, hrest⟩ := hitems.cons_inv
    rw [union_itemKeys_cons] at hlimit
    have hroom : x.k ∈ m ∨ m.keys.card < nodeLimit := by
      by_cases hk : x.k ∈ m
      · exact .inl hk
      · have hcard := Finset.card_insert_of_notMem (mt mem_keys.mp hk)
        have hsubset : insert x.k m.keys ⊆ insert x.k m.keys ∪ itemKeys items :=
          Finset.subset_union_left
        have hle := Finset.card_le_card hsubset
        exact .inr (by omega)
    obtain ⟨h₁, m₁, hstep, hinv₁, hkeys₁, hvalue₁⟩ := hinv.replaceNode_returns
      ⟨x.hash, source.links.next a, x.k, x.v⟩ (hitems.hash x mem_cons_self)
      (huninit.known x mem_cons_self) (huninit.new x mem_cons_self) hroom
    obtain ⟨h', m', hrun, hinv', hkeys', hvalue'⟩ := ih hrest hinv₁
      (huninit.tail hitems.nodup hkeys₁) (hkeys₁ ▸ hlimit)
    have hloop : Outcome.Returns (fun fuel => replaceRest env uninit source a fuel h₁) h' :=
      hnext.bind hrun
    have hpass : Outcome.Returns (fun fuel =>
        h.replaceNode env uninit fuel ⟨x.hash, source.links.next a, x.k, x.v⟩ >>=
          replaceRest env uninit source a fuel) h' := hstep.bind hloop
    refine ⟨h', m', hpass.of_succ fun fuel => replaceLoop_some hinfo h fuel, hinv', ?_,
      fun k => ?_⟩
    · rw [union_itemKeys_cons, hkeys', hkeys₁]
    · rw [hvalue', hvalue₁, itemValue_cons]
      by_cases hk : x.k = k
      · subst hk
        rw [itemValue_eq_none (nodup_cons.mp hitems.nodup).1]
        simp
      · simp [hk, Ne.symm hk]

/-- A loop that returns has come to no full hash. -/
theorem limit_of_returns (hitems : Items env source c items)
    (hinv : h.Inv (withHash env khash) m) (huninit : Uninit env uninit khash m items)
    (hrun : Outcome.Returns (fun fuel => replaceLoop env uninit source fuel c h) h') :
    (m.keys ∪ itemKeys items).card ≤ nodeLimit := by
  induction items generalizing c h m with
  | nil => simpa [itemKeys] using hinv.card_le
  | cons x items ih =>
    obtain ⟨a, next, rfl, hinfo, hnext, hrest⟩ := hitems.cons_inv
    have hpass := hrun.succ.congr fun fuel => (replaceLoop_some hinfo h fuel).symm
    by_cases hroom : x.k ∈ m ∨ m.keys.card < nodeLimit
    · obtain ⟨h₁, m₁, hstep, hinv₁, hkeys₁, _⟩ := hinv.replaceNode_returns
        ⟨x.hash, source.links.next a, x.k, x.v⟩ (hitems.hash x mem_cons_self)
        (huninit.known x mem_cons_self) (huninit.new x mem_cons_self) hroom
      rw [union_itemKeys_cons, ← hkeys₁]
      exact ih hrest hinv₁ (huninit.tail hitems.nodup hkeys₁)
        ((hpass.of_bind hstep).of_bind hnext)
    · rw [not_or] at hroom
      have hmax : m.keys.card = nodeLimit := Nat.le_antisymm hinv.card_le (by omega)
      exact absurd hpass ((hinv.replaceNode_diverges
        ⟨x.hash, source.links.next a, x.k, x.v⟩ hroom.1 hmax).bind _).not_returns

theorem itemValue_eq_some (hnodup : (items.map HashInfo.k).Nodup) (hx : x ∈ items) :
    itemValue items x.k = some x.v := by
  induction items with
  | nil => simp at hx
  | cons y items ih =>
    rw [map_cons, nodup_cons] at hnodup
    rw [itemValue_cons]
    rcases mem_cons.mp hx with rfl | hx
    · simp
    · have hne : y.k ≠ x.k := by
        intro heq
        exact hnodup.1 (heq ▸ mem_map_of_mem hx)
      rw [if_neg hne]
      exact ih hnodup.2 hx

omit [DecidableEq K] in
theorem exists_contents {order : List Addr} (hsome : ∀ a ∈ order, (source.info a).isSome) :
    ∃ items : List (HashInfo K V), order.map source.info = items.map some := by
  induction order with
  | nil => exact ⟨[], rfl⟩
  | cons a order ih =>
    obtain ⟨items, hitems⟩ := ih fun b hb => hsome b (mem_cons_of_mem a hb)
    obtain ⟨x, hx⟩ := isSome_iff_exists.mp (hsome a mem_cons_self)
    exact ⟨x :: items, by rw [map_cons, hitems, hx, map_cons]⟩

/-- The visited nodes of a hash are its nodes. -/
theorem Inv.exists_items (hinv : source.Inv env m) :
    ∃ first items, Outcome.Returns (fun fuel => source.iterFirst_g fuel) first ∧
      Items env source first items ∧ itemKeys items = m.keys ∧
      ∀ k, itemValue items k = source.value m k := by
  obtain ⟨chains, hs, hplaced⟩ := hinv.chains
  have hmask := hinv.shape.hashmask_add_one
  have hsome : ∀ a ∈ source.nodesFrom chains 0, (source.info a).isSome := fun a ha =>
    (mem_nodesFrom_zero hs).mp ha
  obtain ⟨items, hcontents⟩ := exists_contents hsome
  have hmem : ∀ x, x ∈ items ↔ ∃ a, source.info a = some x := by
    intro x
    rw [← List.mem_map_of_injective (Option.some_injective _), ← hcontents, List.mem_map]
    refine ⟨fun ⟨a, _, ha⟩ => ⟨a, ha⟩, fun ⟨a, ha⟩ => ⟨a, ?_, ha⟩⟩
    exact (mem_nodesFrom_zero hs).mpr (by simp [ha])
  have hlookup : ∀ x ∈ items, ∃ a, source.info a = some x ∧ m.lookup x.k = some a := by
    intro x hx
    obtain ⟨a, ha⟩ := (hmem x).mp hx
    exact ⟨a, ha, hinv.holds.lookup_of_info ha⟩
  have hnodup : (items.map HashInfo.k).Nodup := by
    have hmap : (items.map HashInfo.k).map some =
        (source.nodesFrom chains 0).map fun a => (source.info a).map HashInfo.k := by
      have hkeys := congrArg (List.map (Option.map HashInfo.k)) hcontents
      simpa only [List.map_map, Function.comp_def, Option.map_some] using hkeys.symm
    refine List.Nodup.of_map some (hmap ▸ (nodup_nodesFrom hs 0).map_on fun a ha b hb heq => ?_)
    obtain ⟨x, hx⟩ := Option.isSome_iff_exists.mp ((mem_nodesFrom_zero hs).mp ha)
    obtain ⟨y, hy⟩ := Option.isSome_iff_exists.mp ((mem_nodesFrom_zero hs).mp hb)
    have hk : x.k = y.k := by simpa [hx, hy] using heq
    have hlookup := hinv.holds.lookup_of_info hx
    rw [hk, hinv.holds.lookup_of_info hy] at hlookup
    exact (Option.some.inj hlookup).symm
  have hkeys : itemKeys items = m.keys := by
    ext k
    rw [itemKeys, List.mem_toFinset, List.mem_map, Finmap.mem_keys]
    constructor
    · rintro ⟨x, hx, rfl⟩
      obtain ⟨a, _, ha⟩ := hlookup x hx
      exact Finmap.mem_of_lookup_eq_some ha
    · intro hk
      obtain ⟨a, ha⟩ := Finmap.mem_iff.mp hk
      obtain ⟨v, hv⟩ := hinv.exists_info ha
      exact ⟨_, (hmem _).mpr ⟨a, hv⟩, rfl⟩
  refine ⟨_, items, firstFrom_returns hs hmask 0,
    ⟨⟨_, visits_nodesFrom hs hplaced hmask 0, hcontents⟩, hnodup, fun x hx => ?_⟩, hkeys,
    fun k => ?_⟩
  · obtain ⟨a, ha, _⟩ := hlookup x hx
    exact hinv.holds.hash a x ha
  · unfold value
    cases hk : m.lookup k with
    | none =>
      refine itemValue_eq_none fun hmem => ?_
      rw [← List.mem_toFinset] at hmem
      have hin : k ∈ m.keys := hkeys ▸ hmem
      exact Finmap.lookup_eq_none.mp hk (Finmap.mem_keys.mp hin)
    | some a =>
      obtain ⟨v, hv⟩ := hinv.exists_info hk
      have hvalue := itemValue_eq_some hnodup ((hmem _).mpr ⟨a, hv⟩)
      simpa [hv] using hvalue

/-- What the new nodes hold decides the hash values that the keys get. -/
def mixedHash (env : HashEnv K V) (uninit : K → BitVec 64) (m : NodeMap K) (k : K) : BitVec 64 :=
  if k ∈ m then env.khash k else uninit k

/-- Every key that is new is hashed to what the memory of its node held before. -/
def Lucky (env : HashEnv K V) (uninit : K → BitVec 64) (m ms : NodeMap K) : Prop :=
  ∀ k ∈ ms, k ∉ m → uninit k = env.khash k

/-- The hash values during the loop are right for the former keys. -/
theorem Inv.mixed (hinv : h.Inv env m) (uninit : K → BitVec 64) :
    h.Inv (withHash env (mixedHash env uninit m)) m :=
  hinv.change_hash fun _ hk => if_pos hk

theorem uninit_mixedHash (env : HashEnv K V) (uninit : K → BitVec 64) (m : NodeMap K)
    (items : List (HashInfo K V)) : Uninit env uninit (mixedHash env uninit m) m items :=
  ⟨fun _ _ hk => if_pos hk, fun _ _ hk => if_neg hk⟩

/-- If the entries are all found, the new nodes happened to hold their hash values. -/
theorem lucky_of_replacedFrom (hinv : h.Inv env m) (hsource : source.Inv env ms)
    (hrun : Outcome.Returns (fun fuel => replaceFrom_g env uninit fuel h source) h')
    (hreplaced : ReplacedFrom env h source h') :
    Lucky env uninit m ms ∧ (m.keys ∪ ms.keys).card ≤ nodeLimit := by
  obtain ⟨first, items, hfirst, hitems, hkeys, _⟩ := hsource.exists_items
  have huninit := uninit_mixedHash env uninit m items
  have hloop := hrun.of_bind hfirst
  have hlimit := limit_of_returns hitems (hinv.mixed uninit) huninit hloop
  obtain ⟨h'', m', hrun', hinv', hkeys', _⟩ :=
    replaceLoop_returns hitems (hinv.mixed uninit) huninit hlimit
  obtain rfl := hloop.unique hrun'
  rw [hkeys] at hkeys' hlimit
  refine ⟨fun k hk hnot => ?_, hlimit⟩
  have hk' : k ∈ m' := by
    rw [← Finmap.mem_keys, hkeys']
    exact Finset.mem_union_right _ (Finmap.mem_keys.mpr hk)
  obtain ⟨a, ha⟩ := Finmap.mem_iff.mp hk'
  obtain ⟨v, hv⟩ := hinv'.exists_info ha
  have hhash := (hreplaced.hash a _ (cell_of_info hv)).1
  exact (if_neg hnot).symm.trans hhash

/-- If the new nodes hold their hash values and there is room, the entries are all found. -/
theorem replacedFrom_of_lucky (hinv : h.Inv env m) (hsource : source.Inv env ms)
    (hlucky : Lucky env uninit m ms) (hlimit : (m.keys ∪ ms.keys).card ≤ nodeLimit) :
    ∃ h', Outcome.Returns (fun fuel => replaceFrom_g env uninit fuel h source) h' ∧
      ReplacedFrom env h source h' := by
  obtain ⟨first, items, hfirst, hitems, hkeys, hvalues⟩ := hsource.exists_items
  rw [← hkeys] at hlimit
  obtain ⟨h', m', hrun, hinv', hkeys', hvalue⟩ := replaceLoop_returns hitems (hinv.mixed uninit)
    (uninit_mixedHash env uninit m items) hlimit
  have hright : h'.Inv env m' := by
    refine hinv'.change_hash fun k hk => ?_
    by_cases hold : k ∈ m
    · exact (if_pos hold).symm
    · have hnew : k ∈ m.keys ∪ ms.keys := by
        rw [← hkeys, ← hkeys']
        exact Finmap.mem_keys.mpr hk
      rw [Finset.mem_union, Finmap.mem_keys, Finmap.mem_keys] at hnew
      exact (hlucky k (hnew.resolve_left hold) hold).symm.trans (if_neg hold).symm
  refine ⟨h', hfirst.bind hrun, fun k => ?_, fun a n hn => ?_⟩
  · refine ⟨_, _, hinv.accValue_returns k, hsource.accValue_returns k, ?_⟩
    rw [← hvalues, ← hvalue]
    exact hright.accValue_returns k
  · have hinfo : h'.info a = some n.info := by simp [info, hn]
    exact ⟨hright.holds.hash a n.info hinfo, (hright.wellFormed.hangs a _).mpr ⟨n, hn, rfl⟩⟩

/-- The entries of another hash are taken over exactly if the memory of the new nodes holds
their hash values, and all keys together are no more than a hash may have. -/
theorem replacesFrom_iff {ms : NodeMap K} (hinv : h.Inv env m) (hsource : source.Inv env ms) :
    (∃ h', Outcome.Returns (fun fuel => replaceFrom_g env uninit fuel h source) h' ∧
      ReplacedFrom env h source h') ↔
      Lucky env uninit m ms ∧ (m.keys ∪ ms.keys).card ≤ nodeLimit := by
  constructor
  · rintro ⟨h', hrun, hreplaced⟩
    exact lucky_of_replacedFrom hinv hsource hrun hreplaced
  · rintro ⟨hlucky, hlimit⟩
    exact replacedFrom_of_lucky hinv hsource hlucky hlimit

/-- The source of the examples: the key `7` was created in it. -/
def Seven (source : Hash Nat Unit) (ms : NodeMap Nat) : Prop :=
  source.Inv natEnv ms ∧ ms.keys = {7} ∧
    ∃ a, Outcome.Returns (fun fuel => create_g natEnv fuel new (natEnv.khash 7) 7)
      ((a, true), source)

theorem exists_seven : ∃ source ms, Seven source ms := by
  obtain ⟨a, source, hrun, hinv⟩ := (Inv.initial natEnv).create_returns_absent (k := 7)
    (lookup_empty 7) (by simp [nodeLimit])
  exact ⟨source, _, hinv, by rw [Holds.keys_insert]; rfl, a, hrun⟩

theorem exists_pair {k l : Nat} (hne : k ≠ l) :
    ∃ (h : Hash Nat Unit) (m : NodeMap Nat), h.Inv natEnv m ∧ m.keys = {k, l} := by
  obtain ⟨_, h, -, hinv⟩ := (Inv.initial natEnv).create_returns_absent (k := l)
    (lookup_empty l) (by simp [nodeLimit])
  obtain ⟨_, h', -, hinv'⟩ := hinv.create_returns_absent (k := k)
    (by rw [lookup_insert_of_ne _ hne]; exact lookup_empty k)
    (by rw [Holds.keys_insert]; simp [nodeLimit])
  exact ⟨h', _, hinv', by rw [Holds.keys_insert, Holds.keys_insert]; rfl⟩

/-- A hash with the keys `3` and `12` takes over `3` and `7`, if the memory of the one new node
happens to hold `7`. -/
theorem replacesFrom_seven : ∃ (h source : Hash Nat Unit) (m ms : NodeMap Nat),
    (h.Inv natEnv m ∧ m.keys = {3, 12}) ∧ (source.Inv natEnv ms ∧ ms.keys = {3, 7}) ∧
    ∃ h', Outcome.Returns (fun fuel => replaceFrom_g natEnv (fun _ => 7) fuel h source) h' ∧
      ReplacedFrom natEnv h source h' := by
  obtain ⟨h, m, hinv, hkeys⟩ := exists_pair (k := 3) (l := 12) (by decide)
  obtain ⟨source, ms, hsource, hkeys'⟩ := exists_pair (k := 3) (l := 7) (by decide)
  refine ⟨h, source, m, ms, ⟨hinv, hkeys⟩, ⟨hsource, hkeys'⟩,
    (replacesFrom_iff hinv hsource).mpr ⟨?_, ?_⟩⟩
  · intro k hk hnew
    rw [← Finmap.mem_keys, hkeys'] at hk
    rw [← Finmap.mem_keys, hkeys] at hnew
    obtain rfl : k = 7 := by
      simp only [Finset.mem_insert, Finset.mem_singleton, not_or] at hk hnew
      exact hk.resolve_left hnew.1
    rfl
  · rw [hkeys, hkeys']
    decide

/-- It does not with memory that holds `0`. -/
theorem not_replacesFrom_zeroed : ∃ source ms, Seven source ms ∧
    ¬ ∃ h', Outcome.Returns (fun fuel => replaceFrom_g natEnv (fun _ => 0) fuel new source) h' ∧
      ReplacedFrom natEnv new source h' := by
  obtain ⟨source, ms, hseven⟩ := exists_seven
  refine ⟨source, ms, hseven, ?_⟩
  rintro ⟨h', hrun, hreplaced⟩
  have hlucky := (lucky_of_replacedFrom (Inv.initial natEnv) hseven.1 hrun hreplaced).1
  have hmem : (7 : Nat) ∈ ms := by
    rw [← Finmap.mem_keys, hseven.2.1]
    exact Finset.mem_singleton_self 7
  exact absurd (hlucky 7 hmem Finmap.notMem_empty) (by decide)

end Hash

end Drt
