import Drt.Core.Struct.HashGrow
import Drt.Core.Time.Time
import Drt.Lib.Keeping
import Drt.Lib.Machine

/-!
# Cache of resources

`ApplicationCache` keeps resources in a hash, by a key and the number of the comparison that is
used for it, and files the entries by the time they expire. An entry is filed when it is made, and
only then. `addKeyResource` adds its resources with the number -1, whatever number it is called
with.
-/

open List Option

namespace Drt

/-- `eq`, `hash`, `eqKey` and `hashKey` of the objects that are keys. -/
structure KeyFunctions (α : Type) where
  eq : α → α → Bool
  hash : α → BitVec 64
  eqKey : α → α → Int32 → Bool
  hashKey : α → Int32 → BitVec 64
  eq_refl : ∀ a, eq a a
  eq_symm : ∀ {a b}, eq a b → eq b a
  eq_trans : ∀ {a b c}, eq a b → eq b c → eq a c
  hash_eq : ∀ {a b}, eq a b → hash a = hash b

/-- `ApplicationCache::ValueHashNode`, with the hash of its key. `timed` is the time of the list
that `timed_pprev` leads into. -/
structure ValueHashNode (α : Type) where
  hash : BitVec 64
  key_id : Int32
  key : α
  value : α
  timed : Option Int64
  deriving DecidableEq

/-- `ApplicationCache`: the nodes, the last one first. A node of `timed_tree` stands for the entries
on its list, and there is none without entries. -/
structure ApplicationCache (α : Type) where
  value_hash : List (ValueHashNode α)
  deriving DecidableEq

/-- What is thrown: an allocation fails. -/
inductive CacheError where
  | noMemory
  deriving DecidableEq, Repr

namespace ApplicationCache

variable {α : Type} (keys : KeyFunctions α)

def max_items : Nat := 1024

/-- What a key is looked up by. -/
def hashOf (key_id : Int32) (key : α) : BitVec 64 :=
  if key_id < 0 then keys.hash key else keys.hashKey key key_id

/-- `ValueHash::node_eq`. -/
def node_eq (entry : ValueHashNode α) (key_id : Int32) (key : α) : Bool :=
  if entry.key_id ≠ key_id then false
  else if key_id < 0 then keys.eq entry.key key else keys.eqKey entry.key key key_id

/-- A node is what is looked for. -/
def isFound (key_id : Int32) (key : α) (entry : ValueHashNode α) : Bool :=
  entry.hash = hashOf keys key_id key ∧ node_eq keys entry key_id key

/-- `ValueHash::find`. -/
def find (key_id : Int32) (key : α) (c : ApplicationCache α) : Option (ValueHashNode α) :=
  c.value_hash.find? (isFound keys key_id key)

/-- `ValueHash::createRetCreated`: whether a node was made. `room` says whether there is memory for
one. -/
def createRetCreated (key_id : Int32) (key value : α) (room : Bool) :
    Keeping (ApplicationCache α) CacheError Bool := fun c =>
  match c.value_hash.findIdx? (isFound keys key_id key) with
  | some i =>
    (.ok false, { c with value_hash := c.value_hash.modify i fun e => { e with value := value } })
  | none =>
    if c.value_hash.length ≥ Hash.nodeLimit then (.outOfFuel, c)
    else if room then
      let entry := ⟨hashOf keys key_id key, key_id, key, value, none⟩
      (.ok true, { c with value_hash := entry :: c.value_hash })
    else (.raise .noMemory, c)

/-- `ValueHash::remove`. The destructor writes to where `timed_pprev` leads. -/
def remove (key_id : Int32) (key : α) (c : ApplicationCache α) :
    Outcome CacheError (ApplicationCache α) :=
  match c.find keys key_id key with
  | none => .ok c
  | some e =>
    if e.timed = none then .fault
    else .ok { c with value_hash := c.value_hash.eraseP (isFound keys key_id key) }

/-- `TimedTree::replace` with the node that was made last. A node of the tree is made if there is
none for this time. -/
def replace (expires : Int64) (room : Bool) : Keeping (ApplicationCache α) CacheError Unit :=
  fun c =>
    match c.value_hash with
    | [] => (.fault, c)
    | e :: rest =>
      if room ∨ ∃ e' ∈ rest, e'.timed = some expires then
        (.ok (), { c with value_hash := { e with timed := some expires } :: rest })
      else (.raise .noMemory, c)

/-- What `addResource` and `addKeyResource` have in common: what they remove after a failure is
given by its number. -/
def add (removed_id : Int32) (expires : Int64) (key value : α) (room room_timed : Bool) :
    Keeping (ApplicationCache α) CacheError Unit := fun c =>
  match createRetCreated keys (-1) key value room c with
  | (.ok true, c) =>
    match replace expires room_timed c with
    | (.raise e, c) =>
      match remove keys removed_id key c with
      | .ok c => (.raise e, c)
      | .raise _ => (.raise e, c)
      | .fault => (.fault, c)
      | .outOfFuel => (.outOfFuel, c)
    | result => result
  | (.ok false, c) => (.ok (), c)
  | (.raise e, c) => (.raise e, c)
  | (.fault, c) => (.fault, c)
  | (.outOfFuel, c) => (.outOfFuel, c)

def addResource (expires : Int64) (key value : α) (room room_timed : Bool) :
    Keeping (ApplicationCache α) CacheError Unit :=
  add keys (-1) expires key value room room_timed

def addKeyResource (expires : Int64) (key : α) (key_id : Int32) (room room_timed : Bool) :
    Keeping (ApplicationCache α) CacheError Unit :=
  add keys key_id expires key key room room_timed

def findResource (key : α) (c : ApplicationCache α) : Option α :=
  (c.find keys (-1) key).map ValueHashNode.value

def findKeyResource (key : α) (key_id : Int32) (c : ApplicationCache α) : Option α :=
  (c.find keys key_id key).map ValueHashNode.value

/-- The lowest time of the tree. -/
def lowest (c : ApplicationCache α) : Option Int64 :=
  (c.value_hash.filterMap ValueHashNode.timed).min?

/-- `TimedTree::getLowestTime`. -/
def getLowestTime (c : ApplicationCache α) : Int64 := c.lowest.getD Time.invalTime

/-- `TimedTree::node_destroy`: the entries of a list are removed, one after another. -/
def node_destroy (time : Int64) :
    Nat → ApplicationCache α → Outcome CacheError (ApplicationCache α)
  | fuel, c =>
    match c.value_hash.find? fun e => e.timed = some time with
    | none => .ok c
    | some e =>
      match fuel with
      | 0 => .outOfFuel
      | fuel + 1 => do
        let c ← remove keys e.key_id e.key c
        node_destroy time fuel c

/-- The loop of `expire`. -/
def expireFrom (time : Int64) :
    Nat → ApplicationCache α → Outcome CacheError (Int64 × ApplicationCache α)
  | 0, _ => .outOfFuel
  | fuel + 1, c =>
    let lowest_time := c.getLowestTime
    if lowest_time = Time.invalTime then .ok (Time.invalTime, c)
    else if lowest_time > time ∧ c.value_hash.length ≤ max_items then .ok (lowest_time - time, c)
    else do
      let c ← node_destroy keys lowest_time c.value_hash.length c
      expireFrom time fuel c

/-- `expire`. Every pass but the last one removes an entry. -/
def expire (time : Int64) (c : ApplicationCache α) :
    Outcome CacheError (Int64 × ApplicationCache α) :=
  expireFrom keys time (c.value_hash.length + 1) c

/-- The nodes of the tree are destroyed. -/
def cleanFrom : Nat → ApplicationCache α → Outcome CacheError (ApplicationCache α)
  | fuel, c =>
    match c.lowest with
    | none => .ok c
    | some time =>
      match fuel with
      | 0 => .outOfFuel
      | fuel + 1 => do
        let c ← node_destroy keys time c.value_hash.length c
        cleanFrom fuel c

def clean (c : ApplicationCache α) : Outcome CacheError (ApplicationCache α) :=
  cleanFrom keys c.value_hash.length c

/-- An entry does not expire yet. -/
def notDue (time : Int64) (e : ValueHashNode α) : Bool :=
  match e.timed with
  | some t => time < t
  | none => true

/-- All entries have the number -1 and the hash of their key, and there is one for each key. -/
structure Sound (c : ApplicationCache α) : Prop where
  ids : ∀ e ∈ c.value_hash, e.key_id = -1
  hashes : ∀ e ∈ c.value_hash, e.hash = keys.hash e.key
  distinct : c.value_hash.Pairwise fun a b => ¬ keys.eq a.key b.key

variable {keys} {c c' : ApplicationCache α} {e : ValueHashNode α} {key : α} {time : Int64}

theorem Sound.sublist (h : c.Sound keys) (hsub : c'.value_hash.Sublist c.value_hash) :
    c'.Sound keys where
  ids e he := h.ids e (hsub.subset he)
  hashes e he := h.hashes e (hsub.subset he)
  distinct := h.distinct.sublist hsub

theorem hashOf_neg_one (key : α) : hashOf keys (-1) key = keys.hash key := if_pos (by decide)

/-- Under the number -1, a node is found by a key that is equal to its own. -/
theorem isFound_iff (hid : e.key_id = -1) (hhash : e.hash = keys.hash e.key) :
    isFound keys (-1) key e ↔ keys.eq e.key key := by
  rw [isFound, decide_eq_true_iff, hashOf_neg_one, hhash, node_eq, hid]
  simp only [ne_eq, not_true_eq_false, if_false]
  rw [if_pos (by decide)]
  exact ⟨fun hfound => hfound.2, fun heq => ⟨keys.hash_eq heq, heq⟩⟩

theorem Sound.isFound_iff (h : c.Sound keys) (he : e ∈ c.value_hash) :
    isFound keys (-1) key e ↔ keys.eq e.key key :=
  ApplicationCache.isFound_iff (h.ids e he) (h.hashes e he)

theorem Sound.find_eq_none (h : c.Sound keys) {key_id : Int32} (hid : key_id ≠ -1) :
    c.find keys key_id key = none := by
  refine List.find?_eq_none.mpr fun e he hfound => ?_
  rw [isFound, decide_eq_true_iff, node_eq, h.ids e he, if_pos (Ne.symm hid)] at hfound
  exact Bool.false_ne_true hfound.2

/-- The entry that is found. -/
theorem Sound.find_eq_some_iff (h : c.Sound keys) :
    c.find keys (-1) key = some e ↔ e ∈ c.value_hash ∧ keys.eq e.key key := by
  constructor
  · intro hfind
    have hmem := mem_of_find?_eq_some hfind
    exact ⟨hmem, (h.isFound_iff hmem).mp (List.find?_some hfind)⟩
  · rintro ⟨hmem, heq⟩
    obtain ⟨l, r, hsplit⟩ := append_of_mem hmem
    have hdistinct := h.distinct
    rw [hsplit, pairwise_append] at hdistinct
    refine List.find?_eq_some_iff_append.mpr
      ⟨(h.isFound_iff hmem).mpr heq, l, r, hsplit, fun e' he' => ?_⟩
    -- an entry before it has another key
    rw [Bool.not_eq_true', Bool.eq_false_iff]
    intro hfound
    have hmem' : e' ∈ c.value_hash := by simp [hsplit, he']
    exact hdistinct.2.2 e' he' e mem_cons_self
      (keys.eq_trans ((h.isFound_iff hmem').mp hfound) (keys.eq_symm heq))

variable {l r : List (ValueHashNode α)} {fuel : Nat}

/-- An entry that is filed is removed. -/
theorem Sound.remove_eq (h : c.Sound keys) (hsplit : c.value_hash = l ++ e :: r)
    (htimed : e.timed ≠ none) : remove keys e.key_id e.key c = .ok ⟨l ++ r⟩ := by
  have hmem : e ∈ c.value_hash := by simp [hsplit]
  have hfound : isFound keys (-1) e.key e := (h.isFound_iff hmem).mpr (keys.eq_refl e.key)
  have hdistinct := h.distinct
  rw [hsplit, pairwise_append] at hdistinct
  have hbefore : ∀ e' ∈ l, ¬ isFound keys (-1) e.key e' := by
    intro e' he' hfound'
    have hmem' : e' ∈ c.value_hash := by simp [hsplit, he']
    exact hdistinct.2.2 e' he' e mem_cons_self ((h.isFound_iff hmem').mp hfound')
  rw [h.ids e hmem, remove, h.find_eq_some_iff.mpr ⟨hmem, keys.eq_refl e.key⟩]
  simp only [if_neg htimed, hsplit, eraseP_append_right _ hbefore,
    eraseP_cons_of_pos hfound]

/-- A list of the tree is removed as a whole. -/
theorem Sound.node_destroy_eq (h : c.Sound keys) (hfuel : c.value_hash.length ≤ fuel) :
    node_destroy keys time fuel c =
      .ok ⟨c.value_hash.filter fun e => e.timed ≠ some time⟩ := by
  induction fuel generalizing c with
  | zero =>
    obtain ⟨nodes⟩ := c
    obtain rfl : nodes = [] := length_eq_zero_iff.mp (Nat.le_zero.mp hfuel)
    rfl
  | succ fuel ih =>
    cases hfind : c.value_hash.find? fun e => e.timed = some time with
    | none =>
      rw [List.find?_eq_none] at hfind
      have hall : (c.value_hash.filter fun e => e.timed ≠ some time) = c.value_hash :=
        filter_eq_self.mpr fun e he => by simpa using hfind e he
      rw [node_destroy, List.find?_eq_none.mpr hfind, hall]
    | some e =>
      obtain ⟨htimed, l, r, hsplit, -⟩ := List.find?_eq_some_iff_append.mp hfind
      rw [decide_eq_true_iff] at htimed
      have hremove := h.remove_eq hsplit (by simp [htimed])
      have hlength : (l ++ r).length ≤ fuel := by
        rw [hsplit] at hfuel
        simp only [length_append, length_cons] at hfuel ⊢
        omega
      have hsub : (l ++ r).Sublist c.value_hash := by simp [hsplit]
      rw [node_destroy, hfind]
      simp only [hremove, Outcome.ok_bind]
      rw [ih (h.sublist hsub) hlength, hsplit]
      simp [htimed]

theorem lowest_eq_some_iff {t : Int64} : c.lowest = some t ↔
    (∃ e ∈ c.value_hash, e.timed = some t) ∧
      ∀ e ∈ c.value_hash, ∀ t', e.timed = some t' → t ≤ t' := by
  rw [lowest, List.min?_eq_some_iff]
  simp only [mem_filterMap, forall_exists_index, and_imp]
  exact and_congr_right fun _ => ⟨fun h e he t' ht' => h t' e he ht', fun h t' e he ht' =>
    h e he t' ht'⟩

theorem lowest_eq_none_iff : c.lowest = none ↔ ∀ e ∈ c.value_hash, e.timed = none := by
  rw [lowest, List.min?_eq_none_iff, filterMap_eq_nil_iff]

/-- What `expire` leaves: the entries that do not expire yet, unless one is filed at `INVAL_TIME`.
Those that it removes expired, or there are too many of those that did not. -/
structure Expired (time : Int64) (c c' : ApplicationCache α) : Prop where
  sublist : c'.value_hash.Sublist c.value_hash
  due : (∀ e ∈ c.value_hash, e.timed ≠ some Time.invalTime) →
    ∀ e ∈ c'.value_hash, ∀ t, e.timed = some t → time < t
  blocked : (∃ e ∈ c.value_hash, e.timed = some Time.invalTime) → c' = c
  reason : ∀ e ∈ c.value_hash, e ∉ c'.value_hash → ∃ t, e.timed = some t ∧
    (t ≤ time ∨ max_items < (c.value_hash.filter (notDue time)).length)

theorem Expired.rfl
    (hdue : (∀ e ∈ c.value_hash, e.timed ≠ some Time.invalTime) →
      ∀ e ∈ c.value_hash, ∀ t, e.timed = some t → time < t) : Expired time c c where
  sublist := List.Sublist.refl _
  due := hdue
  blocked _ := Eq.refl c
  reason _ he hnot := absurd he hnot

/-- A pass of `expire` that removes the list with the lowest time. -/
theorem Expired.pass {t : Int64} (hlowest : c.lowest = some t) (hinval : t ≠ Time.invalTime)
    (hpass : ¬ (t > time ∧ c.value_hash.length ≤ max_items))
    (h : Expired time ⟨c.value_hash.filter fun e => e.timed ≠ some t⟩ c') : Expired time c c' := by
  obtain ⟨-, hleast⟩ := lowest_eq_some_iff.mp hlowest
  have hsub : (c.value_hash.filter fun e => e.timed ≠ some t).Sublist c.value_hash :=
    filter_sublist
  refine ⟨h.sublist.trans hsub, fun hno => h.due fun e he => hno e (hsub.subset he), ?_, ?_⟩
  · rintro ⟨e, he, htimed⟩
    have hle := hleast e he Time.invalTime htimed
    have hmin : t = Time.invalTime := Int64.le_antisymm hle (Int64.minValue_le t)
    exact absurd hmin hinval
  · intro e he hnot
    by_cases htimed : e.timed = some t
    · refine ⟨t, htimed, ?_⟩
      by_cases hle : t ≤ time
      · exact .inl hle
      · -- nothing expires any more, so the entries are too many
        have hlt : time < t := Int64.not_le.mp hle
        have hall : c.value_hash.filter (notDue time) = c.value_hash := by
          refine filter_eq_self.mpr fun e' he' => ?_
          cases htimed' : e'.timed with
          | none => rw [notDue, htimed']
          | some t' =>
            rw [notDue, htimed', decide_eq_true_iff]
            exact Int64.lt_of_lt_of_le hlt (hleast e' he' t' htimed')
        rw [hall]
        exact .inr (Nat.lt_of_not_le fun hcount => hpass ⟨hlt, hcount⟩)
    · have hkept : e ∈ c.value_hash.filter fun e => e.timed ≠ some t := by
        rw [mem_filter]
        exact ⟨he, by simpa using htimed⟩
      obtain ⟨t', htimed', hreason⟩ := h.reason e hkept hnot
      refine ⟨t', htimed', hreason.imp_right fun hmany => lt_of_lt_of_le hmany ?_⟩
      exact (hsub.filter (notDue time)).length_le

theorem Sound.expireFrom_spec (h : c.Sound keys) (hfuel : c.value_hash.length < fuel) :
    ∃ r c', expireFrom keys time fuel c = .ok (r, c') ∧ Expired time c c' := by
  induction fuel generalizing c with
  | zero => exact absurd hfuel (Nat.not_lt_zero _)
  | succ fuel ih =>
    rw [expireFrom, getLowestTime]
    cases hlowest : c.lowest with
    | none =>
      have hnone := lowest_eq_none_iff.mp hlowest
      refine ⟨_, c, if_pos rfl, Expired.rfl fun _ e he t ht => ?_⟩
      rw [hnone e he] at ht
      cases ht
    | some t =>
      obtain ⟨⟨e, he, htimed⟩, hleast⟩ := lowest_eq_some_iff.mp hlowest
      rw [getD_some]
      by_cases hinval : t = Time.invalTime
      · refine ⟨_, c, if_pos hinval, Expired.rfl fun hno => ?_⟩
        rw [hinval] at htimed
        exact absurd htimed (hno e he)
      · rw [if_neg hinval]
        by_cases hstop : t > time ∧ c.value_hash.length ≤ max_items
        · exact ⟨_, c, if_pos hstop, Expired.rfl fun _ e he t' ht' =>
            Int64.lt_of_lt_of_le hstop.1 (hleast e he t' ht')⟩
        · rw [if_neg hstop, h.node_destroy_eq le_rfl, Outcome.ok_bind]
          have hless : (c.value_hash.filter fun e => e.timed ≠ some t).length <
              c.value_hash.length := by
            rw [length_filter_lt_length_iff_exists]
            exact ⟨e, he, by simp [htimed]⟩
          obtain ⟨r, c', hexpire, hexpired⟩ :=
            ih (c := ⟨c.value_hash.filter fun e => e.timed ≠ some t⟩)
              (h.sublist filter_sublist)
              (lt_of_lt_of_le hless (Nat.le_of_lt_succ hfuel))
          exact ⟨r, c', hexpire, hexpired.pass hlowest hinval hstop⟩

theorem Sound.expire_spec (h : c.Sound keys) (time : Int64) :
    ∃ r c', expire keys time c = .ok (r, c') ∧ Expired time c c' :=
  h.expireFrom_spec (Nat.lt_succ_self _)

/-- `clean` removes what is filed. -/
theorem Sound.cleanFrom_spec (h : c.Sound keys) (hfuel : c.value_hash.length ≤ fuel) :
    cleanFrom keys fuel c = .ok ⟨c.value_hash.filter fun e => e.timed = none⟩ := by
  induction fuel generalizing c with
  | zero =>
    obtain ⟨nodes⟩ := c
    obtain rfl : nodes = [] := List.length_eq_zero_iff.mp (Nat.le_zero.mp hfuel)
    rfl
  | succ fuel ih =>
    cases hlowest : c.lowest with
    | none =>
      have hall : (c.value_hash.filter fun e => e.timed = none) = c.value_hash :=
        List.filter_eq_self.mpr fun e he => by simpa using lowest_eq_none_iff.mp hlowest e he
      rw [cleanFrom, hlowest, hall]
    | some t =>
      obtain ⟨⟨e, he, htimed⟩, -⟩ := lowest_eq_some_iff.mp hlowest
      have hless : (c.value_hash.filter fun e => e.timed ≠ some t).length <
          c.value_hash.length := by
        rw [List.length_filter_lt_length_iff_exists]
        exact ⟨e, he, by simp [htimed]⟩
      rw [cleanFrom, hlowest]
      simp only [h.node_destroy_eq le_rfl, Outcome.ok_bind]
      rw [ih (h.sublist List.filter_sublist)
        (Nat.le_of_lt_succ (lt_of_lt_of_le hless hfuel)), List.filter_filter]
      congr 2
      refine List.filter_congr fun e' _ => ?_
      cases e'.timed <;> simp

/-- What an addition does to a cache. -/
inductive Added (keys : KeyFunctions α) (removed_id : Int32) (expires : Int64) (key value : α)
    (c : ApplicationCache α) : Outcome CacheError Unit × ApplicationCache α → Prop where
  /-- An entry gets the value, and stays where it is filed. -/
  | replaced (l r : List (ValueHashNode α)) (e : ValueHashNode α)
      (split : c.value_hash = l ++ e :: r) (eq : keys.eq e.key key) :
      Added keys removed_id expires key value c (.ok (), ⟨l ++ { e with value := value } :: r⟩)
  | created (absent : c.find keys (-1) key = none) :
      Added keys removed_id expires key value c
        (.ok (), ⟨⟨keys.hash key, -1, key, value, some expires⟩ :: c.value_hash⟩)
  | failed (error : CacheError) (absent : c.find keys (-1) key = none) :
      Added keys removed_id expires key value c (.raise error, c)
  /-- An entry that could not be filed stays. -/
  | unfiled (error : CacheError) (absent : c.find keys (-1) key = none)
      (removed : removed_id ≠ -1) :
      Added keys removed_id expires key value c
        (.raise error, ⟨⟨keys.hash key, -1, key, value, none⟩ :: c.value_hash⟩)
  | fault (c' : ApplicationCache α) : Added keys removed_id expires key value c (.fault, c')
  | outOfFuel (c' : ApplicationCache α) : Added keys removed_id expires key value c (.outOfFuel, c')

theorem Sound.cons (h : c.Sound keys) (habsent : c.find keys (-1) key = none) (value : α)
    (timed : Option Int64) :
    Sound keys ⟨⟨keys.hash key, -1, key, value, timed⟩ :: c.value_hash⟩ := by
  refine ⟨?_, ?_, pairwise_cons.mpr ⟨fun e he heq => ?_, h.distinct⟩⟩
  · exact forall_mem_cons.mpr ⟨rfl, h.ids⟩
  · exact forall_mem_cons.mpr ⟨rfl, h.hashes⟩
  · have hfind := h.find_eq_some_iff.mpr ⟨he, keys.eq_symm heq⟩
    rw [habsent] at hfind
    cases hfind

/-- The value of an entry does not matter. -/
theorem Sound.setValue (h : c.Sound keys) (hsplit : c.value_hash = l ++ e :: r) (value : α) :
    Sound keys ⟨l ++ { e with value := value } :: r⟩ := by
  have hids := h.ids
  have hhashes := h.hashes
  have hdistinct := h.distinct
  rw [hsplit, forall_mem_append, forall_mem_cons] at hids hhashes
  rw [hsplit, pairwise_append, pairwise_cons] at hdistinct
  refine ⟨?_, ?_, ?_⟩
  · exact forall_mem_append.mpr ⟨hids.1, forall_mem_cons.mpr hids.2⟩
  · exact forall_mem_append.mpr ⟨hhashes.1, forall_mem_cons.mpr hhashes.2⟩
  · refine pairwise_append.mpr ⟨hdistinct.1, pairwise_cons.mpr hdistinct.2.1, ?_⟩
    intro e' he'
    have hbefore := hdistinct.2.2 e' he'
    rw [forall_mem_cons] at hbefore ⊢
    exact hbefore

theorem Sound.add_added (h : c.Sound keys) (removed_id : Int32) (expires : Int64) (key value : α)
    (room room_timed : Bool) : Added keys removed_id expires key value c
      (add keys removed_id expires key value room room_timed c) := by
  unfold add createRetCreated
  cases hindex : c.value_hash.findIdx? (isFound keys (-1) key) with
  | some i =>
    obtain ⟨hlt, hfound, -⟩ := List.findIdx?_eq_some_iff_getElem.mp hindex
    have hsplit : c.value_hash =
        c.value_hash.take i ++ c.value_hash[i] :: c.value_hash.drop (i + 1) := by
      rw [← drop_eq_getElem_cons hlt, take_append_drop]
    have hmodify : (c.value_hash.modify i fun e => { e with value := value }) =
        c.value_hash.take i ++ { c.value_hash[i] with value := value } ::
          c.value_hash.drop (i + 1) := by
      rw [modify_eq_take_cons_drop hlt]
    simp only [hmodify]
    exact .replaced _ _ _ hsplit ((h.isFound_iff (getElem_mem hlt)).mp hfound)
  | none =>
    have habsent : c.find keys (-1) key = none := by
      rw [List.findIdx?_eq_none_iff] at hindex
      exact List.find?_eq_none.mpr fun e he => by simp [hindex e he]
    by_cases hfull : c.value_hash.length ≥ Hash.nodeLimit
    · simp only [if_pos hfull]
      exact .outOfFuel c
    · cases room with
      | false =>
        simp only [if_neg hfull]
        exact .failed .noMemory habsent
      | true =>
        have hcons := h.cons habsent value none
        simp only [if_neg hfull, if_true, replace, hashOf_neg_one]
        by_cases hroom : room_timed = true ∨ ∃ e ∈ c.value_hash, e.timed = some expires
        · simp only [if_pos hroom]
          exact .created habsent
        · simp only [if_neg hroom]
          by_cases hid : removed_id = -1
          · -- the entry is not on a list yet
            have hfind := hcons.find_eq_some_iff.mpr ⟨mem_cons_self, keys.eq_refl key⟩
            rw [hid, remove, hfind]
            exact .fault _
          · rw [remove, hcons.find_eq_none hid]
            exact .unfiled .noMemory habsent hid

end ApplicationCache

/-- The calls. Those that add come with what memory there is. -/
inductive CacheCall (α : Type) where
  | addResource (expires : Int64) (key value : α) (room room_timed : Bool)
  | addKeyResource (expires : Int64) (key : α) (key_id : Int32) (room room_timed : Bool)
  | findResource (key : α)
  | findKeyResource (key : α) (key_id : Int32)
  | expire (time : Int64)
  | clean
  deriving DecidableEq

/-- An addition: whether it made an entry, and whether it returned. -/
structure CacheAddition (α : Type) where
  key : α
  expires : Int64
  created : Bool
  returned : Bool
  deriving DecidableEq

/-- A resource that was added with `addKeyResource`. -/
structure KeyResource (α : Type) where
  key_id : Int32
  key : α
  expires : Int64
  deriving DecidableEq

/-- A cache, the additions that it got, the last one first, and the resources added with
`addKeyResource` that did not expire and were neither evicted nor replaced. -/
structure CacheSession (α : Type) where
  cache : ApplicationCache α
  log : List (CacheAddition α)
  live : List (KeyResource α)
  deriving DecidableEq

namespace CacheSession

open ApplicationCache

variable {α : Type} (keys : KeyFunctions α)

/-- A call on the cache. -/
def call : CacheCall α → Keeping (ApplicationCache α) CacheError Unit
  | .addResource expires key value room room_timed =>
    addResource keys expires key value room room_timed
  | .addKeyResource expires key key_id room room_timed =>
    addKeyResource keys expires key key_id room room_timed
  | .findResource _ | .findKeyResource _ _ => pure ()
  | .expire time => .lift fun c => expire keys time c >>= fun r => .ok ((), r.2)
  | .clean => .lift fun c => clean keys c >>= fun c => .ok ((), c)

/-- An addition is remembered if there is an entry for its key afterwards. -/
def logAddition (s : CacheSession α) (after : ApplicationCache α) (returned : Bool)
    (expires : Int64) (key : α) : List (CacheAddition α) :=
  if (after.find keys (-1) key).isSome then
    ⟨key, expires, (s.cache.find keys (-1) key).isNone, returned⟩ :: s.log
  else s.log

/-- The additions after a call. -/
def logAfter (s : CacheSession α) (after : ApplicationCache α) (returned : Bool) :
    CacheCall α → List (CacheAddition α)
  | .addResource expires key .. | .addKeyResource expires key .. =>
    s.logAddition keys after returned expires key
  | _ => s.log

/-- A resource has a key, by its number. -/
def hasKey (key_id : Int32) (key : α) (r : KeyResource α) : Bool :=
  r.key_id = key_id ∧ if key_id < 0 then keys.eq r.key key else keys.eqKey r.key key key_id

/-- An entry that does not expire yet is removed, as there are too many of them. -/
def evicted (time : Int64) (before after : ApplicationCache α) (r : KeyResource α) : Bool :=
  match before.find keys r.key_id r.key with
  | none => false
  | some e => notDue time e ∧ after.find keys r.key_id r.key = none ∧
    max_items < (before.value_hash.filter (notDue time)).length

/-- The resources that did not expire and were neither evicted nor replaced, after a call. -/
def liveAfter (s : CacheSession α) (after : ApplicationCache α) (returned : Bool) :
    CacheCall α → List (KeyResource α)
  | .addResource _ key .. =>
    if returned then s.live.filter fun r => !hasKey keys (-1) key r else s.live
  | .addKeyResource expires key key_id .. =>
    if returned then ⟨key_id, key, expires⟩ :: s.live.filter fun r => !hasKey keys key_id key r
    else s.live
  | .findResource _ | .findKeyResource _ _ => s.live
  | .expire time =>
    s.live.filter fun r => time < r.expires ∧ ¬ evicted keys time s.cache after r
  | .clean => []

/-- A call returns or raises an exception; nothing comes after what is undefined. -/
def step (s : CacheSession α) (c : CacheCall α) : Option (CacheSession α) :=
  match call keys c s.cache with
  | (.ok _, after) =>
    some ⟨after, s.logAfter keys after true c, s.liveAfter keys after true c⟩
  | (.raise _, after) =>
    some ⟨after, s.logAfter keys after false c, s.liveAfter keys after false c⟩
  | _ => none

/-- The sessions with a cache that is empty first. -/
def machine : Machine (CacheSession α) (CacheCall α) where
  init s := s = ⟨⟨[]⟩, [], []⟩
  step := step keys

/-- `addKeyResource` is called with the number that the cache uses, and an entry that is there
already is not to stay longer than it was to before. -/
def Good (s : CacheSession α) : CacheCall α → Prop
  | .addKeyResource expires key key_id _ _ => key_id = -1 ∧
    ∀ e ∈ s.cache.find keys (-1) key, ∃ t ∈ e.timed, expires ≤ t
  | _ => True

/-- The time that the addition that made the entry for a key asked for. -/
def createdAt (log : List (CacheAddition α)) (key : α) : Option Int64 :=
  match log.find? fun a => a.created ∧ keys.eq a.key key with
  | none => none
  | some a => if a.returned then some a.expires else none

/-- The time that the latest addition for a key asked for. -/
def latest (log : List (CacheAddition α)) (key : α) : Option Int64 :=
  (log.find? fun a => a.returned ∧ keys.eq a.key key).map CacheAddition.expires

variable {keys} {s t : CacheSession α}

/-- What holds in every state: an entry is filed by the time that was asked for when it was
made. -/
structure Invariant (keys : KeyFunctions α) (s : CacheSession α) : Prop where
  sound : s.cache.Sound keys
  timed : ∀ e ∈ s.cache.value_hash, e.timed = createdAt keys s.log e.key

/-- An addition that made no entry says nothing about the entries. -/
theorem createdAt_replaced (key key' : α) (expires : Int64) (returned : Bool)
    (log : List (CacheAddition α)) :
    createdAt keys (⟨key, expires, false, returned⟩ :: log) key' = createdAt keys log key' := by
  rw [createdAt, List.find?_cons_of_neg (by simp), createdAt]

theorem createdAt_self (key : α) (expires : Int64) (returned : Bool)
    (log : List (CacheAddition α)) :
    createdAt keys (⟨key, expires, true, returned⟩ :: log) key =
      if returned then some expires else none := by
  rw [createdAt, List.find?_cons_of_pos (by simp [keys.eq_refl])]

variable {key value : α} {expires : Int64} {result : Outcome CacheError Unit}
  {after c : ApplicationCache α} {r : KeyResource α}

theorem createdAt_other {key' : α} (hne : ¬ keys.eq key key') (expires : Int64) (returned : Bool)
    (log : List (CacheAddition α)) :
    createdAt keys (⟨key, expires, true, returned⟩ :: log) key' = createdAt keys log key' := by
  rw [createdAt, List.find?_cons_of_neg (by simp [hne]), createdAt]

section

variable (h : s.Invariant keys)
include h

/-- An entry is made for a key that there was none for. -/
theorem Invariant.cons (habsent : s.cache.find keys (-1) key = none) (value : α) (expires : Int64)
    (returned : Bool) (live : List (KeyResource α)) : Invariant keys
      ⟨⟨⟨keys.hash key, -1, key, value, if returned then some expires else none⟩ ::
        s.cache.value_hash⟩, ⟨key, expires, true, returned⟩ :: s.log, live⟩ := by
  refine ⟨h.sound.cons habsent value _, forall_mem_cons.mpr ⟨?_, fun e he => ?_⟩⟩
  · rw [createdAt_self]
  · have hne : ¬ keys.eq key e.key := by
      intro heq
      have hfind := h.sound.find_eq_some_iff.mpr ⟨he, keys.eq_symm heq⟩
      rw [habsent] at hfind
      cases hfind
    rw [createdAt_other hne]
    exact h.timed e he

/-- What an addition does to the entries and what is remembered of them. -/
theorem Invariant.added {removed_id : Int32}
    (hadded : Added keys removed_id expires key value s.cache (result, after))
    (live : List (KeyResource α)) :
    (result = .ok () → Invariant keys ⟨after, s.logAddition keys after true expires key, live⟩) ∧
      ∀ error, result = .raise error →
        Invariant keys ⟨after, s.logAddition keys after false expires key, live⟩ := by
  cases hadded with
  | replaced l r e hsplit heq =>
    have hsound := h.sound.setValue hsplit value
    have hfind : s.cache.find keys (-1) key = some e :=
      h.sound.find_eq_some_iff.mpr ⟨by simp [hsplit], heq⟩
    have hafter : find keys (-1) key ⟨l ++ { e with value := value } :: r⟩ =
        some { e with value := value } :=
      hsound.find_eq_some_iff.mpr ⟨by simp, heq⟩
    refine ⟨fun _ => ⟨hsound, ?_⟩, fun error herror => by cases herror⟩
    have htimed := h.timed
    rw [hsplit, forall_mem_append, forall_mem_cons] at htimed
    simp only [logAddition, hfind, hafter, isSome_some, if_true, isNone_some,
      createdAt_replaced]
    exact forall_mem_append.mpr ⟨htimed.1, forall_mem_cons.mpr htimed.2⟩
  | created habsent =>
    have hcons := h.cons habsent value expires true live
    have hafter : find keys (-1) key
        ⟨⟨keys.hash key, -1, key, value, some expires⟩ :: s.cache.value_hash⟩ =
          some ⟨keys.hash key, -1, key, value, some expires⟩ :=
      hcons.sound.find_eq_some_iff.mpr ⟨mem_cons_self, keys.eq_refl key⟩
    refine ⟨fun _ => ?_, fun error herror => by cases herror⟩
    rw [logAddition, hafter, habsent]
    exact hcons
  | failed error habsent =>
    refine ⟨(fun hok => by cases hok), fun _ _ => ?_⟩
    rw [logAddition, habsent]
    exact ⟨h.sound, h.timed⟩
  | unfiled error habsent hremoved =>
    have hcons := h.cons habsent value expires false live
    have hafter : find keys (-1) key
        ⟨⟨keys.hash key, -1, key, value, none⟩ :: s.cache.value_hash⟩ =
          some ⟨keys.hash key, -1, key, value, none⟩ :=
      hcons.sound.find_eq_some_iff.mpr ⟨mem_cons_self, keys.eq_refl key⟩
    refine ⟨(fun hok => by cases hok), fun _ _ => ?_⟩
    rw [logAddition, hafter, habsent]
    exact hcons
  | fault after | outOfFuel after =>
    exact ⟨(fun hok => by cases hok), fun error herror => by cases herror⟩

theorem Invariant.sublist (hsub : after.value_hash.Sublist s.cache.value_hash)
    (live : List (KeyResource α)) : Invariant keys ⟨after, s.log, live⟩ :=
  ⟨h.sound.sublist hsub, fun e he => h.timed e (hsub.subset he)⟩

theorem step_invariant {c : CacheCall α} (hstep : step keys s c = some t) : t.Invariant keys := by
  unfold step at hstep
  rcases hcall : call keys c s.cache with ⟨result, after⟩
  rw [hcall] at hstep
  -- an addition returns or raises an exception
  have hadd : ∀ {removed_id : Int32} {expires : Int64} {key value : α},
      Added keys removed_id expires key value s.cache (result, after) →
      (∀ returned, s.logAfter keys after returned c =
        s.logAddition keys after returned expires key) → t.Invariant keys := by
    intro removed_id expires key value hadded hlog
    obtain ⟨hok, hraise⟩ := h.added hadded t.live
    cases result with
    | ok u =>
      simp only [Option.some.injEq] at hstep
      subst hstep
      rw [hlog]
      exact hok rfl
    | raise error =>
      simp only [Option.some.injEq] at hstep
      subst hstep
      rw [hlog]
      exact hraise error rfl
    | fault => cases hstep
    | outOfFuel => cases hstep
  cases c with
  | addResource expires key value room room_timed =>
    have hadded := h.sound.add_added (-1) expires key value room room_timed
    rw [call, addResource] at hcall
    rw [hcall] at hadded
    exact hadd hadded fun _ => rfl
  | addKeyResource expires key key_id room room_timed =>
    have hadded := h.sound.add_added key_id expires key key room room_timed
    rw [call, addKeyResource] at hcall
    rw [hcall] at hadded
    exact hadd hadded fun _ => rfl
  | findResource key | findKeyResource key key_id =>
    cases hcall
    cases hstep
    exact h.sublist (List.Sublist.refl _) _
  | expire time =>
    obtain ⟨r, c', hexpire, hexpired⟩ := h.sound.expire_spec time
    rw [call, Keeping.lift, hexpire] at hcall
    cases hcall
    cases hstep
    exact h.sublist hexpired.sublist _
  | clean =>
    have hclean : clean keys s.cache = _ := h.sound.cleanFrom_spec le_rfl
    rw [call, Keeping.lift, hclean] at hcall
    cases hcall
    cases hstep
    exact h.sublist filter_sublist _

end

theorem invariant_init : Invariant keys ⟨⟨[]⟩, [], []⟩ where
  sound := ⟨forall_mem_nil _, forall_mem_nil _, List.Pairwise.nil⟩
  timed := forall_mem_nil _

theorem reachable_invariant (h : (machine keys).Reachable s) : s.Invariant keys :=
  h.invariant (Invariant keys) (fun _ hinit => hinit ▸ invariant_init)
    fun _ _ _ hinv hstep => step_invariant hinv hstep

/-- `expire(t)` removes an entry if and only if the latest addition for its key asked for a time at
or before `t`. -/
def ExpiresLatest (keys : KeyFunctions α) (c : ApplicationCache α) (e : ValueHashNode α)
    (latest : Int64) : Prop :=
  ∀ time, ∃ r c', expire keys time c = .ok (r, c') ∧ (e ∉ c'.value_hash ↔ latest ≤ time)

/-- As long as there are not too many entries, those are removed that are filed by `t` or before,
and none if one is filed at `INVAL_TIME`. -/
theorem expiresLatest_iff {e : ValueHashNode α} {x : Int64} (h : c.Sound keys)
    (he : e ∈ c.value_hash) (hsize : c.value_hash.length ≤ max_items) :
    ExpiresLatest keys c e x ↔
      e.timed = some x ∧ ∀ e' ∈ c.value_hash, e'.timed ≠ some Time.invalTime := by
  have hfew : ∀ time, ¬ max_items < (c.value_hash.filter (notDue time)).length := fun time =>
    Nat.not_lt_of_le (le_trans (length_filter_le _ _) hsize)
  constructor
  · intro hexpires
    have hnone : ∀ e' ∈ c.value_hash, e'.timed ≠ some Time.invalTime := by
      intro e' he' htimed
      obtain ⟨r, c', hexpire, hexpired⟩ := h.expire_spec x
      obtain ⟨r', c'', hexpire', hremoved⟩ := hexpires x
      rw [hexpire] at hexpire'
      cases hexpire'
      rw [hexpired.blocked ⟨e', he', htimed⟩] at hremoved
      exact hremoved.mpr (Int64.le_refl x) he
    refine ⟨?_, hnone⟩
    -- at the latest time the entry is removed, and it was filed by then
    have hfiled : ∃ f, e.timed = some f ∧ f ≤ x := by
      obtain ⟨r, c', hexpire, hexpired⟩ := h.expire_spec x
      obtain ⟨r', c'', hexpire', hremoved⟩ := hexpires x
      rw [hexpire] at hexpire'
      cases hexpire'
      obtain ⟨f, hf, hle⟩ := hexpired.reason e he (hremoved.mpr (Int64.le_refl x))
      exact ⟨f, hf, hle.resolve_right (hfew x)⟩
    obtain ⟨f, hf, hle⟩ := hfiled
    obtain ⟨r, c', hexpire, hexpired⟩ := h.expire_spec f
    obtain ⟨r', c'', hexpire', hremoved⟩ := hexpires f
    rw [hexpire] at hexpire'
    cases hexpire'
    have hge : x ≤ f := hremoved.mp fun hmem =>
      Int64.lt_irrefl (hexpired.due hnone e hmem f hf)
    rw [hf, Int64.le_antisymm hle hge]
  · rintro ⟨htimed, hnone⟩ time
    obtain ⟨r, c', hexpire, hexpired⟩ := h.expire_spec time
    refine ⟨r, c', hexpire, fun hnot => ?_, fun hle hmem => ?_⟩
    · obtain ⟨f, hf, hreason⟩ := hexpired.reason e he hnot
      rw [htimed] at hf
      cases hf
      exact hreason.resolve_right (hfew time)
    · exact absurd hle (Int64.not_le.mpr (hexpired.due hnone e hmem x htimed))

/-- An entry expires at the time of the latest addition for its key if and only if the addition that
made it asked for the same time, and none that made an entry asked for `INVAL_TIME`. -/
theorem reachable_expiresLatest_iff (h : (machine keys).Reachable s) {e : ValueHashNode α}
    (he : e ∈ s.cache.value_hash) (hsize : s.cache.value_hash.length ≤ max_items) {x : Int64}
    (hlatest : latest keys s.log e.key = some x) :
    ExpiresLatest keys s.cache e x ↔ createdAt keys s.log e.key = latest keys s.log e.key ∧
      ∀ e' ∈ s.cache.value_hash, createdAt keys s.log e'.key ≠ some Time.invalTime := by
  have hinv := reachable_invariant h
  rw [expiresLatest_iff hinv.sound he hsize, hlatest, hinv.timed e he]
  exact and_congr_right fun _ => forall₂_congr fun e' he' => by rw [hinv.timed e' he']

/-- Numbers as keys. -/
def natKeys : KeyFunctions Nat where
  eq a b := a = b
  hash a := .ofNat 64 a
  eqKey a b _ := a = b
  hashKey a _ := .ofNat 64 a
  eq_refl _ := decide_eq_true rfl
  eq_symm h := decide_eq_true (of_decide_eq_true h).symm
  eq_trans h h' := decide_eq_true ((of_decide_eq_true h).trans (of_decide_eq_true h'))
  hash_eq h := congrArg (BitVec.ofNat 64) (of_decide_eq_true h)

/-- An empty cache. -/
def fresh : CacheSession Nat := ⟨⟨[]⟩, [], []⟩

/-- The cache after a resource was added. -/
def once : CacheSession Nat where
  cache := ⟨[⟨7, -1, 7, 1, some 5⟩]⟩
  log := [⟨7, 5, true, true⟩]
  live := []

theorem reachable_once : (machine natKeys).Reachable once := by
  have hstep : (machine natKeys).step fresh (.addResource 5 7 1 true true) = some once := by
    decide
  exact (Machine.ReachableWith.init rfl).next trivial hstep

/-- A resource that was added twice for the same time expires then, and one that was added between
at its own. -/
theorem again_expiresLatest : ∃ s, (machine natKeys).Reachable s ∧
    ExpiresLatest natKeys s.cache ⟨7, -1, 7, 2, some 5⟩ 5 ∧
      ExpiresLatest natKeys s.cache ⟨8, -1, 8, 3, some 9⟩ 9 := by
  let calls : List (CacheCall Nat) :=
    [.addResource 5 7 1 true true, .addResource 9 8 3 true true, .addResource 5 7 2 true true]
  let s := ((machine natKeys).execute fresh calls).get (by decide)
  have hs : (machine natKeys).Reachable s :=
    ⟨fresh, calls, rfl, Machine.run_of_execute (some_get _).symm⟩
  refine ⟨s, hs, ?_, ?_⟩
  · exact (reachable_expiresLatest_iff hs (by decide) (by decide) (by decide)).mpr (by decide)
  · exact (reachable_expiresLatest_iff hs (by decide) (by decide) (by decide)).mpr (by decide)

/-- The cache after the same resource was added once more, for a longer time. -/
def twice : CacheSession Nat where
  cache := ⟨[⟨7, -1, 7, 2, some 5⟩]⟩
  log := [⟨7, 10, false, true⟩, ⟨7, 5, true, true⟩]
  live := []

/-- It expires at the time of the first addition. -/
theorem twice_not_expiresLatest : (machine natKeys).Reachable twice ∧
    latest natKeys twice.log 7 = some 10 ∧
      ¬ ExpiresLatest natKeys twice.cache ⟨7, -1, 7, 2, some 5⟩ 10 := by
  have hstep : (machine natKeys).step once (.addResource 10 7 2 true true) = some twice := by
    decide
  refine ⟨Machine.ReachableWith.next reachable_once trivial hstep, by decide, ?_⟩
  intro hexpires
  obtain ⟨r, c', hexpire, hremoved⟩ := hexpires 5
  have hempty : expire natKeys 5 twice.cache = .ok (Time.invalTime, ⟨[]⟩) := by decide
  rw [hempty] at hexpire
  cases hexpire
  exact absurd (hremoved.mp not_mem_nil) (by decide)

/-- A resource has an entry, which is not filed before the time that was asked for. -/
def HasEntry (keys : KeyFunctions α) (c : ApplicationCache α) (r : KeyResource α) : Prop :=
  r.key_id = -1 ∧ ∃ e ∈ c.value_hash, keys.eq e.key r.key ∧ e.value = r.key ∧
    ∃ f, e.timed = some f ∧ r.expires ≤ f

/-- The resources have entries. -/
def Live (keys : KeyFunctions α) (s : CacheSession α) : Prop :=
  ∀ r ∈ s.live, HasEntry keys s.cache r

/-- Under the number -1, a resource that is not asked for has a different key. -/
theorem not_eq_of_hasKey (hid : r.key_id = -1) (hkey : (!hasKey keys (-1) key r) = true) :
    ¬ keys.eq r.key key := by
  intro heq
  have hhas : hasKey keys (-1) key r = true := by
    rw [hasKey, decide_eq_true_iff, if_pos (by decide)]
    exact ⟨hid, heq⟩
  rw [hhas] at hkey
  cases hkey

/-- The entries of resources with other keys are not changed by an addition. -/
theorem HasEntry.added {removed_id : Int32} (h : HasEntry keys c r) (hne : ¬ keys.eq r.key key)
    (hadded : Added keys removed_id expires key value c (result, after))
    (hresult : result = .ok ()) :
    HasEntry keys after r := by
  obtain ⟨hid, e', he', heq', hvalue, hfiled⟩ := h
  refine ⟨hid, e', ?_, heq', hvalue, hfiled⟩
  cases hadded with
  | replaced l r' e hsplit heq =>
    rw [hsplit, mem_append, mem_cons] at he'
    obtain hl | rfl | hr := he'
    · exact mem_append_left _ hl
    · exact absurd (keys.eq_trans (keys.eq_symm heq') heq) hne
    · exact mem_append_right _ (mem_cons_of_mem _ hr)
  | created _ => exact mem_cons_of_mem _ he'
  | _ => cases hresult

/-- The resource of a good addition has an entry. -/
theorem hasEntry_new (hsound : c.Sound keys)
    (hgood : ∀ e ∈ c.find keys (-1) key, ∃ t ∈ e.timed, expires ≤ t)
    (hadded : Added keys (-1) expires key key c (result, after)) (hresult : result = .ok ()) :
    HasEntry keys after ⟨-1, key, expires⟩ := by
  refine ⟨rfl, ?_⟩
  cases hadded with
  | replaced l r e hsplit heq =>
    obtain ⟨f, hf, hle⟩ := hgood e (hsound.find_eq_some_iff.mpr ⟨by simp [hsplit], heq⟩)
    exact ⟨{ e with value := key }, by simp, heq, rfl, f, hf, hle⟩
  | created _ =>
    exact ⟨_, mem_cons_self, keys.eq_refl key, rfl, expires, rfl, Int64.le_refl _⟩
  | _ => cases hresult

theorem after_eq_of_raise {error : CacheError}
    (hadded : Added keys (-1) expires key value c (.raise error, after)) : after = c := by
  cases hadded with
  | failed _ _ => rfl
  | unfiled _ _ hremoved => exact absurd rfl hremoved

/-- What does not expire and is not evicted stays. -/
theorem HasEntry.expired {c' : ApplicationCache α} {time : Int64} (h : HasEntry keys c r)
    (hsound : c.Sound keys) (hexpired : Expired time c c') (hlt : time < r.expires)
    (hevicted : ¬ evicted keys time c c' r) : HasEntry keys c' r := by
  obtain ⟨hid, e, he, heq, hvalue, f, hf, hle⟩ := h
  refine ⟨hid, e, ?_, heq, hvalue, f, hf, hle⟩
  by_contra hnot
  have hdue : time < f := Int64.lt_of_lt_of_le hlt hle
  obtain ⟨f', hf', hreason⟩ := hexpired.reason e he hnot
  rw [hf] at hf'
  cases hf'
  have hmany := hreason.resolve_left (Int64.not_le.mpr hdue)
  apply hevicted
  have hfind := hsound.find_eq_some_iff.mpr ⟨he, heq⟩
  have hgone : c'.find keys (-1) r.key = none := by
    rw [eq_none_iff_forall_ne_some]
    intro e' he'
    obtain ⟨hmem, -⟩ := (hsound.sublist hexpired.sublist).find_eq_some_iff.mp he'
    have hsame : c.find keys (-1) r.key = some e' := by
      obtain ⟨-, heq'⟩ := (hsound.sublist hexpired.sublist).find_eq_some_iff.mp he'
      exact hsound.find_eq_some_iff.mpr ⟨hexpired.sublist.subset hmem, heq'⟩
    rw [hfind] at hsame
    cases hsame
    exact hnot hmem
  rw [evicted, hid, hfind, decide_eq_true_iff]
  exact ⟨by rw [notDue, hf, decide_eq_true_iff]; exact hdue, hgone, hmany⟩

theorem step_live {c : CacheCall α} (h : s.Invariant keys) (hlive : s.Live keys)
    (hgood : Good keys s c) (hstep : step keys s c = some t) : t.Live keys := by
  unfold step at hstep
  rcases hcall : call keys c s.cache with ⟨result, after⟩
  rw [hcall] at hstep
  cases c with
  | addResource expires key value room room_timed =>
    have hadded := h.sound.add_added (-1) expires key value room room_timed
    rw [call, addResource] at hcall
    rw [hcall] at hadded
    cases result with
    | ok u =>
      cases hstep
      intro r hr
      rw [liveAfter, if_pos rfl, mem_filter] at hr
      have hentry := hlive r hr.1
      exact hentry.added (not_eq_of_hasKey hentry.1 hr.2) hadded rfl
    | raise error =>
      cases hstep
      obtain rfl := after_eq_of_raise hadded
      exact hlive
    | _ => cases hstep
  | addKeyResource expires key key_id room room_timed =>
    obtain ⟨rfl, hfiled⟩ := hgood
    have hadded := h.sound.add_added (-1) expires key key room room_timed
    rw [call, addKeyResource] at hcall
    rw [hcall] at hadded
    cases result with
    | ok u =>
      cases hstep
      intro r hr
      rw [liveAfter, if_pos rfl, mem_cons, mem_filter] at hr
      obtain rfl | hr := hr
      · exact hasEntry_new h.sound hfiled hadded rfl
      · have hentry := hlive r hr.1
        exact hentry.added (not_eq_of_hasKey hentry.1 hr.2) hadded rfl
    | raise error =>
      cases hstep
      obtain rfl := after_eq_of_raise hadded
      exact hlive
    | _ => cases hstep
  | findResource key | findKeyResource key key_id =>
    cases hcall
    cases hstep
    exact hlive
  | expire time =>
    obtain ⟨r, c', hexpire, hexpired⟩ := h.sound.expire_spec time
    rw [call, Keeping.lift, hexpire] at hcall
    cases hcall
    cases hstep
    intro r' hr'
    rw [liveAfter, mem_filter, decide_eq_true_iff] at hr'
    exact (hlive r' hr'.1).expired h.sound hexpired hr'.2.1 hr'.2.2
  | clean =>
    have hclean : clean keys s.cache = _ := h.sound.cleanFrom_spec le_rfl
    rw [call, Keeping.lift, hclean] at hcall
    cases hcall
    cases hstep
    exact forall_mem_nil _

/-- In every run whose calls of `addKeyResource` use the number -1 and do not extend a stay, a
resource that did not expire and was neither evicted nor replaced is found under its number, and
under no other one. -/
theorem reachable_found (h : (machine keys).ReachableWith (Good keys) s) {r : KeyResource α}
    (hr : r ∈ s.live) :
    findKeyResource keys r.key r.key_id s.cache = some r.key ∧
      ∀ key_id, key_id ≠ r.key_id → findKeyResource keys r.key key_id s.cache = none := by
  have hinv : s.Invariant keys ∧ s.Live keys := by
    refine h.invariant (fun s => s.Invariant keys ∧ s.Live keys) ?_ ?_
    · rintro s rfl
      exact ⟨invariant_init, forall_mem_nil _⟩
    · intro s c t hinv hgood hstep
      exact ⟨step_invariant hinv.1 hstep, step_live hinv.1 hinv.2 hgood hstep⟩
  obtain ⟨hinv, hlive⟩ := hinv
  obtain ⟨hid, e, he, heq, hvalue, -⟩ := hlive r hr
  refine ⟨?_, fun key_id hne => ?_⟩
  · rw [findKeyResource, hid, hinv.sound.find_eq_some_iff.mpr ⟨he, heq⟩, map_some, hvalue]
  · rw [hid] at hne
    rw [findKeyResource, hinv.sound.find_eq_none hne, map_none]

instance (s : CacheSession Nat) : ∀ c, Decidable (Good natKeys s c)
  | .addKeyResource expires key key_id _ _ => inferInstanceAs (Decidable (key_id = -1 ∧
      ∀ e ∈ s.cache.find natKeys (-1) key, ∃ t ∈ e.timed, expires ≤ t))
  | .addResource .. | .findResource _ | .findKeyResource .. | .expire _ | .clean => isTrue trivial

/-- Three resources are added, and one of them again for as long. When the first has expired, this
one is found under its number and under no other. -/
theorem readded_found : ∃ s, (machine natKeys).ReachableWith (Good natKeys) s ∧
    s.cache.value_hash.map ValueHashNode.key = [3, 8] ∧
    findKeyResource natKeys 8 (-1) s.cache = some 8 ∧ findKeyResource natKeys 8 3 s.cache = none := by
  let calls : List (CacheCall Nat) := [.addKeyResource 5 7 (-1) true true,
    .addKeyResource 6 8 (-1) true true, .addResource 9 3 1 true true,
    .addKeyResource 6 8 (-1) true true, .expire 5]
  let s := ((machine natKeys).executeWith (Good natKeys) fresh calls).get (by decide)
  have hs : (machine natKeys).ReachableWith (Good natKeys) s :=
    ⟨fresh, calls, rfl, Machine.run_of_executeWith (some_get _).symm⟩
  have hfound := reachable_found hs (r := ⟨-1, 8, 6⟩) (by decide)
  exact ⟨s, hs, by decide, hfound.1, hfound.2 3 (by decide)⟩

/-- The cache after a resource was added under another number. -/
def numbered : CacheSession Nat where
  cache := ⟨[⟨7, -1, 7, 7, some 5⟩]⟩
  log := [⟨7, 5, true, true⟩]
  live := [⟨3, 7, 5⟩]

/-- It is not found under its number, but under -1. -/
theorem numbered_not_found : (machine natKeys).Reachable numbered ∧
    findKeyResource natKeys 7 3 numbered.cache = none ∧
      findKeyResource natKeys 7 (-1) numbered.cache = some 7 := by
  have hstep : (machine natKeys).step fresh (.addKeyResource 5 7 3 true true) = some numbered := by
    decide
  exact ⟨(Machine.ReachableWith.init rfl).next trivial hstep, by decide,
    by decide⟩

end CacheSession

end Drt
