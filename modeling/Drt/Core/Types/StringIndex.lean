import Drt.Core.Types.StringPurity
import Drt.Core.Base.Exception
import Drt.Lib.Fuel

/-!
# The index of strings

`StringIndex` finds the place of a string in a list of names. The names are in chains that hang
in the slots of a table; table and chain elements are one allocation. The constructors collect
pointers to the names, which for a variable number of arguments takes an array that grows.
-/

open List Function Outcome

namespace Drt

namespace StringData

/-- Data after hash values have been computed and strings compared. -/
structure Warmed (s s' : StringData) : Prop where
  views : s'.views = s.views ∨ s'.views = s.views.updateWide
  hash : s'.getHash.1 = s.getHash.1

/-- Wide characters that are made of octets take the place of the octets in a comparison. -/
theorem compareViews_updateWide {v v' : StringViews} (h : v.length = v'.length) :
    (compareViews v.updateWide v').1 = true ↔ (compareViews v v').1 = true := by
  cases v with
  | wide w => rfl
  | both b w hlength => rfl
  | bytes b =>
    cases v' with
    | bytes b' => rfl
    | both b' w hlength => rfl
    | wide w =>
      change b.length = w.length at h
      change decide (b.map widenOctet = w) = true ↔ _
      unfold compareViews
      dsimp only
      split_ifs with hempty
      · have hw : w = [] := length_eq_zero_iff.mp (h ▸ hempty)
        rw [length_eq_zero_iff.mp hempty, hw]
        exact ⟨fun _ => rfl, fun _ => rfl⟩
      · rfl

theorem length_updateWide (v : StringViews) : v.updateWide.length = v.length := by
  cases v <;> rfl

/-- Strings compare the same before and after. -/
theorem beq_warmed {s s' t t' : StringData} (hs : Warmed s s') (ht : Warmed t t') :
    (s'.beq t').1 = (s.beq t).1 := by
  have hlength : ∀ {r r' : StringData}, Warmed r r' → r'.views.length = r.views.length := by
    intro r r' hr
    rcases hr.views with h | h <;> rw [h]
    exact length_updateWide r.views
  rw [Bool.eq_iff_iff, StringText.beq_eq_true, StringText.beq_eq_true, hs.hash, ht.hash,
    hlength hs, hlength ht]
  refine and_congr_right fun _ => and_congr_right fun heq => ?_
  have hleft : (compareViews s'.views t'.views).1 = true ↔
      (compareViews s.views t'.views).1 = true := by
    rcases hs.views with h | h <;> rw [h]
    exact compareViews_updateWide (heq.trans (hlength ht).symm)
  rw [hleft, StringText.compareViews_comm (heq.trans (hlength ht).symm),
    StringText.compareViews_comm heq]
  rcases ht.views with h | h <;> rw [h]
  exact compareViews_updateWide heq.symm

theorem updateWide_updateWide (v : StringViews) : v.updateWide.updateWide = v.updateWide := by
  cases v <;> rfl

theorem Warmed.trans {s s' s'' : StringData} (h : Warmed s s') (h' : Warmed s' s'') :
    Warmed s s'' := by
  refine ⟨?_, h'.hash.trans h.hash⟩
  rcases h'.views with hv' | hv' <;> rw [hv']
  · exact h.views
  · right
    rcases h.views with hv | hv <;> rw [hv]
    exact updateWide_updateWide s.views

/-- Representations that stay or get wide characters, with a hash value. -/
theorem warmed_compared {s : StringData} {v : StringViews}
    (h : v = s.views ∨ v = s.views.updateWide) : Warmed s ⟨v, s.getHash.2.hash⟩ := by
  refine ⟨h, ?_⟩
  have hkept : s.getHash.2.hash = some s.getHash.1 := by
    unfold getHash
    cases hs : s.hash with
    | none => rfl
    | some hash => exact hs
  rw [hkept]
  rfl

theorem warmed_getHash (s : StringData) : Warmed s s.getHash.2 := by
  have h := warmed_compared (s := s) (.inl rfl)
  rwa [← s.getHash_views] at h

theorem warmed_beq (s s' : StringData) :
    Warmed s (s.beq s').2.1 ∧ Warmed s' (s.beq s').2.2 := by
  obtain ⟨hleft, hright⟩ := compareViews_views s.views s'.views
  unfold beq
  dsimp only
  split_ifs
  · exact ⟨s.warmed_getHash, s'.warmed_getHash⟩
  · exact ⟨s.warmed_getHash, s'.warmed_getHash⟩
  · exact ⟨warmed_compared hleft, warmed_compared hright⟩

end StringData

namespace DataOfStrings

open StringData

/-- What an index does with strings, `getHash` and `==`, leaves their results as they are; so the
data before stand for those after. -/
theorem warmed_observe (h : DataOfStrings) {o : StringObserver}
    (ho : (∃ i, o = .getHash i) ∨ ∃ i j, o = .eq i j) (k : Nat) :
    Warmed (h k) (h.observe o k) := by
  have hrefl : ∀ k, Warmed (h k) (h k) := fun k => ⟨.inl rfl, rfl⟩
  rcases ho with ⟨i, rfl⟩ | ⟨i, j, rfl⟩
  · unfold observe
    dsimp only
    by_cases hk : k = i
    · subst hk
      rw [update_self]
      exact (h k).warmed_getHash
    · rw [update_of_ne hk]
      exact hrefl k
  · unfold observe
    dsimp only
    split_ifs with hij
    · exact hrefl k
    · obtain ⟨hleft, hright⟩ := warmed_beq (h i) (h j)
      by_cases hk : k = j
      · subst hk
        rwa [update_self]
      · rw [update_of_ne hk]
        by_cases hk' : k = i
        · subst hk'
          rwa [update_self]
        · rw [update_of_ne hk']
          exact hrefl k

/-- So it is for a run of them. -/
theorem eq_of_looked (h : DataOfStrings) {run : List StringObserver}
    (hrun : ∀ o ∈ run, (∃ i, o = .getHash i) ∨ ∃ i j, o = .eq i j) (i j : Nat) :
    (h.observeAll run).getHash i = h.getHash i ∧ (h.observeAll run).eq i j = h.eq i j := by
  have hwarmed : ∀ k, Warmed (h k) (h.observeAll run k) := by
    induction run generalizing h with
    | nil => exact fun k => ⟨.inl rfl, rfl⟩
    | cons o run ih =>
      intro k
      have hfirst := h.warmed_observe (hrun o mem_cons_self) k
      exact hfirst.trans (ih (h.observe o) (fun o' ho' => hrun o' (mem_cons_of_mem o ho')) k)
  refine ⟨(hwarmed i).hash, ?_⟩
  unfold eq
  rw [beq_warmed (hwarmed i) (hwarmed j)]

end DataOfStrings

/-- `StringIndex::element`; the next one is given by its place in the pool. -/
structure IndexElement where
  index : Int
  str : Nat
  next : Option Nat

/-- `StringIndex`: the slots, the elements behind them and the mask. Without names `hash_list` is
the address of the mask, which is a slot with a null pointer. -/
structure StringIndex where
  hash_list : List (Option Nat)
  pool : List IndexElement
  hash_mask : Nat

namespace StringIndex

/-- The loop over `ep` or `e`: the first element of a chain with such a string. -/
def seek (t : StringIndex) (same : Nat → Bool) : Nat → Option Nat → Call (Option Nat)
  | 0, _ => .outOfFuel
  | _ + 1, none => .ok none
  | fuel + 1, some p => do
    let e ← Outcome.ofOption t.pool[p]?
    if same e.str then .ok (some p) else seek t same fuel e.next

/-- The slot of a string. -/
def slotOf (t : StringIndex) (h : DataOfStrings) (s : Nat) : Nat :=
  (h.getHash s).toNat &&& t.hash_mask

/-- `find`: by the data of the strings first, then with `==`. -/
def find (t : StringIndex) (h : DataOfStrings) (fuel : Nat) (s : Nat) : Call Int := do
  let head ← Outcome.ofOption t.hash_list[t.slotOf h s]?
  match ← t.seek (fun str => str = s) fuel head with
  | some p => do
    let e ← Outcome.ofOption t.pool[p]?
    .ok e.index
  | none =>
    match ← t.seek (fun str => h.eq str s) fuel head with
    | some p => do
      let e ← Outcome.ofOption t.pool[p]?
      .ok e.index
    | none => .ok (-1)

/-- The loop that takes the lowest bits off `hash_mask`. -/
def clearBits : Nat → Nat → Call Nat
  | 0, _ => .outOfFuel
  | fuel + 1, hash_mask =>
    if hash_mask &&& (hash_mask - 1) ≠ 0 then clearBits fuel (hash_mask &&& (hash_mask - 1))
    else .ok hash_mask

/-- A pass of the loop of `init`: the string replaces one that is equal, or gets the next element
of the pool, in front of its chain. The pool has room for `size` elements. -/
def insert (t : StringIndex) (h : DataOfStrings) (fuel size : Nat) (index : Option Int)
    (str : Nat) : Call StringIndex := do
  let head ← Outcome.ofOption t.hash_list[t.slotOf h str]?
  match ← t.seek (fun s => h.eq s str) fuel head with
  | some p => .ok { t with pool := t.pool.modify p fun e => { e with str := str } }
  | none =>
    if t.pool.length < size then do
      let index ← Outcome.ofOption index
      .ok { t with
        pool := t.pool ++ [⟨index, str, head⟩]
        hash_list := t.hash_list.set (t.slotOf h str) (some t.pool.length) }
    else .fault

/-- The loop of `init`, from the last name to the first. Reading a pointer or a value that was
never stored is a fault. -/
def fill (h : DataOfStrings) (fuel size : Nat) (strs : List (Option Nat))
    (value : Nat → Option Int) : Nat → StringIndex → Call StringIndex
  | 0, t => .ok t
  | count + 1, t => do
    let str ← Outcome.ofOption strs[count]?.join
    let t ← t.insert h fuel size (value count) str
    fill h fuel size strs value count t

/-- `init`, of pointers to strings: a string is given by the number of its data. The memory for
slots and elements is there. -/
def init (h : DataOfStrings) (fuel count : Nat) (strs : List (Option Nat))
    (value : Nat → Option Int) : Call StringIndex :=
  if 3 * count = 0 then .ok ⟨[none], [], 0⟩
  else do
    let slots ← clearBits fuel (3 * count)
    fill h fuel count strs value count ⟨List.replicate slots none, [], slots - 1⟩

/-- `StringIndex(size_t count, const String *const *strs)`. -/
def ofPointers (h : DataOfStrings) (fuel : Nat) (strs : List Nat) : Call StringIndex :=
  init h fuel strs.length (strs.map some) fun i => some (i : Int)

/-- `StringIndex(size_t count, const String *strs)`. -/
def ofArray (h : DataOfStrings) (fuel : Nat) (strs : List Nat) : Call StringIndex :=
  if strs.length = 0 then init h fuel 0 [] fun _ => none
  else init h fuel strs.length (strs.map some) fun i => some (i : Int)

/-- The memory that `alloca` gives. -/
def alloca (α : Type) (n : Nat) : List (Option α) := List.replicate n none

/-- The array for twice as many arguments; what the former one holds is copied by one of the two
constructors only. -/
def grown {α : Type} (copies : Bool) (s : List (Option α)) (count : Nat) : List (Option α) :=
  if copies then s.take count ++ alloca α (count * 2 - count) else alloca α (count * 2)

/-- The loop over the arguments. -/
def collect {α : Type} (copies : Bool) : List α → Nat → List (Option α) →
    Call (List (Option α) × Nat)
  | [], count, s => .ok (s, count)
  | arg :: args, count, s =>
    let s := if count &&& (count - 1) = 0 ∧ 32 ≤ count then grown copies s count else s
    if count < s.length then collect copies args (count + 1) (s.set count (some arg)) else .fault

/-- `StringIndex(const String *str0, const String *str1, ...)`, of the arguments before the null
pointer. -/
def ofArguments (h : DataOfStrings) (fuel : Nat) : List Nat → Call StringIndex
  | [] => init h fuel 0 [] fun _ => none
  | [str0] => init h fuel 1 [some str0] fun i => some (i : Int)
  | str0 :: str1 :: args => do
    let (s, count) ← collect false args 2 (((alloca Nat 32).set 0 (some str0)).set 1 (some str1))
    init h fuel count s fun i => some (i : Int)

/-- `StringIndex(const String *str0, long value0, ...)`. -/
def ofValues (h : DataOfStrings) (fuel : Nat) : List (Nat × Int) → Call StringIndex
  | [] => init h fuel 0 [] fun _ => none
  | (str0, value0) :: args => do
    let (s, count) ← collect true (args.map Prod.fst) 1 ((alloca Nat 32).set 0 (some str0))
    let (l, _) ← collect true (args.map Prod.snd) 1 ((alloca Int 32).set 0 (some value0))
    init h fuel count s fun i => l[i]?.join

section Walks

variable {t t' : StringIndex} {h : DataOfStrings} {head : Option Nat} {es : List IndexElement}
  {e : IndexElement} {s : Nat}

/-- Following the chain from an element goes through these ones, to the end. -/
def Walks (t : StringIndex) : Option Nat → List IndexElement → Prop
  | head, [] => head = none
  | head, e :: es => ∃ p, head = some p ∧ t.pool[p]? = some e ∧ Walks t e.next es

/-- More elements in the pool do not matter to a chain. -/
theorem Walks.mono {more : List IndexElement} (hw : t.Walks head es)
    (hpool : t'.pool = t.pool ++ more) : t'.Walks head es := by
  induction es generalizing head with
  | nil => exact hw
  | cons e es ih =>
    obtain ⟨p, hp, he, hrest⟩ := hw
    refine ⟨p, hp, ?_, ih hrest⟩
    rw [hpool, List.getElem?_append_left (List.getElem?_eq_some_iff.mp he).1]
    exact he

theorem Walks.push (hw : t.Walks head es) (hnext : e.next = head)
    (hpool : t'.pool = t.pool ++ [e]) : t'.Walks (some t.pool.length) (e :: es) := by
  refine ⟨t.pool.length, rfl, ?_, hnext ▸ hw.mono hpool⟩
  rw [hpool]
  exact List.getElem?_concat_length

/-- A chain without such a string is gone through to its end. -/
theorem seek_none (same : Nat → Bool) (hw : t.Walks head es)
    (hsame : ∀ e ∈ es, same e.str = false) :
    Outcome.Returns (fun fuel => t.seek same fuel head) none := by
  induction es generalizing head with
  | nil =>
    obtain rfl : head = none := hw
    exact .of_succ_ok fun fuel => rfl
  | cons e es ih =>
    obtain ⟨p, rfl, he, hrest⟩ := hw
    refine .of_succ (ih hrest fun e' he' => hsame e' (mem_cons_of_mem e he')) fun fuel => ?_
    rw [seek, he, ofOption_some, ok_bind, hsame e mem_cons_self]
    rfl

/-- The search in a chain with such a string ends at the first one. -/
theorem seek_some (same : Nat → Bool) (hw : t.Walks head es)
    (hsame : ∃ e ∈ es, same e.str = true) :
    ∃ p, Outcome.Returns (fun fuel => t.seek same fuel head) (some p) ∧
      ∃ e ∈ es, t.pool[p]? = some e ∧ same e.str = true := by
  induction es generalizing head with
  | nil =>
    obtain ⟨e, he, -⟩ := hsame
    cases he
  | cons e es ih =>
    obtain ⟨p, rfl, he, hrest⟩ := hw
    by_cases hfirst : same e.str = true
    · refine ⟨p, .of_succ_ok fun fuel => ?_, e, mem_cons_self, he, hfirst⟩
      rw [seek, he, ofOption_some, ok_bind, hfirst, if_pos rfl]
    · have hlater : ∃ e ∈ es, same e.str = true := by
        obtain ⟨e', he', hsame'⟩ := hsame
        rcases mem_cons.mp he' with rfl | hmem
        · exact absurd hsame' hfirst
        · exact ⟨e', hmem, hsame'⟩
      obtain ⟨q, hrun, e', he', hq, hsame'⟩ := ih hrest hlater
      refine ⟨q, .of_succ hrun fun fuel => ?_, e', mem_cons_of_mem e he', hq, hsame'⟩
      rw [seek, he, ofOption_some, ok_bind, if_neg hfirst]

/-- The table holds these strings with their indexes: each slot has the chain of those that belong
to it. -/
structure Holds (t : StringIndex) (h : DataOfStrings) (entries : List (Int × Nat)) : Prop where
  /-- There is a slot for each masked hash value. -/
  slots : t.hash_list.length = t.hash_mask + 1
  /-- The elements that have been taken. -/
  taken : t.pool.length = entries.length
  /-- The chains. -/
  chain : ∀ slot head, t.hash_list[slot]? = some head → ∃ es, t.Walks head es ∧
    ∀ index str, (∃ e ∈ es, e.index = index ∧ e.str = str) ↔
      (index, str) ∈ entries ∧ t.slotOf h str = slot

variable {entries : List (Int × Nat)}

theorem Holds.slot (ht : t.Holds h entries) (s : Nat) :
    ∃ head, t.hash_list[t.slotOf h s]? = some head := by
  have hlt : t.slotOf h s < t.hash_list.length := by
    rw [ht.slots]
    exact Nat.lt_succ_of_le Nat.and_le_right
  exact ⟨_, List.getElem?_eq_getElem hlt⟩

theorem slotOf_eq {s' : Nat} (heq : h.eq s s' = true) : t.slotOf h s = t.slotOf h s' := by
  have hhash : h.getHash s = h.getHash s' := by
    unfold DataOfStrings.eq at heq
    split_ifs at heq with hsame
    · rw [hsame]
    · exact (StringText.beq_eq_true.mp heq).1.symm
  rw [slotOf, slotOf, hhash]

section

variable (ht : t.Holds h entries)
include ht

/-- A string that is equal to none of the table gets an element of its own. -/
theorem Holds.insert {size str : Nat} (index : Int) (hroom : entries.length < size)
    (hnew : ∀ entry ∈ entries, h.eq entry.2 str = false) :
    ∃ t', Outcome.Returns (fun fuel => t.insert h fuel size (some index) str) t' ∧
      t'.Holds h ((index, str) :: entries) := by
  obtain ⟨head, hhead⟩ := ht.slot str
  obtain ⟨es, hw, hes⟩ := ht.chain _ head hhead
  have hnone : ∀ e ∈ es, h.eq e.str str = false := by
    intro e he
    exact hnew (e.index, e.str) ((hes e.index e.str).mp ⟨e, he, rfl, rfl⟩).1
  generalize ht' : ({ t with
    pool := t.pool ++ [⟨index, str, head⟩]
    hash_list := t.hash_list.set (t.slotOf h str) (some t.pool.length) } : StringIndex) = t'
  have hpool : t'.pool = t.pool ++ [⟨index, str, head⟩] := by rw [← ht']
  have hlist : t'.hash_list = t.hash_list.set (t.slotOf h str) (some t.pool.length) := by
    rw [← ht']
  have hmask : t'.hash_mask = t.hash_mask := by rw [← ht']
  have hslot : ∀ s, t'.slotOf h s = t.slotOf h s := by
    intro s
    rw [slotOf, slotOf, hmask]
  refine ⟨t', ?_, ?_, ?_, ?_⟩
  · unfold StringIndex.insert
    simp only [hhead, ofOption_some, ok_bind]
    refine (seek_none (fun s => h.eq s str) hw hnone).bind (.of_eq fun fuel => ?_)
    rw [← ht']
    exact if_pos (ht.taken ▸ hroom)
  · rw [hlist, hmask, length_set, ht.slots]
  · rw [hpool, length_append, ht.taken]
    rfl
  · intro slot head' hhead'
    rw [hlist] at hhead'
    by_cases hmine : slot = t.slotOf h str
    · subst hmine
      rw [List.getElem?_set_self (List.getElem?_eq_some_iff.mp hhead).1] at hhead'
      cases hhead'
      refine ⟨_, hw.push rfl hpool, fun index' str' => ?_⟩
      rw [hslot, mem_cons, Prod.mk.injEq, exists_mem_cons_iff, hes]
      constructor
      · rintro (⟨rfl, rfl⟩ | ⟨hmem, hplace⟩)
        · exact ⟨.inl ⟨rfl, rfl⟩, rfl⟩
        · exact ⟨.inr hmem, hplace⟩
      · rintro ⟨⟨rfl, rfl⟩ | hmem, hplace⟩
        · exact .inl ⟨rfl, rfl⟩
        · exact .inr ⟨hmem, hplace⟩
    · rw [List.getElem?_set_ne (Ne.symm hmine)] at hhead'
      obtain ⟨es', hw', hes'⟩ := ht.chain slot head' hhead'
      refine ⟨es', hw'.mono hpool, fun index' str' => ?_⟩
      rw [hslot, hes', mem_cons, Prod.mk.injEq]
      constructor
      · rintro ⟨hmem, hplace⟩
        exact ⟨.inr hmem, hplace⟩
      · rintro ⟨⟨rfl, rfl⟩ | hmem, hplace⟩
        · exact absurd hplace.symm hmine
        · exact ⟨hmem, hplace⟩

/-- A string of the table is found by its data. -/
theorem Holds.find_self {index : Int} (hmem : (index, s) ∈ entries)
    (honly : ∀ index', (index', s) ∈ entries → index' = index) :
    Outcome.Returns (fun fuel => t.find h fuel s) index := by
  obtain ⟨head, hhead⟩ := ht.slot s
  obtain ⟨es, hw, hes⟩ := ht.chain _ head hhead
  obtain ⟨e, he, -, hstr⟩ := (hes index s).mpr ⟨hmem, rfl⟩
  obtain ⟨p, hrun, e', he', hp, hsame⟩ :=
    seek_some (fun str => str = s) hw ⟨e, he, decide_eq_true hstr⟩
  have hindex : e'.index = index :=
    honly e'.index ((hes e'.index s).mp ⟨e', he', rfl, of_decide_eq_true hsame⟩).1
  unfold StringIndex.find
  simp only [hhead, ofOption_some, ok_bind]
  refine hrun.bind (.of_eq fun fuel => ?_)
  simp only [hp, ofOption_some, ok_bind, hindex]

/-- A string that is equal to one of the table is found, by way of one it is equal to. -/
theorem Holds.find_equal (hequal : ∃ entry ∈ entries, h.eq entry.2 s = true) :
    ∃ entry ∈ entries, h.eq entry.2 s = true ∧
      Outcome.Returns (fun fuel => t.find h fuel s) entry.1 := by
  obtain ⟨head, hhead⟩ := ht.slot s
  obtain ⟨es, hw, hes⟩ := ht.chain _ head hhead
  have hentry : ∀ e ∈ es, (e.index, e.str) ∈ entries := fun e he =>
    ((hes e.index e.str).mp ⟨e, he, rfl, rfl⟩).1
  unfold StringIndex.find
  simp only [hhead, ofOption_some, ok_bind]
  by_cases hself : ∃ e ∈ es, decide (e.str = s) = true
  · obtain ⟨p, hrun, e, he, hp, hsame⟩ := seek_some (fun str => str = s) hw hself
    refine ⟨(e.index, e.str), hentry e he, ?_, hrun.bind (.of_eq fun fuel => ?_)⟩
    · exact if_pos (of_decide_eq_true hsame)
    · simp only [hp, ofOption_some, ok_bind]
  · have hnone : ∀ e ∈ es, decide (e.str = s) = false := by
      intro e he
      rw [decide_eq_false_iff_not]
      exact fun hstr => hself ⟨e, he, decide_eq_true hstr⟩
    obtain ⟨entry, hmem, heq⟩ := hequal
    obtain ⟨e, he, -, hstr⟩ := (hes entry.1 entry.2).mpr ⟨hmem, slotOf_eq heq⟩
    obtain ⟨p, hrun, e', he', hp, hsame⟩ :=
      seek_some (fun str => h.eq str s) hw ⟨e, he, hstr ▸ heq⟩
    refine ⟨(e'.index, e'.str), hentry e' he', hsame,
      (seek_none (fun str => str = s) hw hnone).bind (hrun.bind (.of_eq fun fuel => ?_))⟩
    simp only [hp, ofOption_some, ok_bind]

/-- Any other string is not found. -/
theorem Holds.find_other (hother : ∀ entry ∈ entries, h.eq entry.2 s = false) :
    Outcome.Returns (fun fuel => t.find h fuel s) (-1) := by
  obtain ⟨head, hhead⟩ := ht.slot s
  obtain ⟨es, hw, hes⟩ := ht.chain _ head hhead
  have hnone : ∀ e ∈ es, h.eq e.str s = false := fun e he =>
    hother (e.index, e.str) ((hes e.index e.str).mp ⟨e, he, rfl, rfl⟩).1
  have hself : ∀ e ∈ es, decide (e.str = s) = false := by
    intro e he
    rw [decide_eq_false_iff_not]
    intro hstr
    have htrue : h.eq e.str s = true := if_pos hstr
    rw [hnone e he] at htrue
    cases htrue
  unfold StringIndex.find
  simp only [hhead, ofOption_some, ok_bind]
  exact (seek_none (fun str => str = s) hw hself).bind
    ((seek_none (fun str => h.eq str s) hw hnone).bind (.ok (-1)))

end

end Walks

section Building

variable {h : DataOfStrings} {names : List Nat} {pairs : List (Int × Nat)}

/-- Taking the lowest bits off ends, with one bit left. -/
theorem clearBits_returns {hash_mask : Nat} (hpos : hash_mask ≠ 0) :
    ∃ slots, Outcome.Returns (fun fuel => clearBits fuel hash_mask) slots ∧ slots ≠ 0 := by
  induction hash_mask using Nat.strongRecOn with
  | ind hash_mask ih =>
    by_cases hmore : hash_mask &&& (hash_mask - 1) ≠ 0
    · have hless : hash_mask &&& (hash_mask - 1) < hash_mask := by
        have hle : hash_mask &&& (hash_mask - 1) ≤ hash_mask - 1 := Nat.and_le_right
        omega
      obtain ⟨slots, hrun, hslots⟩ := ih _ hless hmore
      exact ⟨slots, .of_succ hrun fun fuel => if_pos hmore, hslots⟩
    · exact ⟨hash_mask, .of_succ_ok fun fuel => if_neg hmore, hpos⟩

theorem eq_comm (h : DataOfStrings) (s s' : Nat) : h.eq s s' = h.eq s' s := by
  unfold DataOfStrings.eq
  by_cases hsame : s = s'
  · rw [if_pos hsame, if_pos hsame.symm]
  · rw [if_neg hsame, if_neg (Ne.symm hsame)]
    exact Bool.eq_iff_iff.mpr (StringText.beq_comm (h s) (h s'))

variable {strs : List (Option Nat)} {value : Nat → Option Int}

/-- The loop of `init` puts all names into the table that are still missing. -/
theorem fill_returns (hdistinct : pairs.Pairwise fun a b => h.eq a.2 b.2 = false) {size : Nat}
    (hsize : pairs.length ≤ size)
    (hstrs : ∀ i (hi : i < pairs.length), strs[i]?.join = some pairs[i].2)
    (hvalue : ∀ i (hi : i < pairs.length), value i = some pairs[i].1) {count : Nat}
    (hcount : count ≤ pairs.length) {t : StringIndex} (ht : t.Holds h (pairs.drop count)) :
    ∃ t', Outcome.Returns (fun fuel => fill h fuel size strs value count t) t' ∧
      t'.Holds h pairs := by
  induction count generalizing t with
  | zero => exact ⟨t, .ok t, ht⟩
  | succ count ih =>
    have hdrop := drop_eq_getElem_cons hcount
    have hnew : ∀ entry ∈ pairs.drop (count + 1), h.eq entry.2 pairs[count].2 = false := by
      intro entry hentry
      have hfront : (pairs.drop count).Pairwise fun a b => h.eq a.2 b.2 = false :=
        hdistinct.sublist (drop_sublist count pairs)
      rw [hdrop, pairwise_cons] at hfront
      rw [eq_comm]
      exact hfront.1 entry hentry
    have hroom : (pairs.drop (count + 1)).length < size := by
      rw [length_drop]
      omega
    obtain ⟨t₁, hinsert, ht₁⟩ := ht.insert pairs[count].1 hroom hnew
    obtain ⟨t', hrun, ht'⟩ := ih (Nat.le_of_succ_le hcount) (t := t₁) (hdrop ▸ ht₁)
    refine ⟨t', (hinsert.bind hrun).congr fun fuel => ?_, ht'⟩
    rw [fill, hstrs count hcount, hvalue count hcount, ofOption_some, ok_bind]

theorem holds_empty (h : DataOfStrings) {slots : Nat} (hslots : slots ≠ 0) :
    Holds ⟨List.replicate slots none, [], slots - 1⟩ h [] := by
  refine ⟨?_, rfl, ?_⟩
  · change (List.replicate slots none).length = slots - 1 + 1
    rw [length_replicate]
    omega
  · intro slot head hhead
    obtain ⟨-, rfl⟩ := mem_replicate.mp (mem_of_getElem? hhead)
    refine ⟨[], rfl, fun index str => ⟨?_, ?_⟩⟩
    · rintro ⟨e, he, -⟩
      cases he
    · rintro ⟨hmem, -⟩
      cases hmem

/-- `init` makes a table of all names. -/
theorem init_returns (hdistinct : pairs.Pairwise fun a b => h.eq a.2 b.2 = false)
    (hstrs : ∀ i (hi : i < pairs.length), strs[i]?.join = some pairs[i].2)
    (hvalue : ∀ i (hi : i < pairs.length), value i = some pairs[i].1) :
    ∃ t, Outcome.Returns (fun fuel => init h fuel pairs.length strs value) t ∧
      t.Holds h pairs := by
  unfold init
  by_cases hnone : 3 * pairs.length = 0
  · have hnil : pairs = [] := length_eq_zero_iff.mp (by omega)
    refine ⟨⟨[none], [], 0⟩, .of_eq fun fuel => if_pos hnone, ?_⟩
    rw [hnil]
    exact holds_empty h Nat.one_ne_zero
  · obtain ⟨slots, hclear, hslots⟩ := clearBits_returns hnone
    have hstart : Holds ⟨List.replicate slots none, [], slots - 1⟩ h
        (pairs.drop pairs.length) := by
      rw [drop_length]
      exact holds_empty h hslots
    obtain ⟨t, hfill, ht⟩ := fill_returns hdistinct (Nat.le_refl _) hstrs hvalue (Nat.le_refl _)
      hstart
    exact ⟨t, (hclear.bind hfill).congr fun fuel => if_neg hnone, ht⟩

/-- No two of the names are equal. -/
def Distinct (h : DataOfStrings) (names : List Nat) : Prop :=
  names.Pairwise fun a b => h.eq a b = false

/-- Each name has its value, a string that is equal to a name has the value of one it is equal to,
and all others have -1. -/
structure Finds (t : StringIndex) (h : DataOfStrings) (names : List Nat) (value : Nat → Int) :
    Prop where
  listed : ∀ i (hi : i < names.length),
    Outcome.Returns (fun fuel => t.find h fuel names[i]) (value i)
  equal : ∀ s, (∃ name ∈ names, h.eq name s = true) → ∃ i, ∃ hi : i < names.length,
    h.eq names[i] s = true ∧ Outcome.Returns (fun fuel => t.find h fuel s) (value i)
  other : ∀ s, (∀ name ∈ names, h.eq name s = false) →
    Outcome.Returns (fun fuel => t.find h fuel s) (-1)

/-- What the table of the names is filled with. -/
def entriesOf (names : List Nat) (value : Nat → Int) : List (Int × Nat) :=
  names.mapIdx fun i name => (value i, name)

theorem mem_entriesOf {value : Nat → Int} {entry : Int × Nat} :
    entry ∈ entriesOf names value ↔ ∃ i, ∃ hi : i < names.length, (value i, names[i]) = entry :=
  mem_mapIdx

/-- A table of distinct names finds them. -/
theorem Holds.finds {t : StringIndex} (hdistinct : Distinct h names) {value : Nat → Int}
    (ht : t.Holds h (entriesOf names value)) : t.Finds h names value := by
  constructor
  · intro i hi
    refine ht.find_self (mem_entriesOf.mpr ⟨i, hi, rfl⟩) fun index' hmem => ?_
    obtain ⟨j, hj, heq⟩ := mem_entriesOf.mp hmem
    obtain ⟨rfl, hname⟩ := Prod.mk.inj heq
    rcases Nat.lt_trichotomy i j with hlt | rfl | hgt
    · have hne := pairwise_iff_getElem.mp hdistinct i j hi hj hlt
      rw [hname, DataOfStrings.eq, if_pos rfl] at hne
      cases hne
    · rfl
    · have hne := pairwise_iff_getElem.mp hdistinct j i hj hi hgt
      rw [hname, DataOfStrings.eq, if_pos rfl] at hne
      cases hne
  · rintro s ⟨name, hname, heq⟩
    obtain ⟨i, hi, rfl⟩ := mem_iff_getElem.mp hname
    obtain ⟨entry, hmem, hentry, hrun⟩ := ht.find_equal
      ⟨(value i, names[i]), mem_entriesOf.mpr ⟨i, hi, rfl⟩, heq⟩
    obtain ⟨j, hj, rfl⟩ := mem_entriesOf.mp hmem
    exact ⟨j, hj, hentry, hrun⟩
  · intro s hother
    refine ht.find_other fun entry hmem => ?_
    obtain ⟨j, hj, rfl⟩ := mem_entriesOf.mp hmem
    exact hother _ (getElem_mem hj)

/-- `init` of pointers to distinct names that have been stored. -/
theorem finds_of_stored (hdistinct : Distinct h names) {value' : Nat → Int}
    (hstrs : ∀ i (hi : i < names.length), strs[i]?.join = some names[i])
    (hvalue : ∀ i (_ : i < names.length), value i = some (value' i)) :
    ∃ t, Outcome.Returns (fun fuel => init h fuel names.length strs value) t ∧
      t.Finds h names value' := by
  have hlength : (entriesOf names value').length = names.length := length_mapIdx
  have hpairs : (entriesOf names value').Pairwise fun a b => h.eq a.2 b.2 = false := by
    rw [pairwise_iff_getElem]
    intro i j hi hj hlt
    rw [hlength] at hi hj
    simp only [entriesOf, getElem_mapIdx]
    exact pairwise_iff_getElem.mp hdistinct i j hi hj hlt
  have hstrs' : ∀ i (hi : i < (entriesOf names value').length),
      strs[i]?.join = some (entriesOf names value')[i].2 := by
    intro i hi
    simp only [entriesOf, getElem_mapIdx]
    exact hstrs i (hlength ▸ hi)
  have hvalue' : ∀ i (hi : i < (entriesOf names value').length),
      value i = some (entriesOf names value')[i].1 := by
    intro i hi
    simp only [entriesOf, getElem_mapIdx]
    exact hvalue i (hlength ▸ hi)
  obtain ⟨t, hrun, ht⟩ := init_returns hpairs hstrs' hvalue'
  rw [hlength] at hrun
  exact ⟨t, hrun, ht.finds hdistinct⟩

end Building

end StringIndex

end Drt
