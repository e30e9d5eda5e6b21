import Drt.Core.Struct.ItemCount
import Drt.Core.Struct.ListC
import Mathlib.Data.List.Nodup

/-!
# Lists and their reference

Any operations on any number of lists are compared with plain sequences of nodes. Both chains of
every list go through its sequence after every operation, and the count is its length up to the
range of an `unsigned`.
-/

open List Function

namespace Drt

open Outcome TwoWay

/-- The heads of some lists, and the nodes of all of them. -/
structure Lists (ι V : Type) where
  heads : ι → ListHead
  nodes : Heap (ListNode V)

/-- The operations, each on one list or on two. -/
inductive ListOp (ι V : Type) where
  | append (i : ι) (prev : Option Addr) (v : V)
  | appendNew (i : ι) (prev : Option Addr)
  | insert (i : ι) (next : Option Addr) (v : V)
  | insertNew (i : ι) (next : Option Addr)
  | remove (i : ι) (n : Addr)
  | clean (i : ι)
  | moveFrom (i source : ι)

/-- The sequences of nodes that the lists stand for. -/
abbrev ListRefs (ι V : Type) := ι → List (Addr × V)

namespace ListRefs

variable {V : Type}

/-- A node behind another one, or in front of all. -/
def insertBehind : Option Addr → Addr × V → List (Addr × V) → List (Addr × V)
  | none, x, els => x :: els
  | some _, _, [] => []
  | some prev, x, y :: els =>
    if y.1 = prev then y :: x :: els else y :: insertBehind (some prev) x els

/-- A node before another one, or behind all. -/
def insertBefore : Option Addr → Addr × V → List (Addr × V) → List (Addr × V)
  | none, x, els => els ++ [x]
  | some _, _, [] => []
  | some next, x, y :: els =>
    if y.1 = next then x :: y :: els else y :: insertBefore (some next) x els

/-- Without this node. -/
def without (n : Addr) (els : List (Addr × V)) : List (Addr × V) := els.eraseP (·.1 = n)

variable {els l₁ l₂ : List (Addr × V)} {n : Addr} {v : V}

/-- A node that comes behind another one divides the sequence there. -/
theorem exists_behind {prev : Option Addr} (h : ∀ p, prev = some p → p ∈ TwoWay.addrs els) :
    ∃ l₁ l₂, els = l₁ ++ l₂ ∧ prev = back none l₁ ∧
      ∀ x, insertBehind prev x els = l₁ ++ x :: l₂ := by
  cases prev with
  | none => exact ⟨[], els, rfl, rfl, fun _ => by cases els <;> rfl⟩
  | some p =>
    obtain ⟨m, v, l₂, rfl, hm⟩ := exists_split (h p rfl)
    refine ⟨m ++ [(p, v)], l₂, by simp, (back_concat none m (p, v)).symm, fun x => ?_⟩
    clear h
    induction m with
    | nil => simp [insertBehind]
    | cons y m ih =>
      obtain ⟨hy, hm⟩ := not_or.mp (mem_cons.not.mp hm)
      rw [cons_append, insertBehind, if_neg (Ne.symm hy), ih hm]
      rfl

/-- A node that comes before another one divides the sequence there. -/
theorem exists_before {next : Option Addr} (h : ∀ p, next = some p → p ∈ TwoWay.addrs els) :
    ∃ l₁ l₂, els = l₁ ++ l₂ ∧ next = front none l₂ ∧
      ∀ x, insertBefore next x els = l₁ ++ x :: l₂ := by
  cases next with
  | none => exact ⟨els, [], by simp, rfl, fun _ => by cases els <;> rfl⟩
  | some q =>
    obtain ⟨l₁, v, l₂, rfl, hl₁⟩ := exists_split (h q rfl)
    refine ⟨l₁, (q, v) :: l₂, rfl, rfl, fun x => ?_⟩
    clear h
    induction l₁ with
    | nil => simp [insertBefore]
    | cons y l₁ ih =>
      obtain ⟨hy, hl₁⟩ := not_or.mp (mem_cons.not.mp hl₁)
      rw [cons_append, insertBefore, if_neg (Ne.symm hy), ih hl₁]
      rfl

theorem without_split (h : n ∉ TwoWay.addrs l₁) : without n (l₁ ++ (n, v) :: l₂) = l₁ ++ l₂ := by
  rw [without, eraseP_append_right _ fun x hx => ?_, eraseP_cons_of_pos (by simp)]
  have hne : x.1 ≠ n := by
    rintro rfl
    exact h (mem_map_of_mem hx)
  simpa using hne

end ListRefs

namespace Lists

variable {ι V : Type} [DecidableEq ι]

/-- Lists that are constructed. -/
def new : Lists ι V := ⟨fun _ => .new, .empty⟩

/-- A list of them. -/
def object (w : Lists ι V) (i : ι) : ListC V := { toListHead := w.heads i, nodes := w.nodes }

/-- A list of them has changed. -/
def replace (w : Lists ι V) (i : ι) (l : ListC V) : Lists ι V :=
  ⟨Function.update w.heads i l.toListHead, l.nodes⟩

/-- One operation: the node it returns, and the lists. -/
def apply (env : ListEnv V) (fuel : Nat) (w : Lists ι V) :
    ListOp ι V → Call (Option Addr × Lists ι V)
  | .append i prev v => do
    let (n, l) ← (w.object i).append_g env prev v
    .ok (some n, w.replace i l)
  | .appendNew i prev => do
    let (n, l) ← (w.object i).appendNew_g env prev
    .ok (some n, w.replace i l)
  | .insert i next v => do
    let (n, l) ← (w.object i).insert_g env next v
    .ok (some n, w.replace i l)
  | .insertNew i next => do
    let (n, l) ← (w.object i).insertNew_g env next
    .ok (some n, w.replace i l)
  | .remove i n => do
    let l ← (w.object i).remove_g n
    .ok (none, w.replace i l)
  | .clean i => do
    let l ← (w.object i).clean_g fuel
    .ok (none, w.replace i l)
  | .moveFrom i source => do
    let (l, s) ← (w.object i).moveFrom_g fuel (w.heads source)
    .ok (none, ⟨Function.update (w.replace i l).heads source s, l.nodes⟩)

end Lists

namespace ListOp

variable {ι V : Type} [DecidableEq ι]

/-- The node of the operation is one of its list, and two lists are not the same one. -/
def Valid (r : ListRefs ι V) : ListOp ι V → Prop
  | .append i prev _ | .appendNew i prev => ∀ p, prev = some p → p ∈ TwoWay.addrs (r i)
  | .insert i next _ | .insertNew i next => ∀ p, next = some p → p ∈ TwoWay.addrs (r i)
  | .remove i n => n ∈ TwoWay.addrs (r i)
  | .clean _ => True
  | .moveFrom i source => i ≠ source

/-- What the operation does to the sequences, with the node it returns. -/
def refer (env : ListEnv V) (r : ListRefs ι V) (n : Option Addr) : ListOp ι V → ListRefs ι V
  | .append i prev v =>
    Function.update r i (ListRefs.insertBehind prev (n.getD 0, v) (r i))
  | .appendNew i prev =>
    Function.update r i (ListRefs.insertBehind prev (n.getD 0, env.undef) (r i))
  | .insert i next v =>
    Function.update r i (ListRefs.insertBefore next (n.getD 0, v) (r i))
  | .insertNew i next =>
    Function.update r i (ListRefs.insertBefore next (n.getD 0, env.undef) (r i))
  | .remove i n => Function.update r i (ListRefs.without n (r i))
  | .clean i => Function.update r i []
  | .moveFrom i source => Function.update (Function.update r i (r source)) source []

end ListOp

namespace Lists

variable {ι V : Type} [DecidableEq ι]

/-- Operations one after another from new lists: the lists after them, and the sequences. -/
inductive Run (env : ListEnv V) : List (ListOp ι V) → Lists ι V → ListRefs ι V → Prop
  | nil : Run env [] new fun _ => []
  | snoc {ops : List (ListOp ι V)} {w w' : Lists ι V} {r : ListRefs ι V} {op : ListOp ι V}
      {n : Option Addr} (run : Run env ops w r) (valid : op.Valid r)
      (step : Returns (fun fuel => w.apply env fuel op) (n, w')) :
      Run env (ops ++ [op]) w' (op.refer env r n)

/-- The chains and the count of a list describe this sequence. -/
structure Describes (l : ListC V) (els : List (Addr × V)) : Prop where
  /-- `link.next`, and `next` from there. -/
  forward : Chain (fun a => (l.nodes.cell a).bind Node.next) l.link_next (TwoWay.addrs els)
  /-- `link.prev`, and `prev` from there. -/
  backward : Chain (fun a => (l.nodes.cell a).bind Node.prev) l.link_prev (TwoWay.addrs els).reverse
  /-- `n->next->prev` is `n`. -/
  prev_of_next : ∀ a ∈ TwoWay.addrs els, ∀ n b, l.nodes.cell a = some n → n.next = some b →
    ∃ m, l.nodes.cell b = some m ∧ m.prev = some a
  /-- `n->prev->next` is `n`. -/
  next_of_prev : ∀ a ∈ TwoWay.addrs els, ∀ n b, l.nodes.cell a = some n → n.prev = some b →
    ∃ m, l.nodes.cell b = some m ∧ m.next = some a
  values : ∀ x ∈ els, ∃ n, l.nodes.cell x.1 = some n ∧ n.v = x.2
  count : l.item_count.toNat = els.length

/-- What holds after every operation. -/
structure Inv (w : Lists ι V) (r : ListRefs ι V) : Prop where
  has : ∀ i, (w.object i).Has (r i)
  nodup : ∀ i, (TwoWay.addrs (r i)).Nodup
  disjoint : ∀ i j, i ≠ j → (TwoWay.addrs (r i)).Disjoint (TwoWay.addrs (r j))
  count : ∀ i, (w.heads i).item_count = .ofNat (r i).length

omit [DecidableEq ι] in
/-- The links are right in any case, and the count if it fits. -/
theorem Inv.describes_iff {w : Lists ι V} {r : ListRefs ι V} (h : Inv w r) (i : ι) :
    Describes (w.object i) (r i) ↔ (r i).length < 2 ^ 32 := by
  have hcount : (w.object i).item_count.toNat = (r i).length % 2 ^ 32 := by
    change (w.heads i).item_count.toNat = _
    rw [h.count i, UInt32.toNat_ofNat']
  constructor
  · intro hdescribes
    rw [← hdescribes.count]
    exact UInt32.toNat_lt _
  · intro hlt
    have hseg := (h.has i).seg
    refine ⟨?_, ?_, fun a ha n b => ?_, fun a ha n b => ?_, fun x hx => hseg.exists_value hx, ?_⟩
    · rw [(h.has i).first_eq]
      exact hseg.chain_next
    · rw [(h.has i).last_eq]
      exact hseg.chain_prev
    · exact fun hn => hseg.prev_of_next ha hn
    · exact fun hn => hseg.next_of_prev ha hn
    · rw [hcount, Nat.mod_eq_of_lt hlt]

omit [DecidableEq ι] in
theorem inv_new : Inv (new : Lists ι V) fun _ => [] where
  has _ := ⟨trivial, rfl, rfl⟩
  nodup _ := nodup_nil
  disjoint _ _ _ := disjoint_nil_left _
  count _ := rfl

section Step

variable {w : Lists ι V} {r : ListRefs ι V} (h : Inv w r) {i : ι} {l : ListC V}
  {els : List (Addr × V)}

include h

omit [DecidableEq ι] in
theorem Inv.not_mem {n : Addr} (hn : w.nodes.cell n = none) (i : ι) : n ∉ TwoWay.addrs (r i) := by
  intro hmem
  obtain ⟨d, hd⟩ := (h.has i).seg.exists_cell hmem
  exact absurd (hn.symm.trans hd) (by simp)

/-- One list has changed, and the nodes of the others have not. -/
theorem Inv.replace (hhas : l.Has els) (hnodup : (TwoWay.addrs els).Nodup)
    (hcount : l.item_count = .ofNat els.length)
    (hother : ∀ j, j ≠ i → (TwoWay.addrs els).Disjoint (TwoWay.addrs (r j)) ∧
      ∀ a ∈ TwoWay.addrs (r j), l.nodes.cell a = w.nodes.cell a) :
    Inv (w.replace i l) (update r i els) where
  has j := by
    by_cases hj : j = i
    · subst hj
      simpa [object, Lists.replace] using hhas
    · obtain ⟨hseg, hfirst, hlast⟩ := h.has j
      rw [update_of_ne hj]
      refine ⟨hseg.congr (hother j hj).2, ?_, ?_⟩
      · simpa [object, Lists.replace, update_of_ne hj] using hfirst
      · simpa [object, Lists.replace, update_of_ne hj] using hlast
  nodup j := by
    by_cases hj : j = i
    · subst hj
      simpa using hnodup
    · rw [update_of_ne hj]
      exact h.nodup j
  disjoint j k hjk := by
    by_cases hj : j = i
    · subst hj
      rw [update_self, update_of_ne (Ne.symm hjk)]
      exact (hother k (Ne.symm hjk)).1
    · rw [update_of_ne hj]
      by_cases hk : k = i
      · subst hk
        rw [update_self]
        exact disjoint_comm.mp (hother j hj).1
      · rw [update_of_ne hk]
        exact h.disjoint j k hjk
  count j := by
    by_cases hj : j = i
    · subst hj
      simpa [Lists.replace] using hcount
    · rw [update_of_ne hj]
      simpa [Lists.replace, update_of_ne hj] using h.count j

omit [DecidableEq ι] in
theorem Inv.has_node_def (env : ListEnv V) (v : V) (i : ι) :
    ((w.object i).node_def env v).2.Has (r i) := by
  obtain ⟨hseg, hfirst, hlast⟩ := h.has i
  exact ⟨hseg.update (h.not_mem (env.alloc.fresh w.nodes) i) _, hfirst, hlast⟩

/-- A new node has been put between two parts of a list. -/
theorem Inv.inserted {l₁ l₂ : List (Addr × V)} {n : Addr} {v : V} {d : ListNode V}
    (hi : r i = l₁ ++ l₂) (hn : w.nodes.cell n = none) (hhas : l.Has (l₁ ++ (n, v) :: l₂))
    (hcount : l.item_count = (w.heads i).item_count + 1)
    (hother : ∀ a, a ∉ n :: TwoWay.addrs (l₁ ++ l₂) → l.nodes.cell a = (w.nodes.put n d).cell a) :
    Inv (w.replace i l) (update r i (l₁ ++ (n, v) :: l₂)) := by
  have hperm : (TwoWay.addrs (l₁ ++ (n, v) :: l₂)).Perm (n :: TwoWay.addrs (r i)) := by
    rw [hi]
    exact perm_middle.map Prod.fst
  refine h.replace hhas ?_ ?_ fun j hj => ⟨?_, fun a ha => ?_⟩
  · exact hperm.nodup_iff.mpr (nodup_cons.mpr ⟨h.not_mem hn i, h.nodup i⟩)
  · have hlength : (l₁ ++ (n, v) :: l₂).length = (r i).length + 1 := by simpa using hperm.length_eq
    rw [hcount, h.count i, hlength, UInt32.ofNat_add]
    rfl
  · intro a ha hmem
    rcases mem_cons.mp (hperm.mem_iff.mp ha) with rfl | ha
    · exact h.not_mem hn j hmem
    · exact h.disjoint i j (Ne.symm hj) ha hmem
  · have hne : a ≠ n := by
      rintro rfl
      exact h.not_mem hn j ha
    rw [hother a (mem_cons.not.mpr (not_or.mpr ⟨hne, fun hmem => ?_⟩))]
    · exact update_of_ne hne _ _
    · exact h.disjoint i j (Ne.symm hj) (hi ▸ hmem) ha

/-- `append_g`, and `appendNew_g` with the value of a new node. -/
theorem Inv.append_g (env : ListEnv V) {prev : Option Addr}
    (hprev : ∀ p, prev = some p → p ∈ TwoWay.addrs (r i)) (v : V) :
    ∃ n l, (w.object i).append_g env prev v = .ok (n, l) ∧
      Inv (w.replace i l) (update r i (ListRefs.insertBehind prev (n, v) (r i))) := by
  obtain ⟨l₁, l₂, hi, rfl, hbehind⟩ := ListRefs.exists_behind hprev
  have hfresh := env.alloc.fresh w.nodes
  have hhas := h.has_node_def env v i
  have hnodup := h.nodup i
  have hnot := h.not_mem hfresh i
  rw [hi] at hhas hnodup hnot
  obtain ⟨l, hlink, hl, hcount, hother⟩ := ListC.linkBehind_eq hhas hnodup hnot
    (d := ⟨none, none, v⟩) (by simp [ListC.node_def, object])
  exact ⟨_, l, hlink, hbehind _ ▸ h.inserted hi hfresh hl hcount hother⟩

/-- `insert_g`, and `insertNew_g` with the value of a new node. -/
theorem Inv.insert_g (env : ListEnv V) {next : Option Addr}
    (hnext : ∀ p, next = some p → p ∈ TwoWay.addrs (r i)) (v : V) :
    ∃ n l, (w.object i).insert_g env next v = .ok (n, l) ∧
      Inv (w.replace i l) (update r i (ListRefs.insertBefore next (n, v) (r i))) := by
  obtain ⟨l₁, l₂, hi, rfl, hbefore⟩ := ListRefs.exists_before hnext
  have hfresh := env.alloc.fresh w.nodes
  have hhas := h.has_node_def env v i
  have hnodup := h.nodup i
  have hnot := h.not_mem hfresh i
  rw [hi] at hhas hnodup hnot
  obtain ⟨l, hlink, hl, hcount, hother⟩ := ListC.linkBefore_eq hhas hnodup hnot
    (d := ⟨none, none, v⟩) (by simp [ListC.node_def, object])
  exact ⟨_, l, hlink, hbefore _ ▸ h.inserted hi hfresh hl hcount hother⟩

theorem Inv.remove_g {n : Addr} (hn : n ∈ TwoWay.addrs (r i)) :
    ∃ l, (w.object i).remove_g n = .ok l ∧
      Inv (w.replace i l) (update r i (ListRefs.without n (r i))) := by
  obtain ⟨l₁, v, l₂, hi, hl₁⟩ := exists_split hn
  have hhas := h.has i
  have hnodup := h.nodup i
  have hcount := h.count i
  rw [hi] at hhas hnodup hcount
  obtain ⟨l, hremove, hl, hitems, hother⟩ := ListC.remove_g_eq hhas hnodup
  have hsub : (TwoWay.addrs (l₁ ++ l₂)).Sublist (TwoWay.addrs (l₁ ++ (n, v) :: l₂)) :=
    ((sublist_cons_self _ _).append_left l₁).map Prod.fst
  refine ⟨l, hremove, ?_⟩
  rw [hi, ListRefs.without_split hl₁]
  refine h.replace hl (hnodup.sublist hsub) ?_ fun j hj => ⟨?_, fun a ha => hother a fun hmem => ?_⟩
  · rw [hitems]
    change (w.heads i).item_count - 1 = _
    rw [hcount, ← UInt32.toNat_inj]
    simp only [UInt32.toNat_sub, UInt32.toNat_ofNat', UInt32.toNat_one, length_append,
      length_cons]
    omega
  · intro a ha hmem
    exact h.disjoint i j (Ne.symm hj) (hi ▸ hsub.subset ha) hmem
  · exact h.disjoint i j (Ne.symm hj) (hi ▸ hmem) ha

theorem Inv.clean_g (i : ι) : ∃ l, Returns (fun fuel => (w.object i).clean_g fuel) l ∧
    Inv (w.replace i l) (update r i []) := by
  obtain ⟨hseg, hfirst, hlast⟩ := h.has i
  obtain ⟨l, hclean, hcount, hother⟩ := ListC.cleanFrom_returns hseg (h.nodup i)
  rw [← hfirst] at hclean
  refine ⟨_, hclean.bind (Returns.ok _), h.replace ⟨trivial, rfl, rfl⟩ nodup_nil ?_
    fun j hj => ⟨disjoint_nil_left _, fun a ha => hother a fun hmem => ?_⟩⟩
  · change l.item_count = 0
    rw [hcount]
    change (w.heads i).item_count - _ = 0
    rw [h.count i, UInt32.sub_self]
  · exact h.disjoint i j (Ne.symm hj) hmem ha

omit [DecidableEq ι] in
theorem Inv.rename {σ : ι → ι} (hσ : Function.Injective σ) :
    Inv ⟨w.heads ∘ σ, w.nodes⟩ (r ∘ σ) where
  has i := h.has (σ i)
  nodup i := h.nodup (σ i)
  disjoint i j hij := h.disjoint (σ i) (σ j) (hσ.ne hij)
  count i := h.count (σ i)

omit h in
/-- One place gets the value of another one, which gets a new one. -/
theorem update_comp_swap {α : Type} {f : ι → α} {source : ι} (hne : i ≠ source) (a : α) :
    update f i a ∘ Equiv.swap i source =
      update (update f i (f source)) source a := by
  funext j
  by_cases hj : j = source
  · subst hj
    simp
  · by_cases hji : j = i
    · subst hji
      simp [hj, Ne.symm hne]
    · simp [Equiv.swap_apply_of_ne_of_ne hji hj, hj, hji]

/-- `moveFrom_g`: the list takes the place of the source, which gets its cleaned head. -/
theorem Inv.moveFrom_g {source : ι} (hne : i ≠ source) :
    ∃ l s, Returns (fun fuel => (w.object i).moveFrom_g fuel (w.heads source)) (l, s) ∧
      Inv ⟨update (w.replace i l).heads source s, l.nodes⟩
        (update (update r i (r source)) source []) := by
  obtain ⟨l, hclean, hinv⟩ := h.clean_g i
  have hempty : (w.replace i l).heads i = .new := by
    obtain ⟨-, hfirst, hlast⟩ := hinv.has i
    have hcount := hinv.count i
    rw [update_self] at hfirst hlast hcount
    change (w.replace i l).heads i = ⟨none, none, 0⟩
    exact ListHead.ext hlast hfirst hcount
  refine ⟨{ toListHead := w.heads source, nodes := l.nodes }, .new, hclean.bind (Returns.ok _), ?_⟩
  have hswap := hinv.rename (Equiv.swap i source).injective
  have hhead : l.toListHead = .new := by simpa [Lists.replace] using hempty
  rw [Lists.replace, hhead, update_comp_swap hne, update_comp_swap hne] at hswap
  simpa [Lists.replace] using hswap

/-- Every operation at a node of its list returns. -/
theorem Inv.step (env : ListEnv V) {op : ListOp ι V} (valid : op.Valid r) :
    ∃ n w', Returns (fun fuel => w.apply env fuel op) (n, w') ∧ Inv w' (op.refer env r n) := by
  cases op with
  | append i prev v =>
    obtain ⟨n, l, hrun, hinv⟩ := h.append_g env valid v
    exact ⟨some n, _, Returns.of_eq fun _ => by rw [apply, hrun]; rfl, hinv⟩
  | appendNew i prev =>
    obtain ⟨n, l, hrun, hinv⟩ := h.append_g env valid env.undef
    refine ⟨some n, _, Returns.of_eq fun _ => ?_, hinv⟩
    change ((w.object i).append_g env prev env.undef >>= _) = _
    rw [hrun]
    rfl
  | insert i next v =>
    obtain ⟨n, l, hrun, hinv⟩ := h.insert_g env valid v
    exact ⟨some n, _, Returns.of_eq fun _ => by rw [apply, hrun]; rfl, hinv⟩
  | insertNew i next =>
    obtain ⟨n, l, hrun, hinv⟩ := h.insert_g env valid env.undef
    refine ⟨some n, _, Returns.of_eq fun _ => ?_, hinv⟩
    change ((w.object i).insert_g env next env.undef >>= _) = _
    rw [hrun]
    rfl
  | remove i n =>
    obtain ⟨l, hrun, hinv⟩ := h.remove_g valid
    exact ⟨none, _, Returns.of_eq fun _ => by rw [apply, hrun]; rfl, hinv⟩
  | clean i =>
    obtain ⟨l, hrun, hinv⟩ := h.clean_g i
    exact ⟨none, _, hrun.bind (Returns.ok _), hinv⟩
  | moveFrom i source =>
    obtain ⟨l, s, hrun, hinv⟩ := h.moveFrom_g valid
    exact ⟨none, _, hrun.bind (Returns.ok _), hinv⟩

end Step

variable {env : ListEnv V} {ops : List (ListOp ι V)} {w : Lists ι V} {r : ListRefs ι V}

theorem Run.inv (run : Run env ops w r) : Inv w r := by
  induction run with
  | nil => exact inv_new
  | snoc run valid step ih =>
    obtain ⟨n, w', hrun, hinv⟩ := ih.step env valid
    obtain ⟨rfl, rfl⟩ := Prod.mk.inj (hrun.unique step)
    exact hinv

theorem Run.next (run : Run env ops w r) (op : ListOp ι V) (valid : op.Valid r) :
    ∃ n w', Returns (fun fuel => w.apply env fuel op) (n, w') ∧
      Run env (ops ++ [op]) w' (op.refer env r n) := by
  obtain ⟨n, w', hrun, -⟩ := run.inv.step env valid
  exact ⟨n, w', hrun, run.snoc valid hrun⟩

/-- After any run the chains and the count of each list describe its sequence, as long as the
sequence has fewer than `2 ^ 32` nodes, and the next operation returns. -/
theorem run_describes (run : Run env ops w r) :
    (∀ i, Describes (w.object i) (r i) ↔ (r i).length < 2 ^ 32) ∧
      ∀ op : ListOp ι V, op.Valid r → ∃ n w', Returns (fun fuel => w.apply env fuel op) (n, w') :=
  ⟨run.inv.describes_iff, fun _ valid => by
    obtain ⟨n, w', hrun, -⟩ := run.next _ valid
    exact ⟨n, w', hrun⟩⟩

/-- Lists of numbers, with the lowest free addresses for their nodes. -/
def natListEnv : ListEnv Nat := ⟨0, Allocator.lowest⟩

/-- Numbers that are inserted at both ends and in the middle of a list and removed there; what is
left moves to another list, and loses one more. -/
theorem run_describes_moved : ∃ a b c d e w r,
    Run natListEnv [.append true none 5, .insert true none 8, .append true (some a) 6,
      .insert true (some b) 7, .append true none 4, .remove true e, .remove true b,
      .append false none 9, .moveFrom false true, .remove false c] w r ∧
    r false = [(a, 5), (d, 7)] ∧ r true = [] ∧ ∀ i, Describes (w.object i) (r i) := by
  have start : Run natListEnv [] (new : Lists Bool Nat) fun _ => [] := .nil
  obtain ⟨a, _, -, run⟩ := start.next (.append true none 5) (by simp [ListOp.Valid])
  simp only [ListOp.refer, ListRefs.insertBehind] at run
  generalize a.getD 0 = a at run
  obtain ⟨b, _, -, run⟩ := run.next (.insert true none 8) (by simp [ListOp.Valid])
  simp [ListOp.refer, ListRefs.insertBefore] at run
  generalize b.getD 0 = b at run
  obtain ⟨c, _, -, run⟩ := run.next (.append true (some a) 6) (by simp [ListOp.Valid])
  simp [ListOp.refer, ListRefs.insertBehind] at run
  generalize c.getD 0 = c at run
  have hbetween := run.inv.nodup true
  simp [TwoWay.addrs] at hbetween
  obtain ⟨d, _, -, run⟩ := run.next (.insert true (some b) 7) (by simp [ListOp.Valid])
  simp [ListOp.refer, ListRefs.insertBefore, hbetween] at run
  generalize d.getD 0 = d at run
  obtain ⟨e, _, -, run⟩ := run.next (.append true none 4) (by simp [ListOp.Valid])
  simp [ListOp.refer, ListRefs.insertBehind] at run
  generalize e.getD 0 = e at run
  have hall := run.inv.nodup true
  simp [TwoWay.addrs] at hall
  obtain ⟨_, _, -, run⟩ := run.next (.remove true e) (by simp [ListOp.Valid])
  simp [ListOp.refer, ListRefs.without] at run
  obtain ⟨_, _, -, run⟩ := run.next (.remove true b) (by simp [ListOp.Valid])
  simp [ListOp.refer, ListRefs.without, hall] at run
  obtain ⟨_, _, -, run⟩ := run.next (.append false none 9) (by simp [ListOp.Valid])
  simp [ListOp.refer, ListRefs.insertBehind] at run
  obtain ⟨_, _, -, run⟩ := run.next (.moveFrom false true) (by simp [ListOp.Valid])
  simp [ListOp.refer] at run
  obtain ⟨_, w, -, run⟩ := run.next (.remove false c) (by simp [ListOp.Valid])
  simp [ListOp.refer, ListRefs.without, hall] at run
  refine ⟨a, b, c, d, e, w, _, run, ?_, ?_, fun i => ((run_describes run).1 i).mpr ?_⟩
  · simp
  · simp
  · cases i <;> simp

/-- A list to which a node is appended again and again. -/
theorem exists_run_append (env : ListEnv V) (i : ι) (v : V) (k : Nat) :
    ∃ w r, Run env (List.replicate k (.append i none v)) w r ∧ (r i).length = k := by
  induction k with
  | zero => exact ⟨_, _, .nil, rfl⟩
  | succ k ih =>
    obtain ⟨w, r, run, hlength⟩ := ih
    obtain ⟨n, w', -, run'⟩ := run.next _
      (show (ListOp.append i none v).Valid r from by simp [ListOp.Valid])
    rw [replicate_succ']
    refine ⟨w', _, run', ?_⟩
    simp [ListOp.refer, ListRefs.insertBehind, hlength]

/-- The count of `2 ^ 32` nodes is zero. -/
theorem not_describes_wrapped : ∃ w r,
    Run natListEnv (List.replicate (2 ^ 32) (.append () none 0)) w r ∧
      ¬ Describes (w.object ()) (r ()) := by
  obtain ⟨w, r, run, hlength⟩ := exists_run_append natListEnv () 0 (2 ^ 32)
  refine ⟨w, r, run, fun h => ?_⟩
  have hlt := (run.inv.describes_iff ()).mp h
  omega

/-- After any run, a slot from `accAppendingNew` stands for `append`, and one from `accInsertingNew`
for `insert` exactly if all nodes but the last hold the value already. -/
theorem run_newAgrees_iff (run : Run env ops w r) (i : ι) (v : V) :
    ListC.NewAgrees env (w.object i) v ↔ ∀ x ∈ (r i).dropLast, x.2 = v :=
  ListC.newAgrees_iff (run.inv.has i) (run.inv.nodup i) env v

theorem exists_run_pair (a b : Nat) : ∃ w r,
    Run natListEnv [.append () none b, .insert () none a] w r ∧ (r ()).map Prod.snd = [b, a] := by
  have start : Run natListEnv [] (new : Lists Unit Nat) fun _ => [] := .nil
  obtain ⟨n, w, -, run⟩ := start.next _
    (show (ListOp.append () none b).Valid _ from by simp [ListOp.Valid])
  obtain ⟨n', w', -, run'⟩ := run.next _
    (show (ListOp.insert () none a).Valid _ from by simp [ListOp.Valid])
  exact ⟨w', _, run', by simp [ListOp.refer, ListRefs.insertBehind, ListRefs.insertBefore]⟩

/-- The first of two nodes holds the value that is inserted. -/
theorem run_newAgrees_same : ∃ w r,
    Run natListEnv [.append () none 1, .insert () none 2] w r ∧
      ListC.NewAgrees natListEnv (w.object ()) 1 := by
  obtain ⟨w, r, run, hr⟩ := exists_run_pair 2 1
  refine ⟨w, r, run, (run_newAgrees_iff run () 1).mpr ?_⟩
  rw [← forall_mem_map (f := Prod.snd) (P := fun b => b = 1), map_dropLast, hr]
  simp

/-- With two nodes a new value comes between them. -/
theorem not_newAgrees_pair : ∃ w r,
    Run natListEnv [.append () none 1, .insert () none 2] w r ∧
      ¬ ListC.NewAgrees natListEnv (w.object ()) 3 := by
  obtain ⟨w, r, run, hr⟩ := exists_run_pair 2 1
  refine ⟨w, r, run, fun h => ?_⟩
  have hall := (ListC.newAgrees_iff (run.inv.has ()) (run.inv.nodup ()) natListEnv 3).mp h
  rw [← forall_mem_map (f := Prod.snd) (P := fun b => b = 3), map_dropLast, hr] at hall
  simp at hall

end Lists

end Drt
