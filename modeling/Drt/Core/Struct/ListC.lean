import Drt.Core.Base.Exception
import Drt.Lib.Fuel
import Drt.Lib.TwoWay

/-!
# `List_c`

The head of a list has a link like a node: its `next` is the first node and its `prev` the last
one. The pointer in front of the first node is NULL, and so is the one behind the last node; a
function that finds NULL there turns to the head instead. Nodes of all the lists are allocated from
one memory, because a list may take over those of another one.
-/

open List Function

namespace Drt

/-- `TListNode`: the fields of `ListNode_c`, and the value. -/
abbrev ListNode (V : Type) := TwoWay.Node V

/-- The fields of `List_c`. -/
@[ext] structure ListHead where
  link_prev : Option Addr
  link_next : Option Addr
  item_count : UInt32
  deriving DecidableEq, Repr

/-- A list, and the nodes that are allocated. -/
structure ListC (V : Type) extends ListHead where
  nodes : Heap (ListNode V)

/-- What the template parameters decide for the container. -/
structure ListEnv (V : Type) where
  /-- The value in a node made by `node_undef`. -/
  undef : V
  /-- `allocC` takes the memory of a node from here. -/
  alloc : Allocator (ListNode V)

/-- `List_c()`. -/
def ListHead.new : ListHead := ⟨none, none, 0⟩

namespace ListC

variable {V : Type}

/-- `node_def`. The links of the new node are not set. -/
def node_def (env : ListEnv V) (l : ListC V) (v : V) : Addr × ListC V :=
  (env.alloc.addr l.nodes, { l with nodes := l.nodes.put (env.alloc.addr l.nodes) ⟨none, none, v⟩ })

def node_undef (env : ListEnv V) (l : ListC V) : Addr × ListC V := l.node_def env env.undef

def node_destroy (l : ListC V) (d : Addr) : Call (ListC V) := do
  let _ ← l.nodes.load d
  .ok { l with nodes := l.nodes.erase d }

/-- `prev->next`, or `link.next` where `prev` is NULL. -/
def getNext (l : ListC V) : Option Addr → Call (Option Addr)
  | some prev => do
    let n ← l.nodes.load prev
    .ok n.next
  | none => .ok l.link_next

/-- `next->prev`, or `link.prev` where `next` is NULL. -/
def getPrev (l : ListC V) : Option Addr → Call (Option Addr)
  | some next => do
    let n ← l.nodes.load next
    .ok n.prev
  | none => .ok l.link_prev

/-- `prev->next = n`, or `link.next = n` where `prev` is NULL. -/
def setNext (l : ListC V) (prev n : Option Addr) : Call (ListC V) :=
  match prev with
  | some prev => do
    let d ← l.nodes.load prev
    .ok { l with nodes := l.nodes.put prev { d with next := n } }
  | none => .ok { l with link_next := n }

/-- `next->prev = n`, or `link.prev = n` where `next` is NULL. -/
def setPrev (l : ListC V) (next n : Option Addr) : Call (ListC V) :=
  match next with
  | some next => do
    let d ← l.nodes.load next
    .ok { l with nodes := l.nodes.put next { d with prev := n } }
  | none => .ok { l with link_prev := n }

/-- `n->prev = prev; n->next = next`. -/
def setLinks (l : ListC V) (n : Addr) (prev next : Option Addr) : Call (ListC V) := do
  let d ← l.nodes.load n
  .ok { l with nodes := l.nodes.put n { d with prev := prev, next := next } }

/-- `append_g` and `appendNew_g` behind the allocation. -/
def linkBehind (prev : Option Addr) (n : Addr) (l : ListC V) : Call (Addr × ListC V) := do
  let next ← l.getNext prev
  let l ← l.setLinks n prev next
  let l ← l.setPrev next (some n)
  let l ← l.setNext prev (some n)
  .ok (n, { l with item_count := l.item_count + 1 })

/-- `insert_g` and `insertNew_g` behind the allocation. -/
def linkBefore (next : Option Addr) (n : Addr) (l : ListC V) : Call (Addr × ListC V) := do
  let prev ← l.getPrev next
  let l ← l.setLinks n prev next
  let l ← l.setNext prev (some n)
  let l ← l.setPrev next (some n)
  .ok (n, { l with item_count := l.item_count + 1 })

def append_g (env : ListEnv V) (l : ListC V) (prev : Option Addr) (v : V) :
    Call (Addr × ListC V) :=
  let (n, l) := l.node_def env v
  linkBehind prev n l

def appendNew_g (env : ListEnv V) (l : ListC V) (prev : Option Addr) : Call (Addr × ListC V) :=
  let (n, l) := l.node_undef env
  linkBehind prev n l

def insert_g (env : ListEnv V) (l : ListC V) (next : Option Addr) (v : V) :
    Call (Addr × ListC V) :=
  let (n, l) := l.node_def env v
  linkBefore next n l

def insertNew_g (env : ListEnv V) (l : ListC V) (next : Option Addr) : Call (Addr × ListC V) :=
  let (n, l) := l.node_undef env
  linkBefore next n l

def append (env : ListEnv V) (l : ListC V) (v : V) : Call (Addr × ListC V) :=
  l.append_g env l.link_prev v

def insert (env : ListEnv V) (l : ListC V) (v : V) : Call (Addr × ListC V) :=
  l.insert_g env l.link_next v

/-- `accAppendingNew`; the slot is the one of the node. -/
def accAppendingNew (env : ListEnv V) (l : ListC V) : Call (Addr × ListC V) :=
  l.appendNew_g env l.link_prev

/-- `accInsertingNew`; the slot is the one of the node. -/
def accInsertingNew (env : ListEnv V) (l : ListC V) : Call (Addr × ListC V) :=
  l.insertNew_g env l.link_prev

/-- The assignment to a slot that was returned. -/
def assign (v : V) (slot : Addr × ListC V) : Call (Addr × ListC V) := do
  let d ← slot.2.nodes.load slot.1
  .ok (slot.1, { slot.2 with nodes := slot.2.nodes.put slot.1 { d with v := v } })

def remove_g (l : ListC V) (n : Addr) : Call (ListC V) := do
  let d ← l.nodes.load n
  let l ← l.setNext d.prev d.next
  let l ← l.setPrev d.next d.prev
  let l := { l with item_count := l.item_count - 1 }
  l.node_destroy n

/-- The loop of `clean_g`. -/
def cleanFrom : Nat → Option Addr → ListC V → Call (ListC V)
  | 0, _, _ => .outOfFuel
  | _ + 1, none, l => .ok l
  | fuel + 1, some p, l => do
    let d ← l.nodes.load p
    let l := { l with item_count := l.item_count - 1 }
    let l ← l.node_destroy p
    cleanFrom fuel d.next l

def clean_g (fuel : Nat) (l : ListC V) : Call (ListC V) := do
  let l ← cleanFrom fuel l.link_next l
  .ok { l with link_prev := none, link_next := none }

def destroy_g (fuel : Nat) (l : ListC V) : Call (ListC V) := l.clean_g fuel

/-- `moveFrom_g`: the list and the source after it. -/
def moveFrom_g (fuel : Nat) (l : ListC V) (source : ListHead) : Call (ListC V × ListHead) := do
  let l ← l.destroy_g fuel
  .ok ({ toListHead := source, nodes := l.nodes }, .new)

end ListC

/-! ### What the functions of a list do to its links

Each function cuts the list at a node, or at one of its ends. The links across the gap belong to a
node or to the head, whichever there is, and are set one after the other; nodes elsewhere stay
as they are. -/

open Outcome TwoWay

namespace ListC

variable {V : Type} {l : ListC V} {els l₁ l₂ : List (Addr × V)} {x : Addr × V}
  {after before : Option Addr}

/-- The list has these nodes in this order. -/
abbrev Has (l : ListC V) (els : List (Addr × V)) : Prop :=
  Linked l.nodes.cell l.link_next l.link_prev els

/-- The list is cut between these nodes. -/
abbrev IsCut (l : ListC V) (l₁ : List (Addr × V)) (after before : Option Addr)
    (l₂ : List (Addr × V)) : Prop :=
  Cut l.nodes.cell l.link_next l.link_prev l₁ after before l₂

/-- The other nodes are as they were. -/
def SameBut (changed : List Addr) (l l' : ListC V) : Prop :=
  l'.item_count = l.item_count ∧ ∀ a, a ∉ changed → l'.nodes.cell a = l.nodes.cell a

section

variable (h : l.IsCut l₁ after before l₂)
include h

theorem getNext_cut : l.getNext (back none l₁) = .ok after := by
  obtain rfl | ⟨m, z, rfl⟩ := eq_nil_or_concat' l₁
  · rw [back_nil, getNext, h.first_eq]
    rfl
  · rw [back_concat, getNext, Heap.load_of_cell (seg_append.mp h.left).2.1]
    rfl

theorem getPrev_cut : l.getPrev (front none l₂) = .ok before := by
  cases l₂ with
  | nil =>
    rw [front_nil, getPrev, h.last_eq]
    rfl
  | cons z m =>
    rw [front_cons, getPrev, Heap.load_of_cell h.right.1]
    rfl

/-- The link behind the first part is set. -/
theorem setNext_cut (hnodup : (TwoWay.addrs (l₁ ++ l₂)).Nodup) (n : Option Addr) :
    ∃ l', l.setNext (back none l₁) n = .ok l' ∧ l'.IsCut l₁ n before l₂ ∧
      SameBut (TwoWay.addrs (l₁ ++ l₂)) l l' := by
  obtain rfl | ⟨m, z, rfl⟩ := eq_nil_or_concat' l₁
  · exact ⟨_, rfl, ⟨trivial, h.right, rfl, h.last_eq⟩, rfl, fun _ _ => rfl⟩
  · obtain ⟨hfresh, hother⟩ : z.1 ∉ TwoWay.addrs m ∧ z.1 ∉ TwoWay.addrs l₂ := by
      simp only [TwoWay.addrs, map_append, map_cons, append_assoc,
        singleton_append] at hnodup
      have hz := nodup_cons.mp (nodup_append.mp hnodup).2.1
      refine ⟨fun hmem => ?_, hz.1⟩
      exact (nodup_append.mp hnodup).2.2 z.1 hmem z.1 (mem_cons_self ..) rfl
    have hz := (seg_append.mp h.left).2.1
    rw [back_concat]
    refine ⟨{ l with nodes := l.nodes.put z.1 ⟨back none m, n, z.2⟩ }, ?_, ?_, rfl, ?_⟩
    · rw [setNext, Heap.load_of_cell hz]
      rfl
    · exact ⟨h.left.setNext hfresh n, h.right.update hother _, by simpa using h.first_eq, h.last_eq⟩
    · intro a ha
      refine update_of_ne ?_ _ _
      rintro rfl
      exact ha (by simp)

/-- The link before the second part is set. -/
theorem setPrev_cut (hnodup : (TwoWay.addrs (l₁ ++ l₂)).Nodup) (n : Option Addr) :
    ∃ l', l.setPrev (front none l₂) n = .ok l' ∧ l'.IsCut l₁ after n l₂ ∧
      SameBut (TwoWay.addrs (l₁ ++ l₂)) l l' := by
  cases l₂ with
  | nil => exact ⟨_, rfl, ⟨h.left, trivial, h.first_eq, rfl⟩, rfl, fun _ _ => rfl⟩
  | cons z m =>
    obtain ⟨hfresh, hother⟩ : z.1 ∉ TwoWay.addrs m ∧ z.1 ∉ TwoWay.addrs l₁ := by
      simp only [TwoWay.addrs, map_append, map_cons] at hnodup
      have hz := nodup_cons.mp (nodup_append.mp hnodup).2.1
      refine ⟨hz.1, fun hmem => ?_⟩
      exact (nodup_append.mp hnodup).2.2 z.1 hmem z.1 (mem_cons_self ..) rfl
    rw [front_cons]
    refine ⟨{ l with nodes := l.nodes.put z.1 ⟨n, front none m, z.2⟩ }, ?_, ?_, rfl, ?_⟩
    · rw [setPrev, Heap.load_of_cell h.right.1]
      rfl
    · exact ⟨h.left.update hother _, h.right.setPrev hfresh n, h.first_eq, h.last_eq⟩
    · intro a ha
      refine update_of_ne ?_ _ _
      rintro rfl
      exact ha (by simp)

end

variable {n : Addr} {v : V}

/-- The links of a node that is not in the list. -/
theorem setLinks_cut (h : l.IsCut l₁ after before l₂) (hn : n ∉ TwoWay.addrs (l₁ ++ l₂))
    {d : ListNode V}
    (hd : l.nodes.cell n = some d) (prev next : Option Addr) :
    ∃ l', l.setLinks n prev next = .ok l' ∧ l'.IsCut l₁ after before l₂ ∧
      SameBut [n] l l' ∧ l'.nodes.cell n = some ⟨prev, next, d.v⟩ := by
  refine ⟨{ l with nodes := l.nodes.put n ⟨prev, next, d.v⟩ }, ?_, ?_, ⟨rfl, ?_⟩, by simp⟩
  · rw [setLinks, Heap.load_of_cell hd]
    rfl
  · refine Cut.congr h fun a ha => update_of_ne ?_ _ _
    rintro rfl
    exact hn (by simpa [TwoWay.addrs] using ha)
  · intro a ha
    exact update_of_ne (by simpa using ha) _ _

theorem has_between (h : l.IsCut l₁ (some n) (some n) l₂)
    (hn : l.nodes.cell n = some ⟨back none l₁, front none l₂, v⟩) (count : UInt32) :
    Has { l with item_count := count } (l₁ ++ (n, v) :: l₂) :=
  linked_between.mpr ⟨h, hn⟩

section Insert

variable (h : l.Has (l₁ ++ l₂)) (hnodup : (TwoWay.addrs (l₁ ++ l₂)).Nodup)
  (hn : n ∉ TwoWay.addrs (l₁ ++ l₂))
  {d : ListNode V} (hd : l.nodes.cell n = some d)

include h hnodup hn hd

/-- A node is linked behind another one, or in front of all. -/
theorem linkBehind_eq : ∃ l', linkBehind (back none l₁) n l = .ok (n, l') ∧
    l'.Has (l₁ ++ (n, d.v) :: l₂) ∧ l'.item_count = l.item_count + 1 ∧
    ∀ a, a ∉ n :: TwoWay.addrs (l₁ ++ l₂) → l'.nodes.cell a = l.nodes.cell a := by
  have hcut := linked_append.mp h
  obtain ⟨la, hla, hcuta, hsamea, hna⟩ :=
    setLinks_cut hcut hn hd (back none l₁) (front none l₂)
  obtain ⟨lb, hlb, hcutb, hsameb⟩ := setPrev_cut hcuta hnodup (some n)
  obtain ⟨lc, hlc, hcutc, hsamec⟩ := setNext_cut hcutb hnodup (some n)
  have hnc : lc.nodes.cell n = some ⟨back none l₁, front none l₂, d.v⟩ := by
    rw [hsamec.2 n hn, hsameb.2 n hn, hna]
  refine ⟨{ lc with item_count := lc.item_count + 1 }, ?_, has_between hcutc hnc _, ?_, ?_⟩
  · rw [linkBehind, getNext_cut hcut, ok_bind, hla, ok_bind, hlb, ok_bind, hlc]
    rfl
  · change lc.item_count + 1 = _
    rw [hsamec.1, hsameb.1, hsamea.1]
  · intro a ha
    obtain ⟨hne, hmem⟩ := not_or.mp (mem_cons.not.mp ha)
    change lc.nodes.cell a = _
    rw [hsamec.2 a hmem, hsameb.2 a hmem, hsamea.2 a (by simpa using hne)]

/-- A node is linked before another one, or behind all. -/
theorem linkBefore_eq : ∃ l', linkBefore (front none l₂) n l = .ok (n, l') ∧
    l'.Has (l₁ ++ (n, d.v) :: l₂) ∧ l'.item_count = l.item_count + 1 ∧
    ∀ a, a ∉ n :: TwoWay.addrs (l₁ ++ l₂) → l'.nodes.cell a = l.nodes.cell a := by
  have hcut := linked_append.mp h
  obtain ⟨la, hla, hcuta, hsamea, hna⟩ :=
    setLinks_cut hcut hn hd (back none l₁) (front none l₂)
  obtain ⟨lb, hlb, hcutb, hsameb⟩ := setNext_cut hcuta hnodup (some n)
  obtain ⟨lc, hlc, hcutc, hsamec⟩ := setPrev_cut hcutb hnodup (some n)
  have hnc : lc.nodes.cell n = some ⟨back none l₁, front none l₂, d.v⟩ := by
    rw [hsamec.2 n hn, hsameb.2 n hn, hna]
  refine ⟨{ lc with item_count := lc.item_count + 1 }, ?_, has_between hcutc hnc _, ?_, ?_⟩
  · rw [linkBefore, getPrev_cut hcut, ok_bind, hla, ok_bind, hlb, ok_bind, hlc]
    rfl
  · change lc.item_count + 1 = _
    rw [hsamec.1, hsameb.1, hsamea.1]
  · intro a ha
    obtain ⟨hne, hmem⟩ := not_or.mp (mem_cons.not.mp ha)
    change lc.nodes.cell a = _
    rw [hsamec.2 a hmem, hsameb.2 a hmem, hsamea.2 a (by simpa using hne)]

end Insert

/-- A node is taken out of the list. -/
theorem remove_g_eq (h : l.Has (l₁ ++ x :: l₂)) (hnodup : (TwoWay.addrs (l₁ ++ x :: l₂)).Nodup) :
    ∃ l', l.remove_g x.1 = .ok l' ∧ l'.Has (l₁ ++ l₂) ∧ l'.item_count = l.item_count - 1 ∧
      ∀ a, a ∉ TwoWay.addrs (l₁ ++ x :: l₂) → l'.nodes.cell a = l.nodes.cell a := by
  obtain ⟨hcut, hx⟩ := linked_between.mp h
  have hperm : (TwoWay.addrs (l₁ ++ x :: l₂)).Perm (x.1 :: TwoWay.addrs (l₁ ++ l₂)) :=
    perm_middle.map Prod.fst
  obtain ⟨hxmem, hnodup'⟩ := nodup_cons.mp (hperm.nodup_iff.mp hnodup)
  obtain ⟨la, hla, hcuta, hsamea⟩ := setNext_cut hcut hnodup' (front none l₂)
  obtain ⟨lb, hlb, hcutb, hsameb⟩ := setPrev_cut hcuta hnodup' (back none l₁)
  have hxb : lb.nodes.cell x.1 = some ⟨back none l₁, front none l₂, x.2⟩ := by
    rw [hsameb.2 x.1 hxmem, hsamea.2 x.1 hxmem, hx]
  refine ⟨{ lb with item_count := lb.item_count - 1, nodes := lb.nodes.erase x.1 }, ?_, ?_, ?_, ?_⟩
  · rw [remove_g, Heap.load_of_cell hx, ok_bind, hla, ok_bind, hlb, ok_bind]
    simp only [node_destroy, Heap.load_of_cell hxb]
    rfl
  · refine linked_append.mpr (Cut.congr hcutb fun a ha => update_of_ne ?_ _ _)
    rintro rfl
    exact hxmem (by simpa [TwoWay.addrs] using ha)
  · change lb.item_count - 1 = _
    rw [hsameb.1, hsamea.1]
  · intro a ha
    obtain ⟨hne, hmem⟩ := not_or.mp (mem_cons.not.mp (hperm.mem_iff.not.mp ha))
    change update lb.nodes.cell x.1 none a = _
    rw [update_of_ne hne, hsameb.2 a hmem, hsamea.2 a hmem]

/-- The nodes of a list are destroyed one after the other. -/
theorem cleanFrom_returns {p : Option Addr} (h : Seg l.nodes.cell p els none)
    (hnodup : (TwoWay.addrs els).Nodup) :
    ∃ l', Returns (fun fuel => cleanFrom fuel (front none els) l) l' ∧
      l'.item_count = l.item_count - .ofNat els.length ∧
      ∀ a, a ∉ TwoWay.addrs els → l'.nodes.cell a = l.nodes.cell a := by
  induction els generalizing p l with
  | nil =>
    exact ⟨l, Returns.of_succ_ok fun _ => rfl, by simp, fun _ _ => rfl⟩
  | cons x els ih =>
    obtain ⟨hx, hnodup⟩ := nodup_cons.mp hnodup
    obtain ⟨l', hreturns, hcount, hsame⟩ := ih
      (l := { l with item_count := l.item_count - 1, nodes := l.nodes.erase x.1 })
      (h.2.update hx none) hnodup
    refine ⟨l', hreturns.of_succ fun fuel => ?_, ?_, ?_⟩
    · rw [front_cons, cleanFrom, Heap.load_of_cell h.1, ok_bind]
      simp only [node_destroy, Heap.load_of_cell h.1]
      rfl
    · rw [hcount, length_cons, ← UInt32.toNat_inj]
      simp only [UInt32.toNat_sub, UInt32.toNat_ofNat', UInt32.toNat_one]
      omega
    · intro a ha
      obtain ⟨hne, hmem⟩ := not_or.mp (mem_cons.not.mp ha)
      rw [hsame a hmem]
      exact update_of_ne hne _ _

/-! ### New elements at the ends

What is appended or inserted without an anchor goes to one end of the list. The node that is made
without a value gets one through the slot. -/

/-- The list holds these values. -/
def Values (l : ListC V) (vs : List V) : Prop := ∃ els, l.Has els ∧ els.map Prod.snd = vs

/-- Both calls return lists of the same values. -/
def SameValues (run run' : Call (Addr × ListC V)) : Prop :=
  ∃ x y vs, run = .ok x ∧ run' = .ok y ∧ x.2.Values vs ∧ y.2.Values vs

/-- A slot that is assigned holds what the other function puts into the list at once. -/
def NewAgrees (env : ListEnv V) (l : ListC V) (v : V) : Prop :=
  SameValues (l.accInsertingNew env >>= assign v) (l.insert env v) ∧
    SameValues (l.accAppendingNew env >>= assign v) (l.append env v)

theorem Values.unique {vs vs' : List V} (h : l.Values vs) (h' : l.Values vs') : vs = vs' := by
  obtain ⟨els, ⟨hseg, hfirst, -⟩, rfl⟩ := h
  obtain ⟨els', ⟨hseg', hfirst', -⟩, rfl⟩ := h'
  exact hseg.values_unique hseg' (hfirst.symm.trans hfirst')

theorem assign_between (h : l.Has (l₁ ++ (n, v) :: l₂)) (hnodup : n ∉ TwoWay.addrs (l₁ ++ l₂))
    (v' : V) :
    ∃ l', assign v' (n, l) = .ok (n, l') ∧ l'.Has (l₁ ++ (n, v') :: l₂) := by
  obtain ⟨hcut, hn⟩ := linked_between.mp h
  refine ⟨{ l with nodes := l.nodes.put n ⟨back none l₁, front none l₂, v'⟩ }, ?_, ?_⟩
  · rw [assign, Heap.load_of_cell hn]
    rfl
  · refine linked_between.mpr ⟨Cut.congr hcut fun a ha => update_of_ne ?_ _ _, by simp⟩
    rintro rfl
    exact hnodup (by simpa [TwoWay.addrs] using ha)

section Ends

variable (h : l.Has els) (hnodup : (TwoWay.addrs els).Nodup) (env : ListEnv V)

include h

theorem new_not_mem : env.alloc.addr l.nodes ∉ TwoWay.addrs els := by
  intro hmem
  obtain ⟨d, hd⟩ := h.seg.exists_cell hmem
  rw [env.alloc.fresh l.nodes] at hd
  cases hd

theorem has_node_def (v : V) : (l.node_def env v).2.Has els := by
  refine ⟨h.seg.congr fun a ha => update_of_ne ?_ _ _, h.first_eq, h.last_eq⟩
  rintro rfl
  exact new_not_mem h env ha

include hnodup

theorem append_eq (v : V) : ∃ n l', n ∉ TwoWay.addrs els ∧
    l.append_g env l.link_prev v = .ok (n, l') ∧ l'.Has (els ++ [(n, v)]) := by
  have hn := new_not_mem h env
  have hhas : (l.node_def env v).2.Has (els ++ []) := by
    rw [append_nil]
    exact has_node_def h env v
  obtain ⟨l', hlink, hl', -⟩ := linkBehind_eq hhas (by rwa [append_nil])
    (by rwa [append_nil]) (d := ⟨none, none, v⟩) (by simp [node_def])
  refine ⟨_, l', hn, ?_, hl'⟩
  rw [h.last_eq]
  exact hlink

theorem insert_eq (v : V) : ∃ n l', l.insert env v = .ok (n, l') ∧ l'.Has ((n, v) :: els) := by
  have hn := new_not_mem h env
  obtain ⟨l', hlink, hl', -⟩ := linkBefore_eq
    (show Has _ ([] ++ els) from has_node_def h env v) hnodup hn
    (d := ⟨none, none, v⟩) (by simp [node_def])
  refine ⟨_, l', ?_, hl'⟩
  rw [insert, h.first_eq]
  exact hlink

/-- A new node before the last one, whichever that is. -/
theorem accInsertingNew_eq : ∃ n l' l₁ l₂, els = l₁ ++ l₂ ∧ l₁ = els.dropLast ∧
    n ∉ TwoWay.addrs els ∧ l.accInsertingNew env = .ok (n, l') ∧
    l'.Has (l₁ ++ (n, env.undef) :: l₂) := by
  have hn := new_not_mem h env
  have hhas := has_node_def h env env.undef
  -- The last node is the anchor, or nothing in an empty list.
  obtain ⟨l₁, l₂, hels, hdrop, hlast⟩ : ∃ l₁ l₂, els = l₁ ++ l₂ ∧ l₁ = els.dropLast ∧
      back none els = front none l₂ := by
    obtain rfl | ⟨m, z, rfl⟩ := eq_nil_or_concat' els
    · exact ⟨[], [], rfl, rfl, rfl⟩
    · exact ⟨m, [z], rfl, by simp, back_concat none m z⟩
  rw [hels] at hhas hnodup
  obtain ⟨l', hlink, hl', -⟩ := linkBefore_eq hhas hnodup (hels ▸ hn)
    (d := ⟨none, none, env.undef⟩) (by simp [node_def])
  refine ⟨_, l', l₁, l₂, hels, hdrop, hn, ?_, hl'⟩
  rw [accInsertingNew, h.last_eq, hlast]
  exact hlink

theorem accAppendingNew_same (v : V) :
    SameValues (l.accAppendingNew env >>= assign v) (l.append env v) := by
  obtain ⟨n, l', hn, hnew, hl'⟩ := append_eq h hnodup env env.undef
  obtain ⟨m, k, -, happend, hk⟩ := append_eq h hnodup env v
  obtain ⟨l'', hassign, hl''⟩ := assign_between hl' (by rwa [append_nil]) v
  refine ⟨(n, l''), (m, k), els.map Prod.snd ++ [v], ?_, happend, ⟨_, hl'', by simp⟩,
    ⟨_, hk, by simp⟩⟩
  have hrun : l.accAppendingNew env = .ok (n, l') := hnew
  rw [hrun, ok_bind, hassign]

omit h hnodup in
/-- An element that can be moved over all of these is each of them. -/
theorem cons_append_comm_iff {a : V} {m t : List V} :
    a :: (m ++ t) = m ++ a :: t ↔ ∀ b ∈ m, b = a := by
  induction m with
  | nil => simp
  | cons b m ih =>
    rw [cons_append, cons_append, List.cons.injEq, forall_mem_cons]
    constructor
    · rintro ⟨rfl, htail⟩
      exact ⟨rfl, ih.mp htail⟩
    · rintro ⟨rfl, hall⟩
      exact ⟨rfl, ih.mpr hall⟩

/-- The new node comes before the last one, and not in front of all: that makes no difference
exactly if it is equal to every node it should be before. -/
theorem newAgrees_iff (v : V) : NewAgrees env l v ↔ ∀ x ∈ els.dropLast, x.2 = v := by
  obtain ⟨n, l', l₁, l₂, hels, hdrop, hn, hnew, hl'⟩ := accInsertingNew_eq h hnodup env
  obtain ⟨m, k, hinsert, hk⟩ := insert_eq h hnodup env v
  obtain ⟨l'', hassign, hl''⟩ := assign_between hl' (hels ▸ hn) v
  have hrun : (l.accInsertingNew env >>= assign v) = .ok (n, l'') := by rw [hnew, ok_bind, hassign]
  have hvalues : l''.Values (l₁.map Prod.snd ++ v :: l₂.map Prod.snd) := ⟨_, hl'', by simp⟩
  have hvalues' : k.Values (v :: (l₁.map Prod.snd ++ l₂.map Prod.snd)) :=
    ⟨_, hk, by simp [hels]⟩
  rw [← hdrop, ← forall_mem_map (f := Prod.snd) (P := fun b => b = v),
    ← cons_append_comm_iff (t := l₂.map Prod.snd)]
  constructor
  · rintro ⟨⟨x, y, vs, hx, hy, hxs, hys⟩, -⟩
    obtain rfl := Outcome.ok.inj (hrun.symm.trans hx)
    obtain rfl := Outcome.ok.inj (hinsert.symm.trans hy)
    exact (hvalues'.unique hys).trans (hxs.unique hvalues)
  · intro hcomm
    exact ⟨⟨_, _, _, hrun, hinsert, hvalues, hcomm ▸ hvalues'⟩, accAppendingNew_same h hnodup env v⟩

end Ends

end ListC

end Drt
