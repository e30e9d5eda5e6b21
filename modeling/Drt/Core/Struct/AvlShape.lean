import Drt.Core.Struct.Avl
import Drt.Lib.AvlTree
import Drt.Lib.Completes
import Drt.Lib.Pieces

/-!
# The shape of an AVL container

The nodes of a container are those of a tree, with the pointers, balances and directions that the
tree says. `Open` looks at a container with a hole: the nodes above the hole are there, the pointer
to the hole is known, and what belongs in it is still in pieces. `Focus` is a container in which
the hole is filled with a tree; the hole may be moved up and down without a change.
-/

namespace Drt

open AvlTree

/-- What a node of a container is in its tree. -/
structure AvlEntry (K V : Type) where
  addr : Addr
  k : K
  v : V

/-- The trees of a container. -/
abbrev AvlShape (K V : Type) := AvlTree (AvlEntry K V)

/-- The nodes above a place in a container. -/
abbrev AvlPath (K V : Type) := List (Above (AvlEntry K V))

variable {K V : Type}

/-- A node, with the pointer on one side and the one on the other. -/
def AvlEntry.node (e : AvlEntry K V) (d : Side) (near far parent : Option Addr)
    (balance direction : Int) : AvlNode K V :=
  match d with
  | .left => ⟨near, parent, far, balance, direction, e.k, e.v⟩
  | .right => ⟨far, parent, near, balance, direction, e.k, e.v⟩

namespace AvlEntry

variable (e : AvlEntry K V) (d : Side) (near far parent c : Option Addr) (balance direction : Int)

@[simp] theorem parent_node :
    (e.node d near far parent balance direction).parent = parent := by
  cases d <;> rfl

@[simp] theorem balance_node :
    (e.node d near far parent balance direction).balance = balance := by
  cases d <;> rfl

@[simp] theorem direction_node :
    (e.node d near far parent balance direction).direction = direction := by
  cases d <;> rfl

@[simp] theorem k_node : (e.node d near far parent balance direction).k = e.k := by
  cases d <;> rfl

@[simp] theorem lchild_left :
    (e.node .left near far parent balance direction).lchild = near := rfl

@[simp] theorem lchild_right :
    (e.node .right near far parent balance direction).lchild = far := rfl

@[simp] theorem rchild_left :
    (e.node .left near far parent balance direction).rchild = far := rfl

@[simp] theorem ref_near :
    (e.node d near far parent balance direction).ref (1 + d.sign) = .ok near := by
  cases d <;> rfl

@[simp] theorem ref_far :
    (e.node d near far parent balance direction).ref (1 - d.sign) = .ok far := by
  cases d <;> rfl

@[simp] theorem setRef_near :
    (e.node d near far parent balance direction).setRef (1 + d.sign) c =
      .ok (e.node d c far parent balance direction) := by
  cases d <;> rfl

@[simp] theorem setRef_far :
    (e.node d near far parent balance direction).setRef (1 - d.sign) c =
      .ok (e.node d near c parent balance direction) := by
  cases d <;> rfl

end AvlEntry

/-- The pointer to a tree. -/
def top : AvlShape K V → Option Addr
  | .nil => none
  | .node _ e _ _ => some e.addr

/-- The addresses of a tree. -/
def addrs (t : AvlShape K V) : List Addr := t.entries.map AvlEntry.addr

/-- The pointer to the node above. -/
def parentOf : AvlPath K V → Option Addr
  | [] => none
  | f :: _ => some f.entry.addr

/-- The direction in which a place hangs. -/
def dirOf : AvlPath K V → Int
  | [] => 0
  | f :: _ => f.side.sign

/-- The pointer to the root, by the pointer to a place. -/
def rootOf : AvlPath K V → Option Addr → Option Addr
  | [], c => c
  | f :: p, _ => rootOf p (some f.entry.addr)

/-- The addresses above a place. -/
def pathAddrs (p : AvlPath K V) : List Addr :=
  p.flatMap fun f => f.entry.addr :: addrs f.sibling

/-- The nodes of a tree are there. -/
def HoldsTree (cell : Addr → Option (AvlNode K V)) : AvlShape K V → Option Addr → Int → Prop
  | .nil, _, _ => True
  | .node l e b r, parent, direction =>
    cell e.addr = some (e.node .left (top l) (top r) parent b direction) ∧
      HoldsTree cell l (some e.addr) (-1) ∧ HoldsTree cell r (some e.addr) 1

/-- The nodes above a place are there, and a pointer leads to the place. -/
def HoldsPath (cell : Addr → Option (AvlNode K V)) : AvlPath K V → Option Addr → Prop
  | [], _ => True
  | f :: p, c =>
    cell f.entry.addr =
        some (f.entry.node f.side c (top f.sibling) (parentOf p) f.balance (dirOf p)) ∧
      HoldsTree cell f.sibling (some f.entry.addr) (-f.side.sign) ∧
      HoldsPath cell p (some f.entry.addr)

section Tree

variable {cell cell' : Addr → Option (AvlNode K V)} {t x y : AvlShape K V} {e : AvlEntry K V}
  {d : Side} {b : Int} {parent c : Option Addr} {direction : Int} {p : AvlPath K V}
  {f : Above (AvlEntry K V)} {a : Addr}

@[simp] theorem top_nil : top (.nil : AvlShape K V) = none := rfl

@[simp] theorem top_join : top (join d x e b y) = some e.addr := by
  cases d <;> rfl

@[simp] theorem top_eq_none : top t = none ↔ t = .nil := by
  cases t <;> simp [top]

theorem exists_top (ht : t ≠ .nil) : ∃ a, top t = some a :=
  Option.ne_none_iff_exists'.mp fun h => ht (top_eq_none.mp h)

@[simp] theorem addrs_nil : addrs (.nil : AvlShape K V) = [] := rfl

@[simp] theorem pathAddrs_nil : pathAddrs ([] : AvlPath K V) = [] := rfl

@[simp] theorem pathAddrs_cons :
    pathAddrs (f :: p) = f.entry.addr :: (addrs f.sibling ++ pathAddrs p) := rfl

theorem count_addrs_join : (addrs (join d x e b y)).count a =
    [e.addr].count a + ((addrs x).count a + (addrs y).count a) := by
  cases d <;> simp only [addrs, entries_join, Side.line, List.map_append, List.map_cons,
    List.count_append, List.count_cons, List.count_nil] <;> omega

theorem count_pathAddrs_cons : (pathAddrs (f :: p)).count a =
    [f.entry.addr].count a + ((addrs f.sibling).count a + (pathAddrs p).count a) := by
  rw [pathAddrs_cons, ← List.singleton_append, List.count_append, List.count_append]

theorem holdsTree_join : HoldsTree cell (join d x e b y) parent direction ↔
    cell e.addr = some (e.node d (top x) (top y) parent b direction) ∧
      HoldsTree cell x (some e.addr) d.sign ∧ HoldsTree cell y (some e.addr) (-d.sign) := by
  cases d with
  | left => rfl
  | right => exact and_congr Iff.rfl and_comm

theorem HoldsTree.congr (h : HoldsTree cell t parent direction)
    (hsame : ∀ a ∈ addrs t, cell' a = cell a) : HoldsTree cell' t parent direction := by
  induction t generalizing parent direction with
  | nil => trivial
  | node l e b r ihl ihr =>
    obtain ⟨he, hl, hr⟩ := h
    simp only [addrs, entries_node, List.map_append, List.map_cons] at hsame
    refine ⟨(hsame e.addr (by simp)).trans he, ihl hl fun a ha => ?_, ihr hr fun a ha => ?_⟩
    · exact hsame a (List.mem_append_left _ ha)
    · exact hsame a (List.mem_append_right _ (List.mem_cons_of_mem _ ha))

theorem HoldsPath.congr (h : HoldsPath cell p c) (hsame : ∀ a ∈ pathAddrs p, cell' a = cell a) :
    HoldsPath cell' p c := by
  induction p generalizing c with
  | nil => trivial
  | cons f p ih =>
    obtain ⟨hf, hs, hp⟩ := h
    simp only [pathAddrs_cons, List.mem_cons, List.mem_append] at hsame
    refine ⟨(hsame _ (.inl rfl)).trans hf, hs.congr fun a ha => ?_, ih hp fun a ha => ?_⟩
    · exact hsame a (.inr (.inl ha))
    · exact hsame a (.inr (.inr ha))

theorem HoldsTree.live (h : HoldsTree cell t parent direction) (a : Addr) (ha : a ∈ addrs t) :
    (cell a).isSome := by
  induction t generalizing parent direction with
  | nil => simp at ha
  | node l e b r ihl ihr =>
    obtain ⟨he, hl, hr⟩ := h
    simp only [addrs, entries_node, List.map_append, List.map_cons, List.mem_append,
      List.mem_cons] at ha
    obtain ha | rfl | ha := ha
    · exact ihl hl ha
    · simp [he]
    · exact ihr hr ha

theorem HoldsPath.live (h : HoldsPath cell p c) (a : Addr) (ha : a ∈ pathAddrs p) :
    (cell a).isSome := by
  induction p generalizing c with
  | nil => simp at ha
  | cons f p ih =>
    obtain ⟨hf, hs, hp⟩ := h
    rw [pathAddrs_cons, List.mem_cons, List.mem_append] at ha
    obtain rfl | ha | ha := ha
    · simp [hf]
    · exact hs.live a ha
    · exact ih hp ha

/-- The nodes of a tree, as a piece of a heap. -/
def treePiece (t : AvlShape K V) (parent : Option Addr) (direction : Int) :
    Piece (AvlNode K V) where
  addrs := addrs t
  Holds cell := HoldsTree cell t parent direction
  congr hsame h := h.congr hsame
  live h := h.live

/-- The nodes above a place, as a piece of a heap. -/
def pathPiece (p : AvlPath K V) (c : Option Addr) : Piece (AvlNode K V) where
  addrs := pathAddrs p
  Holds cell := HoldsPath cell p c
  congr hsame h := h.congr hsame
  live h := h.live

@[simp] theorem addrs_treePiece : (treePiece t parent direction).addrs = addrs t := rfl

@[simp] theorem addrs_pathPiece : (pathPiece p c).addrs = pathAddrs p := rfl

/-- The root of a tree hangs from another node. -/
theorem HoldsTree.setParent (h : HoldsTree cell t parent direction) (hnodup : (addrs t).Nodup)
    {n : AvlNode K V} (ha : top t = some a) (hn : cell a = some n) (parent' : Option Addr)
    (direction' : Int) :
    HoldsTree (Function.update cell a (some { n with parent := parent', direction := direction' }))
      t parent' direction' := by
  cases t with
  | nil => trivial
  | node l e b r =>
    obtain rfl : e.addr = a := Option.some.inj ha
    obtain ⟨he, hl, hr⟩ := h
    rw [he, Option.some.injEq] at hn
    subst hn
    simp only [addrs, entries_node, List.map_append, List.map_cons, List.nodup_middle,
      List.nodup_cons, List.mem_append, not_or] at hnodup
    refine ⟨Function.update_self .., hl.congr fun b hb => ?_, hr.congr fun b hb => ?_⟩
    · refine Function.update_of_ne ?_ ..
      rintro rfl
      exact hnodup.1.1 hb
    · refine Function.update_of_ne ?_ ..
      rintro rfl
      exact hnodup.1.2 hb

theorem mem_addrs_of_top (ha : top t = some a) : a ∈ addrs t := by
  cases t with
  | nil => cases ha
  | node l e b r =>
    obtain rfl := Option.some.inj ha
    simp [addrs]

theorem HoldsTree.exists_node (h : HoldsTree cell t parent direction) (ha : top t = some a) :
    ∃ m, cell a = some m ∧ m.parent = parent ∧ m.balance = t.balance ∧
      m.direction = direction := by
  cases t with
  | nil => cases ha
  | node l e b r =>
    obtain rfl := Option.some.inj ha
    exact ⟨_, h.1, rfl, rfl, rfl⟩

end Tree

end Drt

/-!
## Writes to an AVL container

What each write of the code makes of a container with a hole. A pointer and the node it leads to
are changed together by `hang`, and the pointer to the hole by `replaceChild`.
-/

namespace Drt

open AvlTree Outcome

namespace Avl

variable {K V : Type}

/-- A container with a hole at the end of a path, a pointer to it, and what belongs in it. -/
structure Open (s : Avl K V) (lowest : Option Addr) (count : Nat) (p : AvlPath K V)
    (c : Option Addr) (ps : List (Piece (AvlNode K V))) : Prop where
  pieces : Pieces s.nodes.cell (pathPiece p c :: ps)
  root : s.root = rootOf p c
  lowest : s.lowest = lowest
  count : s.item_count = count

/-- A container with a tree at the end of a path, and nodes that are not in it. -/
abbrev Focus (s : Avl K V) (lowest : Option Addr) (count : Nat) (p : AvlPath K V)
    (t : AvlShape K V) (rest : List (Piece (AvlNode K V))) : Prop :=
  s.Open lowest count p (top t) (treePiece t (parentOf p) (dirOf p) :: rest)

variable {s : Avl K V} {lo : Option Addr} {n : Nat} {p : AvlPath K V} {c : Option Addr}
  {ps qs rest : List (Piece (AvlNode K V))} {t x y : AvlShape K V} {e : AvlEntry K V}
  {f : Above (AvlEntry K V)} {d : Side} {b : Int} {a : Addr} {i j : Nat} {m m' : AvlNode K V}

namespace Open

/-- Another path and other contents that make up the same container. -/
theorem congr_iff {p' : AvlPath K V} {c' : Option Addr}
    (hpieces : Pieces s.nodes.cell (pathPiece p c :: ps) ↔ Pieces s.nodes.cell (pathPiece p' c' :: qs))
    (hroot : rootOf p c = rootOf p' c') : s.Open lo n p c ps ↔ s.Open lo n p' c' qs :=
  ⟨fun H => ⟨hpieces.mp H.pieces, H.root.trans hroot, H.lowest, H.count⟩,
    fun H => ⟨hpieces.mpr H.pieces, H.root.trans hroot.symm, H.lowest, H.count⟩⟩

/-- The first pieces in the hole in another order, by their numbers. -/
theorem pick (H : s.Open lo n p c ps) (is : List Nat) (his : is.Perm (List.range is.length)) :
    s.Open lo n p c (is.filterMap (ps[·]?) ++ ps.drop is.length) :=
  ⟨H.pieces.perm ((Pieces.perm_pick his ps).cons _), H.root, H.lowest, H.count⟩

variable {parent : Option Addr} {direction : Int}

theorem join_iff :
    s.Open lo n p c (treePiece (join d x e b y) parent direction :: rest) ↔
      s.Open lo n p c (.node e.addr (e.node d (top x) (top y) parent b direction) ::
        treePiece x (some e.addr) d.sign :: treePiece y (some e.addr) (-d.sign) :: rest) := by
  refine congr_iff (Pieces.regroup_iff ?_ fun q => ?_) rfl
  · simp only [List.forall_mem_cons, treePiece, holdsTree_join, Piece.node]
    tauto
  · simp only [List.flatMap_cons, List.count_append, Piece.addrs_node, addrs_treePiece,
      count_addrs_join]
    omega

theorem nil_iff :
    s.Open lo n p c (treePiece .nil parent direction :: rest) ↔ s.Open lo n p c rest := by
  refine congr_iff (Pieces.regroup_iff ?_ fun q => ?_) rfl
  · simp [treePiece, HoldsTree]
  · simp

section

variable (H : s.Open lo n p c ps)
include H

theorem load (hi : ps[i]? = some (.node a m)) : (s.nodes.load a : Call (AvlNode K V)) = .ok m :=
  Heap.load_of_cell (H.pieces.get (i := i + 1) hi)

theorem modify (i : Nat) (hi : ps[i]? = some (.node a m)) (m' : AvlNode K V)
    {f : AvlNode K V → Call (AvlNode K V)} (hf : f m = .ok m') :
    Yields (fun _ => s.modify a f) fun s' => s'.Open lo n p c (ps.set i (.node a m')) := by
  refine .of_eq (a := { s with nodes := s.nodes.put a m' }) ?_ ⟨?_, H.root, H.lowest, H.count⟩
  · simp [Avl.modify, H.load hi, hf]
  · exact H.pieces.put (i := i + 1) hi m'

/-- A tree in the hole gets another parent. -/
theorem adopt (j : Nat) (hj : ps[j]? = some (treePiece t parent direction)) (ha : top t = some a)
    {parent' : Option Addr} {direction' : Int} {f : AvlNode K V → Call (AvlNode K V)}
    (hf : ∀ m, m.direction = direction →
      f m = .ok { m with parent := parent', direction := direction' }) :
    Yields (fun _ => s.modify a f) fun s' =>
      s'.Open lo n p c (ps.set j (treePiece t parent' direction')) := by
  have hget : HoldsTree s.nodes.cell t parent direction := H.pieces.get (i := j + 1) hj
  obtain ⟨m, hm, _, _, hdirection⟩ := hget.exists_node ha
  have hnodup : (addrs t).Nodup := H.pieces.nodup_get (i := j + 1) hj
  refine .of_eq (a := { s with
    nodes := s.nodes.put a { m with parent := parent', direction := direction' } }) ?_
    ⟨?_, H.root, H.lowest, H.count⟩
  · simp [Avl.modify, Heap.load_of_cell hm, hf m hdirection]
  · refine H.pieces.replace (i := j + 1) hj rfl (fun b hb => Function.update_of_ne ?_ ..) ?_
    · rintro rfl
      exact hb (mem_addrs_of_top ha)
    · exact hget.setParent hnodup ha hm parent' direction'

/-- A tree is hung from a node, both of them in the hole. -/
theorem hang (i j : Nat) {k : Int} (hi : ps[i]? = some (.node a m))
    (hm : m.setRef k (top t) = .ok m')
    (hj : (ps.set i (.node a m'))[j]? = some (treePiece t parent direction)) (direction' : Int) :
    Yields (fun _ => s.hang a k (top t) direction') fun s' =>
      s'.Open lo n p c ((ps.set i (.node a m')).set j (treePiece t (some a) direction')) := by
  refine (H.modify i hi m' hm).bind fun s₁ H₁ => ?_
  cases htop : top t with
  | none =>
    obtain rfl := top_eq_none.mp htop
    refine .ok ⟨H₁.pieces.replace (i := j + 1) hj rfl (fun _ _ => rfl) trivial, H₁.root,
      H₁.lowest, H₁.count⟩
  | some b => exact H₁.adopt j hj htop fun m _ => rfl

/-- A tree in the hole gets another parent, if there is a tree. -/
theorem setParent (j : Nat) (hj : ps[j]? = some (treePiece t parent direction)) (a : Addr) :
    Yields (fun _ => s.setParent (top t) a) fun s' =>
      s'.Open lo n p c (ps.set j (treePiece t (some a) direction)) := by
  cases htop : top t with
  | none =>
    obtain rfl := top_eq_none.mp htop
    refine .ok ⟨H.pieces.replace (i := j + 1) hj rfl (fun _ _ => rfl) trivial, H.root,
      H.lowest, H.count⟩
  | some b => exact H.adopt j hj htop fun m hm => by rw [← hm]

end

section

variable (H : s.Open lo n (f :: p) c ps)
include H

/-- A write to the pointer and the balance of the node above the hole. -/
theorem modifyAbove (c' : Option Addr) (b : Int) {g : AvlNode K V → Call (AvlNode K V)}
    (hg : g (f.entry.node f.side c (top f.sibling) (parentOf p) f.balance (dirOf p)) =
      .ok (f.entry.node f.side c' (top f.sibling) (parentOf p) b (dirOf p))) :
    Yields (fun _ => s.modify f.entry.addr g) fun s' => s'.Open lo n (f.weigh b :: p) c' ps := by
  obtain ⟨hf, hs, hp⟩ := H.pieces.get (i := 0) rfl
  have hnodup : (pathAddrs (f :: p)).Nodup := H.pieces.nodup_get (i := 0) rfl
  simp only [pathAddrs_cons, List.nodup_cons, List.mem_append, not_or] at hnodup
  have hother : ∀ b, b ≠ f.entry.addr → ∀ m, Function.update s.nodes.cell f.entry.addr (some m) b =
      s.nodes.cell b := fun b hb m => Function.update_of_ne hb ..
  let m' := f.entry.node f.side c' (top f.sibling) (parentOf p) b (dirOf p)
  refine .of_eq (a := { s with nodes := s.nodes.put f.entry.addr m' }) ?_
    ⟨?_, H.root, H.lowest, H.count⟩
  · simp [Avl.modify, Heap.load_of_cell hf, hg, m']
  · refine H.pieces.replace (i := 0) rfl rfl (fun b hb => hother b ?_ _) ⟨?_, ?_, ?_⟩
    · rintro rfl
      exact hb List.mem_cons_self
    · exact Function.update_self ..
    · exact hs.congr fun b hb => hother b (fun heq => hnodup.1.1 (heq ▸ hb)) _
    · exact hp.congr fun b hb => hother b (fun heq => hnodup.1.2 (heq ▸ hb)) _

theorem setPointer (c' : Option Addr) :
    Yields (fun _ => s.modify f.entry.addr fun m => m.setRef (1 + f.side.sign) c') fun s' =>
      s'.Open lo n (f :: p) c' ps :=
  H.modifyAbove c' f.balance (AvlEntry.setRef_near ..)

/-- A tree in the hole is hung from the node above the hole. -/
theorem hangAbove (j : Nat) (hj : ps[j]? = some (treePiece t parent direction)) :
    Yields (fun _ => s.hang f.entry.addr (1 + f.side.sign) (top t) f.side.sign) fun s' =>
      s'.Open lo n (f :: p) (top t)
        (ps.set j (treePiece t (some f.entry.addr) f.side.sign)) := by
  refine (H.setPointer (top t)).bind fun s₁ H₁ => ?_
  cases htop : top t with
  | none =>
    obtain rfl := top_eq_none.mp htop
    exact .ok ⟨H₁.pieces.replace (i := j + 1) hj rfl (fun _ _ => rfl) trivial, H₁.root,
      H₁.lowest, H₁.count⟩
  | some b =>
    rw [htop] at H₁
    exact H₁.adopt j hj htop fun m _ => rfl

end

theorem replaceChild (H : s.Open lo n p c ps) (a : Addr) :
    Yields (fun _ => s.replaceChild (parentOf p) (dirOf p) a) fun s' =>
      s'.Open lo n p (some a) ps := by
  cases p with
  | nil =>
    exact .ok ⟨H.pieces.replace (i := 0) rfl rfl (fun _ _ => rfl) trivial, rfl, H.lowest, H.count⟩
  | cons f p => exact H.setPointer (some a)

theorem destroy (H : s.Open lo n p c (.node a m :: rest)) :
    Yields (fun _ => s.node_destroy a) fun s' => s'.Open lo n p c rest := by
  have hpieces := H.pieces.perm (.swap (pathPiece p c) (.node a m) rest)
  refine .of_eq (a := { s with nodes := s.nodes.erase a }) ?_
    ⟨hpieces.free, H.root, H.lowest, H.count⟩
  simp [node_destroy, Heap.load_of_cell (hpieces.get (i := 0) rfl)]

theorem load_above (H : s.Open lo n (f :: p) c ps) :
    (s.nodes.load f.entry.addr : Call (AvlNode K V)) =
      .ok (f.entry.node f.side c (top f.sibling) (parentOf p) f.balance (dirOf p)) :=
  Heap.load_of_cell (H.pieces.get (i := 0) rfl).1

end Open

namespace Focus

theorem load_top (H : s.Focus lo n p t rest) (ha : top t = some a) :
    ∃ m, (s.nodes.load a : Call (AvlNode K V)) = .ok m ∧ m.parent = parentOf p ∧
      m.balance = t.balance ∧ m.direction = dirOf p := by
  obtain ⟨m, hm, hrest⟩ := HoldsTree.exists_node (H.pieces.get (i := 1) rfl) ha
  exact ⟨m, Heap.load_of_cell hm, hrest⟩

theorem load_join (H : s.Focus lo n p (join d x e b y) rest) :
    (s.nodes.load e.addr : Call (AvlNode K V)) =
      .ok (e.node d (top x) (top y) (parentOf p) b (dirOf p)) :=
  Heap.load_of_cell (holdsTree_join.mp (H.pieces.get (i := 1) rfl)).1

theorem weigh (H : s.Focus lo n (f :: p) t rest) (b : Int) {g : AvlNode K V → Call (AvlNode K V)}
    (hg : ∀ m, m.balance = f.balance → g m = .ok { m with balance := b }) :
    Yields (fun _ => s.modify f.entry.addr g) fun s' => s'.Focus lo n (f.weigh b :: p) t rest := by
  refine H.modifyAbove (top t) b ((hg _ (AvlEntry.balance_node ..)).trans ?_)
  cases f.side <;> rfl

theorem cons_iff : s.Focus lo n (f :: p) t rest ↔ s.Focus lo n p (attach f t) rest := by
  refine Open.congr_iff (Pieces.regroup_iff ?_ fun q => ?_) ?_
  · simp only [List.forall_mem_cons, pathPiece, treePiece, attach, holdsTree_join, top_join,
      HoldsPath, parentOf, dirOf]
    tauto
  · simp only [List.flatMap_cons, List.count_append, addrs_pathPiece, addrs_treePiece, attach,
      count_addrs_join, count_pathAddrs_cons]
    omega
  · rw [attach, top_join]
    rfl

theorem join_iff : s.Focus lo n p (join d x e b y) rest ↔
    s.Focus lo n (⟨d.other, e, b, x⟩ :: p) y rest := by
  rw [cons_iff, attach, join_other]

theorem destroy (H : s.Focus lo n p t (.node a m :: rest)) :
    Yields (fun _ => s.node_destroy a) fun s' => s'.Focus lo n p t rest :=
  Open.destroy (H.pick [1, 0] (.swap 0 1 []))

theorem plug_iff : s.Focus lo n p t rest ↔ s.Focus lo n [] (plug t p) rest := by
  induction p generalizing t with
  | nil => rfl
  | cons f p ih => exact cons_iff.trans ih

end Focus

end Avl

end Drt
