import Drt.Core.Struct.AvlSearch

/-!
# Insertion into an AVL container, and removal

What holds of a container between two calls, and that a new node keeps it and the removal of one.
-/

namespace Drt

open AvlEntry

open AvlTree Outcome

namespace Avl

variable {K V : Type} {env : AvlEnv K V} {s : Avl K V} {lo : Option Addr} {n : Nat}
  {p : AvlPath K V} {T : AvlShape K V} {key : K} {value : V} {c : Option Addr}
  {ps : List (Piece (AvlNode K V))} {e : AvlEntry K V} {f : Above (AvlEntry K V)} {a : Addr}

/-- The pointer to the first node. -/
def lowestOf (T : AvlShape K V) : Option Addr := T.entries.head?.map AvlEntry.addr

/-- The container is this tree. -/
structure Inv (env : AvlEnv K V) (s : Avl K V) (T : AvlShape K V) : Prop where
  focus : s.Focus (lowestOf T) T.entries.length [] T []
  balanced : T.Balanced
  ordered : Ordered env T.entries

theorem Open.alloc (H : s.Open lo n p c ps) (ha : s.nodes.cell a = none) (m : AvlNode K V) :
    Open { s with nodes := s.nodes.put a m } lo n p c (.node a m :: ps) :=
  ⟨(H.pieces.alloc ha m).perm (.swap (.node a m) (pathPiece p c) ps), H.root, H.lowest, H.count⟩

theorem Open.setLowest (H : s.Open lo n p c ps) (cond : Prop) [Decidable cond] (r : Option Addr) :
    Open (if cond then { s with lowest := r } else s) (if cond then r else lo) n p c ps := by
  split
  · exact ⟨H.pieces, H.root, rfl, H.count⟩
  · exact H

/-- The new node is linked. -/
theorem Open.leaf {parent : Option Addr} {direction : Int} {rest : List (Piece (AvlNode K V))}
    (H : s.Open lo n p (some e.addr) (.node e.addr
      (e.node .left none none (parentOf p) 0 (dirOf p)) :: treePiece .nil parent direction :: rest)) :
    s.Focus lo n p (leaf e) rest := by
  have hnode := Open.nil_iff.mp (H.pick [1, 0] (.swap 0 1 []))
  have hsubtrees : s.Open lo n p (some e.addr)
      (treePiece .nil (some e.addr) Side.left.sign ::
        treePiece .nil (some e.addr) (-Side.left.sign) ::
        .node e.addr (e.node .left none none (parentOf p) 0 (dirOf p)) :: rest) :=
    Open.nil_iff.mpr (Open.nil_iff.mpr hnode)
  exact Open.join_iff (d := .left).mpr (hsubtrees.pick [2, 0, 1] (by decide))

/-- A new node becomes the first one if it is the left child of the one that was. -/
theorem lowestOf_insert (e : AvlEntry K V) (hnodup : (addrs (plug .nil (f :: p))).Nodup) :
    lowestOf (plug (leaf e) (f :: p)) =
      if some f.entry.addr = lowestOf (plug .nil (f :: p)) ∧ f.side.sign < 0 then some e.addr
      else lowestOf (plug .nil (f :: p)) := by
  unfold lowestOf
  rw [addrs, entries_plug, entries_nil, List.nil_append] at hnodup
  rw [entries_plug, entries_plug]
  simp only [leaf, entries_node, entries_nil, List.nil_append, List.cons_append]
  obtain ⟨side, g, b, w⟩ := f
  cases side with
  | left =>
    simp only [before, after] at hnodup ⊢
    by_cases hnil : before p = []
    · simp [hnil]
    · obtain ⟨x, l, hbefore⟩ := List.exists_cons_of_ne_nil hnil
      have hne : g.addr ≠ x.addr := by
        rintro heq
        simp [hbefore, heq] at hnodup
      simp [hbefore, hne]
  | right =>
    have hne : before (⟨.right, g, b, w⟩ :: p) ≠ [] := by simp [before]
    obtain ⟨x, l, hbefore⟩ := List.exists_cons_of_ne_nil hne
    simp [hbefore]

/-- A new node where its key belongs. -/
theorem Inv.insertAt_yields (hinv : s.Inv env T) (hplug : plug .nil p = T)
    (hleads : Leads env key p) (value : V) :
    Yields (fun fuel => s.insertAt env fuel (slotOf p) (dirOf p) key value) fun s' =>
      ∃ T', Grown (leaf ⟨env.alloc.addr s.nodes, key, value⟩) p T' ∧ s'.Inv env T' := by
  subst hplug
  obtain ⟨r, hr⟩ : ∃ r, r = env.alloc.addr s.nodes := ⟨_, rfl⟩
  have hfree : s.nodes.cell r = none := hr ▸ env.alloc.fresh s.nodes
  have hnodup : (addrs (plug .nil p)).Nodup := hinv.focus.pieces.nodup_get (i := 1) rfl
  obtain ⟨hbalanced, hfits⟩ := (balanced_plug _ _).mp hinv.balanced
  have hfocus := Focus.plug_iff.mpr hinv.focus
  have hentries : (plug (leaf ⟨r, key, value⟩) p).entries.length =
      (plug .nil p).entries.length + 1 := by
    simp [AvlTree.leaf]
    omega
  have hordered : Ordered env (plug (leaf ⟨r, key, value⟩) p).entries :=
    hleads.ordered hinv.ordered rfl
  unfold insertAt node_def
  simp only [← hr]
  have O := hfocus.alloc hfree ⟨none, none, none, env.uninit, env.uninit, key, value⟩
  refine (O.storeSlot (some r)).bind fun s₁ O₁ => ?_
  have O₂ : Open { s₁ with item_count := s₁.item_count + 1 } _ _ _ _ _ :=
    ⟨O₁.pieces, O₁.root, O₁.lowest, congrArg (· + 1) O₁.count⟩
  refine (O₂.modify 0 rfl ⟨none, none, none, 0, dirOf p, key, value⟩ rfl).bind fun s₃ O₃ => ?_
  cases p with
  | nil =>
    simp only [dirOf, if_true]
    refine (O₃.modify 0 rfl ⟨none, none, none, 0, 0, key, value⟩ (by rfl)).bind fun s₄ O₄ => ?_
    have O₅ : Open { s₄ with lowest := some r } (some r) _ _ _ _ :=
      ⟨O₄.pieces, O₄.root, rfl, O₄.count⟩
    exact .ok ⟨_, .root _, ⟨Open.leaf (e := ⟨r, key, value⟩) O₅, balanced_leaf _, hordered⟩⟩
  | cons f p =>
    simp only [dirOf, f.side.sign_ne_zero, if_false, slotOf]
    refine (O₃.modify 0 rfl ⟨none, some f.entry.addr, none, 0, f.side.sign, key, value⟩ rfl).bind
      fun s₄ O₄ => ?_
    have O₅ := O₄.setLowest (some f.entry.addr = s₄.lowest ∧ f.side.sign < 0) (some r)
    have hlowest := lowestOf_insert ⟨r, key, value⟩ hnodup
    rw [← O₄.lowest] at hlowest
    rw [← O₄.lowest, ← hlowest] at O₅
    have H := Open.leaf (e := ⟨r, key, value⟩) O₅
    unfold rebalanceAdded_g
    refine .bind_eq (Focus.load_join (d := .left) H) (.bind_eq (Outcome.ofOption_some _) ?_)
    refine (rebalanceAdded_yields H (balanced_leaf _) rfl hfits (.inr rfl) rfl).imp ?_
    rintro s' ⟨T', hgrown, H'⟩
    have heq := hgrown.entries
    refine ⟨T', hgrown, ⟨?_, hgrown.balanced (balanced_leaf _) rfl hfits, heq ▸ hordered⟩⟩
    rw [lowestOf, heq, hentries]
    exact H'

end Avl

/-! ### Removal from an AVL container

The node that is removed leaves its place to the next one on its higher side. The tree has become
lower where that one was, and is rebalanced from there. -/

namespace Avl

variable {K V : Type} {env : AvlEnv K V} {s : Avl K V} {lo : Option Addr} {n : Nat}
  {p q : AvlPath K V} {l r t x y T : AvlShape K V} {key : K} {value : V} {c : Option Addr}
  {ps rest : List (Piece (AvlNode K V))} {e g : AvlEntry K V} {f : Above (AvlEntry K V)} {a : Addr}
  {d : Side} {b be : Int}

/-- The way always to the other side ends at the last node. -/
theorem descend_returns (H : s.Focus lo n p (plug (join d y e be .nil) q) rest)
    (hq : ∀ f ∈ q, f.side = d.other) (ha : top (plug (join d y e be .nil) q) = some a) :
    Returns (fun fuel => s.descend (1 - d.sign) fuel a) e.addr := by
  induction q using List.reverseRecOn generalizing p a with
  | nil =>
    obtain rfl : e.addr = a := by simpa using ha
    refine .of_succ_ok fun fuel => ?_
    rw [descend, Focus.load_join (y := .nil) H]
    simp
  | append_singleton q f ih =>
    obtain ⟨side, g, b, w⟩ := f
    obtain rfl : side = d.other := hq _ List.mem_concat_self
    rw [plug_append, plug_cons, plug_nil, attach, join_other] at H ha
    obtain rfl : g.addr = a := by simpa using ha
    obtain ⟨a', ha'⟩ := exists_top (plug_ne_nil q (join_ne_nil d y .nil e be))
    refine (ih (Focus.join_iff.mp H) (fun f hf => hq f (by simp [hf])) ha').of_succ fun fuel => ?_
    rw [descend, H.load_join]
    simp [ha']

/-- What is left at the place of a node, when its neighbour has come there. -/
theorem replaceNode_yields {repl : AvlEntry K V} {node : AvlEntry K V} {bn : Int} {m : AvlNode K V}
    {parent : Addr} {dir : Int} (hparent : parentOf (q ++ ⟨d, repl, b, x⟩ :: p) = some parent)
    (hdir : dirOf (q ++ ⟨d, repl, b, x⟩ :: p) = dir)
    (hfits : Fits (q ++ ⟨d, repl, b, x⟩ :: p) (y.height + 1))
    (H : s.Open lo n p (some node.addr)
      (.node node.addr m :: .node repl.addr (repl.node d (top (plug y q)) (top x) c bn be) ::
        treePiece (plug y q) (some repl.addr) d.sign ::
        treePiece x (some repl.addr) (-d.sign) :: rest))
    (hm : m.parent = parentOf p ∧ m.balance = b ∧ m.direction = dirOf p) :
    Yields (fun fuel => s.replaceNode fuel node.addr repl.addr parent dir) fun s' =>
      ∃ T, Shrunk y (q ++ ⟨d, repl, b, x⟩ :: p) T ∧ s'.Focus lo n [] T rest := by
  obtain ⟨hmp, hmb, hmd⟩ := hm
  refine .bind_eq (H.load (i := 0) rfl) ?_
  rw [hmp, hmb, hmd]
  refine (H.modify 1 rfl (repl.node d (top (plug y q)) (top x) (parentOf p) b (dirOf p))
    (by cases d <;> rfl)).bind fun s₁ H₁ => ?_
  refine (H₁.replaceChild repl.addr).bind fun s₂ H₂ => ?_
  have hfocus : s₂.Focus lo n (q ++ ⟨d, repl, b, x⟩ :: p) y (.node node.addr m :: rest) := by
    rw [Focus.plug_iff, plug_append, plug_cons, ← Focus.plug_iff, Focus, attach, top_join,
      Open.join_iff]
    exact H₂.pick [1, 2, 3, 0] (by decide)
  have hremoved := rebalanceRemoved_yields hfocus hfits
  simp only [removedFrom, hparent, hdir] at hremoved
  refine hremoved.bind ?_
  rintro s₃ ⟨T, hT, H₃⟩
  exact (Focus.destroy H₃).imp fun s' H' => ⟨T, hT, H'⟩

/-- A tree is taken over from one node by another one, both of them and the tree in the hole. -/
theorem Open.takeOver {m m' mg : AvlNode K V} {k : Int} {parent : Option Addr} {direction : Int}
    (H : s.Open lo n p c ps) (i j h : Nat) {repl node : Addr} (hi : ps[i]? = some (.node node mg))
    (href : mg.ref k = .ok (top t)) (hj : ps[j]? = some (.node repl m))
    (hset : m.setRef k (top t) = .ok m')
    (hh : (ps.set j (.node repl m'))[h]? = some (treePiece t parent direction)) :
    Yields (fun _ => s.takeOver repl node k) fun s' => s'.Open lo n p c
      ((ps.set j (.node repl m')).set h (treePiece t (some repl) direction)) := by
  refine .bind_eq (H.load hi) (.bind_eq href ?_)
  refine (H.modify j hj m' hset).bind fun s₁ H₁ => ?_
  exact H₁.setParent h hh repl

/-- A leaf is removed. -/
theorem removeLeaf_yields (H : s.Focus lo n (f :: p) (leaf e) rest) (hfits : Fits (f :: p) 1) :
    Yields (fun fuel => s.removeNode fuel e.addr) fun s' =>
      ∃ T, Shrunk .nil (f :: p) T ∧ s'.Focus lo n [] T rest := by
  refine .bind_eq (Focus.load_join (d := .left) (x := .nil) (y := .nil) H) ?_
  simp only [balance_node, parent_node, direction_node]
  simp only [lchild_left, top_nil, and_self, if_true, parentOf, dirOf]
  refine .bind_eq (Outcome.ofOption_some _) ?_
  refine (H.setPointer none).bind fun s₁ H₁ => ?_
  have hfocus : s₁.Focus lo n (f :: p) .nil
      (.node e.addr (e.node .left none none (some f.entry.addr) 0 f.side.sign) :: rest) := by
    have hnode := Open.join_iff (d := .left).mp H₁
    exact Open.nil_iff.mpr (Open.nil_iff.mp (Open.nil_iff.mp (hnode.pick [1, 2, 0] (by decide))))
  have hremoved := rebalanceRemoved_yields hfocus hfits
  simp only [removedFrom, parentOf, dirOf] at hremoved
  refine hremoved.bind ?_
  rintro s₃ ⟨T, hT, H₃⟩
  exact (Focus.destroy H₃).imp fun s' H' => ⟨T, hT, H'⟩

/-- A node with subtrees is removed: `e` comes in the place of `g`. -/
theorem removeInner_yields
    (H : s.Focus lo n p (join d (plug (join d y e be .nil) q) g b x) rest)
    (hq : ∀ f ∈ q, f.side = d.other) (hb : (if b = 0 then 1 else b) = d.sign)
    (hinner : b = 0 → x ≠ .nil) (hfits : Fits (q ++ ⟨d, e, b, x⟩ :: p) (y.height + 1)) :
    Yields (fun fuel => s.removeNode fuel g.addr) fun s' =>
      ∃ T, Shrunk y (q ++ ⟨d, e, b, x⟩ :: p) T ∧ s'.Focus lo n [] T rest := by
  have hplace : s.Focus lo n (⟨d, g, b, x⟩ :: p) (plug (join d y e be .nil) q) rest :=
    Focus.cons_iff.mpr H
  have hrepl : s.Focus lo n (q ++ ⟨d, g, b, x⟩ :: p) (join d y e be .nil) rest := by
    rw [Focus.plug_iff, plug_append]
    exact Focus.plug_iff.mp hplace
  obtain ⟨a, ha⟩ := exists_top (plug_ne_nil q (join_ne_nil d y .nil e be))
  refine .bind_eq H.load_join ?_
  have hcond : ¬ (b = 0 ∧ (g.node d (top (plug (join d y e be .nil) q)) (top x) (parentOf p) b
      (dirOf p)).lchild = none) := by
    rintro ⟨rfl, hl⟩
    obtain rfl : d = .right := Side.sign_inj.mp hb.symm
    exact hinner rfl (top_eq_none.mp hl)
  simp only [balance_node, if_neg hcond, hb]
  refine .bind_eq (ref_near ..) ?_
  rw [ha]
  refine .bind_eq (Outcome.ofOption_some _) (.bind_returns (descend_returns hplace hq ha) ?_)
  refine .bind_eq hrepl.load_join ?_
  simp only [parent_node]
  cases q with
  | nil =>
    refine .bind_eq (Outcome.ofOption_some _) ?_
    simp only [if_true]
    have O : s.Open lo n p (some g.addr)
        (.node g.addr (g.node d (some e.addr) (top x) (parentOf p) b (dirOf p)) ::
          .node e.addr (e.node d (top y) none (some g.addr) be d.sign) ::
          treePiece y (some e.addr) d.sign :: treePiece x (some g.addr) (-d.sign) :: rest) := by
      have hroot := Open.join_iff.mp H
      simp only [top_join, plug_nil] at hroot
      have hchild := Open.join_iff.mp (hroot.pick [1, 0, 2] (by decide))
      exact Open.nil_iff.mp (hchild.pick [2, 3, 0, 1, 4] (by decide))
    refine (O.takeOver 0 1 3 rfl (ref_far ..) rfl (setRef_far ..) rfl).bind
      fun s₁ H₁ => ?_
    refine replaceNode_yields (q := []) rfl rfl hfits H₁ ⟨?_, ?_, ?_⟩
    all_goals simp
  | cons f q =>
    have hne : f.entry.addr ≠ g.addr := by
      have hnodup : (pathAddrs (f :: q ++ ⟨d, g, b, x⟩ :: p)).Nodup :=
        hrepl.pieces.nodup_get (i := 0) rfl
      rintro heq
      simp [pathAddrs, heq] at hnodup
    have hside : f.side = d.other := hq f List.mem_cons_self
    refine .bind_eq (Outcome.ofOption_some _) ?_
    simp only [if_neg hne]
    refine .bind_eq (ref_near ..) ?_
    have O : s.Open lo n (f :: (q ++ ⟨d, g, b, x⟩ :: p)) (some e.addr)
        (.node e.addr (e.node d (top y) none (some f.entry.addr) be f.side.sign) ::
          treePiece y (some e.addr) d.sign :: rest) := by
      have hroot := Open.join_iff.mp hrepl
      rw [top_join] at hroot
      exact Open.nil_iff.mp (hroot.pick [2, 0, 1] (by decide))
    generalize hm : e.node d (top y) none (some f.entry.addr) be f.side.sign = m at O
    have hhang := O.hangAbove 1 rfl
    rw [hside, Side.sign_other, ← Int.sub_eq_add_neg] at hhang
    refine hhang.bind fun s₁ O₁ => ?_
    have hhung : s₁.Focus lo n (f :: q ++ ⟨d, g, b, x⟩ :: p) y (.node e.addr m :: rest) := by
      simp only [Focus, List.cons_append, parentOf, dirOf, hside, Side.sign_other]
      exact O₁.pick [1, 0] (.swap 0 1 [])
    rw [Focus.plug_iff, plug_append, plug_cons, ← Focus.plug_iff, attach] at hhung
    have O₂ : s₁.Open lo n p (some g.addr)
        (.node g.addr (g.node d (top (plug y (f :: q))) (top x) (parentOf p) b (dirOf p)) ::
          .node e.addr m :: treePiece (plug y (f :: q)) (some g.addr) d.sign ::
          treePiece x (some g.addr) (-d.sign) :: rest) := by
      have hroot := Open.join_iff.mp hhung
      rw [top_join] at hroot
      exact hroot.pick [0, 3, 1, 2] (by decide)
    subst hm
    refine (O₂.takeOver 0 1 3 rfl (ref_far ..) rfl (setRef_far ..) rfl).bind
      fun s₂ O₃ => ?_
    refine (O₃.takeOver 0 1 2 rfl (ref_near ..) rfl (setRef_near ..) rfl).bind
      fun s₃ O₄ => ?_
    refine replaceNode_yields (q := f :: q) rfl ?_ hfits O₄ ⟨?_, ?_, ?_⟩
    · simp [dirOf, hside]
    all_goals simp

end Avl

end Drt
