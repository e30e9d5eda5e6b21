import Drt.Core.Struct.AvlUpdate

/-!
# Operations of an AVL container

Every operation of a container returns, and leaves a balanced tree whose keys are in order.
-/

namespace Drt

open AvlEntry

open AvlTree Outcome

namespace Avl

variable {K V : Type} {env : AvlEnv K V} {s : Avl K V} {lo : Option Addr} {n : Nat}
  {p : AvlPath K V} {l r t T : AvlShape K V} {key : K} {value : V} {c : Option Addr}
  {rest : List (Piece (AvlNode K V))} {e : AvlEntry K V} {a : Addr} {b direction : Int}
  {parent : Option Addr}

/-- A balanced node with a subtree has one on the side that `remove_g` takes the next node from. -/
theorem exists_side (hb : (node l e b r).Balanced) (hinner : ¬ (b = 0 ∧ l = .nil)) :
    ∃ d x w, node l e b r = join d x e b w ∧ x ≠ .nil ∧ (if b = 0 then 1 else b) = d.sign ∧
      (b = 0 → w ≠ .nil) := by
  obtain ⟨hbalance, hlow, hhigh, -, -⟩ := hb
  by_cases heven : b = 0
  · have hl : l ≠ .nil := fun hl => hinner ⟨heven, hl⟩
    refine ⟨.right, r, l, rfl, ?_, if_pos heven, fun _ => hl⟩
    rintro rfl
    cases l with
    | nil => exact hl rfl
    | node _ _ _ _ =>
      simp only [height] at hbalance
      omega
  · obtain ⟨d, rfl⟩ := Side.exists_sign hlow hhigh heven
    cases d with
    | left =>
      refine ⟨.left, l, r, rfl, ?_, rfl, fun h => absurd h heven⟩
      rintro rfl
      simp only [height, Side.sign_left] at hbalance
      omega
    | right =>
      refine ⟨.right, r, l, rfl, ?_, rfl, fun h => absurd h heven⟩
      rintro rfl
      simp only [height, Side.sign_right] at hbalance
      omega

/-- A node is removed from a tree in which it is not the only one. -/
theorem removeNode_yields (H : s.Focus lo n p (node l e b r) rest)
    (hbalanced : (plug (node l e b r) p).Balanced) (hother : p ≠ [] ∨ l ≠ .nil ∨ r ≠ .nil) :
    Yields (fun fuel => s.removeNode fuel e.addr) fun s' =>
      ∃ T, T.entries = (before p ++ l.entries) ++ (r.entries ++ after p) ∧ T.Balanced ∧
        s'.Focus lo n [] T rest := by
  obtain ⟨hnode, hfits⟩ := (balanced_plug _ _).mp hbalanced
  by_cases hleaf : b = 0 ∧ l = .nil
  · obtain ⟨rfl, rfl⟩ := hleaf
    obtain rfl : r = .nil := by
      by_contra hr
      cases r with
      | nil => exact hr rfl
      | node _ _ _ _ =>
        have hbalance := hnode.1
        simp only [height] at hbalance
        omega
    cases p with
    | nil => simp at hother
    | cons f p =>
      refine (removeLeaf_yields H hfits).imp ?_
      rintro s' ⟨T, hT, H'⟩
      refine ⟨T, ?_, ?_, H'⟩
      · rw [hT.entries, entries_plug]
        simp
      · exact hT.balanced trivial hfits
  · obtain ⟨d, x, w, heq, hx, hsign, hw⟩ := exists_side hnode hleaf
    obtain ⟨y, g, be, q, rfl, hq⟩ := exists_descent d.other hx
    rw [join_other] at heq
    rw [heq] at H hbalanced
    have hplace : (plug (join d y g be .nil) (q ++ ⟨d, e, b, w⟩ :: p)).Balanced := by
      simpa [attach] using hbalanced
    obtain ⟨hy, hfits'⟩ := (balanced_plug _ _).mp hplace
    rw [balanced_join] at hy
    rw [height_join, height_nil, Nat.max_eq_left (Nat.zero_le _)] at hfits'
    have hnew : Fits (q ++ ⟨d, g, b, w⟩ :: p) (y.height + 1) := by
      rw [fits_append] at hfits' ⊢
      exact hfits'
    refine (removeInner_yields H hq hsign hw hnew).imp ?_
    rintro s' ⟨T, hT, H'⟩
    refine ⟨T, ?_, ?_, H'⟩
    · exact hT.entries.trans (entries_replace hq heq)
    · exact hT.balanced hy.2.2.2.1 hnew

/-- Below the first node of a balanced tree there is at most one, that comes next. -/
theorem head_after_lowest (hbalanced : (plug (node l e b r) p).Balanced)
    (hfirst : before p ++ l.entries = []) :
    (r.entries ++ after p).head?.map addr = (top r).or (parentOf p) := by
  obtain ⟨hnode, -⟩ := (balanced_plug _ _).mp hbalanced
  obtain ⟨hbefore, hl⟩ := List.append_eq_nil_iff.mp hfirst
  cases l with
  | node _ _ _ _ => simp at hl
  | nil =>
    cases r with
    | nil =>
      cases p with
      | nil => rfl
      | cons f p =>
        obtain ⟨side, g, b, w⟩ := f
        cases side with
        | left => rfl
        | right => simp [before] at hbefore
    | node rl re rb rr =>
      obtain ⟨hbalance, -, hhigh, -, -⟩ := hnode
      simp only [height] at hbalance
      have hrl : rl.height = 0 := by omega
      cases rl with
      | nil => rfl
      | node _ _ _ _ => simp [height] at hrl

/-- The first node is the one with nothing to its left. -/
theorem lowestOf_eq_iff (hnodup : (addrs (plug (node l e b r) p)).Nodup) :
    some e.addr = lowestOf (plug (node l e b r) p) ↔ before p ++ l.entries = [] := by
  have hentries : (plug (node l e b r) p).entries =
      (before p ++ l.entries) ++ e :: (r.entries ++ after p) := by
    simp
  rw [addrs, hentries] at hnodup
  rw [lowestOf, hentries]
  constructor
  · intro h
    by_contra hne
    obtain ⟨x, X, hX⟩ := List.exists_cons_of_ne_nil hne
    rw [hX] at h hnodup
    have heq : e.addr = x.addr := by simpa using h
    simp [heq] at hnodup
  · intro h
    rw [h]
    rfl

namespace Inv

section

variable (hinv : s.Inv env T)
include hinv

theorem loadSlot_of_sub {d : Side} {x y : AvlShape K V} (hsub : Sub (join d x e b y) T) :
    s.loadSlot (.ref e.addr (1 + d.sign)) = .ok (top x) := by
  obtain ⟨p, rfl⟩ := hsub.exists_plug
  have H : s.Focus (lowestOf (plug (join d x e b y) p)) (plug (join d x e b y) p).entries.length p
      (join d x e b y) [] := Focus.plug_iff.mpr hinv.focus
  simp [loadSlot, H.load_join]

theorem exists_cell (he : e ∈ T.entries) :
    ∃ m, s.nodes.cell e.addr = some m ∧ m.k = e.k ∧ m.v = e.v := by
  obtain ⟨l, b, r, p, rfl⟩ := exists_plug he
  obtain ⟨hcell, -⟩ := (Focus.plug_iff.mpr hinv.focus).pieces.get (i := 1) rfl
  exact ⟨_, hcell, rfl, rfl⟩

theorem exists_entry (ha : (s.nodes.cell a).isSome) : ∃ e ∈ T.entries, e.addr = a := by
  have hmem := hinv.focus.pieces.all a ha
  simpa [addrs] using hmem

theorem root_eq : s.root = top T := hinv.focus.root

theorem nodup : (addrs T).Nodup := hinv.focus.pieces.nodup_get (i := 1) rfl

end

theorem focus_at (hinv : s.Inv env (plug t p)) :
    s.Focus (lowestOf (plug t p)) (plug t p).entries.length p t [] :=
  Focus.plug_iff.mpr hinv.focus

theorem removeLast_yields (H : s.Focus lo n [] (leaf e) []) :
    Yields (fun _ => (Avl.node_destroy { s with root := none } e.addr : Call (Avl K V)))
      fun s' => s'.Focus lo n [] .nil [] := by
  have hfocus : Focus { s with root := none } lo n [] .nil
      [.node e.addr (e.node .left none none none 0 0)] := by
    refine ⟨H.pieces.regroup ?_ (.refl _), rfl, H.lowest, H.count⟩
    simp only [List.forall_mem_cons]
    exact ⟨trivial, trivial, (H.pieces.get (i := 1) rfl).1, by simp⟩
  exact hfocus.destroy

/-- A node that was found is removed. -/
theorem removeFound_yields (hinv : s.Inv env (plug (node l e b r) p)) :
    Yields (fun fuel => s.removeFound fuel e.addr) fun s' =>
      ∃ T, T.entries = (before p ++ l.entries) ++ (r.entries ++ after p) ∧ s'.Inv env T := by
  have hfocus := hinv.focus_at
  have hentries : (plug (node l e b r) p).entries =
      (before p ++ l.entries) ++ e :: (r.entries ++ after p) := by
    simp
  have hcount : (plug (node l e b r) p).entries.length - 1 =
      ((before p ++ l.entries) ++ (r.entries ++ after p)).length := by
    simp [hentries]
    omega
  have hordered : Ordered env ((before p ++ l.entries) ++ (r.entries ++ after p)) := by
    refine hinv.ordered.sublist ?_
    rw [hentries]
    exact List.Sublist.append_left (List.sublist_cons_self ..) _
  have hdone : ∀ (T : AvlShape K V) (s' : Avl K V), T.entries = (before p ++ l.entries) ++ (r.entries ++ after p) →
      T.Balanced → s'.Focus (lowestOf T) ((plug (node l e b r) p).entries.length - 1) [] T [] →
      s'.Inv env T := by
    intro T s' hT hbalanced H
    refine ⟨?_, hbalanced, hT ▸ hordered⟩
    rw [hT, ← hcount]
    exact H
  have hfirst := lowestOf_eq_iff hinv.nodup
  have hload := Focus.load_join (d := .left) (x := l) (y := r) hfocus
  refine .bind_eq hload ?_
  simp only [hfocus.lowest]
  by_cases hlowest : some e.addr = lowestOf (plug (node l e b r) p)
  · have hbefore := hfirst.mp hlowest
    have hhead := head_after_lowest hinv.balanced hbefore
    simp only [if_pos hlowest, parent_node]
    change Yields (fun fuel => if (top r).or (parentOf p) = none then _ else _) _
    have hfocus' : Focus { s with item_count := s.item_count - 1, lowest := (top r).or (parentOf p) }
        ((top r).or (parentOf p)) ((plug (node l e b r) p).entries.length - 1) p (node l e b r) [] :=
      ⟨hfocus.pieces, hfocus.root, rfl, congrArg (· - 1) hfocus.count⟩
    by_cases hnone : (top r).or (parentOf p) = none
    · simp only [if_pos hnone]
      obtain ⟨hr, hp⟩ := Option.or_eq_none_iff.mp hnone
      obtain rfl := top_eq_none.mp hr
      cases p with
      | cons f p => cases hp
      | nil =>
        cases l with
        | node _ _ _ _ => simp at hbefore
        | nil =>
          obtain rfl : b = 0 := hinv.balanced.1
          refine (removeLast_yields hfocus').imp fun s' H' => ⟨.nil, rfl, ?_⟩
          exact hdone .nil s' rfl trivial H'
    · simp only [if_neg hnone]
      have hother : p ≠ [] ∨ l ≠ .nil ∨ r ≠ .nil := by
        by_contra hall
        simp only [not_or, not_not] at hall
        obtain ⟨rfl, -, rfl⟩ := hall
        exact hnone rfl
      refine (removeNode_yields hfocus' hinv.balanced hother).imp ?_
      rintro s' ⟨T, hT, hbalanced, H'⟩
      refine ⟨T, hT, hdone T s' hT hbalanced ?_⟩
      rw [lowestOf, hT, hbefore, List.nil_append, hhead]
      exact H'
  · simp only [if_neg hlowest]
    have hbefore := mt hfirst.mpr hlowest
    obtain ⟨x, X, hX⟩ := List.exists_cons_of_ne_nil hbefore
    have hfocus' : Focus { s with
          item_count := s.item_count - 1
          lowest := lowestOf (plug (node l e b r) p) }
        (lowestOf (plug (node l e b r) p)) ((plug (node l e b r) p).entries.length - 1) p
        (node l e b r) [] :=
      ⟨hfocus.pieces, hfocus.root, rfl, congrArg (· - 1) hfocus.count⟩
    have hother : p ≠ [] ∨ l ≠ .nil ∨ r ≠ .nil := by
      by_contra hall
      simp only [not_or, not_not] at hall
      obtain ⟨rfl, rfl, -⟩ := hall
      exact hbefore rfl
    refine (removeNode_yields hfocus' hinv.balanced hother).imp ?_
    rintro s' ⟨T, hT, hbalanced, H'⟩
    have hsame : lowestOf T = lowestOf (plug (node l e b r) p) := by
      rw [lowestOf, lowestOf, hT, hentries, hX]
      rfl
    exact ⟨T, hT, hdone T s' hT hbalanced (hsame ▸ H')⟩

/-- A node gets another value. -/
theorem setValue_yields (hinv : s.Inv env (plug (node l e b r) p)) (value : V) :
    Yields (fun _ => s.modify e.addr fun n => .ok { n with v := value }) fun s' =>
      s'.Inv env (plug (node l { e with v := value } b r) p) := by
  have O := Open.join_iff (d := .left).mp hinv.focus_at
  refine (O.modify 0 rfl (node { e with v := value } .left (top l) (top r) (parentOf p) b
    (dirOf p)) rfl).imp fun s' O' => ?_
  have H' : s'.Focus (lowestOf (plug (node l e b r) p)) (plug (node l e b r) p).entries.length p
      (node l { e with v := value } b r) [] :=
    Open.join_iff (d := .left).mpr O'
  have haddrs : (plug (node l { e with v := value } b r) p).entries.map addr =
      (plug (node l e b r) p).entries.map addr := by simp
  have hkeys : (plug (node l { e with v := value } b r) p).entries.map k =
      (plug (node l e b r) p).entries.map k := by simp
  refine ⟨?_, ?_, ?_⟩
  · rw [lowestOf, ← List.head?_map, haddrs, List.head?_map, ← lowestOf,
      ← List.length_map k, hkeys, List.length_map]
    exact Focus.plug_iff.mp H'
  · have hbalanced := hinv.balanced
    rw [balanced_plug] at hbalanced ⊢
    exact hbalanced
  · have hordered := hinv.ordered
    rw [Ordered, ← List.pairwise_map] at hordered ⊢
    rwa [hkeys]

end Inv

/-- The nodes of a tree in the hole are destroyed, if there are any. -/
theorem destroyTree_yields (H : s.Open lo n p c (treePiece t parent direction :: rest))
    (hdestroy : ∀ a, top t = some a →
      Yields (fun fuel => destroyRecursive_g fuel a s) fun s' => s'.Open lo n p c rest) :
    Yields (fun fuel => match top t with
      | some a => destroyRecursive_g fuel a s
      | none => .ok s) fun s' => s'.Open lo n p c rest := by
  cases htop : top t with
  | some a => exact hdestroy a htop
  | none =>
    obtain rfl := top_eq_none.mp htop
    exact .ok (Open.nil_iff.mp H)

/-- `destroyRecursive_g` destroys the nodes of a tree. -/
theorem destroyRecursive_yields (H : s.Open lo n p c (treePiece t parent direction :: rest))
    (ha : top t = some a) :
    Yields (fun fuel => destroyRecursive_g fuel a s) fun s' => s'.Open lo n p c rest := by
  induction t generalizing s a parent direction rest with
  | nil => cases ha
  | node l e b r ihl ihr =>
    obtain rfl : e.addr = a := Option.some.inj ha
    have O := (Open.join_iff (d := .left).mp H).pick [1, 2, 0] (by decide)
    refine .of_succ ?_ fun fuel => by rw [destroyRecursive_g]
    refine .bind_eq (Heap.load_of_cell (H.pieces.get (i := 1) rfl).1) ?_
    refine (destroyTree_yields O fun a ha => ihl O ha).bind fun s₁ O₁ => ?_
    refine (destroyTree_yields O₁ fun a ha => ihr O₁ ha).bind fun s₂ O₂ => ?_
    exact O₂.destroy

theorem Inv.clean_yields (hinv : s.Inv env T) :
    Yields (fun fuel => s.clean_g fuel) fun s' => s'.Inv env .nil := by
  unfold clean_g
  rw [hinv.root_eq]
  cases htop : top T with
  | none =>
    obtain rfl := top_eq_none.mp htop
    exact .ok hinv
  | some a =>
    refine (destroyRecursive_yields hinv.focus htop).bind fun s₁ H₁ => ?_
    refine .ok ⟨⟨H₁.pieces.regroup ?_ (.refl _), rfl, rfl, rfl⟩, trivial, List.Pairwise.nil⟩
    simp only [List.forall_mem_cons]
    exact ⟨trivial, trivial, by simp⟩

end Avl

end Drt
