import Drt.Core.Struct.AvlShape

/-!
# Rotating and rebalancing an AVL container

Both rotations take the nodes out of a tree, write their pointers one after another, and make up
another tree of the same nodes in its place.
-/

namespace Drt

open AvlEntry

open AvlTree Outcome

namespace Avl

variable {K V : Type} {s : Avl K V} {lo : Option Addr} {n : Nat} {p : AvlPath K V}
  {rest : List (Piece (AvlNode K V))} {x y z w : AvlShape K V} {a c e : AvlEntry K V}
  {d : Side} {b ba be : Int}

/-- A single rotation. -/
theorem rotateSingle_yields (H : s.Focus lo n p (join d (join d x a ba y) e be w) rest)
    (ba' be' : Int) :
    Yields (fun _ => s.rotateSingle e.addr a.addr d.sign be' ba') fun s' =>
      s'.Focus lo n p (join d x a ba' (join d y e be' w)) rest := by
  have O : s.Open lo n p (some e.addr)
      (.node a.addr (a.node d (top x) (top y) (some e.addr) ba d.sign) ::
        treePiece x (some a.addr) d.sign :: treePiece y (some a.addr) (-d.sign) ::
        .node e.addr (e.node d (some a.addr) (top w) (parentOf p) be (dirOf p)) ::
        treePiece w (some e.addr) (-d.sign) :: rest) := by
    have hroot := Open.join_iff.mp H
    simp only [top_join] at hroot
    exact Open.join_iff.mp (hroot.pick [1, 0, 2] (by decide))
  refine .bind_eq (O.load (i := 0) rfl) (.bind_eq (ref_far ..) ?_)
  refine (O.hang 3 2 rfl (setRef_near ..) rfl d.sign).bind fun s₁ O₁ => ?_
  refine .bind_eq (O₁.load (i := 3) rfl) ?_
  simp only [parent_node, direction_node]
  refine (O₁.modify 3 rfl (e.node d (top y) (top w) (parentOf p) be' (-d.sign))
    (by cases d <;> rfl)).bind fun s₂ O₂ => ?_
  refine (O₂.modify 0 rfl (a.node d (top x) (top y) (parentOf p) ba' (dirOf p))
    (by cases d <;> rfl)).bind fun s₃ O₃ => ?_
  refine (O₃.replaceChild a.addr).bind fun s₄ O₄ => ?_
  refine (O₄.modify 0 rfl _ (setRef_far ..)).bind fun s₅ O₅ => ?_
  refine (O₅.modify 3 rfl (e.node d (top y) (top w) (some a.addr) be' (-d.sign))
    (by cases d <;> rfl)).imp fun s₆ O₆ => ?_
  have hinner : s₆.Open lo n p (some a.addr)
      (treePiece (join d y e be' w) (some a.addr) (-d.sign) ::
        .node a.addr (a.node d (top x) (some e.addr) (parentOf p) ba' (dirOf p)) ::
        treePiece x (some a.addr) d.sign :: rest) :=
    Open.join_iff.mpr (O₆.pick [3, 2, 4, 0, 1] (by decide))
  rw [Focus, Open.join_iff, top_join, top_join]
  exact hinner.pick [1, 2, 0] (by decide)

/-- A double rotation. -/
theorem rotateDouble_yields
    (H : s.Focus lo n p (join d (join d x a ba (join d z c b y)) e be w) rest) :
    Yields (fun _ => s.rotateDouble e.addr a.addr c.addr d.sign (-d.sign)) fun s' =>
      s'.Focus lo n p (join d (join d x a (if b = -d.sign then d.sign else 0) z) c 0
        (join d y e (if b = d.sign then -d.sign else 0) w)) rest := by
  have O : s.Open lo n p (some e.addr)
      (.node c.addr (c.node d (top z) (top y) (some a.addr) b (-d.sign)) ::
        treePiece z (some c.addr) d.sign :: treePiece y (some c.addr) (-d.sign) ::
        .node a.addr (a.node d (top x) (some c.addr) (some e.addr) ba d.sign) ::
        treePiece x (some a.addr) d.sign ::
        .node e.addr (e.node d (some a.addr) (top w) (parentOf p) be (dirOf p)) ::
        treePiece w (some e.addr) (-d.sign) :: rest) := by
    have hroot := Open.join_iff.mp H
    simp only [top_join] at hroot
    have hchild := Open.join_iff.mp (hroot.pick [1, 0, 2] (by decide))
    simp only [top_join] at hchild
    exact Open.join_iff.mp (hchild.pick [2, 0, 1] (by decide))
  refine .bind_eq (O.load (i := 0) rfl) (.bind_eq (ref_far ..) ?_)
  simp only [balance_node]
  refine (O.hang 5 2 rfl (setRef_near ..) rfl d.sign).bind fun s₁ O₁ => ?_
  refine (O₁.modify 5 rfl (e.node d (top y) (top w) (parentOf p) (if b = d.sign then -d.sign else 0)
    (dirOf p)) (by cases d <;> rfl)).bind fun s₂ O₂ => ?_
  refine .bind_eq (ref_near ..) ?_
  refine (O₂.hang 3 1 rfl (setRef_far ..) rfl (-d.sign)).bind fun s₃ O₃ => ?_
  refine (O₃.modify 3 rfl (a.node d (top x) (top z) (some e.addr)
    (if b = -d.sign then d.sign else 0) d.sign) (by cases d <;> rfl)).bind fun s₄ O₄ => ?_
  refine .bind_eq (O₄.load (i := 5) rfl) ?_
  simp only [parent_node, direction_node]
  refine (O₄.modify 0 rfl (c.node d (top z) (top y) (parentOf p) b (dirOf p))
    (by cases d <;> rfl)).bind fun s₅ O₅ => ?_
  refine (O₅.replaceChild c.addr).bind fun s₆ O₆ => ?_
  refine (O₆.modify 5 rfl (e.node d (top y) (top w) (some c.addr)
    (if b = d.sign then -d.sign else 0) (-d.sign)) (by cases d <;> rfl)).bind fun s₇ O₇ => ?_
  refine (O₇.modify 3 rfl (a.node d (top x) (top z) (some c.addr)
    (if b = -d.sign then d.sign else 0) d.sign) (by cases d <;> rfl)).bind fun s₈ O₈ => ?_
  refine (O₈.modify 0 rfl (c.node d (top z) (top y) (parentOf p) 0 (dirOf p))
    (by cases d <;> rfl)).bind fun s₉ O₉ => ?_
  refine (O₉.modify 0 rfl _ (setRef_far ..)).bind fun s₁₀ O₁₀ => ?_
  refine (O₁₀.modify 0 rfl _ (setRef_near ..)).imp fun s₁₁ O₁₁ => ?_
  have O' : s₁₁.Open lo n p (some c.addr)
      (.node c.addr (c.node d (some a.addr) (some e.addr) (parentOf p) 0 (dirOf p)) ::
        treePiece z (some a.addr) (-d.sign) :: treePiece y (some e.addr) d.sign ::
        .node a.addr (a.node d (top x) (top z) (some c.addr) (if b = -d.sign then d.sign else 0)
          d.sign) ::
        treePiece x (some a.addr) d.sign ::
        .node e.addr (e.node d (top y) (top w) (some c.addr) (if b = d.sign then -d.sign else 0)
          (-d.sign)) ::
        treePiece w (some e.addr) (-d.sign) :: rest) := O₁₁
  have hnear : s₁₁.Open lo n p (some c.addr)
      (treePiece (join d x a (if b = -d.sign then d.sign else 0) z) (some c.addr) d.sign ::
        .node c.addr (c.node d (some a.addr) (some e.addr) (parentOf p) 0 (dirOf p)) ::
        .node e.addr (e.node d (top y) (top w) (some c.addr) (if b = d.sign then -d.sign else 0)
          (-d.sign)) ::
        treePiece y (some e.addr) d.sign :: treePiece w (some e.addr) (-d.sign) :: rest) :=
    Open.join_iff.mpr (O'.pick [3, 4, 1, 0, 5, 2, 6] (by decide))
  have hfar : s₁₁.Open lo n p (some c.addr)
      (treePiece (join d y e (if b = d.sign then -d.sign else 0) w) (some c.addr) (-d.sign) ::
        treePiece (join d x a (if b = -d.sign then d.sign else 0) z) (some c.addr) d.sign ::
        .node c.addr (c.node d (some a.addr) (some e.addr) (parentOf p) 0 (dirOf p)) :: rest) :=
    Open.join_iff.mpr (hnear.pick [2, 3, 4, 0, 1] (by decide))
  rw [Focus, Open.join_iff, top_join, top_join, top_join]
  exact hfar.pick [2, 1, 0] (by decide)

end Avl

/-! ### Rebalancing an AVL container

Both loops go from a place towards the root, and rotate where a node has become too heavy on one
side. What they make of the tree is what `Grown` and `Shrunk` say. -/

namespace Avl

variable {K V : Type} {s : Avl K V} {lo : Option Addr} {n : Nat} {p : AvlPath K V}
  {rest : List (Piece (AvlNode K V))} {t : AvlShape K V} {f : Above (AvlEntry K V)} {a : Addr}
  {k : Nat}

/-- One pass of `rebalanceAdded_g`, when what comes after a node that was even is known. -/
theorem rebalanceAdded_pass (H : s.Focus lo n (f :: p) t rest) (ht : t.Balanced)
    (hheight : t.height = k + 1) (hfits : Fits (f :: p) k) (hgrew : t.balance ≠ 0 ∨ k = 0)
    (ha : top t = some a)
    (hup : f.balance = 0 → ∀ s', s'.Focus lo n (f.weigh f.side.sign :: p) t rest →
      Yields (fun fuel => match parentOf p with
        | some grandparent => rebalanceAddedFrom fuel grandparent f.entry.addr s'
        | none => .ok s') fun s' =>
        ∃ T, Grown (attach (f.weigh f.side.sign) t) p T ∧ s'.Focus lo n [] T rest) :
    Yields (fun fuel => rebalanceAddedFrom fuel f.entry.addr a s) fun s' =>
      ∃ T, Grown t (f :: p) T ∧ s'.Focus lo n [] T rest := by
  refine .of_succ ?_ fun fuel => by rw [rebalanceAddedFrom]
  obtain ⟨m, hm, -, hbalance, hdirection⟩ := Focus.load_top H ha
  refine .bind_eq H.load_above (.bind_eq hm ?_)
  simp only [balance_node, parent_node, hbalance, hdirection, dirOf]
  by_cases heven : f.balance = 0
  · simp only [if_pos heven]
    refine (Focus.weigh H f.side.sign fun _ _ => rfl).bind fun s₁ H₁ => ?_
    refine (hup heven s₁ H₁).imp ?_
    rintro s' ⟨T, hT, H'⟩
    exact ⟨T, .further heven hT, H'⟩
  simp only [if_neg heven]
  by_cases hheavy : f.balance = f.side.sign
  · simp only [hheavy, ne_eq, not_true_eq_false, if_false]
    obtain ⟨side, e, fb, w⟩ := f
    obtain rfl : fb = side.sign := hheavy
    obtain ⟨x, c, y, rfl⟩ | ⟨x, c, z, g, b, y, rfl⟩ :=
      Grown.exists_rotation ht hheight hfits hgrew rfl
    · obtain rfl : c.addr = a := by simpa using ha
      have hsame : side.sign = (join side x c side.sign y).balance := (balance_join ..).symm
      simp only [← hsame, not_true_eq_false, if_false]
      refine (rotateSingle_yields (Focus.cons_iff.mp H) 0 0).imp fun s' H' => ?_
      exact ⟨_, .single .., Focus.plug_iff.mp H'⟩
    · obtain rfl : c.addr = a := by simpa using ha
      obtain rfl := Outcome.ok.inj (hm.symm.trans (Focus.load_join H))
      simp only [balance_join, side.sign_ne_neg, not_false_eq_true, if_true]
      have hg := Focus.load_join (Focus.join_iff.mp H)
      refine .bind_eq (ref_far ..) ?_
      rw [top_join]
      refine .bind_eq (Outcome.ofOption_some _) (.bind_eq hg ?_)
      simp only [direction_node, dirOf, Side.sign_other]
      refine (rotateDouble_yields (Focus.cons_iff.mp H)).imp fun s' H' => ?_
      exact ⟨_, .double .., Focus.plug_iff.mp H'⟩
  · simp only [ne_eq, hheavy, not_false_eq_true, if_true]
    have hlight : f.balance = -f.side.sign := by
      obtain ⟨_, hlow, hhigh, _⟩ := hfits
      obtain ⟨e, he⟩ := Side.exists_sign hlow hhigh heven
      obtain rfl | rfl := f.side.eq_or_eq_other e
      · exact absurd he hheavy
      · rw [he, Side.sign_other]
    refine (Focus.weigh H 0 fun _ _ => rfl).imp fun s' H' => ?_
    exact ⟨_, .absorbed hlight, Focus.plug_iff.mp (Focus.cons_iff.mp H')⟩

/-- `rebalanceAdded_g`, from a subtree that has become higher by one. -/
theorem rebalanceAdded_yields (H : s.Focus lo n (f :: p) t rest) (ht : t.Balanced)
    (hheight : t.height = k + 1) (hfits : Fits (f :: p) k) (hgrew : t.balance ≠ 0 ∨ k = 0)
    (ha : top t = some a) :
    Yields (fun fuel => rebalanceAddedFrom fuel f.entry.addr a s) fun s' =>
      ∃ T, Grown t (f :: p) T ∧ s'.Focus lo n [] T rest := by
  induction p generalizing s f t k a with
  | nil =>
    refine rebalanceAdded_pass H ht hheight hfits hgrew ha fun _ s' H' => ?_
    exact .ok ⟨_, .root _, Focus.cons_iff.mp H'⟩
  | cons g p ih =>
    refine rebalanceAdded_pass H ht hheight hfits hgrew ha fun heven s' H' => ?_
    obtain ⟨hbalanced, hheight', hfits'⟩ := attach_higher heven ht hheight hfits
    refine ih (Focus.cons_iff.mp H') hbalanced hheight' hfits' (.inl ?_) (top_join ..)
    simpa [attach, Above.weigh] using f.side.sign_ne_zero

/-- How `rebalanceRemoved_g` goes on at a place. -/
def removedFrom (p : AvlPath K V) (fuel : Nat) (s : Avl K V) : Call (Avl K V) :=
  match parentOf p with
  | some parent => rebalanceRemoved_g fuel parent (dirOf p) s
  | none => .ok s

/-- One pass of `rebalanceRemoved_g`, when what comes after it is known. -/
theorem rebalanceRemoved_pass (H : s.Focus lo n (f :: p) t rest)
    (hfits : Fits (f :: p) (t.height + 1))
    (hup : ∀ t' s', s'.Focus lo n p t' rest → Fits p (t'.height + 1) →
      Yields (fun fuel => removedFrom p fuel s') fun s' =>
        ∃ T, Shrunk t' p T ∧ s'.Focus lo n [] T rest) :
    Yields (fun fuel => rebalanceRemoved_g fuel f.entry.addr f.side.sign s) fun s' =>
      ∃ T, Shrunk t (f :: p) T ∧ s'.Focus lo n [] T rest := by
  refine .of_succ ?_ fun fuel => by rw [rebalanceRemoved_g]
  refine .bind_eq H.load_above ?_
  obtain ⟨d, e, fb, w⟩ := f
  simp only [balance_node, parent_node, direction_node]
  by_cases heven : fb = 0
  · simp only [if_pos heven]
    refine (Focus.weigh H (-d.sign) fun m hm => ?_).imp fun s' H' => ?_
    · rw [hm, heven, Int.zero_sub]
    · exact ⟨_, .lighter heven, Focus.plug_iff.mp (Focus.cons_iff.mp H')⟩
  simp only [if_neg heven]
  by_cases hhigher : fb = d.sign
  · simp only [if_pos hhigher]
    refine (Focus.weigh H 0 fun _ _ => rfl).bind fun s₁ H₁ => ?_
    refine (hup _ s₁ (Focus.cons_iff.mp H₁) (attach_lower hhigher hfits).2).imp ?_
    rintro s' ⟨T, hT, H'⟩
    exact ⟨T, .further hhigher hT, H'⟩
  simp only [if_neg hhigher]
  obtain rfl : fb = -d.sign := by
    obtain ⟨_, hlow, hhigh, _⟩ := hfits
    obtain ⟨g, rfl⟩ := Side.exists_sign hlow hhigh heven
    obtain rfl | rfl := d.eq_or_eq_other g
    · exact absurd rfl hhigher
    · exact Side.sign_other d
  refine .bind_eq (ref_far ..) ?_
  rw [Focus.cons_iff, attach] at H
  obtain ⟨x, c, b, y, a, z, hw⟩ | ⟨y, a, b, z, hw, hb, hb'⟩ := Shrunk.exists_rotation hfits rfl
  · obtain rfl : w = join d (join d x c b y) a d.sign z := hw
    rw [top_join]
    refine .bind_eq (Outcome.ofOption_some _) (.bind_eq (Focus.join_iff.mp H).load_join ?_)
    simp only [balance_node, if_true]
    refine .bind_eq (ref_near ..) ?_
    rw [top_join]
    refine .bind_eq (Outcome.ofOption_some _) ?_
    have hrotate := rotateDouble_yields (d := d.other) (x := z) (z := y) (y := x) (w := t)
      (by simpa only [join_other] using H)
    simp only [Side.sign_other, Int.neg_neg, join_other] at hrotate
    refine hrotate.bind fun s₁ H₁ => ?_
    refine .bind_eq H₁.load_join ?_
    simp only [parent_node, direction_node]
    refine (hup _ s₁ H₁ (Shrunk.rotate_double hfits).2).imp ?_
    rintro s' ⟨T, hT, H'⟩
    exact ⟨T, .double _ _ _ _ _ _ _ _ _ _ hT, H'⟩
  · obtain rfl : w = join d y a b z := hw
    rw [top_join]
    refine .bind_eq (Outcome.ofOption_some _) (.bind_eq (Focus.join_iff.mp H).load_join ?_)
    change b ≠ d.sign at hb
    change b = 0 ∨ b = -d.sign at hb'
    simp only [balance_node, if_neg hb]
    have hrotate := rotateSingle_yields (d := d.other) (x := z) (y := y) (w := t)
      (by simpa only [join_other] using H) (b + d.sign) (if b = -d.sign then 0 else -d.sign)
    simp only [Side.sign_other, join_other] at hrotate
    refine hrotate.bind fun s₁ H₁ => ?_
    obtain rfl | rfl := hb'
    · have hsign : (0 : Int) ≠ -d.sign := by
        cases d <;> decide
      simp only [if_neg hsign, Int.zero_add] at H₁ ⊢
      refine (Yields.ok (a := s₁) ⟨_, .single .., Focus.plug_iff.mp H₁⟩).congr fun fuel => ?_
      cases parentOf p <;> rfl
    · simp only [if_true, Int.add_left_neg] at H₁ ⊢
      refine (hup _ s₁ H₁ (Shrunk.rotate_lower hfits).2).imp ?_
      rintro s' ⟨T, hT, H'⟩
      exact ⟨T, .lower _ _ _ _ _ _ _ hT, H'⟩

/-- `rebalanceRemoved_g`, from a subtree that has become lower by one. -/
theorem rebalanceRemoved_yields (H : s.Focus lo n p t rest) (hfits : Fits p (t.height + 1)) :
    Yields (fun fuel => removedFrom p fuel s) fun s' =>
      ∃ T, Shrunk t p T ∧ s'.Focus lo n [] T rest := by
  induction p generalizing s t with
  | nil => exact .ok ⟨t, .root t, H⟩
  | cons f p ih => exact rebalanceRemoved_pass H hfits fun t' s' H' => ih H'

end Avl

end Drt
