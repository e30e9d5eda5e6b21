import Drt.Core.Struct.AvlRebalance

/-!
# Search in an AVL container

The keys are in order from left to right, so the comparisons on the way down lead to the place of a
key: to its node, or to where it belongs.
-/

namespace Drt

open AvlTree Outcome

theorem cmpSign_cases (i : Int) :
    (i < 0 ∧ cmpSign i = -1) ∨ (i = 0 ∧ cmpSign i = 0) ∨ (0 < i ∧ cmpSign i = 1) := by
  simp only [cmpSign]
  omega

namespace AvlEnv

variable {K V : Type} {env : AvlEnv K V} {k l m : K}

/-- A key comes before another one. -/
def Lt (env : AvlEnv K V) (k l : K) : Prop := env.kcmp k l < 0

/-- Two keys count as the same one. -/
def Same (env : AvlEnv K V) (k l : K) : Prop := env.kcmp k l = 0

/-- A key is on this side of another one. -/
def Toward (env : AvlEnv K V) (d : Side) (k key : K) : Prop :=
  match d with
  | .left => env.Lt key k
  | .right => env.Lt k key

theorem lt_iff : env.Lt k l ↔ cmpSign (env.kcmp k l) < 0 := by
  have := cmpSign_cases (env.kcmp k l)
  unfold Lt
  omega

theorem same_iff : env.Same k l ↔ cmpSign (env.kcmp k l) = 0 := by
  have := cmpSign_cases (env.kcmp k l)
  unfold Same
  omega

theorem Lt.trans (h : env.Lt k l) (h' : env.Lt l m) : env.Lt k m := by
  rw [lt_iff] at h h' ⊢
  exact env.comparison.lt_of_lt_of_le (b := l) trivial trivial trivial h h'.le

theorem Same.refl (env : AvlEnv K V) (k : K) : env.Same k k :=
  same_iff.mpr (env.comparison.refl trivial)

theorem Same.symm (h : env.Same k l) : env.Same l k := by
  have hswap := env.comparison.swap k trivial l trivial
  rw [same_iff] at h ⊢
  omega

theorem Lt.not_same (h : env.Lt k l) : ¬ env.Same k l := by
  unfold Lt at h
  unfold Same
  omega

theorem gt_iff : env.Lt l k ↔ 0 < env.kcmp k l := by
  have hswap := env.comparison.swap k trivial l trivial
  have := cmpSign_cases (env.kcmp k l)
  have := cmpSign_cases (env.kcmp l k)
  unfold Lt
  omega

theorem Lt.not_same' (h : env.Lt k l) : ¬ env.Same l k := fun h' => h.not_same h'.symm

theorem node_cmp_cases (env : AvlEnv K V) (node : AvlNode K V) (key : K) :
    (env.Same node.k key ∧ env.node_cmp node key = 0) ∨
      ∃ d : Side, env.Toward d node.k key ∧ -env.node_cmp node key = d.sign := by
  unfold node_cmp
  obtain ⟨h, hsign⟩ | ⟨h, hsign⟩ | ⟨h, hsign⟩ := cmpSign_cases (env.kcmp node.k key)
  · exact .inr ⟨.right, h, by rw [hsign]; rfl⟩
  · exact .inl ⟨h, hsign⟩
  · exact .inr ⟨.left, gt_iff.mpr h, by rw [hsign]; rfl⟩

end AvlEnv

namespace Avl

variable {K V : Type} {env : AvlEnv K V} {s : Avl K V} {lo : Option Addr} {n : Nat}
  {p : AvlPath K V} {rest : List (Piece (AvlNode K V))} {t T : AvlShape K V} {key : K}
  {c : Option Addr} {ps : List (Piece (AvlNode K V))} {e : AvlEntry K V}

/-- The keys are in strict order from left to right. -/
def Ordered (env : AvlEnv K V) (l : List (AvlEntry K V)) : Prop :=
  l.Pairwise fun e f => env.Lt e.k f.k

/-- The way down goes by the comparisons with a key. -/
def Leads (env : AvlEnv K V) (key : K) (p : AvlPath K V) : Prop :=
  ∀ f ∈ p, env.Toward f.side f.entry.k key

/-- The pointer at the end of a path. -/
def slotOf : AvlPath K V → AvlSlot
  | [] => .root
  | f :: _ => .ref f.entry.addr (1 + f.side.sign)

/-- Where the search for a key ends. -/
def locate (env : AvlEnv K V) (key : K) : AvlShape K V → AvlPath K V → AvlPath K V × AvlShape K V
  | .nil, p => (p, .nil)
  | .node l e b r, p =>
    if env.kcmp e.k key = 0 then (p, .node l e b r)
    else if 0 < env.kcmp e.k key then locate env key l (⟨.left, e, b, r⟩ :: p)
    else locate env key r (⟨.right, e, b, l⟩ :: p)

/-- The last step of a search that ends here. -/
def stepOf (p : AvlPath K V) : AvlShape K V → Int
  | .nil => dirOf p
  | .node .. => 0

theorem plug_locate (env : AvlEnv K V) (key : K) (t : AvlShape K V) (p : AvlPath K V) :
    plug (locate env key t p).2 (locate env key t p).1 = plug t p := by
  induction t generalizing p with
  | nil => rfl
  | node l e b r ihl ihr =>
    unfold locate
    split
    · rfl
    · split
      · exact ihl _
      · exact ihr _

theorem leads_locate (hp : Leads env key p) : Leads env key (locate env key t p).1 := by
  induction t generalizing p with
  | nil => exact hp
  | node l e b r ihl ihr =>
    unfold locate
    split
    · exact hp
    · split
      · rename_i h
        exact ihl (List.forall_mem_cons.mpr ⟨AvlEnv.gt_iff.mpr h, hp⟩)
      · rename_i h₀ h
        refine ihr (List.forall_mem_cons.mpr ⟨?_, hp⟩)
        change env.kcmp e.k key < 0
        omega

theorem locate_cases (env : AvlEnv K V) (key : K) (t : AvlShape K V) (p : AvlPath K V) :
    (locate env key t p).2 = .nil ∨
      ∃ l e b r, (locate env key t p).2 = .node l e b r ∧ env.Same e.k key := by
  induction t generalizing p with
  | nil => exact .inl rfl
  | node l e b r ihl ihr =>
    unfold locate
    split
    · rename_i h
      exact .inr ⟨l, e, b, r, rfl, h⟩
    · split
      · exact ihl _
      · exact ihr _

theorem Ordered.of_plug (h : Ordered env (plug t p).entries) : Ordered env t.entries := by
  rw [entries_plug] at h
  exact (List.pairwise_append.mp (List.pairwise_append.mp h).2.1).1

/-- The key belongs between what is to the left and to the right of the way to it. -/
theorem Leads.between (hp : Leads env key p) (h : Ordered env (plug t p).entries) :
    (∀ e ∈ before p, env.Lt e.k key) ∧ ∀ e ∈ after p, env.Lt key e.k := by
  induction p generalizing t with
  | nil => simp [before, after]
  | cons f p ih =>
    obtain ⟨side, e, b, w⟩ := f
    obtain ⟨he, hp⟩ := List.forall_mem_cons.mp hp
    obtain ⟨hbefore, hafter⟩ := ih hp h
    have horder : Ordered env (attach ⟨side, e, b, w⟩ t).entries := Ordered.of_plug h
    cases side with
    | left =>
      simp only [attach, entries_join, Side.line, Ordered, List.pairwise_append,
        List.pairwise_cons] at horder
      refine ⟨hbefore, fun f hf => ?_⟩
      simp only [after, List.cons_append, List.mem_cons, List.mem_append] at hf
      obtain rfl | hf | hf := hf
      · exact he
      · exact he.trans (horder.2.1.1 f hf)
      · exact hafter f hf
    | right =>
      simp only [attach, entries_join, Side.line, Ordered, List.pairwise_append] at horder
      refine ⟨fun f hf => ?_, hafter⟩
      simp only [before, List.mem_append, List.mem_singleton] at hf
      obtain hf | hf | rfl := hf
      · exact hbefore f hf
      · exact (horder.2.2 f hf e List.mem_cons_self).trans he
      · exact he

theorem Leads.ordered (hp : Leads env key p) (h : Ordered env (plug .nil p).entries)
    (he : e.k = key) : Ordered env (plug (leaf e) p).entries := by
  obtain ⟨hbefore, hafter⟩ := hp.between h
  simp only [Ordered, entries_plug, entries_nil, List.nil_append, List.pairwise_append] at h
  simp only [Ordered, entries_plug, leaf, entries_node, entries_nil, List.nil_append,
    List.singleton_append, List.pairwise_append, List.pairwise_cons, he]
  refine ⟨h.1, ⟨hafter, h.2.1⟩, fun a ha b hb => ?_⟩
  obtain rfl | hb := List.mem_cons.mp hb
  · exact he ▸ hbefore a ha
  · exact h.2.2 a ha b hb

theorem Leads.not_same (hp : Leads env key p) (h : Ordered env (plug .nil p).entries) :
    ∀ e ∈ (plug .nil p).entries, ¬ env.Same e.k key := by
  obtain ⟨hbefore, hafter⟩ := hp.between h
  intro e he
  rw [entries_plug, entries_nil, List.nil_append, List.mem_append] at he
  obtain he | he := he
  · exact (hbefore e he).not_same
  · exact (hafter e he).not_same'

theorem Open.loadSlot (H : s.Open lo n p c ps) : s.loadSlot (slotOf p) = .ok c := by
  cases p with
  | nil => exact congrArg Outcome.ok H.root
  | cons f p => simp [slotOf, Avl.loadSlot, H.load_above]

theorem Open.storeSlot (H : s.Open lo n p c ps) (c' : Option Addr) :
    Yields (fun _ => s.storeSlot (slotOf p) c') fun s' => s'.Open lo n p c' ps := by
  cases p with
  | nil =>
    exact .ok ⟨H.pieces.replace (i := 0) rfl rfl (fun _ _ => rfl) trivial, rfl, H.lowest, H.count⟩
  | cons f p => exact H.setPointer c'

/-- The loop of the three functions ends where the search does. -/
theorem seek_returns (env : AvlEnv K V) (H : s.Focus lo n p t rest) (key : K) :
    Returns (fun fuel => seekFrom env s key fuel (slotOf p) (dirOf p))
      (slotOf (locate env key t p).1, stepOf (locate env key t p).1 (locate env key t p).2) := by
  induction t generalizing p with
  | nil =>
    refine .of_succ_ok fun fuel => ?_
    rw [seekFrom, H.loadSlot]
    rfl
  | node l e b r ihl ihr =>
    have hload := Focus.load_join (d := .left) (x := l) (y := r) H
    have hpass : ∀ fuel, seekFrom env s key (fuel + 1) (slotOf p) (dirOf p) =
        if -cmpSign (env.kcmp e.k key) = 0 then .ok (slotOf p, 0)
        else seekFrom env s key fuel (.ref e.addr (1 + -cmpSign (env.kcmp e.k key)))
          (-cmpSign (env.kcmp e.k key)) := by
      intro fuel
      rw [seekFrom, H.loadSlot]
      simp only [top, Outcome.ok_bind, hload, AvlEnv.node_cmp, AvlEntry.k_node]
      split
      · rename_i hzero
        rw [hzero]
      · rfl
    obtain ⟨h, hsign⟩ | ⟨h, hsign⟩ | ⟨h, hsign⟩ := cmpSign_cases (env.kcmp e.k key)
    · have hr := ihr (p := ⟨.right, e, b, l⟩ :: p) (Focus.join_iff (d := .left).mp H)
      rw [locate, if_neg (by omega), if_neg (by omega)]
      refine hr.of_succ fun fuel => ?_
      rw [hpass, hsign]
      rfl
    · rw [locate, if_pos h]
      refine .of_succ_ok fun fuel => ?_
      rw [hpass, hsign]
      rfl
    · have hl := ihl (p := ⟨.left, e, b, r⟩ :: p) (Focus.join_iff (d := .right).mp H)
      rw [locate, if_neg (by omega), if_pos h]
      refine hl.of_succ fun fuel => ?_
      rw [hpass, hsign]
      rfl

/-- `find_g` returns the node where the search ends. -/
theorem find_returns (env : AvlEnv K V) (H : s.Focus lo n p t rest) (key : K) :
    Returns (fun fuel => findFrom env s key fuel (top t)) (top (locate env key t p).2) := by
  induction t generalizing p with
  | nil => exact .of_succ_ok fun fuel => rfl
  | node l e b r ihl ihr =>
    have hload := Focus.load_join (d := .left) (x := l) (y := r) H
    obtain ⟨h, hsign⟩ | ⟨h, hsign⟩ | ⟨h, hsign⟩ := cmpSign_cases (env.kcmp e.k key)
    · have hr := ihr (p := ⟨.right, e, b, l⟩ :: p) (Focus.join_iff (d := .left).mp H)
      rw [locate, if_neg (by omega), if_neg (by omega)]
      refine hr.of_succ fun fuel => ?_
      simp only [top, findFrom, hload, Outcome.ok_bind, AvlEnv.node_cmp, AvlEntry.k_node, hsign]
      rfl
    · rw [locate, if_pos h]
      refine .of_succ_ok fun fuel => ?_
      simp only [top, findFrom, hload, Outcome.ok_bind, AvlEnv.node_cmp, AvlEntry.k_node, hsign]
      rfl
    · have hl := ihl (p := ⟨.left, e, b, r⟩ :: p) (Focus.join_iff (d := .right).mp H)
      rw [locate, if_neg (by omega), if_pos h]
      refine hl.of_succ fun fuel => ?_
      simp only [top, findFrom, hload, Outcome.ok_bind, AvlEnv.node_cmp, AvlEntry.k_node, hsign]
      rfl

end Avl

end Drt
