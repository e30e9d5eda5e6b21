import Drt.Core.Eval.IntParser
import Drt.Lib.Fuel
import Mathlib.Tactic.Linarith
import Mathlib.Tactic.Positivity

/-!
# When the parser builds the tree of the grammar

It does when no unary operator stands right behind a unary one, and when no left operand
of a binary operator leaves more than one operator waiting. Otherwise the tree leans
further to the right than the tree of the grammar: operators that should have been done
take more on their right, and unary operators move to operands further left.
-/

open List Outcome

namespace Drt

namespace IntEvaluator

open Evaluator

namespace Phrase

/-- The number of operators on the right edge, outside of parentheses. -/
def edge : Phrase → Nat
  | operand _ => 0
  | parentheses _ => 0
  | unary _ inner => inner.edge + 1
  | binary _ _ right => right.edge + 1

/-- At most one operator is to be done at a time. -/
def Shallow : Phrase → Prop
  | operand _ => True
  | parentheses inner => inner.Shallow
  | unary _ inner => inner.Shallow ∧ inner.isUnary = false
  | binary _ left right => left.Shallow ∧ right.Shallow ∧ left.edge ≤ 1

/-- Whether a phrase is shallow is a matter of looking at it. -/
def decideShallow : (p : Phrase) → Decidable p.Shallow
  | operand _ => isTrue trivial
  | parentheses inner => decideShallow inner
  | unary _ inner =>
    have := decideShallow inner
    inferInstanceAs (Decidable (inner.Shallow ∧ inner.isUnary = false))
  | binary _ left right =>
    have := decideShallow left
    have := decideShallow right
    inferInstanceAs (Decidable (left.Shallow ∧ right.Shallow ∧ left.edge ≤ 1))

instance : DecidablePred Shallow := decideShallow

end Phrase

theorem reduceAll_append (waiting waiting' : List (ParseElement Expression))
    (operands : List Expression) :
    reduceAll (waiting ++ waiting') operands =
      reduceAll waiting operands >>= reduceAll waiting' := by
  induction waiting generalizing operands with
  | nil => rfl
  | cons x waiting ih =>
    cases x with
    | operation expression last num_args | function expression num_args =>
      rw [cons_append, reduceAll, reduceAll, bind_assoc]
      exact congrArg _ (funext ih)
    | openParenthesis => rfl

theorem reduce_unary (op : UnaryOperator) (x : Expression) (operands : List Expression) :
    reduce setOperands "missing operands" (.unary op.operation .null) 1 (x :: operands) =
      .ok (.unary op.operation x :: operands) := by
  simp [reduce, setOperands]

theorem reduce_binary (op : BinaryOperator) (left right : Expression)
    (operands : List Expression) :
    reduce setOperands "missing operands" (op.node .null .null) 2 (right :: left :: operands) =
      .ok (op.node left right :: operands) := by
  cases op <;> simp [reduce, setOperands, BinaryOperator.node]

theorem reduceAll_unary (op : UnaryOperator) (x : Expression) (operands : List Expression) :
    reduceAll [op.element] (x :: operands) = .ok (.unary op.operation x :: operands) := by
  rw [UnaryOperator.element, reduceAll, reduce_unary]
  rfl

theorem reduceAll_binary (op : BinaryOperator) (waiting : List (ParseElement Expression))
    (left right : Expression) (operands : List Expression) :
    reduceAll (op.element :: waiting) (right :: left :: operands) =
      reduceAll waiting (op.node left right :: operands) := by
  rw [BinaryOperator.element, reduceAll, reduce_binary]
  rfl

variable {waiting : List (ParseElement Expression)} {operands operands' rest : List Expression}
  {p : Phrase} {expression : DrString}

/-- `reduceTop` is the beginning of `reduceAll`. -/
theorem reduceAll_of_top {level : Nat} {waiting' : List (ParseElement Expression)}
    (hwaits : ∀ x ∈ waiting, Waits level x)
    (h : reduceTop waiting operands = .ok (waiting', operands')) :
    waiting' = waiting.tail ∧ reduceAll waiting' operands' = reduceAll waiting operands := by
  cases waiting with
  | nil =>
    obtain ⟨rfl, rfl⟩ := Prod.mk.inj (ok.inj h)
    exact ⟨rfl, rfl⟩
  | cons x waiting =>
    obtain ⟨expression, q, num_args, rfl, -⟩ := hwaits x mem_cons_self
    obtain ⟨operands₁, hreduce, h⟩ := bind_eq_ok.mp h
    obtain ⟨rfl, rfl⟩ := Prod.mk.inj (ok.inj h)
    refine ⟨rfl, ?_⟩
    rw [reduceAll, hreduce, ok_bind]

/-- In a shallow phrase every operator gets the operands of the grammar. -/
theorem Phrase.scan_shallow (h : p.Shallow) (hfits : p.Fits) (operands : List Expression) :
    ∃ waiting operands',
      p.scan operands = .ok (waiting, operands') ∧ waiting.length = p.edge ∧
        reduceAll waiting operands' = .ok (p.tree :: operands) := by
  induction p generalizing operands with
  | operand x => exact ⟨[], _, rfl, rfl, rfl⟩
  | parentheses inner ih =>
    obtain ⟨waiting, operands', hscan, -, hall⟩ := ih h hfits operands
    refine ⟨[], inner.tree :: operands, ?_, rfl, rfl⟩
    simp only [scan, hscan, ok_bind, hall]
  | unary op inner ih =>
    obtain ⟨hinner, hnot⟩ := h
    obtain ⟨waiting, operands', hscan, hlength, hall⟩ := ih hinner hfits.1 operands
    refine ⟨waiting ++ [op.element], operands', ?_, ?_, ?_⟩
    · rw [scan, hnot, if_neg Bool.false_ne_true, hscan]
      rfl
    · rw [length_append, hlength]
      rfl
    · rw [reduceAll_append, hall, ok_bind, reduceAll_unary]
      rfl
  | binary op left right ihl ihr =>
    obtain ⟨hleft, hright, hedge⟩ := h
    obtain ⟨hfl, hfr, hll, hrl⟩ := hfits
    obtain ⟨waiting, operands₁, hscan, hlength, hall⟩ := ihl hleft hfl operands
    have htop : reduceTop waiting operands₁ = .ok ([], left.tree :: operands) := by
      rcases waiting with _ | ⟨x, _ | ⟨y, rest⟩⟩
      · rw [ok.inj hall]
        rfl
      · obtain ⟨expression, q, num_args, rfl, -⟩ :=
          scan_waits hscan hfl x mem_cons_self
        obtain ⟨operands₂, hreduce, hall⟩ := bind_eq_ok.mp hall
        obtain rfl := ok.inj hall
        rw [reduceTop, hreduce]
        rfl
      · rw [length_cons, length_cons] at hlength
        omega
    obtain ⟨waiting', operands₃, hscan', hlength', hall'⟩ :=
      ihr hright hfr (left.tree :: operands)
    refine ⟨waiting' ++ [op.element], operands₃, ?_, ?_, ?_⟩
    · simp only [scan, hscan, ok_bind, htop, hscan']
    · rw [length_append, hlength']
      rfl
    · rw [reduceAll_append, hall', ok_bind, reduceAll_binary]
      rfl

namespace Expression

/-- The number of operands. -/
def leaves : Expression → Nat
  | unary _ operand => operand.leaves
  | binaryFull _ left right => left.leaves + right.leaves
  | binaryPart _ left right => left.leaves + right.leaves
  | _ => 1

/-- The number of unary operators. -/
def signs : Expression → Nat
  | unary _ operand => operand.signs + 1
  | binaryFull _ left right => left.signs + right.signs
  | binaryPart _ left right => left.signs + right.signs
  | _ => 0

/-- How far a tree leans to the right: for every binary operator the operands on its
right, less the operands in front of every unary operator. -/
def tilt : Expression → Int
  | unary _ operand => operand.tilt
  | binaryFull _ left right =>
    left.tilt + right.tilt + right.leaves - right.signs * left.leaves
  | binaryPart _ left right =>
    left.tilt + right.tilt + right.leaves - right.signs * left.leaves
  | _ => 0

theorem leaves_pos (e : Expression) : 0 < e.leaves := by
  induction e with
  | unary op operand ih => exact ih
  | binaryFull op left right ihl ihr | binaryPart op left right ihl ihr =>
    exact Nat.add_pos_left ihl _
  | _ => exact Nat.one_pos

end Expression

section Node

variable (op : BinaryOperator) (left right : Expression)

theorem leaves_node : (op.node left right).leaves = left.leaves + right.leaves := by
  cases op <;> rfl

theorem signs_node : (op.node left right).signs = left.signs + right.signs := by
  cases op <;> rfl

theorem tilt_node : (op.node left right).tilt =
    left.tilt + right.tilt + right.leaves - right.signs * left.leaves := by
  cases op <;> rfl

end Node

/-- The operands in a list of trees. -/
def totalLeaves (operands : List Expression) : Nat := (operands.map Expression.leaves).sum

/-- How far a list of trees leans to the right, the last tree first. -/
def totalTilt : List Expression → Int
  | [] => 0
  | x :: operands => x.tilt - x.signs * totalLeaves operands + totalTilt operands

theorem totalLeaves_cons (x : Expression) (operands : List Expression) :
    totalLeaves (x :: operands) = x.leaves + totalLeaves operands := by
  rw [totalLeaves, map_cons, sum_cons]
  rfl

/-- Giving a binary operator its operands adds those on its right. -/
theorem totalTilt_node (op : BinaryOperator) (left right : Expression)
    (operands : List Expression) :
    totalTilt (op.node left right :: operands) =
      totalTilt (right :: left :: operands) + right.leaves := by
  simp only [totalTilt, tilt_node, signs_node, totalLeaves_cons]
  push_cast
  ring

/-- Giving a unary operator its operand takes away those in front of it. -/
theorem totalTilt_unary (op : UnaryOperator) (x : Expression) (operands : List Expression) :
    totalTilt (.unary op.operation x :: operands) =
      totalTilt (x :: operands) - totalLeaves operands := by
  simp only [totalTilt, Expression.tilt, Expression.signs]
  push_cast
  ring

/-- Operators that wait for two operands. -/
def AllBinary (waiting : List (ParseElement Expression)) : Prop :=
  ∀ x ∈ waiting, ∃ op : BinaryOperator, x = op.element

/-- More on the last operand is more on the right of every operator that waits. -/
theorem reduceAll_grow (hbinary : AllBinary waiting) {x y z : Expression} (n : Nat)
    (hleaves : y.leaves = x.leaves + n)
    (hsame : operands'.map Expression.leaves = operands.map Expression.leaves)
    (h : reduceAll waiting (x :: operands) = .ok (z :: rest)) :
    ∃ z' rest', reduceAll waiting (y :: operands') = .ok (z' :: rest') ∧
      rest'.map Expression.leaves = rest.map Expression.leaves ∧ z'.leaves = z.leaves + n ∧
      totalTilt (z' :: rest') - totalTilt (y :: operands') =
        totalTilt (z :: rest) - totalTilt (x :: operands) + n * waiting.length := by
  induction waiting generalizing x y operands operands' with
  | nil =>
    obtain ⟨rfl, rfl⟩ := List.cons.inj (ok.inj h)
    refine ⟨y, operands', rfl, hsame, hleaves, ?_⟩
    simp
  | cons w waiting ih =>
    obtain ⟨op, rfl⟩ := hbinary w mem_cons_self
    have htail : AllBinary waiting := fun v hv => hbinary v (mem_cons_of_mem _ hv)
    cases operands with
    | nil =>
      -- two operands are needed
      rw [BinaryOperator.element, reduceAll] at h
      simp [reduce] at h
    | cons l operands =>
      obtain ⟨l', operands', rfl⟩ : ∃ l' rest', operands' = l' :: rest' := by
        cases operands' with
        | nil => cases hsame
        | cons l' rest' => exact ⟨l', rest', rfl⟩
      obtain ⟨hl, hsame'⟩ := List.cons.inj hsame
      rw [reduceAll_binary] at h ⊢
      have hnode : (op.node l' y).leaves = (op.node l x).leaves + n := by
        rw [leaves_node, leaves_node, hl, hleaves, Nat.add_assoc]
      obtain ⟨z', rest', hall, hrest, hz, hlean⟩ := ih htail hnode hsame' h
      refine ⟨z', rest', hall, hrest, hz, ?_⟩
      rw [totalTilt_node, totalTilt_node, hleaves] at hlean
      rw [length_cons]
      push_cast at hlean ⊢
      linarith

/-- Giving out operands loses none. -/
theorem totalLeaves_reduceAll (hbinary : AllBinary waiting)
    (h : reduceAll waiting operands = .ok operands') :
    totalLeaves operands' = totalLeaves operands := by
  induction waiting generalizing operands with
  | nil =>
    rw [ok.inj h]
  | cons w waiting ih =>
    obtain ⟨op, rfl⟩ := hbinary w mem_cons_self
    have htail : AllBinary waiting := fun v hv => hbinary v (mem_cons_of_mem _ hv)
    match operands, h with
    | [], h =>
      rw [BinaryOperator.element, reduceAll] at h
      simp [reduce] at h
    | [_], h =>
      rw [BinaryOperator.element, reduceAll] at h
      simp [reduce] at h
    | right :: left :: operands, h =>
      rw [reduceAll_binary] at h
      rw [ih htail h, totalLeaves_cons, totalLeaves_cons, totalLeaves_cons, leaves_node]
      omega

theorem totalLeaves_congr (h : operands'.map Expression.leaves = operands.map Expression.leaves) :
    totalLeaves operands' = totalLeaves operands := by
  rw [totalLeaves, totalLeaves, h]

/-- The last tree `x` and the trees `base` in front of it, when a phrase has been read and
all its operators have their operands. -/
structure Phrase.Scanned (p : Phrase) (operands : List Expression)
    (waiting : List (ParseElement Expression)) (x : Expression) (base : List Expression) :
    Prop where
  binary : AllBinary waiting.tail
  same : base.map Expression.leaves = operands.map Expression.leaves
  leaves : x.leaves = p.tree.leaves
  tilt : totalTilt operands + p.tree.tilt - p.tree.signs * totalLeaves operands ≤
    totalTilt (x :: base)
  strict : ¬ p.Shallow →
    totalTilt operands + p.tree.tilt - p.tree.signs * totalLeaves operands <
      totalTilt (x :: base)

theorem Phrase.scan_closed (hlevel : p.level ≤ 15) (hnot : p.isUnary = false)
    (h : p.scan operands = .ok (waiting, operands')) : waiting = [] := by
  cases p with
  | operand x => exact (Prod.mk.inj (ok.inj h)).1.symm
  | parentheses inner =>
    obtain ⟨⟨waiting₁, operands₁⟩, -, h⟩ := bind_eq_ok.mp h
    obtain ⟨operands₂, -, h⟩ := bind_eq_ok.mp h
    exact (Prod.mk.inj (ok.inj h)).1.symm
  | unary op inner => cases hnot
  | binary op left right =>
    have hop := priorities_binary op
    have hle : priorities op.operation ≤ 15 := hlevel
    omega

/-- Operators that have got their operands have made one of them. -/
theorem reduceAll_ne_nil (hbinary : AllBinary waiting) {x : Expression}
    (h : reduceAll waiting operands = .ok (x :: rest)) : ∃ y more, operands = y :: more := by
  cases operands with
  | cons y more => exact ⟨y, more, rfl⟩
  | nil =>
    cases waiting with
    | nil => cases h
    | cons w waiting =>
      obtain ⟨op, rfl⟩ := hbinary w mem_cons_self
      rw [BinaryOperator.element, reduceAll] at h
      simp [reduce] at h

/-- Whatever the parser makes of a phrase leans to the right as far as its tree, and further
if the phrase is not shallow. -/
theorem Phrase.scan_tilt (hfits : p.Fits) (h : p.scan operands = .ok (waiting, operands')) :
    ∃ x base, reduceAll waiting operands' = .ok (x :: base) ∧
      p.Scanned operands waiting x base := by
  induction p generalizing operands operands' waiting with
  | operand x =>
    obtain ⟨rfl, rfl⟩ := Prod.mk.inj (ok.inj h)
    have hzero : x.node.tilt = 0 ∧ x.node.signs = 0 := by cases x <;> exact ⟨rfl, rfl⟩
    refine ⟨x.node, operands, rfl, ?_, rfl, rfl, ?_, fun hnot => absurd trivial hnot⟩
    · intro w hw
      cases hw
    · simp [tree, totalTilt, hzero.1, hzero.2]
  | parentheses inner ih =>
    obtain ⟨⟨waiting₁, operands₁⟩, hscan, h⟩ := bind_eq_ok.mp h
    obtain ⟨operands₂, hall, h⟩ := bind_eq_ok.mp h
    obtain ⟨rfl, rfl⟩ := Prod.mk.inj (ok.inj h)
    obtain ⟨x, base, hall', hx⟩ := ih hfits hscan
    obtain rfl := ok.inj (hall.symm.trans hall')
    refine ⟨x, base, rfl, ?_, hx.same, hx.leaves, hx.tilt, hx.strict⟩
    intro w hw
    cases hw
  | unary op inner ih =>
    rw [scan] at h
    split at h
    · -- the operator goes to the operand in front of both operators
      rename_i hunary
      obtain ⟨operands₁, hreduce, h⟩ := bind_eq_ok.mp h
      obtain ⟨x, base, hall, hx⟩ := ih hfits.1 h
      cases operands with
      | nil => simp [reduce] at hreduce
      | cons y operands =>
        rw [reduce_unary] at hreduce
        obtain rfl := ok.inj hreduce
        have hlt : totalTilt (y :: operands) + (Expression.unary op.operation inner.tree).tilt -
            (Expression.unary op.operation inner.tree).signs * totalLeaves (y :: operands) <
              totalTilt (x :: base) := by
          have hlean := hx.tilt
          have hy := y.leaves_pos
          rw [totalTilt_unary, totalLeaves_cons] at hlean
          rw [totalLeaves_cons]
          simp only [Expression.tilt, Expression.signs, Expression.leaves] at hlean ⊢
          push_cast at hlean ⊢
          have hy' : (0 : Int) < y.leaves := by exact_mod_cast hy
          linarith
        exact ⟨x, base, hall, hx.binary, hx.same, hx.leaves, hlt.le, fun _ => hlt⟩
    · rename_i hunary
      obtain ⟨⟨waiting₁, operands₁⟩, hscan, h⟩ := bind_eq_ok.mp h
      obtain ⟨rfl, rfl⟩ := Prod.mk.inj (ok.inj h)
      obtain ⟨x, base, hall, hx⟩ := ih hfits.1 hscan
      have hnot : inner.isUnary = false := Bool.eq_false_of_not_eq_true hunary
      have hlevel : inner.level ≤ 15 := by
        rw [← priorities_unary op]
        exact hfits.2
      have hempty : waiting₁ = [] := scan_closed hlevel hnot hscan
      subst hempty
      have hleaves := totalLeaves_congr hx.same
      refine ⟨.unary op.operation x, base, ?_, ?_, hx.same, hx.leaves, ?_, ?_⟩
      · rw [reduceAll_append, hall, ok_bind, reduceAll_unary]
      · intro w hw
        cases hw
      · have hlean := hx.tilt
        rw [totalTilt_unary, hleaves]
        simp only [tree, Expression.tilt, Expression.signs]
        push_cast
        linarith
      · intro hshallow
        have hlean := hx.strict fun hinner => hshallow ⟨hinner, hnot⟩
        rw [totalTilt_unary, hleaves]
        simp only [tree, Expression.tilt, Expression.signs]
        push_cast
        linarith
  | binary op left right ihl ihr =>
    obtain ⟨hfl, hfr, hll, hrl⟩ := hfits
    obtain ⟨⟨waiting₁, operands₁⟩, hscan, h⟩ := bind_eq_ok.mp h
    obtain ⟨⟨waiting₂, operands₂⟩, htop, h⟩ := bind_eq_ok.mp h
    obtain ⟨⟨waiting₃, operands₃⟩, hscan', h⟩ := bind_eq_ok.mp h
    obtain ⟨rfl, rfl⟩ := Prod.mk.inj (ok.inj h)
    obtain ⟨x, base, hall, hx⟩ := ihl hfl hscan
    obtain ⟨y, base', hall', hy⟩ := ihr hfr hscan'
    obtain ⟨rfl, hrest⟩ := reduceAll_of_top (scan_waits hscan hfl) htop
    rw [hall] at hrest
    obtain ⟨l, rest, rfl⟩ := reduceAll_ne_nil hx.binary hrest
    obtain ⟨l', rest', rfl⟩ : ∃ l' rest', base' = l' :: rest' := by
      cases base' with
      | nil => cases hy.same
      | cons l' rest' => exact ⟨l', rest', rfl⟩
    obtain ⟨hl, hsame⟩ := List.cons.inj hy.same
    have hnode : (op.node l' y).leaves = l.leaves + y.leaves := by rw [leaves_node, hl]
    obtain ⟨z, zs, hgrow, hzs, hz, hlean⟩ :=
      reduceAll_grow hx.binary y.leaves hnode hsame hrest
    rw [totalTilt_node] at hlean
    have hleaves : totalLeaves (l :: rest) = left.tree.leaves + totalLeaves operands := by
      rw [← totalLeaves_reduceAll hx.binary hrest, totalLeaves_cons, hx.leaves,
        totalLeaves_congr hx.same]
    have hxlean := hx.tilt
    have hylean := hy.tilt
    have hpos := y.leaves_pos
    have hlength : (0 : Int) ≤ y.leaves * waiting₁.tail.length := by positivity
    have hright : (y.leaves : Int) = right.tree.leaves := by rw [hy.leaves]
    rw [hleaves] at hylean
    push_cast at hylean
    refine ⟨z, zs, ?_, ?_, ?_, ?_, ?_, ?_⟩
    · rw [reduceAll_append, hall', ok_bind, reduceAll_binary]
      exact hgrow
    · intro w hw
      cases waiting₃ with
      | nil => exact hx.binary w hw
      | cons v waiting₃ =>
        rw [cons_append, tail_cons, mem_append, mem_cons] at hw
        rcases hw with hw | rfl | hw
        · exact hy.binary w hw
        · exact ⟨op, rfl⟩
        · exact hx.binary w hw
    · rw [hzs, hx.same]
    · rw [hz, hx.leaves, hy.leaves, tree, leaves_node]
    · rw [tree, tilt_node, signs_node]
      push_cast
      linarith
    · intro hshallow
      rw [tree, tilt_node, signs_node]
      push_cast
      by_cases hleft : left.Shallow
      · by_cases hright' : right.Shallow
        · -- the left operand leaves operators waiting, which take more on their right
          have hedge : 1 < left.edge := by
            by_contra hle
            exact hshallow ⟨hleft, hright', Nat.not_lt.mp hle⟩
          obtain ⟨waiting', operands', hscan₁, hlength₁, -⟩ := scan_shallow hleft hfl operands
          obtain ⟨rfl, -⟩ := Prod.mk.inj (ok.inj (hscan.symm.trans hscan₁))
          have htail : 1 ≤ waiting₁.tail.length := by
            rw [length_tail]
            omega
          have hmore : (1 : Int) ≤ y.leaves * waiting₁.tail.length := by
            exact_mod_cast Nat.mul_pos hpos htail
          linarith
        · have hystrict := hy.strict hright'
          rw [hleaves] at hystrict
          push_cast at hystrict
          linarith
      · have hxstrict := hx.strict hleft
        linarith

/-- The parser builds the tree of the grammar. -/
def BuildsTree (p : Phrase) (expression : DrString) : Prop :=
  Outcome.Returns (fun fuel => expressionTree fuel expression) p.tree

/-- The parser builds a tree with the values of the grammar, for all arguments. -/
def EvaluatesAs (p : Phrase) (expression : DrString) : Prop :=
  ∃ e, Outcome.Returns (fun fuel => expressionTree fuel expression) e ∧
    ∀ args, evaluate args e = evaluate args p.tree

theorem BuildsTree.evaluatesAs (h : BuildsTree p expression) : EvaluatesAs p expression :=
  ⟨p.tree, h, fun _ => rfl⟩

theorem buildsTree_of_shallow {text blanks : Blob} (h : p.Spells text) (hfits : p.Fits)
    (hblanks : Blank blanks) (hexpression : expression.utf8 = text ++ blanks)
    (hshallow : p.Shallow) :
    BuildsTree p expression := by
  refine Outcome.Returns.of_add p.size fun fuel => ?_
  obtain ⟨waiting, operands, hscan, -, hall⟩ := Phrase.scan_shallow hshallow hfits []
  rw [expressionTree_phrase h hfits hblanks hexpression, hscan, ok_bind, hall]
  rfl

/-- A phrase that gives its tree is shallow: any other one leans further to the right. -/
theorem shallow_of_buildsTree {text blanks : Blob} (h : p.Spells text) (hfits : p.Fits)
    (hblanks : Blank blanks) (hexpression : expression.utf8 = text ++ blanks)
    (htree : BuildsTree p expression) : p.Shallow := by
  obtain ⟨least, hrun⟩ := htree
  have hresult : expressionTree (least + p.size) expression = .ok p.tree :=
    hrun (least + p.size) (Nat.le_add_right _ _)
  rw [expressionTree_phrase h hfits hblanks hexpression] at hresult
  obtain ⟨⟨waiting, operands⟩, hscan, hresult⟩ := bind_eq_ok.mp hresult
  obtain ⟨x, base, hall, hx⟩ := Phrase.scan_tilt hfits hscan
  simp only [hall, ok_bind] at hresult
  have hbase : base = [] := map_eq_nil_iff.mp hx.same
  subst hbase
  obtain rfl : x = p.tree := ok.inj hresult
  by_contra hnot
  have hstrict := hx.strict hnot
  simp [totalTilt, totalLeaves] at hstrict

/-- An expression of the grammar gets its value if it is shallow, and the tree of the grammar
exactly then. -/
theorem evaluatesAs_of_shallow (p : Phrase) (text blanks : Blob) (expression : DrString)
    (h : p.Spells text) (hfits : p.Fits) (hblanks : Blank blanks)
    (hexpression : expression.utf8 = text ++ blanks) :
    (p.Shallow → EvaluatesAs p expression) ∧ (BuildsTree p expression ↔ p.Shallow) :=
  ⟨fun hshallow => (buildsTree_of_shallow h hfits hblanks hexpression hshallow).evaluatesAs,
    shallow_of_buildsTree h hfits hblanks hexpression,
    buildsTree_of_shallow h hfits hblanks hexpression⟩

/-- A sign, parentheses, and priorities that fall and rise. -/
theorem evaluatesAs_of_shallow_mixed :
    EvaluatesAs
      (.binary .lower
        (.binary .mul (.unary .minus (.parentheses (.binary .plus (.operand (.named (ascii "a")))
          (.operand (.constant (ascii "2")))))) (.operand (.constant (ascii "-3"))))
        (.binary .minus (.operand (.value (ascii "0"))) (.operand (.named (ascii "b")))))
      (.bytes (ascii " -(a +2)* -3 < \\0-b ")) := by
  have hblank : Blank [32] := by decide
  have hnone : Blank [] := by decide
  have ha : (Operand.named (ascii "a")).Spells (ascii "a") :=
    .named ⟨by decide, by decide⟩ (by decide)
  have hb : (Operand.named (ascii "b")).Spells (ascii "b") :=
    .named ⟨by decide, by decide⟩ (by decide)
  have h2 : (Operand.constant (ascii "2")).Spells (ascii "2") := .constant ⟨by decide, by decide⟩
  have h3 : (Operand.constant (45 :: ascii "3")).Spells (45 :: ascii "3") :=
    .signed (.inr rfl) ⟨by decide, by decide⟩
  have h0 : (Operand.value (ascii "0")).Spells (92 :: ascii "0") := .value ⟨by decide, by decide⟩
  have hspells := Phrase.Spells.binary .lower
    (.binary .mul
      (.unary .minus hblank
        (.parentheses hnone
          (.binary .plus (.operand hnone ha) hblank (.operand hnone h2)) hnone)
        (.inr rfl))
      hnone (.operand hblank h3))
    hblank
    (.binary .minus (.operand hblank h0) hnone (.operand hnone hb))
  exact (evaluatesAs_of_shallow _ _ [32] _ hspells (by decide) hblank rfl).1 (by decide)

/-- `2-3*4-5`: the product is done at the second minus, and the first minus is not. -/
theorem not_evaluatesAs_leaning :
    ¬ ∀ (p : Phrase) (text blanks : Blob) (expression : DrString), p.Spells text → p.Fits →
      Blank blanks → expression.utf8 = text ++ blanks → EvaluatesAs p expression := by
  intro h
  have hnone : Blank [] := by decide
  have hdigit (d : UInt8) (hd : isdigit d = true ∧ (strtol 0 [d]).2 = 1) :
      (Phrase.operand (.constant [d])).Spells ([] ++ [d]) :=
    .operand hnone (.constant ⟨by simpa using hd.1, hd.2⟩)
  have hspells := Phrase.Spells.binary .minus
    (.binary .minus (hdigit 50 (by decide)) hnone
      (.binary .mul (hdigit 51 (by decide)) hnone (hdigit 52 (by decide))))
    hnone (hdigit 53 (by decide))
  obtain ⟨e, he, hvalues⟩ := h _ _ [] (.bytes (ascii "2-3*4-5")) hspells (by decide) hnone rfl
  let leaning : Expression := .binaryFull .binMinus (.direct 2)
    (.binaryFull .binMinus (.binaryFull .binMul (.direct 3) (.direct 4)) (.direct 5))
  have hleaning : Outcome.Returns (fun fuel => expressionTree fuel (.bytes (ascii "2-3*4-5")))
      leaning :=
    .of_add 10 fun fuel => rfl
  obtain rfl := hleaning.unique he
  let args : Arguments := ⟨fun _ => .fault, fun _ => false, fun _ => .fault, fun _ => false⟩
  have hvalue := hvalues args
  have hleft : evaluate args leaning = .ok (-5) := by decide
  rw [hleft] at hvalue
  revert hvalue
  decide

end IntEvaluator

end Drt
