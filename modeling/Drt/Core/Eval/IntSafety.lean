import Drt.Core.Eval.IntTokens
import Drt.Lib.Completes

/-!
# When integer expressions answer

Whatever the text, the parser comes to an end, with an exception or with a tree whose operators
all have their operands: each token takes a character at least. What is left is the evaluation,
that divides and shifts by what the operands give.
-/

open List

namespace Drt

namespace Evaluator

/-- `ArgumentsHash`. -/
def argumentsHash (constants : Blob → Option Int64) (values : UInt32 → Option Int64) :
    Arguments where
  getConstant name :=
    match constants name with
    | some v => .ok v
    | none => .raise (.dataNotFoundException "constant" (latin name))
  checkConstant name := (constants name).isSome
  getValue idx :=
    match values idx with
    | some v => .ok v
    | none => .raise (.dataNotFoundException "value" (toString idx.toNat))
  checkValue idx := (values idx).isSome

end Evaluator

namespace IntEvaluator

open Evaluator

variable {text rest : Blob} {state : ParserState} {n : Nat}

/-- All operators of the tree have their operands. -/
def Expression.Whole : Expression → Prop
  | .null => False
  | .unary _ operand => operand.Whole
  | .binaryFull _ left right => left.Whole ∧ right.Whole
  | .binaryPart _ left right => left.Whole ∧ right.Whole
  | _ => True

/-- An operator that waits for so many operands. -/
inductive Waiting : Expression → Nat → Prop where
  | unary (operation_id : Operation) : Waiting (.unary operation_id .null) 1
  | binaryFull (operation_id : Operation) : Waiting (.binaryFull operation_id .null .null) 2
  | binaryPart (operation_id : Operation) : Waiting (.binaryPart operation_id .null .null) 2

/-- The tokens of integer expressions, but the end. -/
def Proper : Token Expression → Prop
  | .expression expression => expression.Whole
  | .operator expression num_args _ => Waiting expression num_args
  | .openParenthesis => True
  | .closeParenthesis => True
  | _ => False

/-- What the stack of the parser holds. -/
def Stacked : ParseElement Expression → Prop
  | .operation expression _ num_args => Waiting expression num_args
  | .function _ _ => False
  | .openParenthesis => True

/-- The answer of the tokenizer: an exception, or a token, with less text left than that. -/
def Takes (n : Nat) (answer : Call (Token Expression × Blob)) : Prop :=
  (∃ e, answer = .raise e) ∨ ∃ next rest, answer = .ok (next, rest) ∧ Proper next ∧ rest.length < n

namespace Takes

theorem raise (e : Exception) : Takes n (.raise e) := .inl ⟨e, rfl⟩

theorem ok {next : Token Expression} (hnext : Proper next) (hrest : rest.length < n) :
    Takes n (.ok (next, rest)) :=
  .inr ⟨next, rest, rfl, hnext, hrest⟩

theorem ite {P : Prop} [Decidable P] {answer answer' : Call (Token Expression × Blob)}
    (h : P → Takes n answer) (h' : ¬ P → Takes n answer') :
    Takes n (if P then answer else answer') := by
  by_cases hP : P
  · rw [if_pos hP]
    exact h hP
  · rw [if_neg hP]
    exact h' hP

theorem binaryOperator (operation_id : Operation) (format_type value : String)
    (hrest : rest.length < n) :
    Takes n (binaryOperator state operation_id format_type value rest) := by
  unfold IntEvaluator.binaryOperator
  split_ifs
  · refine ok ?_ hrest
    cases operation_id <;> first | exact .binaryFull _ | exact .binaryPart _
  · exact raise _

/-- A number takes its first digit. -/
theorem strtol_pos {c : UInt8} (hc : isdigit c = true) (rest : Blob) :
    0 < (strtol 0 (c :: rest)).2 ∧
      ∀ {sign : UInt8}, sign = 43 ∨ sign = 45 → 0 < (strtol 0 (sign :: c :: rest)).2 := by
  have hten : digitValue c < 10 := digitValue_lt_ten_iff.mpr hc
  have hrun {base : Nat} (h : digitValue c < base) : digitRun base (c :: rest) ≠ [] := by
    rw [digitRun, takeWhile_cons, if_pos (decide_eq_true h)]
    exact cons_ne_nil _ _
  have hread : ∃ number length, strtolUnsigned 0 (c :: rest) = some (number, length) ∧
      0 < length := by
    by_cases hhex : hexPrefixed (c :: rest) = true
    · obtain ⟨x, d, more, rfl⟩ : ∃ x d more, rest = x :: d :: more := by
        cases rest with
        | nil => cases hhex
        | cons x rest =>
          cases rest with
          | nil => cases hhex
          | cons d more => exact ⟨x, d, more, rfl⟩
      have hd : digitValue d < 16 := (of_decide_eq_true hhex).2.2
      have hdigits : digitRun 16 (d :: more) ≠ [] := by
        rw [digitRun, takeWhile_cons, if_pos (decide_eq_true hd)]
        exact cons_ne_nil _ _
      refine ⟨numeral 16 (digitRun 16 (d :: more)), 2 + (digitRun 16 (d :: more)).length, ?_,
        by omega⟩
      simp only [strtolUnsigned, hhex, true_or, and_self, if_true]
      exact if_neg hdigits
    · have hdigit : digitValue c < if c = 48 then 8 else 10 := by
        split_ifs with hzero
        · rw [hzero]
          decide
        · exact hten
      refine ⟨numeral (if c = 48 then 8 else 10)
        (digitRun (if c = 48 then 8 else 10) (c :: rest)),
        0 + (digitRun (if c = 48 then 8 else 10) (c :: rest)).length, ?_, ?_⟩
      · simp only [strtolUnsigned, hhex, true_or, and_false, if_false, if_true,
          Bool.false_eq_true, List.head?_cons, Option.some.injEq, drop_zero]
        exact if_neg (hrun hdigit)
      · have hpos := length_pos_iff.mpr (hrun hdigit)
        omega
  obtain ⟨number, length, hread, hpos⟩ := hread
  refine ⟨?_, fun hsign => ?_⟩
  · rw [strtol_digit 0 (digitValue_of_isdigit hc), hread]
    exact hpos
  · rw [strtol_sign 0 hsign, hread]
    exact Nat.lt_of_lt_of_le hpos (Nat.le_add_left length 1)

theorem signToken (binary unary : Operation) {number : Blob} (hrest : rest.length < n)
    (hnumber : number.length ≤ n)
    (htaken : ∀ c more, rest = c :: more → isdigit c = true → 0 < (strtol 0 number).2) :
    Takes n (signToken state binary unary number rest) := by
  unfold IntEvaluator.signToken
  split_ifs with hstate hdigit
  · refine ok ?_ hrest
    cases binary <;> first | exact .binaryFull _ | exact .binaryPart _
  · refine ok trivial ?_
    rw [length_drop]
    cases rest with
    | nil => cases hdigit
    | cons c more =>
      have := htaken c more rfl (by simpa using hdigit)
      omega
  · exact ok (.unary _) hrest

theorem length_dropWhile_le (P : UInt8 → Bool) (text : Blob) :
    (text.dropWhile P).length ≤ text.length :=
  (dropWhile_suffix P).length_le

theorem definedToken (hrest : rest.length < n) : Takes n (definedToken rest) := by
  have hblanks := length_dropWhile_le isspace rest
  unfold IntEvaluator.definedToken
  split
  · exact raise _
  · rename_i c more heq
    rw [heq, length_cons] at hblanks
    have hname := length_dropWhile_le isNameChar more
    have hdigits := length_dropWhile_le isdigit more
    split_ifs
    · exact ok trivial (by omega)
    · exact raise _
    · exact ok trivial (by omega)
    · exact raise _

theorem nameToken {c : UInt8} (hc : isNameStart c = true) (hrest : (c :: rest).length ≤ n) :
    Takes n (nameToken (c :: rest)) := by
  have hchar := (isNameStart_spec hc).2.2
  have htaken : ((c :: rest).dropWhile isNameChar).length < n := by
    rw [dropWhile_cons, if_pos hchar]
    have hname := length_dropWhile_le isNameChar rest
    rw [length_cons] at hrest
    omega
  unfold IntEvaluator.nameToken
  refine ite (fun _ => definedToken htaken) fun _ => ok trivial htaken

/-- The tokenizer reports the end, or takes a character at least. -/
theorem parseNextToken (text : Blob) (state : ParserState) :
    parseNextToken text state = .ok (.finish, []) ∨
      Takes text.length (parseNextToken text state) := by
  have hblanks := length_dropWhile_le isspace text
  unfold IntEvaluator.parseNextToken
  split
  · exact .inl rfl
  · rename_i c expr heq
    right
    rw [heq, length_cons] at hblanks
    have hexpr : expr.length < text.length := by omega
    have hdrop (k : Nat) : (expr.drop k).length < text.length := by
      rw [length_drop]
      omega
    have hbinary (operation_id : Operation) (format_type value : String) (k : Nat) :
        Takes text.length
          (IntEvaluator.binaryOperator state operation_id format_type value (expr.drop k)) :=
      binaryOperator operation_id format_type value (hdrop k)
    refine ite (fun _ => ok trivial hexpr) fun _ => ?_
    refine ite (fun _ => ok trivial hexpr) fun _ => ?_
    -- `+` and `-`
    refine ite (fun _ => signToken _ _ hexpr hexpr.le fun d more hd hdigit =>
      hd ▸ (strtol_pos hdigit more).1) fun _ => ?_
    refine ite (fun _ => signToken _ _ hexpr hexpr fun d more hd hdigit =>
      hd ▸ (strtol_pos hdigit more).2 (.inr rfl)) fun _ => ?_
    refine ite (fun _ => ite (fun _ => hbinary _ _ _ 1) fun _ => raise _) fun _ => ?_
    refine ite (fun _ => ite (fun _ => hbinary _ _ _ 1) fun _ =>
      ite (fun _ => ok (.unary _) hexpr) fun _ => raise _) fun _ => ?_
    refine ite (fun _ => hbinary _ _ _ 0) fun _ => ?_
    refine ite (fun _ => hbinary _ _ _ 0) fun _ => ?_
    -- `<` and `>`
    refine ite (fun _ => ite (fun _ => hbinary _ _ _ 1) fun _ =>
      ite (fun _ => hbinary _ _ _ 1) fun _ => hbinary _ _ _ 0) fun _ => ?_
    refine ite (fun _ => ite (fun _ => hbinary _ _ _ 1) fun _ =>
      ite (fun _ => ite (fun _ => hbinary _ _ _ 3) fun _ => hbinary _ _ _ 1) fun _ =>
        hbinary _ _ _ 0) fun _ => ?_
    -- `&`, `|` and `^`
    refine ite (fun _ => ite (fun _ => hbinary _ _ _ 1) fun _ => hbinary _ _ _ 0) fun _ => ?_
    refine ite (fun _ => ite (fun _ => hbinary _ _ _ 1) fun _ => hbinary _ _ _ 0) fun _ => ?_
    refine ite (fun _ => ite (fun _ => hbinary _ _ _ 1) fun _ => hbinary _ _ _ 0) fun _ => ?_
    -- numbers, names and columns
    refine ite (fun hdigit => ite (fun _ => ok trivial ?_) fun _ => raise _) fun _ => ?_
    · have hpos := (strtol_pos hdigit expr).1
      rw [length_drop, length_cons]
      omega
    refine ite (fun hstart => ite (fun _ => nameToken hstart hblanks) fun _ => raise _) fun _ => ?_
    refine ite (fun _ => ite (fun _ => ite (fun _ => ok trivial (hdrop _)) fun _ => raise _)
      fun _ => raise _) fun _ => raise _

end Takes

open Outcome

/-- All operands are whole. -/
def AllWhole (operands : List Expression) : Prop := ∀ x ∈ operands, x.Whole

/-- What the parser has read is in order. -/
structure Ready (p : Parser Expression) : Prop where
  operands : AllWhole p.operands
  parse_stack : ∀ x ∈ p.parse_stack, Stacked x

variable {expression : Expression} {num_args : Nat} {operands : List Expression}
  {stack : List (ParseElement Expression)}

theorem AllWhole.cons (hx : expression.Whole) (h : AllWhole operands) :
    AllWhole (expression :: operands) :=
  forall_mem_cons.mpr ⟨hx, h⟩

/-- An operator takes the operands that it waits for. -/
theorem completes_reduce (missing : String) (h : Waiting expression num_args)
    (hoperands : AllWhole operands) :
    Completes (fun _ => reduce setOperands missing expression num_args operands) AllWhole := by
  have hbinary {binary : Expression} {node : Expression → Expression → Expression}
      (hset : ∀ left right, setOperands binary [left, right] = .ok (node left right))
      (hnode : ∀ left right : Expression, left.Whole → right.Whole → (node left right).Whole) :
      Completes (fun _ => reduce setOperands missing binary 2 operands) AllWhole := by
    match operands, hoperands with
    | [], _ => exact Completes.raise _ _
    | [_], _ => exact Completes.raise _ _
    | right :: left :: rest, hoperands =>
      obtain ⟨hright, hothers⟩ := forall_mem_cons.mp hoperands
      obtain ⟨hleft, hrest⟩ := forall_mem_cons.mp hothers
      have hreduce : reduce setOperands missing binary 2 (right :: left :: rest) =
          setOperands binary [left, right] >>= fun expression => .ok (expression :: rest) := rfl
      rw [hreduce, hset]
      exact Completes.ok (AllWhole.cons (hnode left right hleft hright) hrest)
  cases h with
  | unary operation_id =>
    match operands, hoperands with
    | [], _ => exact Completes.raise _ _
    | x :: rest, hoperands =>
      obtain ⟨hx, hrest⟩ := forall_mem_cons.mp hoperands
      have hwhole : (Expression.unary operation_id x).Whole := hx
      exact Completes.ok (AllWhole.cons hwhole hrest)
  | binaryFull operation_id | binaryPart operation_id =>
    exact hbinary (fun _ _ => rfl) fun _ _ hleft hright => ⟨hleft, hright⟩

/-- At the end the stack is reduced to one tree. -/
theorem completes_finish (hstack : ∀ x ∈ stack, Stacked x) (hoperands : AllWhole operands) :
    Completes (fun _ => finish setOperands stack operands) Expression.Whole := by
  induction stack generalizing operands with
  | nil =>
    match operands, hoperands with
    | [], _ => exact Completes.raise _ _
    | [tree], hoperands => exact Completes.ok (hoperands tree mem_cons_self)
    | _ :: _ :: _, _ => exact Completes.raise _ _
  | cons element stack ih =>
    obtain ⟨helement, hrest⟩ := forall_mem_cons.mp hstack
    cases element with
    | openParenthesis => exact Completes.raise _ _
    | function expression num_args => exact helement.elim
    | operation expression priority num_args =>
      exact (completes_reduce _ helement hoperands).bind fun _ hreduced => ih hrest hreduced

/-- A right parenthesis reduces the stack. -/
theorem completes_closeParenthesis (hstack : ∀ x ∈ stack, Stacked x)
    (hoperands : AllWhole operands) :
    Completes (fun _ => closeParenthesis setOperands stack operands)
      fun left => (∀ x ∈ left.1, Stacked x) ∧ AllWhole left.2 := by
  induction stack generalizing operands with
  | nil => exact Completes.ok ⟨hstack, hoperands⟩
  | cons element stack ih =>
    obtain ⟨helement, hrest⟩ := forall_mem_cons.mp hstack
    cases element with
    | openParenthesis => exact Completes.ok ⟨hrest, hoperands⟩
    | function expression num_args => exact helement.elim
    | operation expression priority num_args =>
      exact (completes_reduce _ helement hoperands).bind fun _ hreduced => ih hrest hreduced

theorem completes_reduceLast (priority : Int) (hstack : ∀ x ∈ stack, Stacked x)
    (hoperands : AllWhole operands) :
    Completes (fun _ => reduceLast setOperands priority stack operands)
      fun left => (∀ x ∈ left.1, Stacked x) ∧ AllWhole left.2 := by
  unfold reduceLast
  split
  · obtain ⟨helement, hrest⟩ := forall_mem_cons.mp hstack
    split_ifs
    · exact Completes.ok ⟨hstack, hoperands⟩
    · exact (completes_reduce _ helement hoperands).bind fun _ hreduced =>
        Completes.ok ⟨hrest, hreduced⟩
  · exact Completes.ok ⟨hstack, hoperands⟩

variable {next : Token Expression} {run : Call Int64}

/-- Each token keeps what has been read in order. -/
theorem completes_token {p : Parser Expression} (h : Ready p) (hnext : Proper next) :
    Completes (fun _ => token setOperands p next) Ready := by
  cases next with
  | finish => exact hnext.elim
  | function expression num_args => exact hnext.elim
  | expression expression => exact Completes.ok ⟨h.operands.cons hnext, h.parse_stack⟩
  | operator expression num_args priority =>
    refine (completes_reduceLast priority h.parse_stack h.operands).bind fun left hleft => ?_
    exact Completes.ok ⟨hleft.2, forall_mem_cons.mpr ⟨hnext, hleft.1⟩⟩
  | openParenthesis =>
    exact Completes.ok ⟨h.operands, forall_mem_cons.mpr ⟨trivial, h.parse_stack⟩⟩
  | closeParenthesis =>
    refine (completes_closeParenthesis h.parse_stack h.operands).bind fun left hleft => ?_
    exact Completes.ok ⟨hleft.2, hleft.1⟩

/-- The loop over the tokens ends: the text gets shorter. -/
theorem completes_parseTokens {p : Parser Expression} (h : Ready p) (text : Blob) :
    Completes (fun fuel => parseTokens setOperands parseNextToken fuel text p)
      Expression.Whole := by
  induction hlength : text.length using Nat.strong_induction_on generalizing text p with
  | h length ih =>
    obtain hfinish | ⟨e, hraise⟩ | ⟨next, rest, hok, hnext, hrest⟩ :=
      Takes.parseNextToken text p.state
    · refine (completes_finish h.parse_stack h.operands).of_succ fun fuel => ?_
      rw [parseTokens, hfinish]
      rfl
    · refine (Completes.raise _ e).of_succ fun fuel => ?_
      rw [parseTokens, hraise]
      rfl
    · have hgo : Completes (fun fuel => token setOperands p next >>=
          parseTokens setOperands parseNextToken fuel rest) Expression.Whole :=
        (completes_token h hnext).bind fun p' hready =>
          ih rest.length (hlength ▸ hrest) hready rest rfl
      refine hgo.of_succ fun fuel => ?_
      rw [parseTokens, hok]
      cases next with
      | finish => exact hnext.elim
      | _ => rfl

/-- The parser starts in order, or refuses the token. -/
theorem completes_firstToken (hnext : Proper next) :
    Completes (fun _ => firstToken next) Ready := by
  cases next with
  | finish => exact hnext.elim
  | function expression num_args => exact hnext.elim
  | expression expression =>
    exact Completes.ok ⟨AllWhole.cons hnext (forall_mem_nil _), forall_mem_nil _⟩
  | operator expression num_args priority =>
    exact Completes.ok ⟨forall_mem_nil _,
      forall_mem_cons.mpr ⟨hnext, forall_mem_nil _⟩⟩
  | openParenthesis =>
    exact Completes.ok ⟨forall_mem_nil _,
      forall_mem_cons.mpr ⟨trivial, forall_mem_nil _⟩⟩
  | closeParenthesis => exact Completes.raise _ _

/-- Every text is refused with an exception, or read as a tree that is whole. -/
theorem completes_expressionTree (expression : DrString) :
    Completes (fun fuel => expressionTree fuel expression) Expression.Whole := by
  unfold expressionTree parseExpression
  obtain hfinish | ⟨e, hraise⟩ | ⟨next, rest, hok, hnext, -⟩ :=
    Takes.parseNextToken (expression.utf8.takeWhile (· ≠ 0)) .expression
  · rw [hfinish]
    exact Completes.raise _ _
  · rw [hraise]
    exact Completes.raise _ _
  · rw [hok]
    exact (completes_firstToken hnext).bind fun p hready => completes_parseTokens hready rest

/-! ## What the operators mean -/

/-- The operands for which the language defines the operator. -/
def Operation.InDomain (operation_id : Operation) (l r : Int64) : Prop :=
  match operation_id with
  | .binDiv => r ≠ 0 ∧ ¬ (l = Int64.minValue ∧ r = -1)
  | .binLShift => 0 ≤ r ∧ r < 64
  | .binRShift => 0 ≤ r ∧ r < 64
  | _ => True

/-- The value of an operator with one operand. -/
def Operation.ofOne (operation_id : Operation) (x : Int64) : Option Int64 :=
  match operation_id with
  | .unPlus => some x
  | .unMinus => some (-x)
  | .unNot => some (ofBool (x = 0))
  | .unBitNot => some (~~~x)
  | _ => none

/-- The groups of bits which `>><<` exchanges. -/
def swapped (l r : Int64) : Option Int64 :=
  if r = 1 then some (swapBits l 1 0x5555555555555555)
  else if r = 2 then some (swapBits l 2 0x3333333333333333)
  else if r = 4 then some (swapBits l 4 0x0f0f0f0f0f0f0f0f)
  else if r = 16 then some (swapBits l 8 0x00ff)
  else if r = 32 then some (swapBits (swapBits l 8 0x00ff00ff) 16 0x0000ffff)
  else if r = 64 then
    some (swapBits (swapBits (swapBits l 8 0x00ff00ff00ff00ff) 16 0x0000ffff0000ffff) 32
      0x00000000ffffffff)
  else none

/-- The value of an operator with two operands, where it has one. -/
def Operation.ofTwo (operation_id : Operation) (l r : Int64) : Option Int64 :=
  match operation_id with
  | .binPlus => some (l + r)
  | .binMinus => some (l - r)
  | .binMul => some (l * r)
  | .binDiv => some (l / r)
  | .binEqual => some (ofBool (l = r))
  | .binNonEq => some (ofBool (l ≠ r))
  | .binLower => some (ofBool (l < r))
  | .binGreater => some (ofBool (l > r))
  | .binLowerEq => some (ofBool (l ≤ r))
  | .binGreaterEq => some (ofBool (l ≥ r))
  | .binLShift => some (l <<< r)
  | .binRShift => some (l >>> r)
  | .binByteSwap => swapped l r
  | .binBitAnd => some (l &&& r)
  | .binBitOr => some (l ||| r)
  | .binBitXor => some (l ^^^ r)
  | .binXor => some (ofBool (l = 0) ^^^ ofBool (r = 0))
  | _ => none

/-- Whether the right operand of `&&` and `||` matters. -/
def Operation.GoesOn (operation_id : Operation) (l : Int64) : Prop :=
  operation_id = .binAnd ∧ l ≠ 0 ∨ operation_id = .binOr ∧ l = 0

instance (operation_id : Operation) (l : Int64) : Decidable (operation_id.GoesOn l) :=
  inferInstanceAs (Decidable (_ ∨ _))

/-- The value of `&&` and `||` where the right operand does not matter. -/
def Operation.ofLeft : Operation → Option Int64
  | .binAnd => some 0
  | .binOr => some 1
  | _ => none

variable (constants : Blob → Option Int64) (values : UInt32 → Option Int64)

/-- The value of a tree, where it has one. -/
def Expression.meaning : Expression → Option Int64
  | .null => none
  | .direct v => some v
  | .variable var_name => constants var_name
  | .definedVariable var_name => some (ofBool (constants var_name).isSome)
  | .value column_id => values column_id
  | .definedValue column_id => some (ofBool (values column_id).isSome)
  | .unary operation_id operand => operand.meaning >>= operation_id.ofOne
  | .binaryFull operation_id left right =>
    left.meaning >>= fun l => right.meaning >>= fun r => operation_id.ofTwo l r
  | .binaryPart operation_id left right =>
    left.meaning >>= fun l =>
      if operation_id.GoesOn l then right.meaning >>= fun r => some (ofBool (r ≠ 0))
      else operation_id.ofLeft

/-- The operators of a tree that are come to have operands for which they are defined. -/
def Expression.Defined : Expression → Prop
  | .unary _ operand => operand.Defined
  | .binaryFull operation_id left right =>
    left.Defined ∧ ∀ l, left.meaning constants values = some l →
      right.Defined ∧ ∀ r, right.meaning constants values = some r → operation_id.InDomain l r
  | .binaryPart operation_id left right =>
    left.Defined ∧ ∀ l, left.meaning constants values = some l →
      operation_id.GoesOn l → right.Defined
  | _ => True

/-- The code gives the value, or an exception where there is none. -/
def Agrees (run : Call Int64) : Option Int64 → Prop
  | some v => run = .ok v
  | none => ∃ e, run = .raise e

/-- The code does as the meaning says where everything is defined, and goes wrong elsewhere. -/
def Follows (run : Call Int64) (defined : Prop) (meaning : Option Int64) : Prop :=
  defined ∧ Agrees run meaning ∨ ¬ defined ∧ run = .fault

theorem agrees_evaluateUnary (operation_id : Operation) (x : Int64) :
    Agrees (evaluateUnary operation_id x) (operation_id.ofOne x) := by
  cases operation_id <;> first | rfl | exact ⟨_, rfl⟩

theorem agrees_byteSwap (l r : Int64) : Agrees (byteSwap l r) (swapped l r) := by
  unfold byteSwap swapped
  split_ifs <;> first | rfl | exact ⟨_, rfl⟩

theorem follows_evaluateBinary (operation_id : Operation) (l r : Int64) :
    Follows (evaluateBinary operation_id l r) (operation_id.InDomain l r)
      (operation_id.ofTwo l r) := by
  have hguarded {P Q : Prop} [Decidable P] (hPQ : P ↔ Q) (v : Int64) :
      Follows (if P then .ok v else .fault) Q (some v) := by
    by_cases hP : P
    · exact .inl ⟨hPQ.mp hP, if_pos hP⟩
    · exact .inr ⟨fun hQ => hP (hPQ.mpr hQ), if_neg hP⟩
  cases operation_id with
  | binDiv =>
    by_cases h : r = 0 ∨ l = Int64.minValue ∧ r = -1
    · exact .inr ⟨fun hdomain => h.elim hdomain.1 hdomain.2, if_pos h⟩
    · exact .inl ⟨not_or.mp h, if_neg h⟩
  | binLShift | binRShift => exact hguarded Iff.rfl _
  | binByteSwap => exact .inl ⟨trivial, agrees_byteSwap l r⟩
  | _ => exact .inl ⟨trivial, by first | rfl | exact ⟨_, rfl⟩⟩

variable {constants values}

/-- What comes after a value follows what is meant after it. -/
theorem Follows.bind {defined : Prop} {meaning : Option Int64} {next : Int64 → Call Int64}
    {defined' : Int64 → Prop} {meaning' : Int64 → Option Int64} (h : Follows run defined meaning)
    (hnext : ∀ v, Follows (next v) (defined' v) (meaning' v)) :
    Follows (run >>= next) (defined ∧ ∀ v, meaning = some v → defined' v)
      (meaning >>= meaning') := by
  obtain ⟨hdefined, hagrees⟩ | ⟨hnot, hfault⟩ := h
  · cases meaning with
    | none =>
      obtain ⟨e, rfl⟩ := hagrees
      refine .inl ⟨⟨hdefined, fun v hv => ?_⟩, e, rfl⟩
      cases hv
    | some v =>
      have hrun : run = .ok v := hagrees
      rw [hrun]
      obtain ⟨hthen, hmeaning⟩ | ⟨hnot, hfault⟩ := hnext v
      · refine .inl ⟨⟨hdefined, fun w hw => ?_⟩, hmeaning⟩
        rwa [← Option.some.inj hw]
      · exact .inr ⟨fun hall => hnot (hall.2 v rfl), hfault⟩
  · rw [hfault]
    exact .inr ⟨fun hall => hnot hall.1, rfl⟩

theorem Agrees.follows {meaning : Option Int64} (h : Agrees run meaning) :
    Follows run True meaning :=
  .inl ⟨trivial, h⟩

theorem Follows.congr {defined defined' : Prop} {meaning : Option Int64}
    (h : Follows run defined meaning) (heq : defined ↔ defined') : Follows run defined' meaning :=
  propext heq ▸ h

theorem agrees_held (held : Option Int64) (e : Exception) :
    Agrees (match held with | some v => .ok v | none => .raise e) held := by
  cases held with
  | none => exact ⟨e, rfl⟩
  | some v => rfl

/-- The right operand of `&&` and `||` is evaluated if it matters. -/
theorem follows_goesOn (operation_id : Operation) (l : Int64) {defined : Prop}
    {meaning : Option Int64} (h : Follows run defined meaning) :
    Follows
      (match operation_id with
        | .binAnd => if l = 0 then .ok 0 else run >>= fun r => .ok (ofBool (r ≠ 0))
        | .binOr => if l ≠ 0 then .ok 1 else run >>= fun r => .ok (ofBool (r ≠ 0))
        | _ => .raise (.invalidFormatException "binary operand" operation_id.number))
      (operation_id.GoesOn l → defined)
      (if operation_id.GoesOn l then meaning >>= fun r => some (ofBool (r ≠ 0))
        else operation_id.ofLeft) := by
  have hvalue (r : Int64) : Follows (.ok (ofBool (r ≠ 0))) True (some (ofBool (r ≠ 0))) :=
    Agrees.follows rfl
  have hright : Follows (run >>= fun r => .ok (ofBool (r ≠ 0))) defined
      (meaning >>= fun r => some (ofBool (r ≠ 0))) :=
    (h.bind hvalue).congr (by simp)
  by_cases hgoes : operation_id.GoesOn l
  · rw [if_pos hgoes]
    refine Follows.congr ?_ (forall_prop_of_true hgoes).symm
    obtain ⟨rfl, hl⟩ | ⟨rfl, hl⟩ := hgoes
    · simpa only [if_neg hl] using hright
    · simpa only [hl, ne_eq, not_true_eq_false, if_false] using hright
  · rw [if_neg hgoes]
    refine Follows.congr ?_ (iff_of_true trivial fun h => absurd h hgoes)
    refine Agrees.follows ?_
    have hleft : (operation_id = .binAnd → l = 0) ∧ (operation_id = .binOr → l ≠ 0) :=
      ⟨fun h => by_contra fun hl => hgoes (.inl ⟨h, hl⟩), fun h hl => hgoes (.inr ⟨h, hl⟩)⟩
    cases operation_id with
    | binAnd => exact if_pos (hleft.1 rfl)
    | binOr => exact if_pos (hleft.2 rfl)
    | _ => exact ⟨_, rfl⟩

/-- The evaluation of a whole tree follows its meaning. -/
theorem follows_evaluate (constants : Blob → Option Int64) (values : UInt32 → Option Int64)
    {tree : Expression} (h : tree.Whole) :
    Follows (evaluate (argumentsHash constants values) tree) (tree.Defined constants values)
      (tree.meaning constants values) := by
  induction tree with
  | null => exact h.elim
  | direct v | definedVariable var_name | definedValue column_id => exact Agrees.follows rfl
  | «variable» var_name | value column_id => exact (agrees_held _ _).follows
  | unary operation_id operand ih =>
    refine ((ih h).bind fun x => (agrees_evaluateUnary operation_id x).follows).congr ?_
    exact and_iff_left fun _ _ => trivial
  | binaryFull operation_id left right ihleft ihright =>
    exact (ihleft h.1).bind fun l => (ihright h.2).bind fun r =>
      follows_evaluateBinary operation_id l r
  | binaryPart operation_id left right ihleft ihright =>
    exact (ihleft h.1).bind fun l => follows_goesOn operation_id l (ihright h.2)

theorem Agrees.completes {meaning : Option Int64} (h : Agrees run meaning) :
    Completes (fun _ => run) fun _ => True := by
  cases meaning with
  | none =>
    obtain ⟨e, rfl⟩ := h
    exact Completes.raise _ e
  | some v =>
    obtain rfl : run = .ok v := h
    exact Completes.ok trivial

/-! ## Texts -/

/-- The evaluation of the text comes back with a value, or raises an exception. -/
def Answers (constants : Blob → Option Int64) (values : UInt32 → Option Int64)
    (expression : DrString) : Prop :=
  Completes
    (fun fuel => expressionTree fuel expression >>= evaluate (argumentsHash constants values))
    fun _ => True

/-- An expression is evaluated without an undefined operation exactly when the divisions and
shifts of its tree that the evaluation comes to have operands in their domains. -/
theorem answers_iff (constants : Blob → Option Int64) (values : UInt32 → Option Int64)
    (expression : DrString) :
    Answers constants values expression ↔
      ∀ tree, Returns (fun fuel => expressionTree fuel expression) tree →
        tree.Defined constants values := by
  obtain ⟨tree, htree, hwhole⟩ | ⟨e, hraises⟩ := completes_expressionTree expression
  · obtain ⟨hdefined, hagrees⟩ | ⟨hnot, hfault⟩ :=
      follows_evaluate constants values hwhole
    · refine ⟨fun _ tree' htree' => htree.unique htree' ▸ hdefined, fun _ => ?_⟩
      have hread : Completes (fun fuel => expressionTree fuel expression) (· = tree) :=
        .of_returns htree rfl
      refine hread.bind ?_
      rintro _ rfl
      exact hagrees.completes
    · refine ⟨fun hanswers => absurd hanswers ?_, fun hall => absurd (hall tree htree) hnot⟩
      obtain ⟨least, hrun⟩ := htree
      refine Completes.not_of_fault least fun fuel hfuel => ?_
      beta_reduce at hrun ⊢
      rw [hrun fuel hfuel, ok_bind, hfault]
  · have hrefused : Completes (fun fuel => expressionTree fuel expression) fun _ => False :=
      .inr ⟨e, hraises⟩
    exact iff_of_true (hrefused.bind fun _ h => h.elim)
      fun tree htree => absurd htree hraises.not_returns

/-- `1/0` is read and evaluated, and the division is done. -/
theorem not_answers : ¬ ∀ (constants : Blob → Option Int64) (values : UInt32 → Option Int64)
    (expression : DrString), Answers constants values expression := by
  intro h
  have hread (fuel : Nat) : expressionTree (fuel + 4) (.bytes (ascii "1/0")) =
      .ok (.binaryFull .binDiv (.direct 1) (.direct 0)) := rfl
  refine Completes.not_of_fault 4 (fun fuel hfuel => ?_)
    (h (fun _ => none) (fun _ => none) (.bytes (ascii "1/0")))
  obtain ⟨fuel, rfl⟩ := Nat.exists_eq_add_of_le' hfuel
  rw [hread]
  rfl

end IntEvaluator

end Drt
