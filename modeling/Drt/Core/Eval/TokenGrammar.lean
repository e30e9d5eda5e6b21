import Drt.Core.Eval.IntEvaluator
import Drt.Lib.Completes

/-!
# What the expression parser accepts

The parser never asks whether a token may stand where it stands: it counts the operands. The
grammar is compared with what the counts let through.
-/

open List

namespace Drt

namespace Evaluator

open Outcome

variable {ε : Type} {tokens : List (Token ε)} {stack : List (ParseElement ε)} {n : Nat}

/-- A tokenizer which hands out these tokens, whatever it is told to expect. -/
def handOut : List (Token ε) → ParserState → Call (Token ε × List (Token ε))
  | [], _ => .ok (.finish, [])
  | next :: rest, _ => .ok (next, rest)

/-- A `setOperands` which makes an expression with its operands. -/
def setBy (node : ε → List ε → ε) (expression : ε) (operands : List ε) : Call ε :=
  .ok (node expression operands)

/-- `parseExpression` on a sequence of tokens. -/
def parse (node : ε → List ε → ε) (fuel : Nat) (tokens : List (Token ε)) : Call ε :=
  parseExpression (setBy node) handOut fuel tokens

/-! ## The grammar -/

/-- So many expressions, one after the other. -/
inductive Expressions : Nat → List (Token ε) → Prop where
  | none : Expressions 0 []
  | more {first rest : List (Token ε)} {n : Nat} (hfirst : Expressions 1 first)
    (hrest : Expressions n rest) : Expressions (n + 1) (first ++ rest)
  | operand (expression : ε) : Expressions 1 [.expression expression]
  | parentheses {inner : List (Token ε)} (h : Expressions 1 inner) :
    Expressions 1 (.openParenthesis :: inner ++ [.closeParenthesis])
  | unary (expression : ε) (priority : Int) {operand : List (Token ε)}
    (h : Expressions 1 operand) : Expressions 1 (.operator expression 1 priority :: operand)
  | binary (expression : ε) (priority : Int) {left right : List (Token ε)}
    (hleft : Expressions 1 left) (hright : Expressions 1 right) :
    Expressions 1 (left ++ .operator expression 2 priority :: right)
  | call (expression : ε) {num_args : Nat} {args : List (Token ε)}
    (h : Expressions num_args args) :
    Expressions 1
      (.function expression num_args :: .openParenthesis :: args ++ [.closeParenthesis])

/-- A well-formed expression. -/
def WellFormed (tokens : List (Token ε)) : Prop := Expressions 1 tokens

/-! ## The counts -/

/-- What a token adds to the operands, once it has been done. -/
def Token.gain : Token ε → Int
  | .expression _ => 1
  | .operator _ num_args _ => 1 - num_args
  | .function _ num_args => 1 - num_args
  | _ => 0

/-- The operands that are left when everything has been done. -/
def excess (tokens : List (Token ε)) : Int := (tokens.map Token.gain).sum

/-- The left parentheses that are open behind a token. -/
def nest (depth : Nat) : Token ε → Nat
  | .openParenthesis => depth + 1
  | .closeParenthesis => depth - 1
  | _ => depth

/-- The left parentheses that stay open. -/
def unclosed (tokens : List (Token ε)) : Nat := tokens.foldl nest 0

/-- A left parenthesis. -/
def ParseElement.isOpen : ParseElement ε → Bool
  | .openParenthesis => true
  | _ => false

/-- How many of the last elements of the stack are done because of the token that follows, or of
the end. -/
def applied (stack : List (ParseElement ε)) : Option (Token ε) → Nat
  | none => stack.length
  | some .closeParenthesis => (stack.takeWhile fun element => !element.isOpen).length
  | some (.operator _ _ priority) =>
    match stack with
    | .operation _ last _ :: _ => if keeps last priority then 0 else 1
    | _ => 0
  | some _ => 0

/-- What waits behind a token. -/
def wait (stack : List (ParseElement ε)) (next : Token ε) : List (ParseElement ε) :=
  let left := stack.drop (applied stack (some next))
  match next with
  | .operator expression num_args priority =>
    .operation expression (UInt32.ofInt (if priority < 0 then -priority else priority)) num_args ::
      left
  | .function expression num_args => .function expression num_args :: left
  | .openParenthesis => .openParenthesis :: left
  | .closeParenthesis => left.tail
  | _ => left

/-- What waits behind these tokens: the priority of the first one is taken with its sign. -/
def waiting : List (Token ε) → List (ParseElement ε)
  | [] => []
  | .operator expression num_args priority :: rest =>
    rest.foldl wait [.operation expression (UInt32.ofInt priority) num_args]
  | first :: rest => rest.foldl wait (wait [] first)

/-- The operands an element takes beyond the one it gives. -/
def ParseElement.loss : ParseElement ε → Int
  | .operation _ _ num_args => num_args - 1
  | .function _ num_args => num_args - 1
  | .openParenthesis => 0

/-- The operands that go when all these elements are done. -/
def losses (stack : List (ParseElement ε)) : Int := (stack.map ParseElement.loss).sum

/-- What is done between these tokens and the next one has its operands there. -/
def SuppliedAt (before : List (Token ε)) (next : Option (Token ε)) : Prop :=
  ∀ i < applied (waiting before) next,
    1 ≤ excess before + losses ((waiting before).drop (i + 1))

/-- Whenever an operator or a function is done, its operands are there. -/
def Supplied (tokens : List (Token ε)) : Prop :=
  ∀ before after, before ≠ [] → before ++ after = tokens → SuppliedAt before after.head?

/-- There is a first token, and it is no right parenthesis. -/
def Starts (tokens : List (Token ε)) : Prop :=
  ∃ first rest, tokens = first :: rest ∧ first ≠ .closeParenthesis

/-- Nothing is missing. -/
structure Complete (tokens : List (Token ε)) : Prop where
  starts : Starts tokens
  closed : unclosed tokens = 0
  single : excess tokens = 1
  supplied : Supplied tokens

/-- The exceptions of the parser. -/
def ParseException (e : Exception) : Prop :=
  e = .endOfDataException "expression" "empty" ∨
    ∃ value, e = .invalidFormatException "expression" value

/-- The code comes back with a result as described exactly when it should, and raises an
exception of the parser otherwise. -/
def Decides {α : Type} (run : Nat → Call α) (accepted : Prop) (post : α → Prop) : Prop :=
  accepted ∧ (∃ a, Returns run a ∧ post a) ∨ ¬ accepted ∧ ∃ e, ParseException e ∧ Raises run e

namespace Decides

variable {α β : Type} {run run' : Nat → Call α} {accepted accepted' : Prop} {post : α → Prop}

theorem congr (h : Decides run accepted post) (heq : accepted ↔ accepted') :
    Decides run accepted' post :=
  propext heq ▸ h

theorem ok (h : accepted) {a : α} (ha : post a) : Decides (fun _ => .ok a) accepted post :=
  .inl ⟨h, a, Returns.ok a, ha⟩

theorem raise (h : ¬ accepted) {e : Exception} (he : ParseException e) :
    Decides (fun _ => (.raise e : Call α)) accepted post :=
  .inr ⟨h, e, he, 0, fun _ _ => rfl⟩

/-- One pass of a loop: under one more, the run goes on as another one does. -/
theorem of_succ (h : Decides run' accepted post) (hpass : ∀ fuel, run (fuel + 1) = run' fuel) :
    Decides run accepted post := by
  obtain ⟨haccepted, a, ha, hpost⟩ | ⟨hnot, e, he, least, hraise⟩ := h
  · exact .inl ⟨haccepted, a, ha.of_succ hpass, hpost⟩
  · refine .inr ⟨hnot, e, he, least + 1, fun fuel hfuel => ?_⟩
    obtain ⟨fuel, rfl⟩ : ∃ n, fuel = n + 1 := ⟨fuel - 1, by omega⟩
    rw [hpass, hraise fuel (by omega)]

variable {next : Nat → α → Call β}

section

variable (h : Decides run accepted post)
include h

/-- What comes after a call has to be accepted as well. -/
theorem bind {post' : β → Prop}
    (hnext : ∀ a, post a → Decides (fun fuel => next fuel a) accepted' post') :
    Decides (fun fuel => run fuel >>= next fuel) (accepted ∧ accepted') post' := by
  obtain ⟨haccepted, a, ha, hpost⟩ | ⟨hnot, e, he, least, hraise⟩ := h
  · obtain ⟨haccepted', b, hb, hpost'⟩ | ⟨hnot, e, he, least, hraise⟩ := hnext a hpost
    · exact .inl ⟨⟨haccepted, haccepted'⟩, b, ha.bind hb, hpost'⟩
    · obtain ⟨least', hrun⟩ := ha
      refine .inr ⟨fun hboth => hnot hboth.2, e, he, max least least', fun fuel hfuel => ?_⟩
      simp only [hrun fuel (by omega), ok_bind]
      exact hraise fuel (by omega)
  · refine .inr ⟨fun hboth => hnot hboth.1, e, he, least, fun fuel hfuel => ?_⟩
    simp only [hraise fuel hfuel, raise_bind]

theorem bind_ok {post' : β → Prop}
    (hnext : ∀ a, post a → Decides (fun fuel => next fuel a) True post') :
    Decides (fun fuel => run fuel >>= next fuel) accepted post' :=
  (h.bind hnext).congr (and_iff_left trivial)

/-- What the code accepts is determined. -/
theorem iff_iff {post' : α → Prop} (hpost : ∀ a, post' a) :
    Decides run accepted' post' ↔ (accepted' ↔ accepted) := by
  obtain ⟨haccepted, a, ha, -⟩ | ⟨hnot, e, he, hraises⟩ := h
  · constructor
    · rintro (⟨haccepted', -⟩ | ⟨-, e, -, hraises⟩)
      · exact iff_of_true haccepted' haccepted
      · exact absurd ha hraises.not_returns
    · intro heq
      exact .inl ⟨heq.mpr haccepted, a, ha, hpost a⟩
  · constructor
    · rintro (⟨-, a, ha, -⟩ | ⟨hnot', -⟩)
      · exact absurd ha hraises.not_returns
      · exact iff_of_false hnot' hnot
    · intro heq
      exact .inr ⟨fun h => hnot (heq.mp h), e, he, hraises⟩

end

end Decides

/-! ## Counting -/

theorem excess_append (before after : List (Token ε)) :
    excess (before ++ after) = excess before + excess after := by
  simp [excess]

@[simp] theorem losses_cons (element : ParseElement ε) (stack : List (ParseElement ε)) :
    losses (element :: stack) = element.loss + losses stack := by
  simp [losses]

section Node

variable (node : ε → List ε → ε) {operands : List ε} {count : Int}

/-- An operator is done when its operands are there. -/
theorem decides_reduce (missing : String) (expression : ε) (num_args : Nat) (operands : List ε) :
    Decides (fun _ => reduce (setBy node) missing expression num_args operands)
      (num_args ≤ operands.length)
      fun operands' => operands'.length + num_args = operands.length + 1 := by
  unfold reduce
  by_cases hpos : num_args > 0
  · simp only [if_pos hpos]
    by_cases hmissing : num_args > operands.length
    · simp only [if_pos hmissing]
      exact Decides.raise (by omega) (.inr ⟨missing, rfl⟩)
    · simp only [if_neg hmissing, setBy, ok_bind]
      refine Decides.ok (by omega) ?_
      rw [length_cons, length_drop]
      omega
  · simp only [if_neg hpos]
    refine Decides.ok (by omega) ?_
    rw [length_cons]
    omega

/-- The same on the numbers: the operands are what is left of all, and what the stack takes. -/
theorem decides_reduce_counted (missing : String) (expression : ε) (num_args : Nat)
    (hoperands : (operands.length : Int) = count + (num_args - 1 + losses stack)) :
    Decides (fun _ => reduce (setBy node) missing expression num_args operands)
      (1 ≤ count + losses stack)
      fun operands' => (operands'.length : Int) = count + losses stack := by
  obtain ⟨h, operands', hreturns, hlength⟩ | ⟨h, hraises⟩ :=
    decides_reduce node missing expression num_args operands
  · exact .inl ⟨by omega, operands', hreturns, by omega⟩
  · exact .inr ⟨by omega, hraises⟩

theorem forall_lt_succ_losses {element : ParseElement ε} {k : Nat} :
    (∀ i < k + 1, 1 ≤ count + losses ((element :: stack).drop (i + 1))) ↔
      1 ≤ count + losses stack ∧ ∀ i < k, 1 ≤ count + losses (stack.drop (i + 1)) :=
  Nat.forall_lt_succ_left

/-- The end: everything on the stack is done. -/
theorem decides_finish (hoperands : (operands.length : Int) = count + losses stack) :
    Decides (fun _ => finish (setBy node) stack operands)
      (stack.countP ParseElement.isOpen = 0 ∧ count = 1 ∧
        ∀ i < stack.length, 1 ≤ count + losses (stack.drop (i + 1)))
      fun _ => True := by
  induction stack generalizing operands with
  | nil =>
    have hcount : (operands.length : Int) = count := by simpa [losses] using hoperands
    match operands, hcount with
    | [], hcount => exact Decides.raise (by simp at hcount; omega) (.inr ⟨_, rfl⟩)
    | [tree], hcount => exact Decides.ok (by simp at hcount; simp [← hcount]) trivial
    | _ :: _ :: _, hcount => exact Decides.raise (by simp at hcount; omega) (.inr ⟨_, rfl⟩)
  | cons element stack ih =>
    rw [losses_cons] at hoperands
    have hall {P Q : Prop} : (1 ≤ count + losses stack ∧ P ∧ Q ∧
        ∀ i < stack.length, 1 ≤ count + losses (stack.drop (i + 1))) ↔
        P ∧ Q ∧ ∀ i < (element :: stack).length,
          1 ≤ count + losses ((element :: stack).drop (i + 1)) := by
      rw [length_cons, forall_lt_succ_losses]
      tauto
    cases element with
    | openParenthesis =>
      refine Decides.raise (fun h => ?_) (.inr ⟨_, rfl⟩)
      simp [ParseElement.isOpen] at h
    | function expression num_args | operation expression priority num_args =>
      refine ((decides_reduce_counted node _ expression num_args hoperands).bind
        fun _ hreduced => ih hreduced).congr ?_
      rw [hall, countP_cons_of_neg (by simp [ParseElement.isOpen])]

/-- A right parenthesis: the stack is done down to the left one. -/
theorem decides_closeParenthesis (hoperands : (operands.length : Int) = count + losses stack) :
    Decides (fun _ => closeParenthesis (setBy node) stack operands)
      (∀ i < applied stack (some Token.closeParenthesis),
        1 ≤ count + losses (stack.drop (i + 1)))
      fun left => left.1 = wait stack .closeParenthesis ∧
        (left.2.length : Int) = count + losses left.1 := by
  induction stack generalizing operands with
  | nil => exact Decides.ok (by simp [applied]) ⟨rfl, hoperands⟩
  | cons element stack ih =>
    rw [losses_cons] at hoperands
    cases element with
    | openParenthesis =>
      refine Decides.ok (by simp [applied, ParseElement.isOpen]) ⟨rfl, ?_⟩
      simpa [ParseElement.loss] using hoperands
    | function expression num_args | operation expression priority num_args =>
      exact ((decides_reduce_counted node _ expression num_args hoperands).bind
        fun _ hreduced => ih hreduced).congr forall_lt_succ_losses.symm

/-- An operator does the one before it, if that does not keep waiting. -/
theorem decides_reduceLast (expression : ε) (num_args : Nat) (priority : Int)
    (hoperands : (operands.length : Int) = count + losses stack) :
    Decides (fun _ => reduceLast (setBy node) priority stack operands)
      (∀ i < applied stack (some (.operator expression num_args priority)),
        1 ≤ count + losses (stack.drop (i + 1)))
      fun left =>
        left.1 = stack.drop (applied stack (some (.operator expression num_args priority))) ∧
          (left.2.length : Int) = count + losses left.1 := by
  cases stack with
  | nil => exact Decides.ok (by simp [applied]) ⟨rfl, hoperands⟩
  | cons element stack =>
    cases element with
    | openParenthesis | function last num_args =>
      exact Decides.ok (by simp [applied]) ⟨rfl, hoperands⟩
    | operation before last before_args =>
      by_cases hkeeps : keeps last priority = true
      · simp only [reduceLast, applied, hkeeps, if_true]
        exact Decides.ok (by simp) ⟨rfl, hoperands⟩
      · rw [losses_cons] at hoperands
        simp only [reduceLast, applied, hkeeps, if_false, Bool.false_eq_true]
        refine ((decides_reduce_counted node _ before before_args hoperands).bind_ok
          fun _ hreduced => Decides.ok trivial ⟨rfl, hreduced⟩).congr ?_
        rw [forall_lt_succ_losses]
        simp

/-! ## Places -/

/-- The parser behind these tokens. -/
structure At (before : List (Token ε)) (p : Parser ε) : Prop where
  parse_stack : p.parse_stack = waiting before
  operands : (p.operands.length : Int) = excess before + losses (waiting before)

variable {before after : List (Token ε)} {p : Parser ε} {next : Token ε}

theorem waiting_append (hbefore : before ≠ []) (next : Token ε) :
    waiting (before ++ [next]) = wait (waiting before) next := by
  obtain ⟨first, rest, rfl⟩ := exists_cons_of_ne_nil hbefore
  cases first <;> simp [waiting]

theorem At.step (hbefore : before ≠ []) {state : ParserState}
    (hstack : stack = wait (waiting before) next)
    (hoperands : (operands.length : Int) = excess before + next.gain + losses stack) :
    At (before ++ [next]) ⟨stack, operands, state⟩ := by
  rw [hstack] at hoperands
  refine ⟨hstack.trans (waiting_append hbefore next).symm, ?_⟩
  rw [waiting_append hbefore, excess_append]
  simpa [excess] using hoperands

/-- A token does what it can do with the operands. -/
theorem decides_token (hbefore : before ≠ []) (h : At before p) (hnext : next ≠ .finish) :
    Decides (fun _ => token (setBy node) p next) (SuppliedAt before (some next))
      (At (before ++ [next])) := by
  obtain ⟨stack, operands, state⟩ := p
  obtain ⟨hstack, hoperands⟩ := h
  obtain rfl : stack = waiting before := hstack
  have hlength : (operands.length : Int) = excess before + losses (waiting before) := hoperands
  have hnone (hcount : applied (waiting before) (some next) = 0) :
      SuppliedAt before (some next) := by
    intro i hi
    omega
  cases next with
  | finish => exact absurd rfl hnext
  | expression expression =>
    refine Decides.ok (hnone rfl) (At.step hbefore rfl ?_)
    simp only [length_cons, Token.gain]
    omega
  | operator expression num_args priority =>
    refine (decides_reduceLast node expression num_args priority hlength).bind_ok
      fun left hleft => Decides.ok trivial ?_
    refine At.step hbefore (by rw [hleft.1]; rfl) ?_
    rw [losses_cons, hleft.2]
    simp only [Token.gain, ParseElement.loss]
    omega
  | openParenthesis | function expression num_args =>
    refine Decides.ok (hnone rfl) (At.step hbefore rfl ?_)
    simp only [losses_cons, Token.gain, ParseElement.loss]
    omega
  | closeParenthesis =>
    refine (decides_closeParenthesis node hlength).bind_ok
      fun left hleft => Decides.ok trivial ?_
    refine At.step hbefore hleft.1 ?_
    rw [hleft.2]
    simp only [Token.gain, add_zero]

/-- A left parenthesis waits for each one that is open. -/
theorem countP_wait (stack : List (ParseElement ε)) (next : Token ε) :
    (wait stack next).countP ParseElement.isOpen =
      nest (stack.countP ParseElement.isOpen) next := by
  cases next with
  | closeParenthesis =>
    induction stack with
    | nil => rfl
    | cons element stack ih =>
      cases element with
      | openParenthesis => simp [wait, applied, nest, ParseElement.isOpen, countP_cons]
      | _ => simpa [wait, applied, nest, ParseElement.isOpen] using ih
  | operator expression num_args priority =>
    have hdrop : (stack.drop (applied stack (some (.operator expression num_args priority)))).countP
        ParseElement.isOpen = stack.countP ParseElement.isOpen := by
      match stack with
      | [] => rfl
      | .openParenthesis :: _ => rfl
      | .function _ _ :: _ => rfl
      | .operation _ last _ :: _ =>
        simp only [applied]
        split_ifs <;> simp [ParseElement.isOpen]
    simpa [wait, nest, ParseElement.isOpen] using hdrop
  | _ => simp [wait, applied, nest, ParseElement.isOpen, countP_cons]

theorem countP_waiting (hbefore : before ≠ []) :
    (waiting before).countP ParseElement.isOpen = unclosed before := by
  have hfold (rest : List (Token ε)) (stack : List (ParseElement ε)) :
      (rest.foldl wait stack).countP ParseElement.isOpen =
        rest.foldl nest (stack.countP ParseElement.isOpen) := by
    induction rest generalizing stack with
    | nil => rfl
    | cons next rest ih => rw [foldl_cons, foldl_cons, ih, countP_wait]
  obtain ⟨first, rest, rfl⟩ := exists_cons_of_ne_nil hbefore
  cases first with
  | operator expression num_args priority => exact hfold rest _
  | _ => exact (hfold rest _).trans (congrArg (rest.foldl nest) (countP_wait [] _))

/-- What is left to be asked behind these tokens. -/
def Remains (before after : List (Token ε)) : Prop :=
  unclosed (before ++ after) = 0 ∧ excess (before ++ after) = 1 ∧
    ∀ mid rest, mid ++ rest = after → SuppliedAt (before ++ mid) rest.head?

theorem remains_nil (hbefore : before ≠ []) :
    Remains before [] ↔ (waiting before).countP ParseElement.isOpen = 0 ∧ excess before = 1 ∧
      SuppliedAt before none := by
  rw [Remains, append_nil, countP_waiting hbefore]
  refine and_congr_right fun _ => and_congr_right fun _ => ⟨fun h => ?_, ?_⟩
  · simpa using h [] [] rfl
  · rintro h mid rest heq
    obtain ⟨rfl, rfl⟩ := append_eq_nil_iff.mp heq
    simpa using h

theorem remains_cons :
    Remains before (next :: after) ↔
      SuppliedAt before (some next) ∧ Remains (before ++ [next]) after := by
  have hsplit : (∀ mid rest, mid ++ rest = next :: after →
      SuppliedAt (before ++ mid) rest.head?) ↔ SuppliedAt before (some next) ∧
        ∀ mid rest, mid ++ rest = after → SuppliedAt (before ++ [next] ++ mid) rest.head? := by
    constructor
    · intro h
      refine ⟨by simpa using h [] (next :: after) rfl, fun mid rest heq => ?_⟩
      simpa using h (next :: mid) rest (congrArg (next :: ·) heq)
    · rintro ⟨hnext, h⟩ mid rest heq
      obtain ⟨rfl, rfl⟩ | ⟨mid, rfl, rfl⟩ := append_eq_cons_iff.mp heq
      · simpa using hnext
      · simpa using h mid rest rfl
  rw [Remains, Remains, hsplit, append_assoc, singleton_append]
  tauto

/-- The loop over the tokens asks for what remains. -/
theorem decides_parseTokens (hbefore : before ≠ []) (h : At before p) (hafter : .finish ∉ after) :
    Decides (fun fuel => parseTokens (setBy node) handOut fuel after p) (Remains before after)
      fun _ => True := by
  induction after generalizing before p with
  | nil =>
    obtain ⟨hstack, hoperands⟩ := h
    rw [← hstack] at hoperands
    refine Decides.of_succ ((decides_finish node hoperands).congr ?_) fun fuel => rfl
    rw [remains_nil hbefore, ← hstack, SuppliedAt, ← hstack]
    rfl
  | cons next after ih =>
    have hnext : next ≠ .finish := (ne_of_not_mem_cons hafter).symm
    have hpass (fuel : Nat) : parseTokens (setBy node) handOut (fuel + 1) (next :: after) p =
        token (setBy node) p next >>= parseTokens (setBy node) handOut fuel after := by
      cases next with
      | finish => exact absurd rfl hnext
      | _ => rfl
    refine Decides.of_succ (((decides_token node hbefore h hnext).bind fun p' hp' =>
      ih (by simp) hp' (not_mem_of_not_mem_cons hafter)).congr remains_cons.symm) hpass

theorem supplied_cons {first : Token ε} {rest : List (Token ε)} :
    Supplied (first :: rest) ↔
      ∀ mid after, mid ++ after = rest → SuppliedAt ([first] ++ mid) after.head? := by
  constructor
  · intro h mid after heq
    exact h (first :: mid) after (cons_ne_nil _ _) (congrArg (first :: ·) heq)
  · intro h before after hbefore heq
    obtain ⟨rfl, -⟩ | ⟨mid, rfl, rfl⟩ := append_eq_cons_iff.mp heq
    · exact absurd rfl hbefore
    · exact h mid after rfl

/-- The parser accepts a sequence exactly when nothing is missing. -/
theorem decides_parse (h : .finish ∉ tokens) :
    Decides (fun fuel => parse node fuel tokens) (Complete tokens) fun _ => True := by
  cases tokens with
  | nil =>
    refine Decides.raise (fun hcomplete => ?_) (.inl rfl)
    obtain ⟨first, rest, heq, -⟩ := hcomplete.starts
    cases heq
  | cons first rest =>
    have hfirst : first ≠ .finish := (ne_of_not_mem_cons h).symm
    have hrest : .finish ∉ rest := not_mem_of_not_mem_cons h
    by_cases hclose : first = .closeParenthesis
    · subst hclose
      refine Decides.raise (fun hcomplete => ?_) (.inr ⟨_, rfl⟩)
      obtain ⟨first, rest, heq, hne⟩ := hcomplete.starts
      exact hne (List.cons.inj heq).1.symm
    · have hremains : Complete (first :: rest) ↔ Remains [first] rest := by
        refine ⟨fun h => ⟨h.closed, h.single, supplied_cons.mp h.supplied⟩, ?_⟩
        rintro ⟨hclosed, hsingle, hsupplied⟩
        exact ⟨⟨first, rest, rfl, hclose⟩, hclosed, hsingle, supplied_cons.mpr hsupplied⟩
      have hstart : ∃ p, firstToken first = .ok p ∧ At [first] p := by
        cases first with
        | finish => exact absurd rfl hfirst
        | closeParenthesis => exact absurd rfl hclose
        | _ => exact ⟨_, rfl, rfl, by simp [excess, waiting, wait, applied, losses, Token.gain,
            ParseElement.loss]⟩
      obtain ⟨p, hp, hat⟩ := hstart
      have hparse (fuel : Nat) : parse node fuel (first :: rest) =
          parseTokens (setBy node) handOut fuel rest p := by
        show firstToken first >>= parseTokens (setBy node) handOut fuel rest = _
        rw [hp, ok_bind]
      simp only [hparse]
      exact (decides_parseTokens node (cons_ne_nil _ _) hat hrest).congr hremains.symm

end Node

/-! ## What the grammar counts -/

/-- Expressions leave one operand each. -/
theorem Expressions.excess_eq (h : Expressions n tokens) : excess tokens = n := by
  induction h with
  | none => rfl
  | more hfirst hrest ihfirst ihrest =>
    rw [excess_append, ihfirst, ihrest]
    omega
  | operand expression => rfl
  | parentheses h ih =>
    rw [cons_append, ← singleton_append, excess_append, excess_append, ih]
    rfl
  | unary expression priority h ih =>
    rw [← singleton_append, excess_append, ih]
    rfl
  | binary expression priority hleft hright ihleft ihright =>
    rw [excess_append, ← singleton_append, excess_append, ihleft, ihright]
    rfl
  | @call expression num_args args h ih =>
    have hcall : excess [Token.function expression num_args, .openParenthesis] = 1 - num_args := by
      simp [excess, Token.gain]
    have hclose : excess [(.closeParenthesis : Token ε)] = 0 := rfl
    have happend : Token.function expression num_args :: .openParenthesis :: args ++
        [.closeParenthesis] = [.function expression num_args, .openParenthesis] ++
          (args ++ [.closeParenthesis]) := by simp
    rw [happend, excess_append, excess_append, ih, hcall, hclose]
    omega

/-- Expressions close the parentheses which they open. -/
theorem Expressions.foldl_nest (h : Expressions n tokens) (depth : Nat) :
    tokens.foldl nest depth = depth := by
  induction h generalizing depth with
  | none => rfl
  | more hfirst hrest ihfirst ihrest => rw [foldl_append, ihfirst, ihrest]
  | operand expression => rfl
  | parentheses h ih =>
    rw [cons_append, foldl_cons, foldl_append, ih]
    rfl
  | unary expression priority h ih =>
    rw [foldl_cons, ih]
    rfl
  | binary expression priority hleft hright ihleft ihright =>
    rw [foldl_append, ihleft, foldl_cons, ihright]
    rfl
  | call expression h ih =>
    rw [cons_append, cons_append, foldl_cons, foldl_cons, foldl_append,
      ih]
    rfl

/-- An expression does not start with a right parenthesis. -/
theorem Expressions.starts (h : Expressions n tokens) (hn : n ≠ 0) : Starts tokens := by
  induction h with
  | none => exact absurd rfl hn
  | more hfirst hrest ihfirst ihrest =>
    obtain ⟨first, rest, rfl, hne⟩ := ihfirst Nat.one_ne_zero
    exact ⟨first, _, rfl, hne⟩
  | operand expression | parentheses h ih | unary expression priority h ih | call expression h ih =>
    exact ⟨_, _, rfl, by simp⟩
  | binary expression priority hleft hright ihleft ihright =>
    obtain ⟨first, rest, rfl, hne⟩ := ihleft Nat.one_ne_zero
    exact ⟨first, _, rfl, hne⟩

/-- What is well formed is complete if what is done has its operands. -/
theorem WellFormed.complete_iff (h : WellFormed tokens) : Complete tokens ↔ Supplied tokens :=
  ⟨Complete.supplied, fun hsupplied =>
    ⟨Expressions.starts h Nat.one_ne_zero, Expressions.foldl_nest h 0, Expressions.excess_eq h,
      hsupplied⟩⟩

/-- The parser accepts the sequence if it is well formed, and raises its exception otherwise. -/
def ParsesGrammar (node : ε → List ε → ε) (tokens : List (Token ε)) : Prop :=
  Decides (fun fuel => parse node fuel tokens) (WellFormed tokens) fun _ => True

/-- The parser follows the grammar where nothing that is well formed is done too early, and
something is missing in everything else. -/
theorem parsesGrammar_iff (node : ε → List ε → ε) (tokens : List (Token ε))
    (h : .finish ∉ tokens) :
    ParsesGrammar node tokens ↔
      (WellFormed tokens → Supplied tokens) ∧ (¬ WellFormed tokens → ¬ Complete tokens) := by
  rw [ParsesGrammar, (decides_parse node h).iff_iff fun _ => trivial]
  constructor
  · intro heq
    exact ⟨fun hwell => (heq.mp hwell).supplied, fun hnot hcomplete => hnot (heq.mpr hcomplete)⟩
  · rintro ⟨hsupplied, hmissing⟩
    by_cases hwell : WellFormed tokens
    · exact iff_of_true hwell (hwell.complete_iff.mpr (hsupplied hwell))
    · exact iff_of_false hwell (hmissing hwell)

/-- The sum of two operands. -/
theorem parsesGrammar_iff_sum :
    ParsesGrammar (fun expression _ => expression)
      [.expression 1, .operator 0 2 40, .expression 2] := by
  have hwell : WellFormed [Token.expression 1, .operator 0 2 40, .expression 2] :=
    .binary 0 40 (.operand 1) (.operand 2)
  refine (parsesGrammar_iff _ _ (by decide)).mpr ⟨fun _ => ?_, fun hnot => absurd hwell hnot⟩
  rw [supplied_cons]
  intro mid after heq
  obtain ⟨rfl, rfl⟩ | ⟨mid, rfl, hrest⟩ := append_eq_cons_iff.mp heq
  · unfold SuppliedAt
    decide
  obtain ⟨rfl, rfl⟩ | ⟨mid, rfl, hnil⟩ := append_eq_cons_iff.mp hrest.symm
  · unfold SuppliedAt
    decide
  obtain ⟨rfl, rfl⟩ := append_eq_nil_iff.mp hnil.symm
  unfold SuppliedAt
  decide

/-- The tokens of `1)`. -/
theorem not_parsesGrammar :
    ¬ ∀ (node : IntEvaluator.Expression → List IntEvaluator.Expression → IntEvaluator.Expression)
      (tokens : List (Token IntEvaluator.Expression)), .finish ∉ tokens →
        ParsesGrammar node tokens := by
  intro h
  obtain ⟨hwell, -⟩ | ⟨-, e, -, least, hraise⟩ :=
    h (fun expression _ => expression) [.expression (.direct 1), .closeParenthesis] (by decide)
  · have hdepth := Expressions.foldl_nest hwell 1
    cases hdepth
  · cases hraise (least + 3) (by omega)

example : IntEvaluator.expressionTree 3 (.bytes (ascii "1)")) = .ok (.direct 1) := rfl

end Evaluator

end Drt
