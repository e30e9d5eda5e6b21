import Drt.Core.Eval.IntTokens

/-!
# What the parser does with a phrase

Reading a phrase pushes its operands, and leaves on the stack the operators that still
wait for theirs. `Phrase.scan` says which ones: a binary operator takes away at most one
of the operators its left operand has left, and a unary operator right behind a unary
one gives the first of them the operand before both.
-/

open List Outcome

namespace Drt

namespace IntEvaluator

open Evaluator

/-- The element of a unary operator. -/
def UnaryOperator.element (op : UnaryOperator) : ParseElement Expression :=
  .operation (.unary op.operation .null) (UInt32.ofInt (priorities op.operation)) 1

/-- The element of a binary operator. -/
def BinaryOperator.element (op : BinaryOperator) : ParseElement Expression :=
  .operation (op.node .null .null) (UInt32.ofInt (priorities op.operation)) 2

/-- Every element of the stack gets its operands, the last one first. -/
def reduceAll : List (ParseElement Expression) → List Expression → Call (List Expression)
  | [], operands => .ok operands
  | .operation expression _ num_args :: stack, operands =>
    reduce setOperands "missing operands" expression num_args operands >>= reduceAll stack
  | .function expression num_args :: stack, operands =>
    reduce setOperands "missing parameters" expression num_args operands >>= reduceAll stack
  | .openParenthesis :: _, _ => .fault

/-- Only the last element gets its operands. -/
def reduceTop : List (ParseElement Expression) → List Expression →
    Call (List (ParseElement Expression) × List Expression)
  | .operation expression _ num_args :: stack, operands =>
    reduce setOperands "missing operands" expression num_args operands >>= fun operands =>
      .ok (stack, operands)
  | stack, operands => .ok (stack, operands)

namespace Phrase

/-- The number of tokens. -/
def size : Phrase → Nat
  | operand _ => 1
  | parentheses inner => inner.size + 2
  | unary _ inner => inner.size + 1
  | binary _ left right => left.size + right.size + 1

def isUnary : Phrase → Bool
  | unary _ _ => true
  | _ => false

/-- The operators left waiting, and the operands. -/
def scan : Phrase → List Expression →
    Call (List (ParseElement Expression) × List Expression)
  | operand x, operands => .ok ([], x.node :: operands)
  | parentheses inner, operands =>
    inner.scan operands >>= fun (waiting, operands) =>
      reduceAll waiting operands >>= fun operands => .ok ([], operands)
  | unary op inner, operands =>
    if inner.isUnary then
      reduce setOperands "missing operands" (.unary op.operation .null) 1 operands >>= inner.scan
    else
      inner.scan operands >>= fun (waiting, operands) => .ok (waiting ++ [op.element], operands)
  | binary op left right, operands =>
    left.scan operands >>= fun (waiting, operands) =>
      reduceTop waiting operands >>= fun (waiting, operands) =>
        right.scan operands >>= fun (waiting', operands) =>
          .ok (waiting' ++ op.element :: waiting, operands)

end Phrase

/-- An operator of at most this priority. -/
def Waits (level : Nat) (x : ParseElement Expression) : Prop :=
  ∃ expression q num_args, x = .operation expression (UInt32.ofInt (q : Nat)) num_args ∧
    q ≤ level ∧ q < 256

/-- A stack which a token of this priority leaves alone. -/
def Guards (level : Nat) (stack : List (ParseElement Expression)) : Prop :=
  ∀ expression last num_args rest, stack = .operation expression last num_args :: rest →
    ∃ q : Nat, last = UInt32.ofInt (q : Nat) ∧ level < q ∧ q < 256

theorem priorities_lt (op : Operation) : priorities op < 256 := by
  cases op <;> decide

theorem priorities_unary (op : UnaryOperator) : priorities op.operation = 15 := by
  cases op <;> rfl

theorem priorities_binary (op : BinaryOperator) : 30 ≤ priorities op.operation := by
  cases op <;> decide

theorem toNat_priority {n : Nat} (hn : n < 256) : (UInt32.ofInt (n : Nat)).toNat = n := by
  rw [UInt32.ofInt, UInt32.toNat_ofNat']
  omega

theorem keeps_iff {q p : Nat} (hq : q < 256) (hp : p < 256) (hpos : 0 < p) :
    keeps (UInt32.ofInt (q : Nat)) (p : Nat) = decide (p < q) := by
  have hpos' : ((p : Nat) : Int) > 0 := by omega
  rw [keeps, if_pos hpos']
  refine decide_eq_decide.mpr ?_
  rw [gt_iff_lt, UInt32.lt_iff_toNat_lt, toNat_priority hq, toNat_priority hp]

variable {p : Phrase} {stack waiting : List (ParseElement Expression)}
  {operands operands' : List Expression} {x : ParseElement Expression} {blanks rest text : Blob}

/-- The loop of `TT_Operator` leaves a guarded stack alone. -/
theorem reduceLast_guarded {p : Nat} (hp : p < 256) (hpos : 0 < p) (h : Guards p stack) :
    reduceLast setOperands (p : Nat) stack operands = .ok (stack, operands) := by
  cases stack with
  | nil => rfl
  | cons x rest =>
    cases x with
    | function expression num_args => rfl
    | openParenthesis => rfl
    | operation expression last num_args =>
      obtain ⟨q, rfl, hlt, hq⟩ := h expression last num_args rest rfl
      rw [reduceLast, keeps_iff hq hp hpos, decide_eq_true hlt, if_pos rfl]

theorem reduceLast_waiting {rest : List (ParseElement Expression)} {p : Nat} (hp : p < 256)
    (hpos : 0 < p) (h : Waits p x) :
    reduceLast setOperands (p : Nat) (x :: rest) operands = reduceTop (x :: rest) operands := by
  obtain ⟨expression, q, num_args, rfl, hle, hq⟩ := h
  rw [reduceLast, keeps_iff hq hp hpos, decide_eq_false (Nat.not_lt.mpr hle),
    if_neg Bool.false_ne_true]
  rfl

theorem Waits.weaken {p q : Nat} (h : Waits p x) (hle : p ≤ q) : Waits q x := by
  obtain ⟨expression, r, num_args, rfl, hr, hlt⟩ := h
  exact ⟨expression, r, num_args, rfl, Nat.le_trans hr hle, hlt⟩

theorem guards_element {expression : Expression} {num_args level q : Nat} (hlt : level < q)
    (hq : q < 256) :
    Guards level (.operation expression (UInt32.ofInt (q : Nat)) num_args :: stack) := by
  rintro expression' last num_args' rest heq
  obtain ⟨hx, -⟩ := List.cons.inj heq
  cases hx
  exact ⟨q, rfl, hlt, hq⟩

theorem reduceTop_sub {stack' : List (ParseElement Expression)}
    (h : reduceTop stack operands = .ok (stack', operands')) : ∀ x ∈ stack', x ∈ stack := by
  unfold reduceTop at h
  split at h
  · obtain ⟨operands₁, -, h⟩ := bind_eq_ok.mp h
    obtain ⟨rfl, -⟩ := Prod.mk.inj (Outcome.ok.inj h)
    exact fun x hx => mem_cons_of_mem _ hx
  · obtain ⟨rfl, -⟩ := Prod.mk.inj (Outcome.ok.inj h)
    exact fun x hx => hx

/-- What waits behind a phrase binds as tight as the phrase. -/
theorem Phrase.scan_waits (h : p.scan operands = .ok (waiting, operands')) (hfits : p.Fits) :
    ∀ x ∈ waiting, Waits p.level x := by
  induction p generalizing operands operands' waiting with
  | operand x =>
    obtain ⟨rfl, -⟩ := Prod.mk.inj (Outcome.ok.inj h)
    simp
  | parentheses inner ih =>
    obtain ⟨⟨waiting₁, operands₁⟩, -, h⟩ := bind_eq_ok.mp h
    obtain ⟨operands₂, -, h⟩ := bind_eq_ok.mp h
    obtain ⟨rfl, -⟩ := Prod.mk.inj (Outcome.ok.inj h)
    simp
  | unary op inner ih =>
    obtain ⟨hinner, hlevel⟩ := hfits
    rw [scan] at h
    split at h
    · obtain ⟨operands₁, -, h⟩ := bind_eq_ok.mp h
      exact fun x hx => (ih h hinner x hx).weaken hlevel
    · obtain ⟨⟨waiting₁, operands₁⟩, hscan, h⟩ := bind_eq_ok.mp h
      obtain ⟨rfl, -⟩ := Prod.mk.inj (Outcome.ok.inj h)
      intro x hx
      rw [mem_append, mem_singleton] at hx
      rcases hx with hx | rfl
      · exact (ih hscan hinner x hx).weaken hlevel
      · exact ⟨_, _, _, rfl, le_rfl, priorities_lt _⟩
  | binary op left right ihl ihr =>
    obtain ⟨hleft, hright, hll, hrl⟩ := hfits
    obtain ⟨⟨waiting₁, operands₁⟩, hscan, h⟩ := bind_eq_ok.mp h
    obtain ⟨⟨waiting₂, operands₂⟩, htop, h⟩ := bind_eq_ok.mp h
    obtain ⟨⟨waiting₃, operands₃⟩, hscan', h⟩ := bind_eq_ok.mp h
    obtain ⟨rfl, -⟩ := Prod.mk.inj (Outcome.ok.inj h)
    intro x hx
    rw [mem_append, mem_cons] at hx
    rcases hx with hx | rfl | hx
    · exact (ihr hscan' hright x hx).weaken (Nat.le_of_lt hrl)
    · exact ⟨_, _, _, rfl, le_rfl, priorities_lt _⟩
    · exact (ihl hscan hleft x (reduceTop_sub htop x hx)).weaken hll

/-- A phrase starts with a token that nothing in front of it runs into. -/
theorem Phrase.Spells.opens (h : p.Spells text) (rest : Blob) : Opens (text ++ rest) := by
  have hblank {c : UInt8} (hc : isspace c = true) : c ∉ [(61 : UInt8), 60, 62, 38, 124, 94] := by
    intro hmem
    simp only [mem_cons, not_mem_nil, or_false] at hmem
    rcases hmem with rfl | rfl | rfl | rfl | rfl | rfl <;> revert hc <;> decide
  have hfirst {blanks text : Blob} (hblanks : Blank blanks) (htext : Opens text) :
      Opens (blanks ++ text) := by
    cases blanks with
    | nil => exact htext
    | cons b blanks => exact ⟨b, _, rfl, hblank (hblanks b mem_cons_self)⟩
  have hdigit {text : Blob} (hnumber : IsNumber text) (rest : Blob) : Opens (text ++ rest) := by
    obtain ⟨c, digits, rfl, hc, -⟩ := hnumber.strtol_append delimits_nil
    refine ⟨c, digits ++ rest, rfl, ?_⟩
    intro hmem
    simp only [mem_cons, not_mem_nil, or_false] at hmem
    rcases hmem with rfl | rfl | rfl | rfl | rfl | rfl <;> revert hc <;> decide
  induction h generalizing rest with
  | operand hblanks spells =>
    rw [append_assoc]
    refine hfirst hblanks ?_
    cases spells with
    | constant number => exact hdigit number rest
    | signed hsign number =>
      refine ⟨_, _, rfl, ?_⟩
      rcases hsign with rfl | rfl <;> decide
    | named hname keyword =>
      obtain ⟨c, name, rfl, hc, -⟩ := hname.cons
      refine ⟨c, name ++ rest, rfl, ?_⟩
      intro hmem
      simp only [mem_cons, not_mem_nil, or_false] at hmem
      rcases hmem with rfl | rfl | rfl | rfl | rfl | rfl <;> revert hc <;> decide
    | value number => exact ⟨92, _, rfl, by decide⟩
    | definedName hblanks' apart hname | definedValue hblanks' digits number =>
      exact ⟨100, _, rfl, by decide⟩
  | parentheses hblanks spells hblanks' ih =>
    rw [append_assoc]
    exact hfirst hblanks ⟨40, _, rfl, by decide⟩
  | @unary op inner blanks text hblanks spells apart ih =>
    rw [append_assoc]
    refine hfirst hblanks ?_
    cases op with
    | plus => exact ⟨43, _, rfl, by decide⟩
    | minus => exact ⟨45, _, rfl, by decide⟩
    | not => exact ⟨33, _, rfl, by decide⟩
  | binary op spells hblanks spells' ih ih' =>
    rw [append_assoc]
    exact ih _

theorem delimits_spelling (op : BinaryOperator) (text : Blob) :
    Delimits (op.spelling ++ text) := by
  cases op <;> exact delimits_cons (by decide)

theorem parseTokens_token {expr expr' : Blob} {state : ParserState} {next : Token Expression}
    (h : parseNextToken expr state = .ok (next, expr')) (hnext : next ≠ .finish) (fuel : Nat) :
    parseTokens setOperands parseNextToken (fuel + 1) expr ⟨stack, operands, state⟩ =
      token setOperands ⟨stack, operands, state⟩ next >>=
        parseTokens setOperands parseNextToken fuel expr' := by
  rw [parseTokens, h, ok_bind]
  cases next with
  | finish => exact absurd rfl hnext
  | _ => rfl

/-- `)` gives their operands to all that waits since `(`. -/
theorem closeParenthesis_append (hwaiting : ∀ x ∈ waiting, ∃ level, Waits level x)
    (stack : List (ParseElement Expression)) (operands : List Expression) :
    closeParenthesis setOperands (waiting ++ .openParenthesis :: stack) operands =
      reduceAll waiting operands >>= fun operands => .ok (stack, operands) := by
  induction waiting generalizing operands with
  | nil => rfl
  | cons x waiting ih =>
    obtain ⟨level, expression, q, num_args, rfl, -⟩ := hwaiting x mem_cons_self
    rw [cons_append, closeParenthesis, reduceAll, bind_assoc]
    refine congrArg _ (funext fun operands => ?_)
    exact ih (fun y hy => hwaiting y (mem_cons_of_mem _ hy)) operands

/-- At the end everything gets its operands, and one tree is left. -/
theorem finish_eq (hwaiting : ∀ x ∈ waiting, ∃ level, Waits level x) (operands : List Expression) :
    finish setOperands waiting operands =
      reduceAll waiting operands >>= finish setOperands [] := by
  induction waiting generalizing operands with
  | nil => rfl
  | cons x waiting ih =>
    obtain ⟨level, expression, q, num_args, rfl, -⟩ := hwaiting x mem_cons_self
    rw [finish, reduceAll, bind_assoc]
    refine congrArg _ (funext fun operands => ?_)
    exact ih (fun y hy => hwaiting y (mem_cons_of_mem _ hy)) operands

theorem token_unary (op : UnaryOperator) (p : Parser Expression) :
    token setOperands p (unaryToken op.operation) =
      reduceLast setOperands (priorities op.operation : Nat) p.parse_stack p.operands >>=
        fun x => .ok ⟨op.element :: x.1, x.2, .expression⟩ := by
  have hnot : ¬ ((priorities op.operation : Nat) : Int) < 0 := by omega
  simp only [token, unaryToken, if_neg hnot]
  rfl

theorem token_binary (op : BinaryOperator) (p : Parser Expression) :
    token setOperands p (binaryToken op.operation) =
      reduceLast setOperands (priorities op.operation : Nat) p.parse_stack p.operands >>=
        fun x => .ok ⟨op.element :: x.1, x.2, .expression⟩ := by
  have hnot : ¬ ((priorities op.operation : Nat) : Int) < 0 := by omega
  simp only [token, binaryToken, if_neg hnot]
  cases op <;> rfl

/-- A unary operator gives the one right in front of it an operand too early. -/
theorem token_unary_unary (op op' : UnaryOperator) (hguard : Guards 15 stack)
    (operands : List Expression) :
    token setOperands ⟨op.element :: stack, operands, .expression⟩ (unaryToken op'.operation) =
      reduce setOperands "missing operands" (.unary op.operation .null) 1 operands >>=
        fun operands =>
          token setOperands ⟨stack, operands, .expression⟩ (unaryToken op'.operation) := by
  have hwaits : Waits 15 op.element :=
    ⟨_, _, _, rfl, (priorities_unary op).le, priorities_lt _⟩
  simp only [token_unary, priorities_unary]
  rw [reduceLast_waiting (by decide) (by decide) hwaits]
  simp only [UnaryOperator.element, reduceTop, bind_assoc, ok_bind,
    reduceLast_guarded (p := 15) (by decide) (by decide) hguard]

/-- A binary operator, with what waits behind its left operand. -/
theorem token_binary_waiting (op : BinaryOperator)
    (hwaiting : ∀ x ∈ waiting, Waits (priorities op.operation) x)
    (hguard : Guards (priorities op.operation) stack) (operands : List Expression) :
    token setOperands ⟨waiting ++ stack, operands, .binOperator⟩ (binaryToken op.operation) =
      reduceTop waiting operands >>= fun x =>
        .ok ⟨op.element :: (x.1 ++ stack), x.2, .expression⟩ := by
  have hlt := priorities_lt op.operation
  have hpos : 0 < priorities op.operation := Nat.lt_of_lt_of_le (by decide) (priorities_binary op)
  rw [token_binary]
  cases waiting with
  | nil =>
    simp only [nil_append, reduceLast_guarded hlt hpos hguard, ok_bind, reduceTop]
  | cons x waiting =>
    have hx := hwaiting x mem_cons_self
    simp only [cons_append, reduceLast_waiting hlt hpos hx]
    obtain ⟨expression, q, num_args, rfl, -⟩ := hx
    simp only [reduceTop, bind_assoc, ok_bind]

/-- A unary phrase starts with its operator. -/
theorem parseNextToken_unaryPhrase {op : UnaryOperator} {inner : Phrase} (hblanks : Blank blanks)
    (spells : inner.Spells text) (apart : op = .not ∨ text.head?.any isdigit = false)
    (rest : Blob) :
    parseNextToken (blanks ++ (op.spelling ++ text) ++ rest) .expression =
      .ok (unaryToken op.operation, text ++ rest) := by
  obtain ⟨c, more, htext, -⟩ := spells.opens []
  rw [append_nil] at htext
  have hapart : op = .not ∨ (text ++ rest).head?.any isdigit = false := by
    rw [htext] at apart ⊢
    exact apart
  rw [append_assoc, parseNextToken_blanks hblanks, append_assoc]
  exact parseNextToken_unary (spells.opens rest) hapart

/-- What a unary operator binds without parentheses is unary, or no operator at all. -/
theorem Phrase.level_zero (h : p.level ≤ 15) (hnot : p.isUnary = false) : p.level = 0 := by
  cases p with
  | operand x => rfl
  | parentheses inner => rfl
  | unary op inner => cases hnot
  | binary op left right =>
    have hop := priorities_binary op
    have hlevel : priorities op.operation ≤ 15 := h
    omega

/-- Reading a phrase does to the stack and the operands what `scan` says. -/
theorem parseTokens_phrase (h : p.Spells text) (hfits : p.Fits) (hguard : Guards p.level stack)
    (operands : List Expression) (hrest : Delimits rest) (fuel : Nat) :
    parseTokens setOperands parseNextToken (fuel + p.size) (text ++ rest)
        ⟨stack, operands, .expression⟩ =
      p.scan operands >>= fun x =>
        parseTokens setOperands parseNextToken fuel rest ⟨x.1 ++ stack, x.2, .binOperator⟩ := by
  induction h generalizing stack operands rest fuel with
  | @operand x blanks text hblanks spells =>
    have hnext : parseNextToken (blanks ++ text ++ rest) .expression =
        .ok (.expression x.node, rest) := by
      rw [append_assoc, parseNextToken_blanks hblanks]
      exact parseNextToken_operand spells hrest
    rw [Phrase.size, parseTokens_token hnext (by simp)]
    rfl
  | @parentheses inner blanks text blanks' hblanks spells hblanks' ih =>
    have hopen : parseNextToken (blanks ++ 40 :: (text ++ (blanks' ++ [41])) ++ rest) .expression =
        .ok (.openParenthesis, text ++ (blanks' ++ (41 :: rest))) := by
      rw [append_assoc, parseNextToken_blanks hblanks, cons_append,
        parseNextToken_open]
      simp
    have hclose (state : ParserState) : parseNextToken (blanks' ++ 41 :: rest) state =
        .ok (.closeParenthesis, rest) := by
      rw [parseNextToken_blanks hblanks', parseNextToken_close]
    have hdelimits : Delimits (blanks' ++ 41 :: rest) :=
      delimits_blanks hblanks' (delimits_cons (by decide))
    have hguard' : Guards inner.level (.openParenthesis :: stack) := by
      rintro expression last num_args rest heq
      cases heq
    have hfuel : fuel + (Phrase.parentheses inner).size = (fuel + 1) + inner.size + 1 := by
      rw [Phrase.size]
      omega
    rw [hfuel, parseTokens_token hopen (by simp), token, ok_bind]
    rw [ih hfits hguard' operands hdelimits (fuel + 1), Phrase.scan, bind_assoc]
    cases hscan : inner.scan operands with
    | ok x =>
      obtain ⟨waiting, operands₁⟩ := x
      have hwaits : ∀ x ∈ waiting, ∃ level, Waits level x :=
        fun x hx => ⟨_, Phrase.scan_waits hscan hfits x hx⟩
      simp only [ok_bind]
      rw [parseTokens_token (hclose _) (by simp), token, closeParenthesis_append hwaits]
      simp only [bind_assoc, ok_bind, nil_append]
    | raise e => rfl
    | fault => rfl
    | outOfFuel => rfl
  | @unary op inner blanks text hblanks spells apart ih =>
    obtain ⟨hinner, hlevel⟩ := hfits
    rw [priorities_unary] at hlevel
    have hguard15 : Guards 15 stack := by
      rw [← priorities_unary op]
      exact hguard
    have hfuel : fuel + (Phrase.unary op inner).size = fuel + inner.size + 1 := by
      rw [Phrase.size]
      omega
    rw [hfuel, parseTokens_token (parseNextToken_unaryPhrase hblanks spells apart rest)
      (by simp [unaryToken]), token_unary, priorities_unary,
      reduceLast_guarded (by decide) (by decide) hguard15, ok_bind, ok_bind]
    by_cases hunary : inner.isUnary = true
    · -- the next token gives this operator an operand before it has read its own
      rw [Phrase.scan, if_pos hunary, bind_assoc]
      cases spells with
      | operand _ _ | parentheses _ _ _ | binary _ _ _ _ => cases hunary
      | @unary op' inner' blanks' text' hblanks' spells' apart' =>
        have hnext := parseNextToken_unaryPhrase hblanks' spells' apart' rest
        have hfuel' : fuel + (Phrase.unary op' inner').size = fuel + inner'.size + 1 := by
          rw [Phrase.size]
          omega
        have hguard' : Guards (Phrase.unary op' inner').level stack := by
          rw [Phrase.level, priorities_unary]
          exact hguard15
        rw [hfuel', parseTokens_token hnext (by simp [unaryToken]),
          token_unary_unary op op' hguard15, bind_assoc]
        refine congrArg _ (funext fun operands₁ => ?_)
        rw [← parseTokens_token hnext (by simp [unaryToken]), ← hfuel']
        exact ih hinner hguard' operands₁ hrest fuel
    · have hnot : inner.isUnary = false := Bool.eq_false_of_not_eq_true hunary
      have hguard' : Guards inner.level (op.element :: stack) := by
        rw [Phrase.level_zero hlevel hnot]
        refine guards_element ?_ (priorities_lt _)
        rw [priorities_unary]
        decide
      rw [ih hinner hguard' operands hrest fuel, Phrase.scan, if_neg hunary, bind_assoc]
      simp only [ok_bind, append_assoc, cons_append, nil_append]
  | @binary op left right text blanks text' spells hblanks spells' ih ih' =>
    obtain ⟨hleft, hright, hll, hrl⟩ := hfits
    have hguardl : Guards left.level stack := by
      rintro expression last num_args rest heq
      obtain ⟨q, hlast, hlt, hq⟩ := hguard expression last num_args rest heq
      exact ⟨q, hlast, Nat.lt_of_le_of_lt hll hlt, hq⟩
    have hfuel : fuel + (Phrase.binary op left right).size =
        (fuel + right.size + 1) + left.size := by
      rw [Phrase.size]
      omega
    have hnext : parseNextToken (blanks ++ (op.spelling ++ (text' ++ rest))) .binOperator =
        .ok (binaryToken op.operation, text' ++ rest) := by
      rw [parseNextToken_blanks hblanks]
      exact parseNextToken_binary op (spells'.opens rest)
    have hdelimits : Delimits (blanks ++ (op.spelling ++ (text' ++ rest))) :=
      delimits_blanks hblanks (delimits_spelling op _)
    have htext : text ++ (blanks ++ (op.spelling ++ text')) ++ rest =
        text ++ (blanks ++ (op.spelling ++ (text' ++ rest))) := by
      simp only [append_assoc]
    rw [hfuel, htext, ih hleft hguardl operands hdelimits, Phrase.scan, bind_assoc]
    cases hscan : left.scan operands with
    | ok x =>
      obtain ⟨waiting, operands₁⟩ := x
      have hwaits : ∀ x ∈ waiting, Waits (priorities op.operation) x :=
        fun x hx => (Phrase.scan_waits hscan hleft x hx).weaken hll
      simp only [ok_bind]
      rw [parseTokens_token hnext (by simp [binaryToken]),
        token_binary_waiting op hwaits hguard operands₁]
      cases reduceTop waiting operands₁ with
      | ok x =>
        obtain ⟨waiting₂, operands₂⟩ := x
        have hguardr : Guards right.level (op.element :: (waiting₂ ++ stack)) :=
          guards_element hrl (priorities_lt _)
        simp only [ok_bind]
        rw [ih' hright hguardr operands₂ hrest fuel, bind_assoc]
        simp only [ok_bind, append_assoc, cons_append]
      | raise e | fault | outOfFuel => rfl
    | raise e => rfl
    | fault => rfl
    | outOfFuel => rfl

/-- A number has only digits and letters. -/
theorem IsNumber.digits (h : IsNumber text) : ∀ c ∈ text, digitValue c < 36 := by
  obtain ⟨hhead, hlength⟩ := h
  cases text with
  | nil => cases hhead
  | cons c digits =>
    have hc : isdigit c = true := by simpa using hhead
    rw [strtol_digit 0 (digitValue_of_isdigit hc)] at hlength
    cases hread : strtolUnsigned 0 (c :: digits) with
    | none =>
      rw [hread] at hlength
      cases hlength
    | some result =>
      obtain ⟨number, length⟩ := result
      rw [hread] at hlength
      have hlength' : length = (c :: digits).length := hlength
      rw [hlength'] at hread
      exact digits_of_strtolUnsigned hread

/-- No token has the terminating zero in it. -/
theorem Phrase.Spells.ne_zero (h : p.Spells text) : ∀ c ∈ text, c ≠ 0 := by
  have hblank {blanks : Blob} (hblanks : Blank blanks) : ∀ c ∈ blanks, c ≠ 0 :=
    fun c hc => ne_of_test (hblanks c hc) rfl
  have hnumber {text : Blob} (h : IsNumber text) : ∀ c ∈ text, c ≠ 0 := by
    rintro c hc rfl
    exact absurd (h.digits 0 hc) (by decide)
  have hnames {name : Blob} (h : ∀ c ∈ name, isNameChar c = true) : ∀ c ∈ name, c ≠ 0 :=
    fun c hc => ne_of_test (h c hc) rfl
  have happend {l l' : Blob} (h : ∀ c ∈ l, c ≠ 0) (h' : ∀ c ∈ l', c ≠ 0) :
      ∀ c ∈ l ++ l', c ≠ 0 := by
    intro c hc
    rcases mem_append.mp hc with hc | hc
    · exact h c hc
    · exact h' c hc
  have hcons {k : UInt8} {l : Blob} (hk : k ≠ 0) (h : ∀ c ∈ l, c ≠ 0) : ∀ c ∈ k :: l, c ≠ 0 :=
    forall_mem_cons.mpr ⟨hk, h⟩
  induction h with
  | operand hblanks spells =>
    refine happend (hblank hblanks) ?_
    cases spells with
    | constant number => exact hnumber number
    | signed hsign number =>
      refine hcons ?_ (hnumber number)
      rcases hsign with rfl | rfl <;> decide
    | named hname keyword => exact hnames hname.2
    | value number => exact hcons (by decide) (hnumber number)
    | definedName hblanks' apart hname =>
      exact happend (by decide) (happend (hblank hblanks') (hnames hname.2))
    | definedValue hblanks' digits number =>
      refine happend (by decide) (happend (hblank hblanks') (hcons (by decide) ?_))
      exact fun c hc => ne_of_test (number c hc) rfl
  | parentheses hblanks spells hblanks' ih =>
    exact happend (hblank hblanks) (hcons (by decide)
      (happend ih (happend (hblank hblanks') (by decide))))
  | @unary op inner blanks text hblanks spells apart ih =>
    refine happend (hblank hblanks) (happend ?_ ih)
    cases op <;> decide
  | @binary op left right text blanks text' spells hblanks spells' ih ih' =>
    refine happend ih (happend (hblank hblanks) (happend ?_ ih'))
    cases op <;> decide

/-- The first token of a phrase is treated as any other one. -/
theorem Phrase.Spells.first (h : p.Spells text) (hrest : Delimits rest) : ∃ next expr,
      parseNextToken (text ++ rest) .expression = .ok (next, expr) ∧ next ≠ .finish ∧
        firstToken next = token setOperands ⟨[], [], .expression⟩ next := by
  induction h generalizing rest with
  | @operand x blanks text hblanks spells =>
    refine ⟨.expression x.node, rest, ?_, by simp, rfl⟩
    rw [append_assoc, parseNextToken_blanks hblanks]
    exact parseNextToken_operand spells hrest
  | @parentheses inner blanks text blanks' hblanks spells hblanks' ih =>
    refine ⟨.openParenthesis, text ++ (blanks' ++ [41]) ++ rest, ?_, by simp, rfl⟩
    rw [append_assoc, parseNextToken_blanks hblanks, cons_append, parseNextToken_open]
  | @unary op inner blanks text hblanks spells apart ih =>
    refine ⟨_, _, parseNextToken_unaryPhrase hblanks spells apart rest, by simp [unaryToken], ?_⟩
    cases op <;> rfl
  | @binary op left right text blanks text' spells hblanks spells' ih ih' =>
    have hdelimits : Delimits (blanks ++ (op.spelling ++ text') ++ rest) := by
      rw [append_assoc, append_assoc]
      exact delimits_blanks hblanks (delimits_spelling op _)
    rw [append_assoc]
    exact ih hdelimits

/-- The tree of a phrase and the blanks behind it, for every bound above the number of tokens. -/
theorem expressionTree_phrase (h : p.Spells text) (hfits : p.Fits) (hblanks : Blank blanks)
    {expression : DrString} (hexpression : expression.utf8 = text ++ blanks) (fuel : Nat) :
    expressionTree (fuel + p.size) expression =
      p.scan [] >>= fun x => reduceAll x.1 x.2 >>= finish setOperands [] := by
  have hzero : expression.utf8.takeWhile (· ≠ 0) = text ++ blanks := by
    have hall : ∀ c ∈ text ++ blanks, decide (c ≠ 0) = true := by
      intro c hc
      rcases mem_append.mp hc with hc | hc
      · exact decide_eq_true (h.ne_zero c hc)
      · exact decide_eq_true (ne_of_test (hblanks c hc) rfl)
    rw [hexpression]
    exact takeWhile_eq_self_iff.mpr hall
  have hdelimits : Delimits blanks := by
    have hend := delimits_blanks hblanks delimits_nil
    rwa [append_nil] at hend
  have hguard : Guards p.level [] := by
    rintro expression last num_args rest heq
    cases heq
  have hwhole := parseTokens_phrase h hfits hguard [] hdelimits (fuel + 1)
  obtain ⟨next, expr, hnext, hne, hfirst⟩ := h.first hdelimits
  have hfuel : fuel + 1 + p.size = fuel + p.size + 1 := by omega
  rw [hfuel, parseTokens_token hnext hne, ← hfirst] at hwhole
  rw [expressionTree, parseExpression, hzero, hnext, ok_bind]
  refine hwhole.trans ?_
  cases hscan : p.scan [] with
  | ok x =>
    obtain ⟨waiting, operands⟩ := x
    have hwaits : ∀ x ∈ waiting, ∃ level, Waits level x :=
      fun x hx => ⟨_, Phrase.scan_waits hscan hfits x hx⟩
    simp only [ok_bind, append_nil]
    rw [parseTokens, parseNextToken_end hblanks, ok_bind]
    exact finish_eq hwaits operands
  | raise e => rfl
  | fault => rfl
  | outOfFuel => rfl

end IntEvaluator

end Drt
