import Drt.Core.Base.Exception
import Drt.Core.Types.Number

/-!
# The expression parser

`Evaluator::parseExpression` works for any language of tokens: `parseNextToken` and
`setOperands` are virtual. It keeps the operators that wait for operands on
`parse_stack` and the finished parts on `operands`; both are lists here, the last
element first.
-/

namespace Drt

namespace Evaluator

/-- What the tokenizer is told to expect. -/
inductive ParserState where
  /-- `PS_Expression`. -/
  | expression
  /-- `PS_BinOperator`. -/
  | binOperator
  deriving DecidableEq, Repr

/-- What `parseNextToken` answers, with the values it leaves behind. -/
inductive Token (ε : Type) where
  | finish
  | expression (expression : ε)
  | operator (expression : ε) (num_args : Nat) (priority : Int)
  | openParenthesis
  | closeParenthesis
  | function (expression : ε) (num_args : Nat)
  deriving DecidableEq, Repr

/-- `ParseElement`. -/
inductive ParseElement (ε : Type) where
  | operation (expression : ε) (priority : UInt32) (num_args : Nat)
  | function (expression : ε) (num_args : Nat)
  | openParenthesis
  deriving DecidableEq, Repr

/-- The local variables of `parseExpression` which live from token to token. -/
structure Parser (ε : Type) where
  parse_stack : List (ParseElement ε)
  operands : List ε
  state : ParserState
  deriving DecidableEq, Repr

variable {ε τ : Type}

/-- Give an element of the stack its operands, and make it an operand itself. -/
def reduce (setOperands : ε → List ε → Call ε) (missing : String) (expression : ε)
    (num_args : Nat) (operands : List ε) : Call (List ε) :=
  if num_args > 0 then
    if num_args > operands.length then .raise (.invalidFormatException "expression" missing)
    else
      setOperands expression (operands.take num_args).reverse >>= fun expression =>
        .ok (expression :: operands.drop num_args)
  else .ok (expression :: operands)

/-- `TT_Finish`. -/
def finish (setOperands : ε → List ε → Call ε) : List (ParseElement ε) → List ε → Call ε
  | [], [expression_tree] => .ok expression_tree
  | [], _ => .raise (.invalidFormatException "expression" "missing operand?")
  | .openParenthesis :: _, _ =>
    .raise (.invalidFormatException "expression" "missing right parenthesis")
  | .operation expression _ num_args :: stack, operands =>
    reduce setOperands "missing operands" expression num_args operands >>=
      finish setOperands stack
  | .function expression num_args :: stack, operands =>
    reduce setOperands "missing parameters" expression num_args operands >>=
      finish setOperands stack

/-- The loop of `TT_CloseParenthesis`: what is left of the stack and of the operands. -/
def closeParenthesis (setOperands : ε → List ε → Call ε) :
    List (ParseElement ε) → List ε → Call (List (ParseElement ε) × List ε)
  | [], operands => .ok ([], operands)
  | .openParenthesis :: stack, operands => .ok (stack, operands)
  | .function expression num_args :: stack, operands =>
    reduce setOperands "missing parameters" expression num_args operands >>=
      closeParenthesis setOperands stack
  | .operation expression _ num_args :: stack, operands =>
    reduce setOperands "missing operands" expression num_args operands >>=
      closeParenthesis setOperands stack

/-- The test which keeps the last operator of the stack waiting. -/
def keeps (last : UInt32) (priority : Int) : Bool :=
  if priority > 0 then last > UInt32.ofInt priority else last ≥ UInt32.ofInt (-priority)

/-- The loop of `TT_Operator`. Its body ends with `break`, so there is one pass at most. -/
def reduceLast (setOperands : ε → List ε → Call ε) (priority : Int)
    (stack : List (ParseElement ε)) (operands : List ε) :
    Call (List (ParseElement ε) × List ε) :=
  match stack with
  | .operation expression last num_args :: rest =>
    if keeps last priority then .ok (stack, operands)
    else
      reduce setOperands "missing operands" expression num_args operands >>= fun operands =>
        .ok (rest, operands)
  | _ => .ok (stack, operands)

/-- The loop of `parseExpression` on a token other than `TT_Finish`. -/
def token (setOperands : ε → List ε → Call ε) (p : Parser ε) : Token ε → Call (Parser ε)
  | .finish => .fault
  | .expression expression =>
    .ok { p with operands := expression :: p.operands, state := .binOperator }
  | .operator expression num_args priority =>
    reduceLast setOperands priority p.parse_stack p.operands >>= fun (stack, operands) =>
      let priority := UInt32.ofInt (if priority < 0 then -priority else priority)
      .ok ⟨.operation expression priority num_args :: stack, operands, .expression⟩
  | .openParenthesis =>
    .ok { p with parse_stack := .openParenthesis :: p.parse_stack, state := .expression }
  | .closeParenthesis =>
    closeParenthesis setOperands p.parse_stack p.operands >>= fun (stack, operands) =>
      .ok ⟨stack, operands, .binOperator⟩
  | .function expression num_args =>
    .ok { p with
      parse_stack := .function expression num_args :: p.parse_stack
      state := .expression }

/-- The `switch` of `parseExpression` on the first token. -/
def firstToken : Token ε → Call (Parser ε)
  | .finish => .raise (.endOfDataException "expression" "empty")
  | .operator expression num_args priority =>
    .ok ⟨[.operation expression (UInt32.ofInt priority) num_args], [], .expression⟩
  | .expression expression => .ok ⟨[], [expression], .binOperator⟩
  | .openParenthesis => .ok ⟨[.openParenthesis], [], .expression⟩
  | .function expression num_args => .ok ⟨[.function expression num_args], [], .expression⟩
  | .closeParenthesis =>
    .raise (.invalidFormatException "expression" "unary operator or number")

/-- The loop of `parseExpression`. -/
def parseTokens (setOperands : ε → List ε → Call ε)
    (parseNextToken : τ → ParserState → Call (Token ε × τ)) : Nat → τ → Parser ε → Call ε
  | 0, _, _ => .outOfFuel
  | fuel + 1, expr, p =>
    parseNextToken expr p.state >>= fun (next, expr) =>
      if let .finish := next then finish setOperands p.parse_stack p.operands
      else token setOperands p next >>= parseTokens setOperands parseNextToken fuel expr

/-- `parseExpression`: the tree that `expression_tree` is set to. -/
def parseExpression (setOperands : ε → List ε → Call ε)
    (parseNextToken : τ → ParserState → Call (Token ε × τ)) (fuel : Nat) (expr : τ) : Call ε :=
  parseNextToken expr .expression >>= fun (next, expr) =>
    firstToken next >>= parseTokens setOperands parseNextToken fuel expr

/-- `Arguments`: the values of names and of columns. -/
structure Arguments where
  getConstant : Blob → Call Int64
  checkConstant : Blob → Bool
  getValue : UInt32 → Call Int64
  checkValue : UInt32 → Bool

end Evaluator

/-! ### Integer expressions

The tokens, the operators and the evaluation of `IntEvaluator`, on values of 64 bits. A
text is read up to its terminating zero, which is the end of the list here. -/

namespace IntEvaluator

open Evaluator

/-- The operators, in the order of `priorities`. -/
inductive Operation where
  | unknown
  | unPlus
  | unMinus
  | unNot
  | unBitNot
  | binPlus
  | binMinus
  | binMul
  | binDiv
  | binPower
  | binEqual
  | binNonEq
  | binLower
  | binGreater
  | binLowerEq
  | binGreaterEq
  | binLShift
  | binRShift
  | binByteSwap
  | binBitAnd
  | binBitOr
  | binBitXor
  | binAnd
  | binOr
  | binXor
  | parenthesis
  deriving DecidableEq, Repr

/-- `priorities`: a smaller number binds tighter. -/
def priorities : Operation → Nat
  | .unknown => 255
  | .unPlus => 15
  | .unMinus => 15
  | .unNot => 15
  | .unBitNot => 15
  | .binPlus => 40
  | .binMinus => 40
  | .binMul => 30
  | .binDiv => 30
  | .binPower => 25
  | .binEqual => 60
  | .binNonEq => 60
  | .binLower => 60
  | .binGreater => 60
  | .binLowerEq => 60
  | .binGreaterEq => 60
  | .binLShift => 70
  | .binRShift => 70
  | .binByteSwap => 70
  | .binBitAnd => 80
  | .binBitOr => 80
  | .binBitXor => 80
  | .binAnd => 90
  | .binOr => 90
  | .binXor => 90
  | .parenthesis => 5

/-- The expression objects. -/
inductive Expression where
  /-- An operand that is not set. -/
  | null
  /-- `DirectExpression`. -/
  | direct (value : Int64)
  /-- `VariableExpression`. -/
  | variable (var_name : Blob)
  /-- `DefinedVariableExpression`. -/
  | definedVariable (var_name : Blob)
  /-- `ValueExpression`. -/
  | value (column_id : UInt32)
  /-- `DefinedValueExpression`. -/
  | definedValue (column_id : UInt32)
  /-- `IntUnaryExpression`. -/
  | unary (operation_id : Operation) (operand : Expression)
  /-- `IntBinaryFullExpression`. -/
  | binaryFull (operation_id : Operation) (left right : Expression)
  /-- `IntBinaryPartExpression`. -/
  | binaryPart (operation_id : Operation) (left right : Expression)
  deriving DecidableEq, Repr

/-- `setOperands`; the base class asserts that it is not called. -/
def setOperands : Expression → List Expression → Call Expression
  | .unary operation_id _, operand :: _ => .ok (.unary operation_id operand)
  | .binaryFull operation_id _ _, left :: right :: _ => .ok (.binaryFull operation_id left right)
  | .binaryPart operation_id _ _, left :: right :: _ => .ok (.binaryPart operation_id left right)
  | _, _ => .fault

/-- `String::createNumber(operation_id)`. -/
def Operation.number (operation_id : Operation) : String := toString operation_id.ctorIdx

/-- A condition as a value. -/
def ofBool (b : Bool) : Int64 := if b then 1 else 0

/-- The operators of `IntUnaryExpression::evaluate`. -/
def evaluateUnary (operation_id : Operation) (operand : Int64) : Call Int64 :=
  match operation_id with
  | .unPlus => .ok operand
  | .unMinus => .ok (-operand)
  | .unNot => .ok (ofBool (operand = 0))
  | .unBitNot => .ok (~~~operand)
  | _ => .raise (.dataNotFoundException "unary operand" operation_id.number)

/-- The exchange of neighbouring groups of bits, `low` being the lower ones. -/
def swapBits (l shift low : Int64) : Int64 :=
  (l >>> shift &&& low) ||| (l <<< shift &&& low <<< shift)

/-- `OP_BinByteSwap`. -/
def byteSwap (l r : Int64) : Call Int64 :=
  if r = 1 then .ok (swapBits l 1 0x5555555555555555)
  else if r = 2 then .ok (swapBits l 2 0x3333333333333333)
  else if r = 4 then .ok (swapBits l 4 0x0f0f0f0f0f0f0f0f)
  else if r = 16 then .ok (swapBits l 8 0x00ff)
  else if r = 32 then .ok (swapBits (swapBits l 8 0x00ff00ff) 16 0x0000ffff)
  else if r = 64 then
    .ok (swapBits (swapBits (swapBits l 8 0x00ff00ff00ff00ff) 16 0x0000ffff0000ffff) 32
      0x00000000ffffffff)
  else .raise (.invalidFormatException "right operand for binary swap" (toString r.toInt))

/-- The operators of `IntBinaryFullExpression::evaluate`. Sums, differences, products and
shifted values wrap around; what the language leaves undefined otherwise is a fault. -/
def evaluateBinary (operation_id : Operation) (l r : Int64) : Call Int64 :=
  match operation_id with
  | .binPlus => .ok (l + r)
  | .binMinus => .ok (l - r)
  | .binMul => .ok (l * r)
  | .binDiv => if r = 0 ∨ l = Int64.minValue ∧ r = -1 then .fault else .ok (l / r)
  | .binEqual => .ok (ofBool (l = r))
  | .binNonEq => .ok (ofBool (l ≠ r))
  | .binLower => .ok (ofBool (l < r))
  | .binGreater => .ok (ofBool (l > r))
  | .binLowerEq => .ok (ofBool (l ≤ r))
  | .binGreaterEq => .ok (ofBool (l ≥ r))
  | .binLShift => if 0 ≤ r ∧ r < 64 then .ok (l <<< r) else .fault
  | .binRShift => if 0 ≤ r ∧ r < 64 then .ok (l >>> r) else .fault
  | .binByteSwap => byteSwap l r
  | .binBitAnd => .ok (l &&& r)
  | .binBitOr => .ok (l ||| r)
  | .binBitXor => .ok (l ^^^ r)
  | .binXor => .ok (ofBool (l = 0) ^^^ ofBool (r = 0))
  | _ => .raise (.invalidFormatException "binary operand" operation_id.number)

def evaluate (args : Arguments) : Expression → Call Int64
  | .null => .fault
  | .direct value => .ok value
  | .variable var_name => args.getConstant var_name
  | .definedVariable var_name => .ok (ofBool (args.checkConstant var_name))
  | .value column_id => args.getValue column_id
  | .definedValue column_id => .ok (ofBool (args.checkValue column_id))
  | .unary operation_id operand => evaluate args operand >>= evaluateUnary operation_id
  | .binaryFull operation_id left right =>
    evaluate args left >>= fun l =>
      evaluate args right >>= fun r => evaluateBinary operation_id l r
  | .binaryPart operation_id left right =>
    evaluate args left >>= fun l =>
      match operation_id with
      | .binAnd =>
        if l = 0 then .ok 0 else evaluate args right >>= fun r => .ok (ofBool (r ≠ 0))
      | .binOr =>
        if l ≠ 0 then .ok 1 else evaluate args right >>= fun r => .ok (ofBool (r ≠ 0))
      | _ => .raise (.invalidFormatException "binary operand" operation_id.number)

/-- `new IntUnaryExpression(…)` with `*num_args` and `*prio`. -/
def unaryToken (operation_id : Operation) : Token Expression :=
  .operator (.unary operation_id .null) 1 (priorities operation_id)

/-- `new IntBinaryFullExpression(…)`, or `new IntBinaryPartExpression(…)`. -/
def binaryToken (operation_id : Operation) : Token Expression :=
  .operator
    (match operation_id with
      | .binAnd => .binaryPart operation_id .null .null
      | .binOr => .binaryPart operation_id .null .null
      | _ => .binaryFull operation_id .null .null)
    2 (priorities operation_id)

/-- The answer on a binary operator, which is an error where an operand is expected. -/
def binaryOperator (state : ParserState) (operation_id : Operation) (format_type value : String)
    (expr : Blob) : Call (Token Expression × Blob) :=
  if state = .binOperator then .ok (binaryToken operation_id, expr)
  else .raise (.invalidFormatException format_type value)

/-- A sign: an operator, or the first character of a constant which `strtoll` reads from
`number` on. -/
def signToken (state : ParserState) (binary unary : Operation) (number expr : Blob) :
    Call (Token Expression × Blob) :=
  if state = .binOperator then .ok (binaryToken binary, expr)
  else if expr.head?.any isdigit then
    .ok (.expression (.direct (Int64.ofInt (strtol 0 number).1)), number.drop (strtol 0 number).2)
  else .ok (unaryToken unary, expr)

/-- A character of a name. -/
def isNameChar (c : UInt8) : Bool := isalnum c ∨ c = 95 ∨ c = 46

/-- A character a name may start with. -/
def isNameStart (c : UInt8) : Bool := isalpha c ∨ c = 95

/-- What follows `defined`. -/
def definedToken (expr : Blob) : Call (Token Expression × Blob) :=
  match expr.dropWhile isspace with
  | [] => .raise (.invalidFormatException "defined" "missing variable or value")
  | c :: rest =>
    if isNameStart c then
      .ok (.expression (.definedVariable (c :: rest.takeWhile isNameChar)),
        rest.dropWhile isNameChar)
    else if c = 92 then
      if rest.takeWhile isdigit = [] then .raise (.invalidFormatException "substitute" "missing id")
      else
        .ok (.expression (.definedValue (UInt32.ofInt (strtol 0 rest).1)), rest.dropWhile isdigit)
    else .raise (.invalidFormatException "defined" "missing variable or value")

/-- A name, or `defined` with what follows it. -/
def nameToken (expr : Blob) : Call (Token Expression × Blob) :=
  let name := expr.takeWhile isNameChar
  if name = ascii "defined" then definedToken (expr.dropWhile isNameChar)
  else .ok (.expression (.variable name), expr.dropWhile isNameChar)

/-- `parseNextToken`: the token, and the text behind it. -/
def parseNextToken (expr : Blob) (state : ParserState) : Call (Token Expression × Blob) :=
  match expr.dropWhile isspace with
  | [] => .ok (.finish, [])
  | c :: expr =>
    -- `(` and `)`
    if c = 40 then .ok (.openParenthesis, expr)
    else if c = 41 then .ok (.closeParenthesis, expr)
    -- `+` and `-`
    else if c = 43 then signToken state .binPlus .unPlus expr expr
    else if c = 45 then signToken state .binMinus .unMinus (45 :: expr) expr
    -- `=`
    else if c = 61 then
      if expr.head? = some 61 then
        binaryOperator state .binEqual "binary operator =" "missing left operand" (expr.drop 1)
      else .raise (.invalidFormatException "token" (latin expr))
    -- `!`
    else if c = 33 then
      if expr.head? = some 61 then
        binaryOperator state .binNonEq "binary operator =" "missing left operand" (expr.drop 1)
      else if state = .expression then .ok (unaryToken .unNot, expr)
      else .raise (.invalidFormatException "unary operator !" "unexpected left operand")
    -- `/` and `*`
    else if c = 47 then
      binaryOperator state .binDiv "binary operator /" "missing left operand" expr
    else if c = 42 then
      binaryOperator state .binMul "binary operator /" "missing left operand" expr
    -- `<`
    else if c = 60 then
      if expr.head? = some 61 then
        binaryOperator state .binLowerEq "binary operator <=" "missing left operand" (expr.drop 1)
      else if expr.head? = some 60 then
        binaryOperator state .binLShift "binary operator <<" "missing left operand" (expr.drop 1)
      else binaryOperator state .binLower "binary operator <" "missing left operand" expr
    -- `>`
    else if c = 62 then
      if expr.head? = some 61 then
        binaryOperator state .binGreaterEq "binary operator >=" "missing left operand"
          (expr.drop 1)
      else if expr.head? = some 62 then
        if expr[1]? = some 60 ∧ expr[2]? = some 60 then
          binaryOperator state .binByteSwap "binary operator >>" "missing left operand"
            (expr.drop 3)
        else
          binaryOperator state .binRShift "binary operator >>" "missing left operand" (expr.drop 1)
      else binaryOperator state .binGreater "binary operator <" "missing left operand" expr
    -- `&`
    else if c = 38 then
      if expr.head? = some 38 then
        binaryOperator state .binAnd "operator &&" "missing operator" (expr.drop 1)
      else binaryOperator state .binBitAnd "operator &" "missing operator" expr
    -- `|`
    else if c = 124 then
      if expr.head? = some 124 then
        binaryOperator state .binOr "operator ||" "missing operator" (expr.drop 1)
      else binaryOperator state .binBitOr "operator |" "missing operator" expr
    -- `^`
    else if c = 94 then
      if expr.head? = some 94 then
        binaryOperator state .binXor "operator ^^" "missing operator" (expr.drop 1)
      else binaryOperator state .binBitXor "operator ^" "missing operator" expr
    else if isdigit c then
      if state = .expression then
        .ok (.expression (.direct (Int64.ofInt (strtol 0 (c :: expr)).1)),
          (c :: expr).drop (strtol 0 (c :: expr)).2)
      else .raise (.invalidFormatException "constant" "missing operator")
    else if isNameStart c then
      if state = .expression then nameToken (c :: expr)
      else .raise (.invalidFormatException "variable" "missing operator")
    -- `\`
    else if c = 92 then
      if state = .expression then
        if expr.head?.any isdigit then
          .ok (.expression (.value (UInt32.ofInt (strtol 0 expr).1)), expr.drop (strtol 0 expr).2)
        else .raise (.invalidFormatException "substitute" "missing id")
      else .raise (.invalidFormatException "substitute" "missing operator")
    else .raise (.invalidFormatException "token" (latin (c :: expr)))

/-- The tree `IntEvaluator(expression)` builds, under a bound on the number of tokens. -/
def expressionTree (fuel : Nat) (expression : DrString) : Call Expression :=
  parseExpression setOperands parseNextToken fuel (expression.utf8.takeWhile (· ≠ 0))

end IntEvaluator

end Drt
