import Drt.Core.Eval.IntEvaluator

/-!
# The grammar of integer expressions and its tokens

What an expression means by the table of priorities alone: a smaller number binds
tighter, binary operators of one priority associate to the left, and unary operators
apply to the operand behind them. A phrase is an expression with its parentheses; its
level is the priority of its outermost operator.
-/

open List

namespace Drt

namespace IntEvaluator

open Evaluator

/-- The unary operators which have a spelling. -/
inductive UnaryOperator where
  | plus
  | minus
  | not
  deriving DecidableEq, Repr

def UnaryOperator.operation : UnaryOperator → Operation
  | .plus => .unPlus
  | .minus => .unMinus
  | .not => .unNot

def UnaryOperator.spelling : UnaryOperator → Blob
  | .plus => ascii "+"
  | .minus => ascii "-"
  | .not => ascii "!"

/-- The binary operators which have a spelling. -/
inductive BinaryOperator where
  | plus
  | minus
  | mul
  | div
  | equal
  | nonEq
  | lower
  | greater
  | lowerEq
  | greaterEq
  | lShift
  | rShift
  | byteSwap
  | bitAnd
  | bitOr
  | bitXor
  | and
  | or
  | xor
  deriving DecidableEq, Repr

def BinaryOperator.operation : BinaryOperator → Operation
  | .plus => .binPlus
  | .minus => .binMinus
  | .mul => .binMul
  | .div => .binDiv
  | .equal => .binEqual
  | .nonEq => .binNonEq
  | .lower => .binLower
  | .greater => .binGreater
  | .lowerEq => .binLowerEq
  | .greaterEq => .binGreaterEq
  | .lShift => .binLShift
  | .rShift => .binRShift
  | .byteSwap => .binByteSwap
  | .bitAnd => .binBitAnd
  | .bitOr => .binBitOr
  | .bitXor => .binBitXor
  | .and => .binAnd
  | .or => .binOr
  | .xor => .binXor

def BinaryOperator.spelling : BinaryOperator → Blob
  | .plus => ascii "+"
  | .minus => ascii "-"
  | .mul => ascii "*"
  | .div => ascii "/"
  | .equal => ascii "=="
  | .nonEq => ascii "!="
  | .lower => ascii "<"
  | .greater => ascii ">"
  | .lowerEq => ascii "<="
  | .greaterEq => ascii ">="
  | .lShift => ascii "<<"
  | .rShift => ascii ">>"
  | .byteSwap => ascii ">><<"
  | .bitAnd => ascii "&"
  | .bitOr => ascii "|"
  | .bitXor => ascii "^"
  | .and => ascii "&&"
  | .or => ascii "||"
  | .xor => ascii "^^"

/-- The node of a binary operator: `&&` and `||` may skip their right operand. -/
def BinaryOperator.node (op : BinaryOperator) (left right : Expression) : Expression :=
  match op with
  | .and => .binaryPart .binAnd left right
  | .or => .binaryPart .binOr left right
  | _ => .binaryFull op.operation left right

/-- Constants and values by the text of their number, and names. -/
inductive Operand where
  | constant (text : Blob)
  | named (name : Blob)
  | value (text : Blob)
  | definedName (name : Blob)
  | definedValue (text : Blob)
  deriving DecidableEq, Repr

/-- An operand as a node; a constant is what the C library reads, with its base in front. -/
def Operand.node : Operand → Expression
  | .constant text => .direct (Int64.ofInt (strtol 0 text).1)
  | .named name => .variable name
  | .value text => .value (UInt32.ofInt (strtol 0 text).1)
  | .definedName name => .definedVariable name
  | .definedValue text => .definedValue (UInt32.ofInt (strtol 0 text).1)

/-- An expression with its parentheses. -/
inductive Phrase where
  | operand (operand : Operand)
  | parentheses (inner : Phrase)
  | unary (op : UnaryOperator) (inner : Phrase)
  | binary (op : BinaryOperator) (left right : Phrase)
  deriving DecidableEq, Repr

namespace Phrase

/-- The priority of the outermost operator. -/
def level : Phrase → Nat
  | operand _ => 0
  | parentheses _ => 0
  | unary op _ => priorities op.operation
  | binary op _ _ => priorities op.operation

/-- The grammar: which phrases may be the parts of which without parentheses. -/
def Fits : Phrase → Prop
  | operand _ => True
  | parentheses inner => inner.Fits
  | unary op inner => inner.Fits ∧ inner.level ≤ priorities op.operation
  | binary op left right =>
    left.Fits ∧ right.Fits ∧ left.level ≤ priorities op.operation ∧
      right.level < priorities op.operation

/-- Whether a phrase fits is a matter of looking at it. -/
def decideFits : (p : Phrase) → Decidable p.Fits
  | operand _ => isTrue trivial
  | parentheses inner => decideFits inner
  | unary op inner =>
    have := decideFits inner
    inferInstanceAs (Decidable (inner.Fits ∧ inner.level ≤ priorities op.operation))
  | binary op left right =>
    have := decideFits left
    have := decideFits right
    inferInstanceAs (Decidable (left.Fits ∧ right.Fits ∧
      left.level ≤ priorities op.operation ∧ right.level < priorities op.operation))

instance : DecidablePred Fits := decideFits

/-- The tree of a phrase. -/
def tree : Phrase → Expression
  | operand x => x.node
  | parentheses inner => inner.tree
  | unary op inner => .unary op.operation inner.tree
  | binary op left right => op.node left.tree right.tree

end Phrase

/-- Blanks. -/
def Blank (text : Blob) : Prop := ∀ c ∈ text, isspace c = true

instance (text : Blob) : Decidable (Blank text) :=
  inferInstanceAs (Decidable (∀ c ∈ text, isspace c = true))

/-- The text of a name. -/
def IsName (name : Blob) : Prop :=
  name.head?.any isNameStart = true ∧ ∀ c ∈ name, isNameChar c = true

/-- The text of a number without a sign, all of which the C library reads. -/
def IsNumber (text : Blob) : Prop :=
  text.head?.any isdigit = true ∧ (strtol 0 text).2 = text.length

/-- How an operand is written. -/
inductive Operand.Spells : Operand → Blob → Prop where
  | constant {text : Blob} (number : IsNumber text) : Spells (.constant text) text
  | signed {sign : UInt8} {text : Blob} (hsign : sign = 43 ∨ sign = 45) (number : IsNumber text) :
      Spells (.constant (sign :: text)) (sign :: text)
  | named {name : Blob} (hname : IsName name) (keyword : name ≠ ascii "defined") :
      Spells (.named name) name
  | value {text : Blob} (number : IsNumber text) : Spells (.value text) (92 :: text)
  | definedName {blanks name : Blob} (hblanks : Blank blanks) (apart : blanks ≠ [])
      (hname : IsName name) : Spells (.definedName name) (ascii "defined" ++ (blanks ++ name))
  | definedValue {blanks text : Blob} (hblanks : Blank blanks) (digits : text ≠ [])
      (number : ∀ c ∈ text, isdigit c = true) :
      Spells (.definedValue text) (ascii "defined" ++ (blanks ++ 92 :: text))

/-- How a phrase is written, with blanks between its tokens. A sign right before a digit
belongs to the constant, so a sign that is an operator does not stand there. -/
inductive Phrase.Spells : Phrase → Blob → Prop where
  | operand {x : Operand} {blanks text : Blob} (hblanks : Blank blanks) (spells : x.Spells text) :
      Spells (.operand x) (blanks ++ text)
  | parentheses {inner : Phrase} {blanks text blanks' : Blob} (hblanks : Blank blanks)
      (spells : Spells inner text) (hblanks' : Blank blanks') :
      Spells (.parentheses inner) (blanks ++ 40 :: (text ++ (blanks' ++ [41])))
  | unary (op : UnaryOperator) {inner : Phrase} {blanks text : Blob} (hblanks : Blank blanks)
      (spells : Spells inner text) (apart : op = .not ∨ text.head?.any isdigit = false) :
      Spells (.unary op inner) (blanks ++ (op.spelling ++ text))
  | binary (op : BinaryOperator) {left right : Phrase} {text blanks text' : Blob}
      (spells : Spells left text) (hblanks : Blank blanks) (spells' : Spells right text') :
      Spells (.binary op left right) (text ++ (blanks ++ (op.spelling ++ text')))

end IntEvaluator

/-! ### The tokens of integer expressions

What is written by the grammar is read token by token: each token is taken whole,
whatever follows it in a phrase, and nothing else of the text is taken. -/

namespace IntEvaluator

open Evaluator

variable {text rest blanks : Blob} {c : UInt8} {state : ParserState}

theorem ne_of_test {P : UInt8 → Bool} {k : UInt8} (hc : P c = true) (hk : P k = false) :
    c ≠ k := by
  rintro rfl
  rw [hc] at hk
  cases hk

/-- A text that does not go on with a character of a name or a number. -/
def Delimits (text : Blob) : Prop := ∀ c, text.head? = some c → isNameChar c = false

/-- A text that a binary operator in front of it does not run into. -/
def Opens (text : Blob) : Prop :=
  ∃ c rest, text = c :: rest ∧ c ∉ [(61 : UInt8), 60, 62, 38, 124, 94]

theorem Delimits.stops (h : Delimits text) : Stops text := by
  intro c hc
  have hname : ¬ (isalnum c = true ∨ c = 95 ∨ c = 46) := of_decide_eq_false (h c hc)
  have halnum : ¬ (isdigit c = true ∨ (65 ≤ c ∧ c ≤ 90) ∨ (97 ≤ c ∧ c ≤ 122)) :=
    fun hall => hname (.inl (decide_eq_true hall))
  have hdigit : ¬ (48 ≤ c ∧ c ≤ 57) := fun hall => halnum (.inl (decide_eq_true hall))
  rw [digitValue, if_neg hdigit, if_neg fun hall => halnum (.inr (.inr hall)),
    if_neg fun hall => halnum (.inr (.inl hall))]

theorem delimits_nil : Delimits [] := by
  intro c hc
  cases hc

theorem delimits_cons (h : isNameChar c = false) : Delimits (c :: rest) := by
  intro d hd
  obtain rfl := Option.some.inj hd
  exact h

/-- A blank is no character of a name. -/
theorem not_nameChar_of_blank (h : isspace c = true) : isNameChar c = false := by
  simp only [isspace, decide_eq_true_eq] at h
  have hle : c.toNat ≤ 32 := by
    rcases h with rfl | h
    · exact Nat.le_refl _
    · exact Nat.le_trans (UInt8.le_iff_toNat_le.mp h.2) (by decide)
  have hnot (k : UInt8) (hk : 32 < k.toNat) : ¬ k ≤ c := by
    rw [UInt8.le_iff_toNat_le]
    omega
  have hne (k : UInt8) (hk : 32 < k.toNat) : c ≠ k := by
    rintro rfl
    omega
  simp [isNameChar, isalnum, isdigit, hnot 48 (by decide), hnot 65 (by decide),
    hnot 97 (by decide), hne 95 (by decide), hne 46 (by decide)]

section

variable (hblanks : Blank blanks)
include hblanks

theorem delimits_blanks (h : Delimits text) : Delimits (blanks ++ text) := by
  cases blanks with
  | nil => exact h
  | cons b blanks =>
    exact delimits_cons (not_nameChar_of_blank (hblanks b mem_cons_self))

theorem dropWhile_blanks (text : Blob) :
    (blanks ++ text).dropWhile isspace = text.dropWhile isspace := by
  rw [dropWhile_append_of_pos hblanks]

theorem parseNextToken_blanks (text : Blob) (state : ParserState) :
    parseNextToken (blanks ++ text) state = parseNextToken text state := by
  rw [parseNextToken, parseNextToken, dropWhile_blanks hblanks]

theorem parseNextToken_end (state : ParserState) :
    parseNextToken blanks state = .ok (.finish, []) := by
  have hempty := parseNextToken_blanks hblanks [] state
  rw [append_nil] at hempty
  rw [hempty]
  rfl

end

theorem parseNextToken_open (rest : Blob) (state : ParserState) :
    parseNextToken (40 :: rest) state = .ok (.openParenthesis, rest) :=
  rfl

theorem parseNextToken_close (rest : Blob) (state : ParserState) :
    parseNextToken (41 :: rest) state = .ok (.closeParenthesis, rest) :=
  rfl

/-- A text that does not start with a blank is looked at as it is. -/
theorem dropWhile_cons_of_not (h : isspace c = false) (rest : Blob) :
    (c :: rest).dropWhile isspace = c :: rest := by
  rw [dropWhile_cons, h]
  rfl

theorem digitValue_of_isdigit (h : isdigit c = true) : digitValue c < 36 :=
  (digitValue_lt_ten_iff.mpr h).trans (by decide)

/-- A constant that starts with a digit. -/
theorem parseNextToken_digit (h : isdigit c = true) (expr : Blob) :
    parseNextToken (c :: expr) .expression =
      .ok (.expression (.direct (Int64.ofInt (strtol 0 (c :: expr)).1)),
        (c :: expr).drop (strtol 0 (c :: expr)).2) := by
  have hne (k : UInt8) (hk : isdigit k = false) : c ≠ k := ne_of_test h hk
  rw [parseNextToken, dropWhile_cons_of_not (not_blank_of_digit (digitValue_of_isdigit h)).1]
  simp only [hne 40 rfl, hne 41 rfl, hne 43 rfl, hne 45 rfl, hne 61 rfl, hne 33 rfl, hne 47 rfl,
    hne 42 rfl, hne 60 rfl, hne 62 rfl, hne 38 rfl, hne 124 rfl, hne 94 rfl, h, if_true,
    if_false]

/-- A name starts with no blank and no digit. -/
theorem isNameStart_spec (h : isNameStart c = true) :
    isspace c = false ∧ isdigit c = false ∧ isNameChar c = true := by
  simp only [isNameStart, isalpha, decide_eq_true_eq] at h
  have hle : 65 ≤ c.toNat := by
    rcases h with (h | h) | rfl
    · exact UInt8.le_iff_toNat_le.mp h.1
    · exact Nat.le_trans (by decide) (UInt8.le_iff_toNat_le.mp h.1)
    · decide
  have hnot (k : UInt8) (hk : k.toNat < 65) : ¬ c ≤ k := by
    rw [UInt8.le_iff_toNat_le]
    omega
  have hne (k : UInt8) (hk : k.toNat < 65) : c ≠ k := by
    rintro rfl
    omega
  refine ⟨?_, ?_, ?_⟩
  · simp [isspace, hne 32 (by decide), hnot 13 (by decide)]
  · simp [isdigit, hnot 57 (by decide)]
  · simp only [isNameChar, isalnum, decide_eq_true_eq]
    tauto

theorem parseNextToken_nameStart (h : isNameStart c = true) (expr : Blob) :
    parseNextToken (c :: expr) .expression = nameToken (c :: expr) := by
  have hne (k : UInt8) (hk : isNameStart k = false) : c ≠ k := ne_of_test h hk
  obtain ⟨hblank, hdigit, -⟩ := isNameStart_spec h
  rw [parseNextToken, dropWhile_cons_of_not hblank]
  simp only [hne 40 rfl, hne 41 rfl, hne 43 rfl, hne 45 rfl, hne 61 rfl, hne 33 rfl, hne 47 rfl,
    hne 42 rfl, hne 60 rfl, hne 62 rfl, hne 38 rfl, hne 124 rfl, hne 94 rfl, h, hdigit, if_true,
    if_false, Bool.false_eq_true]

theorem takeWhile_stops {P : UInt8 → Bool} (htext : ∀ c ∈ text, P c = true)
    (hrest : ∀ c, rest.head? = some c → P c = false) :
    (text ++ rest).takeWhile P = text ∧ (text ++ rest).dropWhile P = rest := by
  have hnone : rest.takeWhile P = [] ∧ rest.dropWhile P = rest := by
    cases rest with
    | nil => exact ⟨rfl, rfl⟩
    | cons c rest =>
      have hc := hrest c rfl
      rw [takeWhile_cons, dropWhile_cons, hc]
      exact ⟨rfl, rfl⟩
  rw [takeWhile_append_of_pos htext, dropWhile_append_of_pos htext, hnone.1, hnone.2,
    append_nil]
  exact ⟨rfl, rfl⟩

theorem IsNumber.strtol_append (h : IsNumber text) (hrest : Delimits rest) :
    ∃ c digits, text = c :: digits ∧ isdigit c = true ∧
      strtol 0 (text ++ rest) = ((strtol 0 text).1, text.length) := by
  obtain ⟨hhead, hlength⟩ := h
  cases text with
  | nil => cases hhead
  | cons c digits =>
    have hc : isdigit c = true := by simpa using hhead
    refine ⟨c, digits, rfl, hc, ?_⟩
    rw [Drt.strtol_append (digitValue_of_isdigit hc) digits hrest.stops, ← hlength]

/-- A sign in front of a number that is read whole. -/
theorem IsNumber.strtol_sign (h : IsNumber text) {sign : UInt8} (hsign : sign = 43 ∨ sign = 45) :
    (strtol 0 (sign :: text)).2 = (sign :: text).length ∧
      (sign = 43 → (strtol 0 (sign :: text)).1 = (strtol 0 text).1) := by
  obtain ⟨hhead, hlength⟩ := h
  cases text with
  | nil => cases hhead
  | cons c digits =>
    have hc : isdigit c = true := by simpa using hhead
    rw [strtol_digit 0 (digitValue_of_isdigit hc)] at hlength ⊢
    rw [Drt.strtol_sign 0 hsign]
    cases hread : strtolUnsigned 0 (c :: digits) with
    | none =>
      rw [hread] at hlength
      cases hlength
    | some result =>
      obtain ⟨number, length⟩ := result
      rw [hread] at hlength
      have hlength' : length = (c :: digits).length := hlength
      refine ⟨?_, ?_⟩
      · show 1 + length = _
        rw [hlength', Nat.add_comm]
        rfl
      · rintro rfl
        rfl

/-- A constant with its sign is taken whole, where an operand is expected. -/
theorem parseNextToken_signed (h : IsNumber text) {sign : UInt8} (hsign : sign = 43 ∨ sign = 45)
    (hrest : Delimits rest) :
    parseNextToken (sign :: text ++ rest) .expression =
      .ok (.expression (.direct (Int64.ofInt (strtol 0 (sign :: text)).1)), rest) := by
  obtain ⟨hwhole, hplus⟩ := h.strtol_sign hsign
  obtain ⟨c, digits, rfl, hc, hread⟩ := h.strtol_append hrest
  have hminus := strtol_sign_append (c := c) hsign digits hrest.stops
  have htoken (binary unary : Operation) (number : Blob) :
      signToken .expression binary unary number (c :: digits ++ rest) =
        .ok (.expression (.direct (Int64.ofInt (strtol 0 number).1)),
          number.drop (strtol 0 number).2) := by
    simp [signToken, hc]
  rcases hsign with rfl | rfl
  · have hnext : parseNextToken (43 :: (c :: digits) ++ rest) .expression =
        signToken .expression .binPlus .unPlus (c :: digits ++ rest) (c :: digits ++ rest) := rfl
    rw [hnext, htoken, hread, hplus rfl, drop_left]
  · have hnext : parseNextToken (45 :: (c :: digits) ++ rest) .expression =
        signToken .expression .binMinus .unMinus (45 :: (c :: digits ++ rest))
          (c :: digits ++ rest) := rfl
    rw [hnext, htoken, hminus, hwhole, ← cons_append, drop_left]

theorem parseNextToken_defined (hrest : Delimits rest) :
    parseNextToken (ascii "defined" ++ rest) .expression = definedToken rest := by
  have hkeyword : ascii "defined" = 100 :: ascii "efined" := rfl
  have hname : ∀ c ∈ ascii "defined", isNameChar c = true := by decide
  obtain ⟨htake, hdrop⟩ := takeWhile_stops hname hrest
  have hstart : parseNextToken (ascii "defined" ++ rest) .expression =
      nameToken (ascii "defined" ++ rest) := by
    rw [hkeyword, cons_append]
    exact parseNextToken_nameStart (by decide) _
  rw [hstart, nameToken]
  simp only [htake, hdrop, if_true]

theorem IsName.cons (h : IsName text) :
    ∃ c name, text = c :: name ∧ isNameStart c = true ∧ ∀ d ∈ name, isNameChar d = true := by
  obtain ⟨hhead, hall⟩ := h
  cases text with
  | nil => cases hhead
  | cons c name =>
    exact ⟨c, name, rfl, by simpa using hhead, fun d hd => hall d (mem_cons_of_mem _ hd)⟩

/-- An operand is taken whole, where it is expected. -/
theorem parseNextToken_operand {x : Operand} (h : x.Spells text) (hrest : Delimits rest) :
    parseNextToken (text ++ rest) .expression = .ok (.expression x.node, rest) := by
  cases h with
  | constant number =>
    obtain ⟨c, digits, rfl, hc, hread⟩ := number.strtol_append hrest
    rw [cons_append, parseNextToken_digit hc, ← cons_append, hread]
    simp only [drop_left, Operand.node]
  | signed hsign number => exact parseNextToken_signed number hsign hrest
  | named hname keyword =>
    obtain ⟨htake, hdrop⟩ := takeWhile_stops hname.2 hrest
    obtain ⟨c, name, rfl, hc, -⟩ := hname.cons
    rw [cons_append, parseNextToken_nameStart hc, ← cons_append, nameToken]
    simp only [htake, hdrop, keyword, if_false, Operand.node]
  | @value number hnumber =>
    obtain ⟨c, digits, rfl, hc, hread⟩ := hnumber.strtol_append hrest
    have hnext : parseNextToken (92 :: (c :: digits) ++ rest) .expression =
        if (c :: digits ++ rest).head?.any isdigit then
          .ok (.expression (.value (UInt32.ofInt (strtol 0 (c :: digits ++ rest)).1)),
            (c :: digits ++ rest).drop (strtol 0 (c :: digits ++ rest)).2)
        else .raise (.invalidFormatException "substitute" "missing id") := rfl
    have hhead : (c :: digits ++ rest).head?.any isdigit = true := by simpa using hc
    rw [hnext, if_pos hhead, hread, drop_left]
    rfl
  | @definedName blanks name hblanks apart hname =>
    obtain ⟨c, more, rfl, hc, hmore⟩ := hname.cons
    obtain ⟨b, blanks, rfl⟩ := exists_cons_of_ne_nil apart
    have hdelimits : Delimits (b :: blanks ++ (c :: more ++ rest)) :=
      delimits_cons (not_nameChar_of_blank (hblanks b mem_cons_self))
    obtain ⟨htake, hdrop⟩ := takeWhile_stops hmore hrest
    rw [append_assoc, append_assoc, parseNextToken_defined hdelimits, definedToken,
      dropWhile_blanks hblanks, cons_append,
      dropWhile_cons_of_not (isNameStart_spec hc).1]
    simp only [hc, if_true, htake, hdrop, Operand.node]
  | @definedValue blanks number hblanks digits hnumber =>
    have hdelimits : Delimits (blanks ++ 92 :: (number ++ rest)) :=
      delimits_blanks hblanks (delimits_cons (by decide))
    have hnot : ∀ c, rest.head? = some c → isdigit c = false := by
      intro c hc
      have hname := hrest c hc
      by_contra hdigit
      have hnameChar : isNameChar c = true := by
        simp [isNameChar, isalnum, Bool.eq_true_of_not_eq_false hdigit]
      rw [hname] at hnameChar
      cases hnameChar
    obtain ⟨htake, hdrop⟩ := takeWhile_stops hnumber hnot
    obtain ⟨c, more, rfl⟩ := exists_cons_of_ne_nil digits
    have hread := Drt.strtol_append
      (digitValue_of_isdigit (hnumber c mem_cons_self)) more hrest.stops
    have hdefined : definedToken (92 :: (c :: more ++ rest)) =
        if (c :: more ++ rest).takeWhile isdigit = [] then
          .raise (.invalidFormatException "substitute" "missing id")
        else
          .ok (.expression (.definedValue (UInt32.ofInt (strtol 0 (c :: more ++ rest)).1)),
            (c :: more ++ rest).dropWhile isdigit) := rfl
    have hskip : definedToken (blanks ++ 92 :: (c :: more ++ rest)) =
        definedToken (92 :: (c :: more ++ rest)) := by
      rw [definedToken, definedToken, dropWhile_blanks hblanks]
    rw [append_assoc, append_assoc, cons_append,
      parseNextToken_defined hdelimits, hskip, hdefined, htake, hdrop, hread, if_neg digits]
    rfl

/-- A unary operator is taken where an operand is expected. -/
theorem parseNextToken_unary {op : UnaryOperator} (hopens : Opens text)
    (apart : op = .not ∨ text.head?.any isdigit = false) :
    parseNextToken (op.spelling ++ text) .expression = .ok (unaryToken op.operation, text) := by
  obtain ⟨c, rest, rfl, hc⟩ := hopens
  have hne : c ≠ 61 := by
    rintro rfl
    exact hc mem_cons_self
  cases op with
  | plus =>
    have hdigit : isdigit c = false := by simpa using apart
    show signToken .expression .binPlus .unPlus (c :: rest) (c :: rest) = _
    simp [signToken, hdigit, UnaryOperator.operation]
  | minus =>
    have hdigit : isdigit c = false := by simpa using apart
    show signToken .expression .binMinus .unMinus (45 :: c :: rest) (c :: rest) = _
    simp [signToken, hdigit, UnaryOperator.operation]
  | not =>
    show (if (c :: rest).head? = some 61 then
        binaryOperator .expression .binNonEq "binary operator =" "missing left operand"
          ((c :: rest).drop 1)
      else if ParserState.expression = .expression then .ok (unaryToken .unNot, c :: rest)
      else .raise (.invalidFormatException "unary operator !" "unexpected left operand")) = _
    simp [hne, UnaryOperator.operation]

/-- A binary operator is taken whole behind an operand. -/
theorem parseNextToken_binary (op : BinaryOperator) (hopens : Opens text) :
    parseNextToken (op.spelling ++ text) .binOperator =
      .ok (binaryToken op.operation, text) := by
  obtain ⟨c, rest, rfl, hc⟩ := hopens
  simp only [mem_cons, not_mem_nil, or_false, not_or] at hc
  obtain ⟨h61, h60, h62, h38, h124, h94⟩ := hc
  cases op <;>
    simp [parseNextToken, BinaryOperator.spelling, ascii, isspace, signToken, binaryOperator,
      BinaryOperator.operation, h61, h60, h62, h38, h124, h94]

end IntEvaluator

end Drt
