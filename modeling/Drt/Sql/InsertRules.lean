import Drt.Core.Eval.IntSafety
import Drt.Core.Struct.SArray

/-!
# Rules on the columns of a tuple

A rule of a table is an integer expression over the columns of a tuple. What it sees of a
column depends on its first character: behind a digit `strtoll` reads as far as it can,
NULL is zero, and everything else, a negative number too, is not bound.
-/

namespace Drt

open Outcome IntEvaluator Evaluator

/-- An `IntEvaluator`: all operators of its tree have their operands. -/
abbrev Rule := {tree : Expression // tree.Whole}

namespace QueueManager

/-- The value that a column is bound to. -/
def columnValue (text : Blob) : Option Int64 :=
  if text.head?.any isdigit then some (Int64.ofInt (strtol 10 text).1)
  else if text = Drt.ascii "NULL" then some 0
  else none

/-- The loop over the columns from place `i` on. -/
def bindFrom : Nat → List Blob → (UInt32 → Option Int64) → UInt32 → Option Int64
  | _, [], vals => vals
  | i, text :: texts, vals =>
    bindFrom (i + 1) texts
      (match columnValue text with
        | some v => Function.update vals (UInt32.ofNat i) (some v)
        | none => vals)

/-- The values that rules are evaluated with. -/
def boundValues (values : List Blob) : UInt32 → Option Int64 := bindFrom 0 values fun _ => none

/-- The loop over the rules: whether there is one with a value that is not zero. A rule that
raises an exception is passed. -/
def anyRule (constants : Blob → Option Int64) (vals : UInt32 → Option Int64) :
    List Rule → Call Bool
  | [] => .ok false
  | rule :: rules =>
    match evaluate (argumentsHash constants vals) rule.val with
    | .ok v => if v ≠ 0 then .ok true else anyRule constants vals rules
    | .raise _ => anyRule constants vals rules
    | .fault => .fault
    | .outOfFuel => .outOfFuel

section Columns

/-- Digits, one at least. -/
def Digits (text : Blob) : Prop := text ≠ [] ∧ ∀ c ∈ text, isdigit c = true

instance (text : Blob) : Decidable (Digits text) := inferInstanceAs (Decidable (_ ∧ _))

/-- The integer a text denotes: digits, or a minus and digits. -/
def integerOf (text : Blob) : Option Int :=
  if Digits text then some (numeral 10 text)
  else if text.head? = some 45 ∧ Digits text.tail then some (-(numeral 10 text.tail : Nat))
  else none

/-- The value a column has to be bound to: an integer of 64 bits to itself, and NULL to zero. -/
def dueValue (text : Blob) : Option Int64 :=
  if text = Drt.ascii "NULL" then some 0
  else
    (integerOf text).bind fun n =>
      if -2 ^ 63 ≤ n ∧ n < 2 ^ 63 then some (Int64.ofInt n) else none

/-- The values of the columns as they have to be. -/
def dueValues (texts : List Blob) (i : UInt32) : Option Int64 := (texts)[i.toNat]?.bind dueValue

/-- A column that starts with a digit is an integer below `2 ^ 63`, and another one is no negative
integer of 64 bits. -/
def ReadRight (text : Blob) : Prop :=
  (text.head?.any isdigit = true → Digits text ∧ numeral 10 text < 2 ^ 63) ∧
    (text.head? = some 45 → Digits text.tail → 2 ^ 63 < numeral 10 text.tail)

variable {text : Blob}

/-- Behind a digit, `strtoll` reads all digits that follow. -/
theorem strtol_leading {c : UInt8} (hc : isdigit c = true) (rest : Blob) :
    (strtol 10 (c :: rest)).1 = clampLong (numeral 10 (digitRun 10 (c :: rest)) : Nat) := by
  have hrun : digitRun 10 (c :: rest) ≠ [] := by
    rw [digitRun, List.takeWhile_cons, if_pos (decide_eq_true (digitValue_lt_ten_iff.mpr hc))]
    exact List.cons_ne_nil _ _
  have hread : strtolUnsigned 10 (c :: rest) =
      some (numeral 10 (digitRun 10 (c :: rest)), 0 + (digitRun 10 (c :: rest)).length) := by
    rw [strtolUnsigned]
    simp only [Nat.reduceEqDiff, or_self, false_and, if_false, List.drop_zero]
    exact if_neg hrun
  rw [strtol_digit 10 (digitValue_of_isdigit hc), hread]

theorem digitRun_digits (h : Digits text) : digitRun 10 text = text := by
  rw [digitRun, List.takeWhile_eq_self_iff]
  exact fun c hc => decide_eq_true (digitValue_lt_ten_iff.mpr (h.2 c hc))

theorem columnValue_digits (h : Digits text) :
    columnValue text = some (Int64.ofInt (clampLong (numeral 10 text : Nat))) := by
  obtain ⟨c, rest, rfl⟩ := List.exists_cons_of_ne_nil h.1
  have hc := h.2 c List.mem_cons_self
  have hhead : (c :: rest).head?.any isdigit = true := hc
  rw [columnValue, if_pos hhead, strtol_leading hc, digitRun_digits h]

/-- A text that starts with a digit is neither NULL nor behind a minus. -/
theorem dueValue_digit {c : UInt8} {rest : Blob} (hc : isdigit c = true) :
    dueValue (c :: rest) = if Digits (c :: rest) ∧ numeral 10 (c :: rest) < 2 ^ 63 then
      some (Int64.ofInt (numeral 10 (c :: rest) : Nat)) else none := by
  have hnull : c :: rest ≠ Drt.ascii "NULL" := by
    intro heq
    obtain ⟨rfl, -⟩ := List.cons.inj heq
    exact absurd hc (by decide)
  have hminus : ¬ ((c :: rest).head? = some 45 ∧ Digits (c :: rest).tail) := by
    rintro ⟨heq, -⟩
    obtain rfl := Option.some.inj heq
    exact absurd hc (by decide)
  rw [dueValue, if_neg hnull, integerOf, if_neg hminus]
  by_cases hdigits : Digits (c :: rest)
  · rw [if_pos hdigits, Option.bind_some]
    by_cases hlt : numeral 10 (c :: rest) < 2 ^ 63
    · have hfits : -2 ^ 63 ≤ ((numeral 10 (c :: rest) : Nat) : Int) ∧
          ((numeral 10 (c :: rest) : Nat) : Int) < 2 ^ 63 := by omega
      rw [if_pos hfits, if_pos ⟨hdigits, hlt⟩]
    · have hfits : ¬ (-2 ^ 63 ≤ ((numeral 10 (c :: rest) : Nat) : Int) ∧
          ((numeral 10 (c :: rest) : Nat) : Int) < 2 ^ 63) := by omega
      rw [if_neg hfits, if_neg fun h => hlt h.2]
  · rw [if_neg hdigits, if_neg (fun h => hdigits h.1), Option.bind_none]

/-- A text that does not start with a digit is due to be bound if it is NULL or a negative
integer. -/
theorem dueValue_other (h : text.head?.any isdigit = false) (hnull : text ≠ Drt.ascii "NULL") :
    dueValue text = none ↔
      (text.head? = some 45 → Digits text.tail → 2 ^ 63 < numeral 10 text.tail) := by
  have hdigits : ¬ Digits text := by
    rintro ⟨hne, hall⟩
    obtain ⟨c, rest, rfl⟩ := List.exists_cons_of_ne_nil hne
    rw [List.head?_cons, Option.any_some, hall c List.mem_cons_self] at h
    cases h
  rw [dueValue, if_neg hnull, integerOf, if_neg hdigits]
  by_cases hminus : text.head? = some 45 ∧ Digits text.tail
  · rw [if_pos hminus, Option.bind_some, forall_prop_of_true hminus.1, forall_prop_of_true hminus.2]
    by_cases hlt : 2 ^ 63 < numeral 10 text.tail
    · rw [if_neg (by omega)]
      exact iff_of_true rfl hlt
    · rw [if_pos (by omega)]
      exact iff_of_false (Option.some_ne_none _) hlt
  · rw [if_neg hminus, Option.bind_none]
    exact iff_of_true rfl fun hhead htail => absurd ⟨hhead, htail⟩ hminus

/-- A column is bound to its value exactly when it is read right. -/
theorem columnValue_eq_iff (text : Blob) : columnValue text = dueValue text ↔ ReadRight text := by
  by_cases hhead : text.head?.any isdigit = true
  · obtain ⟨c, rest, rfl⟩ : ∃ c rest, text = c :: rest := by
      cases text with
      | nil => cases hhead
      | cons c rest => exact ⟨c, rest, rfl⟩
    have hc : isdigit c = true := hhead
    have hsecond : (c :: rest).head? = some 45 → Digits (c :: rest).tail →
        2 ^ 63 < numeral 10 (c :: rest).tail := by
      intro heq
      obtain rfl := Option.some.inj heq
      exact absurd hc (by decide)
    rw [ReadRight, forall_prop_of_true hhead, and_iff_left hsecond, dueValue_digit hc]
    by_cases hright : Digits (c :: rest) ∧ numeral 10 (c :: rest) < 2 ^ 63
    · have hclamp : clampLong (numeral 10 (c :: rest) : Nat) = (numeral 10 (c :: rest) : Nat) := by
        rw [clampLong]
        omega
      rw [if_pos hright, columnValue_digits hright.1, hclamp]
      exact iff_of_true rfl hright
    · rw [if_neg hright, columnValue, if_pos hhead]
      exact iff_of_false (Option.some_ne_none _) hright
  · rw [Bool.not_eq_true] at hhead
    have hfirst : text.head?.any isdigit = true → Digits text ∧ numeral 10 text < 2 ^ 63 := by
      rw [hhead]
      intro h
      cases h
    rw [ReadRight, and_iff_right hfirst, columnValue, hhead]
    by_cases hnull : text = Drt.ascii "NULL"
    · subst hnull
      refine iff_of_true rfl fun heq => ?_
      exact absurd heq (by decide)
    · rw [if_neg Bool.false_ne_true, if_neg hnull, eq_comm]
      exact dueValue_other hhead hnull

end Columns

section Values

/-- What the loop over the columns leaves at a place. -/
theorem bindFrom_apply (i : Nat) (texts : List Blob) (h : i + texts.length ≤ 2 ^ 32)
    (vals : UInt32 → Option Int64) (k : UInt32) :
    bindFrom i texts vals k =
      (if i ≤ k.toNat then (texts)[k.toNat - i]?.bind columnValue else none).or (vals k) := by
  induction texts generalizing i vals with
  | nil => simp [bindFrom]
  | cons text texts ih =>
    rw [List.length_cons] at h
    rw [bindFrom, ih (i + 1) (by omega)]
    have hplace : (UInt32.ofNat i).toNat = i :=
      UInt32.toNat_ofNat_of_lt' (by simp only [UInt32.size]; omega)
    obtain hlt | heq | hgt := Nat.lt_trichotomy i k.toNat
    · obtain ⟨n, hn⟩ : ∃ n, k.toNat - i = n + 1 := ⟨k.toNat - i - 1, by omega⟩
      have hrest : k.toNat - (i + 1) = n := by omega
      have hne : k ≠ UInt32.ofNat i := by
        rintro rfl
        omega
      rw [if_pos (by omega), if_pos hlt.le, hn, hrest, List.getElem?_cons_succ]
      cases columnValue text with
      | none => rfl
      | some v => simp only [Function.update_of_ne hne]
    · have hk : UInt32.ofNat i = k := UInt32.toNat_inj.mp (by rw [hplace, heq])
      rw [if_neg (by omega), if_pos heq.le, hk, ← heq, Nat.sub_self, List.getElem?_cons_zero,
        Option.bind_some, Option.none_or]
      cases columnValue text with
      | none => rw [Option.none_or]
      | some v => simp only [Function.update_self, Option.some_or]
    · have hne : k ≠ UInt32.ofNat i := by
        rintro rfl
        omega
      rw [if_neg (by omega), if_neg (by omega), Option.none_or, Option.none_or]
      cases columnValue text with
      | none => rfl
      | some v => simp only [Function.update_of_ne hne]

theorem boundValues_apply {values : List Blob} (h : values.length ≤ 2 ^ 32) (k : UInt32) :
    boundValues values k = (values)[k.toNat]?.bind columnValue := by
  rw [boundValues, bindFrom_apply 0 values (by omega), if_pos (Nat.zero_le _), Nat.sub_zero,
    Option.or_none]

/-- The columns are bound as they have to be exactly when each of them is read right. -/
theorem boundValues_eq_iff {texts : List Blob} (h : texts.length ≤ 2 ^ 32) :
    boundValues texts = dueValues texts ↔ ∀ text ∈ texts, ReadRight text := by
  constructor
  · intro heq text hmem
    obtain ⟨i, hi, rfl⟩ := List.getElem_of_mem hmem
    have hplace : (UInt32.ofNat i).toNat = i :=
      UInt32.toNat_ofNat_of_lt' (by simp only [UInt32.size]; omega)
    have hvalue := congrFun heq (UInt32.ofNat i)
    rw [boundValues_apply h, dueValues, hplace, List.getElem?_eq_getElem hi] at hvalue
    exact (columnValue_eq_iff _).mp hvalue
  · intro hright
    ext1 k
    rw [boundValues_apply h, dueValues]
    cases htext : (texts)[k.toNat]? with
    | none => rfl
    | some text =>
      exact (columnValue_eq_iff text).mpr (hright text (List.mem_of_getElem? htext))

end Values

section Rules

variable (constants : Blob → Option Int64) (values : UInt32 → Option Int64)

/-- The rule has a value with these columns, and not zero. -/
def Fires (rule : Rule) : Prop :=
  rule.val.Defined constants values ∧ ∃ v, rule.val.meaning constants values = some v ∧ v ≠ 0

/-- Some rule selects the tuple with these columns. -/
def Selected (rules : List Rule) : Prop := ∃ rule ∈ rules, Fires constants values rule

/-- Up to the first rule that fires, the rules come to no undefined operation. -/
def Answered : List Rule → Prop
  | [] => True
  | rule :: rules =>
    rule.val.Defined constants values ∧ (¬ Fires constants values rule → Answered rules)

variable {constants values}

theorem selected_cons {rule : Rule} {rules : List Rule} :
    Selected constants values (rule :: rules) ↔
      Fires constants values rule ∨ Selected constants values rules := by
  simp [Selected]

/-- The loop over the rules says whether one of them fires, or comes to an undefined
operation. -/
theorem anyRule_spec (rules : List Rule) :
    (Answered constants values rules ∧ ∃ b, anyRule constants values rules = .ok b ∧
        (b = true ↔ Selected constants values rules)) ∨
      (¬ Answered constants values rules ∧ anyRule constants values rules = .fault) := by
  induction rules with
  | nil => exact .inl ⟨trivial, false, rfl, by simp [Selected]⟩
  | cons rule rules ih =>
    -- a rule that does not fire leaves the answer to the others
    have hpass (hdefined : rule.val.Defined constants values) (hnot : ¬ Fires constants values rule)
        (heq : anyRule constants values (rule :: rules) = anyRule constants values rules) :
        (Answered constants values (rule :: rules) ∧
          ∃ b, anyRule constants values (rule :: rules) = .ok b ∧
            (b = true ↔ Selected constants values (rule :: rules))) ∨
        (¬ Answered constants values (rule :: rules) ∧
          anyRule constants values (rule :: rules) = .fault) := by
      rw [Answered, heq, and_iff_right hdefined, forall_prop_of_true hnot, selected_cons,
        or_iff_right hnot]
      exact ih
    obtain ⟨hdefined, hagrees⟩ | ⟨hnot, hfault⟩ := follows_evaluate constants values rule.property
    · cases hmeaning : rule.val.meaning constants values with
      | none =>
        rw [hmeaning] at hagrees
        obtain ⟨e, hraise⟩ := hagrees
        refine hpass hdefined ?_ (by rw [anyRule, hraise])
        rintro ⟨-, v, hv, -⟩
        rw [hmeaning] at hv
        cases hv
      | some v =>
        rw [hmeaning] at hagrees
        have hok : evaluate (argumentsHash constants values) rule.val = .ok v := hagrees
        by_cases hzero : v = 0
        · refine hpass hdefined ?_ (by rw [anyRule, hok]; exact if_neg (not_not.mpr hzero))
          rintro ⟨-, w, hw, hne⟩
          rw [hmeaning] at hw
          exact hne ((Option.some.inj hw).symm.trans hzero)
        · have hfires : Fires constants values rule := ⟨hdefined, v, hmeaning, hzero⟩
          refine .inl ⟨⟨hdefined, fun h => absurd hfires h⟩, true, ?_, ?_⟩
          · rw [anyRule, hok]
            exact if_pos hzero
          · exact iff_of_true rfl (selected_cons.mpr (.inl hfires))
    · exact .inr ⟨fun h => hnot h.1, by rw [anyRule, hfault]⟩

/-- The rule `\i == v`. -/
def columnIs (i : UInt32) (v : Int64) : Rule :=
  ⟨.binaryFull .binEqual (.value i) (.direct v), trivial, trivial⟩

example : expressionTree 4 (.bytes (Drt.ascii "\\0 == -5")) = .ok (columnIs 0 (-5)).val := by
  decide

/-- It fires when the column is bound to the value. -/
theorem fires_columnIs (i : UInt32) (v : Int64) :
    Fires constants values (columnIs i v) ↔ values i = some v := by
  have hdefined : (columnIs i v).val.Defined constants values :=
    ⟨trivial, fun _ _ => ⟨trivial, fun _ _ => trivial⟩⟩
  have hmeaning : (columnIs i v).val.meaning constants values =
      (values i).map fun l => ofBool (l = v) := by
    cases h : values i with
    | none => simp [columnIs, Expression.meaning, h]
    | some l => simp [columnIs, Expression.meaning, h, Operation.ofTwo]
  rw [Fires, and_iff_right hdefined, hmeaning]
  cases values i with
  | none => simp
  | some l => by_cases hlv : l = v <;> simp [ofBool, hlv]

/-- Whatever the rules are, they select alike exactly when the columns are bound alike. -/
theorem selected_alike_iff {values values' : UInt32 → Option Int64} :
    (∀ (constants : Blob → Option Int64) (rules : List Rule),
        Selected constants values rules ↔ Selected constants values' rules) ↔
      values = values' := by
  constructor
  · intro h
    ext i v
    have hrule := h (fun _ => none) [columnIs i v]
    simpa only [Selected, List.mem_singleton, exists_eq_left, fires_columnIs] using hrule
  · rintro rfl constants rules
    exact Iff.rfl

end Rules

end QueueManager

end Drt
