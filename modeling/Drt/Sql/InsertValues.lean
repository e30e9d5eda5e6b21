import Drt.Core.Base.Exception
import Drt.Core.Struct.SArray
import Drt.Core.Types.DrString
import Drt.Lib.Completes

/-!
# The scanner of INSERT statements

`getNextValues` takes the next tuple of a VALUES list apart. It looks at one octet after
another and takes the zero behind the last one for the end; a zero elsewhere is an octet
like others. Every look at an octet happens at the end of the line or before it.
-/

namespace Drt

open Outcome

/-- `line[pos]`: the terminator stands behind the last octet, and nothing behind it. -/
def lineAt (line : Blob) (pos : Nat) : Call UInt8 :=
  if pos = line.length then .ok 0 else .ofOption (line)[pos]?

/-- What `getNextValues` gives for a tuple: its text and the texts of its columns. -/
structure InsertTuple where
  ins_string : Blob
  values : List Blob
  deriving DecidableEq, Repr

namespace QueueManager

/-- The exceptions of `getNextValues`. -/
def invalidInsert (value : String) : Exception := .invalidFormatException "INSERT" value

def missingLeft : Exception := invalidInsert "missing left parenthesis"

def missingParenthesis : Exception := invalidInsert "missing right parenthesis"

def missingApostrophe : Exception := invalidInsert "missing closing apostrophe"

def notFinished : Exception := invalidInsert "line not finished with ;\\n"

/-- The loop over a quoted string: the place behind the apostrophe that ends it. -/
def skipQuoted (line : Blob) : Nat → Nat → Call Nat
  | 0, _ => .outOfFuel
  | fuel + 1, pos => do
    let c ← lineAt line pos
    if c = 39 then .ok (pos + 1)
    else if c = 92 then
      -- the octet behind a backslash is passed with it, without a look at it
      if pos + 1 = line.length then .raise missingApostrophe
      else skipQuoted line fuel (pos + 2)
    else if c = 0 ∧ pos = line.length then
      .raise missingApostrophe
    else skipQuoted line fuel (pos + 1)

/-- The loop over a column: the place of its end, and whether it is the last one. -/
def columnEnd (line : Blob) : Nat → Nat → Call (Nat × Bool)
  | 0, _ => .outOfFuel
  | fuel + 1, pos => do
    let c ← lineAt line pos
    if c = 44 then .ok (pos, false)
    else if c = 41 then .ok (pos, true)
    else if c = 39 then
      let pos ← skipQuoted line fuel (pos + 1)
      columnEnd line fuel pos
    else if c = 0 ∧ pos = line.length then
      .raise missingParenthesis
    else columnEnd line fuel (pos + 1)

/-- The loop over the columns: all of them, and the place behind the parenthesis. -/
def readColumns (line : Blob) : Nat → Nat → List Blob → Call (List Blob × Nat)
  | 0, _, _ => .outOfFuel
  | fuel + 1, spos, values => do
    let (pos, finished) ← columnEnd line fuel spos
    let values := SArray.append 8 values ((line.drop spos).take (pos - spos))
    if finished then .ok (values, pos + 1) else readColumns line fuel (pos + 1) values

/-- `getNextValues`: the tuple at `pos` and the place of the next one, or `none` for -1. -/
def getNextValues (line : Blob) (fuel pos : Nat) : Call (Option (InsertTuple × Nat)) := do
  let c ← lineAt line pos
  if c = 59 then
    if pos + 1 = line.length then .ok none
    else
      let c ← lineAt line (pos + 1)
      if c ≠ 10 ∨ pos + 2 ≠ line.length then
        .raise notFinished
      else .ok none
  else if c = 40 then
    let (values, fin) ← readColumns line fuel (pos + 1) []
    let ins_string := (line.drop pos).take (fin - pos)
    let c ← lineAt line fin
    .ok (some (⟨ins_string, values⟩, if c = 44 then fin + 1 else fin))
  else .raise missingLeft

/-- One call after another, up to the first -1: the tuples. -/
def allValues (line : Blob) : Nat → Nat → Call (List InsertTuple)
  | 0, _ => .outOfFuel
  | fuel + 1, pos => do
    match ← getNextValues line fuel pos with
    | none => .ok []
    | some (tuple, pos) =>
      let tuples ← allValues line fuel pos
      .ok (tuple :: tuples)

section Safety

/-- Up to the terminator there is an octet to look at; only the terminator is at the end. -/
theorem exists_lineAt {line : Blob} {pos : Nat} (h : pos ≤ line.length) :
    ∃ c, lineAt line pos = .ok c ∧ (c ≠ 0 → pos < line.length) := by
  unfold lineAt
  by_cases hpos : pos = line.length
  · rw [if_pos hpos]
    exact ⟨0, rfl, fun hc => absurd rfl hc⟩
  · rw [if_neg hpos, List.getElem?_eq_getElem (by omega)]
    exact ⟨_, rfl, fun _ => by omega⟩

/-- An octet that is not taken for the end of the line stands before it. -/
theorem lt_of_not_end {line : Blob} {pos : Nat} {c : UInt8} (h : pos ≤ line.length)
    (hlt : c ≠ 0 → pos < line.length) (hend : ¬ (c = 0 ∧ pos = line.length)) :
    pos < line.length := by
  by_cases hzero : c = 0
  · have hne : pos ≠ line.length := fun heq => hend ⟨hzero, heq⟩
    omega
  · exact hlt hzero

/-- A quoted string is passed, or its end is missing. -/
theorem completes_skipQuoted (line : Blob) (pos : Nat) (h : pos ≤ line.length) :
    Completes (fun fuel => skipQuoted line fuel pos) fun fin => pos < fin ∧ fin ≤ line.length := by
  obtain ⟨c, hc, hlt⟩ := exists_lineAt h
  by_cases hquote : c = 39
  · have hpos := hlt (by rw [hquote]; decide)
    refine Completes.of_succ (Completes.ok (a := pos + 1) ⟨by omega, by omega⟩) fun fuel => ?_
    rw [skipQuoted, hc, ok_bind, if_pos hquote]
  · by_cases hback : c = 92
    · have hpos := hlt (by rw [hback]; decide)
      by_cases hend : pos + 1 = line.length
      · refine Completes.of_succ (Completes.raise _ missingApostrophe) fun fuel => ?_
        rw [skipQuoted, hc, ok_bind, if_neg hquote, if_pos hback, if_pos hend]
      · have hnext := completes_skipQuoted line (pos + 2) (by omega)
        refine Completes.of_succ (hnext.imp fun fin hfin => ⟨by omega, hfin.2⟩) fun fuel => ?_
        rw [skipQuoted, hc, ok_bind, if_neg hquote, if_pos hback, if_neg hend]
    · by_cases hend : c = 0 ∧ pos = line.length
      · refine Completes.of_succ (Completes.raise _ missingApostrophe) fun fuel => ?_
        rw [skipQuoted, hc, ok_bind, if_neg hquote, if_neg hback, if_pos hend]
      · have hpos := lt_of_not_end h hlt hend
        have hnext := completes_skipQuoted line (pos + 1) (by omega)
        refine Completes.of_succ (hnext.imp fun fin hfin => ⟨by omega, hfin.2⟩) fun fuel => ?_
        rw [skipQuoted, hc, ok_bind, if_neg hquote, if_neg hback, if_neg hend]
termination_by line.length - pos

/-- A column ends at a comma or a parenthesis of the line, or the parenthesis is missing. -/
theorem completes_columnEnd (line : Blob) (pos : Nat) (h : pos ≤ line.length) :
    Completes (fun fuel => columnEnd line fuel pos) fun r => pos ≤ r.1 ∧ r.1 < line.length := by
  obtain ⟨c, hc, hlt⟩ := exists_lineAt h
  by_cases hcomma : c = 44
  · have hpos := hlt (by rw [hcomma]; decide)
    refine Completes.of_succ (Completes.ok (a := (pos, false)) ⟨le_refl _, hpos⟩) fun fuel => ?_
    rw [columnEnd, hc, ok_bind, if_pos hcomma]
  · by_cases hparen : c = 41
    · have hpos := hlt (by rw [hparen]; decide)
      refine Completes.of_succ (Completes.ok (a := (pos, true)) ⟨le_refl _, hpos⟩) fun fuel => ?_
      rw [columnEnd, hc, ok_bind, if_neg hcomma, if_pos hparen]
    · by_cases hquote : c = 39
      · have hpos := hlt (by rw [hquote]; decide)
        have hpass : ∀ fuel, columnEnd line (fuel + 1) pos =
            skipQuoted line fuel (pos + 1) >>= fun fin => columnEnd line fuel fin := fun fuel => by
          rw [columnEnd, hc, ok_bind, if_neg hcomma, if_neg hparen, if_pos hquote]
        have hquoted := completes_skipQuoted line (pos + 1) (by omega)
        refine (hquoted.bind fun fin hfin => ?_).of_succ hpass
        exact (completes_columnEnd line fin hfin.2).imp fun r hr => ⟨by omega, hr.2⟩
      · by_cases hend : c = 0 ∧ pos = line.length
        · refine Completes.of_succ (Completes.raise _ missingParenthesis) fun fuel => ?_
          rw [columnEnd, hc, ok_bind, if_neg hcomma, if_neg hparen, if_neg hquote, if_pos hend]
        · have hpos := lt_of_not_end h hlt hend
          have hnext := completes_columnEnd line (pos + 1) (by omega)
          refine Completes.of_succ (hnext.imp fun r hr => ⟨by omega, hr.2⟩) fun fuel => ?_
          rw [columnEnd, hc, ok_bind, if_neg hcomma, if_neg hparen, if_neg hquote, if_neg hend]
termination_by line.length - pos

/-- The columns of a tuple are passed. -/
theorem completes_readColumns (line : Blob) (spos : Nat) (values : List Blob)
    (h : spos ≤ line.length) :
    Completes (fun fuel => readColumns line fuel spos values)
      fun r => spos < r.2 ∧ r.2 ≤ line.length := by
  refine Completes.of_succ ((completes_columnEnd line spos h).bind fun r hr => ?_) fun fuel => rfl
  obtain ⟨pos, finished⟩ := r
  cases finished with
  | true => exact Completes.ok ⟨Nat.lt_succ_of_le hr.1, hr.2⟩
  | false =>
    have hnext := completes_readColumns line (pos + 1)
      (SArray.append 8 values ((line.drop spos).take (pos - spos))) hr.2
    exact hnext.imp fun r' hr' => ⟨by have := hr.1; omega, hr'.2⟩
termination_by line.length - spos
decreasing_by
  have := hr.1
  have := hr.2
  omega

/-- A call ends, and the next one starts further on. -/
theorem completes_getNextValues (line : Blob) (pos : Nat) (h : pos ≤ line.length) :
    Completes (fun fuel => getNextValues line fuel pos)
      fun r => ∀ tuple next, r = some (tuple, next) → pos < next ∧ next ≤ line.length := by
  obtain ⟨c, hc, hlt⟩ := exists_lineAt h
  by_cases hsemi : c = 59
  · have hpos := hlt (by rw [hsemi]; decide)
    by_cases hend : pos + 1 = line.length
    · refine (Completes.ok (a := none) (by simp)).congr fun fuel => ?_
      rw [getNextValues, hc, ok_bind, if_pos hsemi, if_pos hend]
    · have hpos' : pos + 1 ≤ line.length := by omega
      obtain ⟨c', hc', -⟩ := exists_lineAt hpos'
      by_cases hnewline : c' ≠ 10 ∨ pos + 2 ≠ line.length
      · refine (Completes.raise _ notFinished).congr fun fuel => ?_
        rw [getNextValues, hc, ok_bind, if_pos hsemi, if_neg hend, hc', ok_bind, if_pos hnewline]
      · refine (Completes.ok (a := none) (by simp)).congr fun fuel => ?_
        rw [getNextValues, hc, ok_bind, if_pos hsemi, if_neg hend, hc', ok_bind, if_neg hnewline]
  · by_cases hparen : c = 40
    · have hpos := hlt (by rw [hparen]; decide)
      have hcall : ∀ fuel, getNextValues line fuel pos = readColumns line fuel (pos + 1) [] >>= _ :=
        fun fuel => by rw [getNextValues, hc, ok_bind, if_neg hsemi, if_pos hparen]
      refine ((completes_readColumns line (pos + 1) [] (by omega)).bind fun r hr => ?_).congr hcall
      obtain ⟨values, fin⟩ := r
      obtain ⟨c', hc', hlt'⟩ := exists_lineAt hr.2
      simp only [hc', ok_bind]
      refine Completes.ok ?_
      rintro tuple next heq
      obtain ⟨-, rfl⟩ := Prod.mk.inj (Option.some.inj heq)
      have hbound := hr.1
      by_cases hcomma : c' = 44
      · have hfin := hlt' (by rw [hcomma]; decide)
        rw [if_pos hcomma]
        simp only at hbound hfin ⊢
        omega
      · rw [if_neg hcomma]
        simp only at hbound ⊢
        omega
    · refine (Completes.raise _ missingLeft).congr fun fuel => ?_
      rw [getNextValues, hc, ok_bind, if_neg hsemi, if_neg hparen]

/-- Whatever the line, the calls come to an end and no look goes beyond the terminator. -/
theorem completes_allValues (line : Blob) (pos : Nat) (h : pos ≤ line.length) :
    Completes (fun fuel => allValues line fuel pos) fun _ => True := by
  refine Completes.of_succ ((completes_getNextValues line pos h).bind fun r hr => ?_)
    fun fuel => rfl
  cases r with
  | none => exact Completes.ok trivial
  | some r =>
    obtain ⟨tuple, next⟩ := r
    obtain ⟨hlt, hle⟩ := hr tuple next rfl
    exact (completes_allValues line next hle).bind fun _ _ => Completes.ok trivial
termination_by line.length - pos

end Safety

end QueueManager

end Drt
