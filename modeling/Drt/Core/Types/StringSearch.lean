import Drt.Core.Types.StrData
import Drt.Lib.Occurrences
import Mathlib.Tactic.Ring

/-!
# Looking for a string from behind

`String_c::rfind` compares the searched string with the characters at a place, from the
place before `before_pos` down. Where the searched string would not end in this one, it
starts at the last place where it would, and goes down from there before it compares.
-/

namespace Drt

namespace StrData

open List

variable {c : CharSize}

/-- `peq` with the characters of a string from a place on. -/
def peq (text search : List (StrChar c)) (pos : Nat) : Call Bool :=
  if pos + search.length ≤ text.length then
    .ok (decide ((text.drop pos).take search.length = search))
  else .fault

/-- The loop of `rfind`, from a place that is not negative as a `ssize_t`. -/
def rfindLoop (text search : List (StrChar c)) : Nat → Call Int
  | 0 => .ok (-1)
  | before_pos + 1 => do
    if ← peq text search before_pos then .ok before_pos else rfindLoop text search before_pos

/-- `rfind`. The difference of the sizes wraps around. -/
def rfind (d search : StrData c) (before_pos : UInt64) : Call Int :=
  let last := UInt64.ofNat d.size - UInt64.ofNat search.size
  if before_pos > last ∧ last.toInt64 < 0 then .ok (-1)
  else
    let before_pos := if before_pos > last then last else before_pos
    -- the first pass of the loop
    if (before_pos - 1).toInt64 < 0 then .ok (before_pos - 1).toInt64.toInt
    else rfindLoop d.content search.content before_pos.toNat

/-- The place is the last one before `before` where the searched string matches, or -1. -/
def LastBefore (text search : List (StrChar c)) (before : Nat) (place : Int) : Prop :=
  (∃ p : Nat, place = p ∧ p < before ∧ MatchesAt search text p ∧
    ∀ q, p < q → q < before → ¬ MatchesAt search text q) ∨
  place = -1 ∧ ∀ q < before, ¬ MatchesAt search text q

/-- `rfind` returns the last place, and compares no characters outside the string. -/
def FindsLast (d search : StrData c) (before_pos : UInt64) : Prop :=
  ∃ place, d.rfind search before_pos = .ok place ∧
    LastBefore d.content search.content before_pos.toNat place

/-- A searched string that is no longer is not looked for at the end of this one, or is not there.
A longer one is looked for before nothing, or before a place that the difference of the sizes is
below. -/
def Findable (d search : StrData c) (before_pos : UInt64) : Prop :=
  if search.size ≤ d.size then
    before_pos.toNat ≤ d.size - search.size ∨ ¬ search.content <:+ d.content
  else before_pos = 0 ∨ 2 ^ 64 - (search.size - d.size) < before_pos.toNat

theorem toInt_toInt64 (x : UInt64) :
    x.toInt64.toInt = if x.toNat < 2 ^ 63 then (x.toNat : Int) else x.toNat - (2 ^ 64 : Nat) := by
  change x.toBitVec.toInt = _
  rw [BitVec.toInt_eq_toNat_cond]
  change (if 2 * x.toNat < 2 ^ 64 then (x.toNat : Int) else x.toNat - (2 ^ 64 : Nat)) = _
  split_ifs <;> omega

theorem toInt64_neg_iff (x : UInt64) : x.toInt64 < 0 ↔ 2 ^ 63 ≤ x.toNat := by
  rw [Int64.lt_iff_toInt_lt, toInt_toInt64]
  have := x.toNat_lt
  split_ifs <;> simp <;> omega

section Loop

variable {text search : List (StrChar c)}

/-- The comparison tells a match, at places where the searched string ends in the string. -/
theorem peq_eq {pos : Nat} (h : pos + search.length ≤ text.length) :
    peq text search pos = .ok (decide (MatchesAt search text pos)) := by
  rw [peq, if_pos h]
  congr 1
  rw [decide_eq_decide, matchesAt_iff, and_iff_right h]

/-- The loop finds the last place. -/
theorem rfindLoop_spec {before : Nat} (h : before + search.length ≤ text.length + 1) :
    ∃ place, rfindLoop text search before = .ok place ∧ LastBefore text search before place := by
  induction before with
  | zero => exact ⟨-1, rfl, .inr ⟨rfl, fun q hq => absurd hq (Nat.not_lt_zero q)⟩⟩
  | succ before ih =>
    rw [rfindLoop, peq_eq (by omega), Outcome.ok_bind]
    by_cases hmatch : MatchesAt search text before
    · refine ⟨before, if_pos (decide_eq_true hmatch), .inl ⟨before, rfl, Nat.lt_succ_self _,
        hmatch, fun q hq hq' => ?_⟩⟩
      omega
    · obtain ⟨place, hplace, hlast⟩ := ih (by omega)
      refine ⟨place, by rw [decide_eq_false hmatch]; exact hplace, ?_⟩
      have hstep : ∀ q, ¬ MatchesAt search text q ∨ q < before ∨ before < q := by
        intro q
        rcases Nat.lt_trichotomy q before with hlt | rfl | hlt
        · exact .inr (.inl hlt)
        · exact .inl hmatch
        · exact .inr (.inr hlt)
      rcases hlast with ⟨p, hp, hlt, hat, hnone⟩ | ⟨hp, hnone⟩
      · refine .inl ⟨p, hp, Nat.lt_succ_of_lt hlt, hat, fun q hq hq' => ?_⟩
        rcases hstep q with h | h | h
        · exact h
        · exact hnone q hq h
        · omega
      · refine .inr ⟨hp, fun q hq => ?_⟩
        rcases hstep q with h | h | h
        · exact h
        · exact hnone q h
        · omega

/-- A match at the last place where the searched string may be is the end of the string. -/
theorem matchesAt_last (h : search.length ≤ text.length) :
    MatchesAt search text (text.length - search.length) ↔ search <:+ text := by
  rw [suffix_iff_eq_drop, matchesAt_iff, and_iff_right (by omega), take_of_length_le, eq_comm]
  rw [length_drop]
  omega

/-- From beyond the last place on, the loop that starts there misses nothing else. -/
theorem lastBefore_beyond {before : Nat} {place : Int} (h : search.length ≤ text.length)
    (hbeyond : text.length - search.length < before)
    (hplace : LastBefore text search (text.length - search.length) place) :
    LastBefore text search before place ↔ ¬ search <:+ text := by
  rw [← matchesAt_last h]
  have houtside : ∀ q, text.length - search.length < q → ¬ MatchesAt search text q := by
    intro q hq hmatch
    have := hmatch.1
    omega
  constructor
  · rintro (⟨p, rfl, hlt, hat, hnone⟩ | ⟨rfl, hnone⟩)
    · rcases hplace with ⟨p', heq, hlt', -, -⟩ | ⟨heq, -⟩
      · exact hnone _ (by omega) hbeyond
      · omega
    · exact hnone _ hbeyond
  · intro hend
    have hcases : ∀ q, q < text.length - search.length ∨ ¬ MatchesAt search text q := by
      intro q
      rcases Nat.lt_trichotomy q (text.length - search.length) with hlt | rfl | hlt
      · exact .inl hlt
      · exact .inr hend
      · exact .inr (houtside q hlt)
    rcases hplace with ⟨p, rfl, hlt, hat, hnone⟩ | ⟨rfl, hnone⟩
    · refine .inl ⟨p, rfl, by omega, hat, fun q hq hq' => ?_⟩
      exact (hcases q).elim (fun hlt => hnone q hq hlt) id
    · refine .inr ⟨rfl, fun q hq => ?_⟩
      exact (hcases q).elim (fun hlt => hnone q hlt) id

theorem toNat_pred {x : UInt64} (h : x ≠ 0) : 0 < x.toNat ∧ (x - 1).toNat = x.toNat - 1 := by
  have hpos : x.toNat ≠ 0 := fun heq => h (UInt64.toNat_inj.mp heq)
  refine ⟨by omega, ?_⟩
  rw [UInt64.toNat_sub_of_le]
  · rfl
  · rw [UInt64.le_iff_toNat_le]
    change 1 ≤ x.toNat
    omega

/-- Below the sign bit, the first pass is a pass of the loop. -/
theorem firstPass (text search : List (StrChar c)) {before_pos : UInt64}
    (h : before_pos.toNat ≤ 2 ^ 63) :
    (if (before_pos - 1).toInt64 < 0 then .ok (before_pos - 1).toInt64.toInt
      else rfindLoop text search before_pos.toNat) = rfindLoop text search before_pos.toNat := by
  by_cases hzero : before_pos = 0
  · rw [hzero]
    rfl
  · obtain ⟨hpos, hpred⟩ := toNat_pred hzero
    rw [if_neg]
    rw [toInt64_neg_iff, hpred]
    omega

theorem not_matchesAt_of_longer (h : text.length < search.length) (q : Nat) :
    ¬ MatchesAt search text q := by
  intro hmatch
  have := hmatch.1
  omega

end Loop

section Strings

variable {d search : StrData c} {before_pos : UInt64}

section

variable (hd : d.size < 2 ^ 63)
include hd

theorem toNat_last (hs : search.size < 2 ^ 63) :
    (UInt64.ofNat d.size - UInt64.ofNat search.size).toNat =
      if search.size ≤ d.size then d.size - search.size
      else 2 ^ 64 - (search.size - d.size) := by
  rw [UInt64.toNat_sub, UInt64.toNat_ofNat', UInt64.toNat_ofNat']
  split_ifs <;> omega

/-- The loop for a searched string that is no longer starts at the last place where it may be, or
before. -/
theorem rfind_shorter (h : search.size ≤ d.size) :
    d.rfind search before_pos = rfindLoop d.content search.content
      (min before_pos.toNat (d.size - search.size)) := by
  have hlast := toNat_last hd (Nat.lt_of_le_of_lt h hd)
  rw [if_pos h] at hlast
  have hnonneg : ¬ (UInt64.ofNat d.size - UInt64.ofNat search.size).toInt64 < 0 := by
    rw [toInt64_neg_iff, hlast]
    omega
  have hgt : before_pos > UInt64.ofNat d.size - UInt64.ofNat search.size ↔
      d.size - search.size < before_pos.toNat := by
    rw [gt_iff_lt, UInt64.lt_iff_toNat_lt, hlast]
  unfold rfind
  dsimp only
  rw [if_neg fun hboth => hnonneg hboth.2]
  by_cases hbeyond : d.size - search.size < before_pos.toNat
  · rw [if_pos (hgt.mpr hbeyond), firstPass _ _ (by omega), hlast, Nat.min_eq_right (by omega)]
  · rw [if_neg (hgt.not.mpr hbeyond), firstPass _ _ (by omega), Nat.min_eq_left (by omega)]

/-- A searched string that is no longer. -/
theorem findsLast_shorter (h : search.size ≤ d.size) :
    d.FindsLast search before_pos ↔
      before_pos.toNat ≤ d.size - search.size ∨ ¬ search.content <:+ d.content := by
  have hinside : min before_pos.toNat (d.size - search.size) + search.content.length ≤
      d.content.length + 1 := by
    simp only [length_content]
    omega
  obtain ⟨place, hplace, hspec⟩ := rfindLoop_spec hinside
  rw [FindsLast, rfind_shorter hd h, hplace]
  have hresult : (∃ place', (Outcome.ok place : Call Int) = .ok place' ∧
      LastBefore d.content search.content before_pos.toNat place') ↔
      LastBefore d.content search.content before_pos.toNat place := by
    constructor
    · rintro ⟨place', heq, hlast'⟩
      rwa [Outcome.ok.inj heq]
    · exact fun hlast' => ⟨place, rfl, hlast'⟩
  rw [hresult]
  by_cases hbefore : before_pos.toNat ≤ d.size - search.size
  · rw [Nat.min_eq_left hbefore] at hspec
    exact iff_of_true hspec (.inl hbefore)
  · rw [Nat.min_eq_right (by omega)] at hspec
    rw [lastBefore_beyond (by simpa using h) (by simpa using hbefore) (by simpa using hspec)]
    exact (or_iff_right hbefore).symm

/-- A searched string that is longer. -/
theorem findsLast_longer (hs : search.size < 2 ^ 63) (h : d.size < search.size) :
    d.FindsLast search before_pos ↔
      before_pos = 0 ∨ 2 ^ 64 - (search.size - d.size) < before_pos.toNat := by
  have hlast := toNat_last hd hs
  rw [if_neg (by omega)] at hlast
  have hnone : ∀ q, ¬ MatchesAt search.content d.content q :=
    not_matchesAt_of_longer (by simpa using h)
  have honly {before : Nat} {place : Int} (hplace : LastBefore d.content search.content before place) :
      place = -1 := by
    rcases hplace with ⟨p, -, -, hat, -⟩ | ⟨heq, -⟩
    · exact absurd hat (hnone p)
    · exact heq
  have hright (before : Nat) : LastBefore d.content search.content before (-1) :=
    .inr ⟨rfl, fun q _ => hnone q⟩
  have hbound := before_pos.toNat_lt
  have hneg : (UInt64.ofNat d.size - UInt64.ofNat search.size).toInt64 < 0 := by
    rw [toInt64_neg_iff, hlast]
    omega
  have hgt : before_pos > UInt64.ofNat d.size - UInt64.ofNat search.size ↔
      2 ^ 64 - (search.size - d.size) < before_pos.toNat := by
    rw [gt_iff_lt, UInt64.lt_iff_toNat_lt, hlast]
  unfold FindsLast rfind
  dsimp only
  by_cases hbeyond : 2 ^ 64 - (search.size - d.size) < before_pos.toNat
  · rw [if_pos ⟨hgt.mpr hbeyond, hneg⟩]
    exact iff_of_true ⟨-1, rfl, hright _⟩ (.inr hbeyond)
  · rw [if_neg fun hboth => hbeyond (hgt.mp hboth.1), if_neg (hgt.not.mpr hbeyond)]
    by_cases hzero : before_pos = 0
    · rw [hzero]
      exact iff_of_true ⟨-1, rfl, hright _⟩ (.inl rfl)
    · obtain ⟨hpos, hpred⟩ := toNat_pred hzero
      refine iff_of_false ?_ (not_or.mpr ⟨hzero, hbeyond⟩)
      rintro ⟨place, hplace, hspec⟩
      obtain rfl := honly hspec
      split_ifs at hplace with hneg
      · -- a negative place, and not the one for none
        have heq := Outcome.ok.inj hplace
        rw [toInt_toInt64, hpred] at heq
        split_ifs at heq
        omega
      · -- the comparison at the first place leaves the string
        obtain ⟨before, hbefore⟩ := Nat.exists_eq_add_one.mpr hpos
        rw [hbefore, rfindLoop, peq, if_neg] at hplace
        · cases hplace
        · simp only [length_content]
          omega

end

/-- `rfind` finds the last place exactly where the searched string is not to be found at the end
of the string, or the difference of the sizes does no harm. -/
theorem findsLast_iff (d search : StrData c) (before_pos : UInt64) (hd : d.size < 2 ^ 63)
    (hs : search.size < 2 ^ 63) :
    d.FindsLast search before_pos ↔ Findable d search before_pos := by
  rw [Findable]
  by_cases h : search.size ≤ d.size
  · rw [if_pos h]
    exact findsLast_shorter hd h
  · rw [if_neg h]
    exact findsLast_longer hd hs (Nat.lt_of_not_le h)

end Strings

/-- Data with these characters. -/
def ofChars (l : List (StrChar c)) : StrData c := ⟨0, l.length, l.length + 1, -1, charsOf l⟩

/-- The last but one of three places, and a place in front of the last. -/
theorem findsLast_iff_middle :
    (ofChars (c := .byte) [97, 98, 97, 98, 99]).FindsLast (ofChars [97, 98]) 5 :=
  (findsLast_iff _ _ _ (by decide) (by decide)).mpr (.inr (by decide))

/-- `rfind` does not see the end of the string, and a longer string is compared beyond it. -/
theorem not_findsLast :
    ¬ (ofChars (c := .byte) [97, 98]).FindsLast (ofChars [98]) 2 ∧
    ¬ (ofChars (c := .byte) [97]).FindsLast (ofChars [97, 98]) 1 := by
  constructor
  · rintro ⟨place, hplace, hspec⟩
    have hrun : (ofChars (c := .byte) [97, 98]).rfind (ofChars [98]) 2 = .ok (-1) := by decide
    rw [hrun] at hplace
    obtain rfl := Outcome.ok.inj hplace
    rcases hspec with ⟨p, hp, -⟩ | ⟨-, hnone⟩
    · omega
    · exact hnone 1 (by decide) (by decide)
  · rintro ⟨place, hplace, -⟩
    have hrun : (ofChars (c := .byte) [97]).rfind (ofChars [97, 98]) 1 = .fault := by decide
    rw [hrun] at hplace
    cases hplace

end StrData

end Drt
