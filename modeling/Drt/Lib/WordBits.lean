import Mathlib.Data.Nat.Bitwise
import Mathlib.Tactic.Positivity
import Mathlib.Tactic.Ring

/-!
# Bits of words

A word whose unused top bits are clear is shifted up, shifted back with its sign and joined with
itself. What comes out is the signed number that the used bits denote, and a number survives in
some of its bits exactly if it lies in their range.
-/

namespace SignBits

theorem getLsbD_of_lt {w n i : Nat} {x : BitVec w} (h : x.toNat < 2 ^ n) (hi : n ≤ i) :
    x.getLsbD i = false :=
  Nat.testBit_lt_two_pow (Nat.lt_of_lt_of_le h (Nat.pow_le_pow_right (by decide) hi))

/-- Shifting up and back fills the unused bits with the top one of the used bits. -/
theorem or_sshiftRight {w s : Nat} (hs : s < w) {x : BitVec w} (h : x.toNat < 2 ^ (w - s)) :
    x ||| (x <<< s).sshiftRight s = (x.setWidth (w - s)).signExtend w := by
  apply BitVec.eq_of_getLsbD_eq
  intro i hi
  rw [BitVec.getLsbD_or, BitVec.getLsbD_sshiftRight, BitVec.getLsbD_signExtend]
  by_cases hused : s + i < w
  · -- A used bit comes back to its place.
    have hwidth : i < w - s := by omega
    simp [hused, hwidth, hi]
  · -- An unused bit is a copy of the top one.
    have hwidth : ¬ i < w - s := by omega
    have hmsb : (x.setWidth (w - s)).msb = (x <<< s).msb := by
      rw [BitVec.msb_shiftLeft, BitVec.msb_eq_getLsbD_last, BitVec.getMsbD, BitVec.getLsbD_setWidth,
        decide_eq_true (by omega : w - s - 1 < w - s), decide_eq_true hs, Nat.sub_right_comm]
    rw [getLsbD_of_lt h (Nat.le_of_not_lt hwidth), hmsb, decide_eq_true hi]
    simp [hused, hwidth, hi]

theorem toInt_or_sshiftRight {w s : Nat} (hs : s < w) {x : BitVec w} (h : x.toNat < 2 ^ (w - s)) :
    (x ||| (x <<< s).sshiftRight s).toInt = (x.toNat : Int).bmod (2 ^ (w - s)) := by
  rw [or_sshiftRight hs h, BitVec.toInt_signExtend_of_le (Nat.sub_le w s), BitVec.toInt_setWidth]

/-- The signed number in the low bits of a word. -/
theorem toInt_extend {w n : Nat} (hpos : 0 < n) (hn : n ≤ w) (word : Nat) :
    (BitVec.ofNat w (word % 2 ^ n) |||
      (BitVec.ofNat w (word % 2 ^ n) <<< (w - n)).sshiftRight (w - n)).toInt =
        (word : Int).bmod (2 ^ n) := by
  have hlt : word % 2 ^ n < 2 ^ n := Nat.mod_lt _ (by positivity)
  have hword : (BitVec.ofNat w (word % 2 ^ n)).toNat = word % 2 ^ n := by
    rw [BitVec.toNat_ofNat]
    exact Nat.mod_eq_of_lt (hlt.trans_le (Nat.pow_le_pow_right (by decide) hn))
  have hused : w - (w - n) = n := by omega
  rw [toInt_or_sshiftRight (by omega) (by rw [hword, hused]; exact hlt), hword, hused,
    Int.natCast_mod]
  exact Int.emod_bmod _ _

/-- A signed number survives in some of its bits exactly if it is in the range of these. -/
theorem bmod_eq_self_iff {k : Nat} {v : Int} :
    v.bmod (2 ^ (k + 1)) = v ↔ -2 ^ k ≤ v ∧ v < 2 ^ k := by
  have hpow : ((2 ^ (k + 1) : Nat) : Int) = 2 * 2 ^ k := by
    push_cast
    ring
  have hpos : (0 : Int) < 2 ^ k := by positivity
  constructor
  · intro h
    have hlo := Int.le_bmod (x := v) (m := 2 ^ (k + 1)) (by positivity)
    have hhi := Int.bmod_lt (x := v) (m := 2 ^ (k + 1)) (by positivity)
    omega
  · rintro ⟨hlo, hhi⟩
    exact Int.bmod_eq_of_le (by omega) (by omega)

end SignBits

/-! ### Tag bits of a pointer

A pointer to something aligned to four octets has its two low bits clear, and a word
that keeps one can keep two marks with it. -/

namespace TagBits

/-- A pointer with both tag bits clear. -/
def Untagged (p : UInt64) : Prop := p &&& 3 = 0

instance (p : UInt64) : Decidable (Untagged p) := inferInstanceAs (Decidable (_ = _))

variable {p : UInt64}

theorem or_and (a b c : UInt64) : (a ||| b) &&& c = (a &&& c) ||| (b &&& c) := by
  apply UInt64.toBitVec_inj.mp
  simp only [UInt64.toBitVec_and, UInt64.toBitVec_or]
  exact BitVec.and_or_distrib_right

theorem and_or (a b c : UInt64) : a &&& (b ||| c) = (a &&& b) ||| (a &&& c) := by
  apply UInt64.toBitVec_inj.mp
  simp only [UInt64.toBitVec_and, UInt64.toBitVec_or]
  exact BitVec.and_or_distrib_left

theorem add_eq_or {a b : UInt64} (h : a &&& b = 0) : a + b = a ||| b := by
  apply UInt64.toBitVec_inj.mp
  rw [UInt64.toBitVec_or, UInt64.toBitVec_add]
  refine BitVec.add_eq_or_of_and_eq_zero _ _ ?_
  rw [← UInt64.toBitVec_and, h]
  rfl

theorem and_eq_zero_of_mask {a m k : UInt64} (h : a &&& m = 0) (hmask : m &&& k = k) :
    a &&& k = 0 := by
  rw [← hmask, ← UInt64.and_assoc, h, UInt64.zero_and]

section

variable (h : Untagged p)
include h

theorem Untagged.low : p &&& 1 = 0 := and_eq_zero_of_mask h rfl

theorem Untagged.high : p &&& 2 = 0 := and_eq_zero_of_mask h rfl

theorem Untagged.pointer : p &&& ~~~3 = p := by
  have hsplit : p &&& ((3 : UInt64) ||| ~~~3) = (p &&& 3) ||| (p &&& ~~~3) := and_or _ _ _
  rw [h, UInt64.zero_or] at hsplit
  rw [← hsplit]
  exact UInt64.and_neg_one

theorem Untagged.or_low (k : UInt64) : (p ||| k) &&& 1 = k &&& 1 := by
  rw [or_and, h.low, UInt64.zero_or]

theorem Untagged.or_high (k : UInt64) : (p ||| k) &&& 2 = k &&& 2 := by
  rw [or_and, h.high, UInt64.zero_or]

theorem Untagged.or_pointer {k : UInt64} (hk : k &&& ~~~3 = 0) : (p ||| k) &&& ~~~3 = p := by
  rw [or_and, h.pointer, hk, UInt64.or_zero]

/-- Subtracting two from a pointer with both tag bits clears the upper one. -/
theorem Untagged.or_three_sub : (p ||| 3) - 2 = p ||| 1 := by
  have hsplit : p ||| 3 = (p ||| 1) ||| 2 := by
    rw [UInt64.or_assoc]
    rfl
  have hclear : (p ||| 1) &&& 2 = 0 := h.or_high 1
  rw [hsplit, ← add_eq_or hclear, UInt64.add_sub_cancel]

end

end TagBits

/-! ### Exchanged groups of bits

A word falls into groups of `2 ^ k` bits, and neighbouring groups change places. The bit at `i`
comes from `i ^^^ 2 ^ k`, so that exchanges at several levels compose as these positions do. -/

namespace GroupBits

/-- Neighbouring groups of `s` bits change places, where `low` has the lower ones. -/
def exchange {w : Nat} (x : BitVec w) (s : Nat) (low : BitVec w) : BitVec w :=
  (x.sshiftRight s &&& low) ||| (x <<< s &&& low <<< s)

/-- The lower one of any two groups of `2 ^ k` bits, among the first `n` bits. -/
def LowerGroups {w : Nat} (low : BitVec w) (k n : Nat) : Prop :=
  ∀ i < w, low.getLsbD i = (decide (i < n) && !i.testBit k)

instance {w : Nat} (low : BitVec w) (k n : Nat) : Decidable (LowerGroups low k n) :=
  inferInstanceAs (Decidable (∀ i < w, _))

/-- A bit that is clear is set by adding it. -/
theorem xor_two_pow {i k : Nat} (h : i.testBit k = false) : i ^^^ 2 ^ k = i + 2 ^ k := by
  induction k generalizing i with
  | zero =>
    rw [Nat.testBit_zero, decide_eq_false_iff_not] at h
    exact Nat.xor_one_of_even (Nat.even_iff.mpr (by omega))
  | succ k ih =>
    rw [Nat.testBit_succ] at h
    have hpow : 2 ^ (k + 1) = 2 * 2 ^ k := by rw [pow_succ, Nat.mul_comm]
    have hdiv : (i ^^^ 2 ^ (k + 1)) / 2 = i / 2 + 2 ^ k := by
      rw [Nat.xor_div_two, hpow, Nat.mul_div_cancel_left _ (by decide), ih h]
    have hmod : (i ^^^ 2 ^ (k + 1)) % 2 = i % 2 := by
      rw [Nat.xor_mod_two_eq, hpow, Nat.add_mul_mod_self_left]
    omega

theorem exists_add_two_pow {i k : Nat} (h : i.testBit k = true) :
    ∃ j, i = j + 2 ^ k ∧ j.testBit k = false ∧ i ^^^ 2 ^ k = j := by
  have hj : (i ^^^ 2 ^ k).testBit k = false := by
    rw [Nat.testBit_xor, h, Nat.testBit_two_pow_self]
    rfl
  refine ⟨i ^^^ 2 ^ k, ?_, hj, rfl⟩
  rw [← xor_two_pow hj, Nat.xor_assoc, Nat.xor_self, Nat.xor_zero]

/-- The upper group ends where the next pair of groups begins. -/
theorem add_two_pow_lt {i k n : Nat} (h : i.testBit k = false) (hn : 2 ^ (k + 1) ∣ n)
    (hi : i < n) : i + 2 ^ k < n := by
  obtain ⟨m, rfl⟩ := hn
  have hpos : 0 < 2 ^ k := Nat.two_pow_pos k
  rw [Nat.testBit_eq_decide_div_mod_eq, decide_eq_false_iff_not] at h
  rw [pow_succ, Nat.mul_assoc] at hi ⊢
  have hq : i / 2 ^ k < 2 * m := Nat.div_lt_of_lt_mul hi
  have hnext : i / 2 ^ k + 1 < 2 * m := by omega
  calc i + 2 ^ k = (i + 2 ^ k) / 2 ^ k * 2 ^ k + (i + 2 ^ k) % 2 ^ k :=
        (Nat.div_add_mod' _ _).symm
    _ < (i + 2 ^ k) / 2 ^ k * 2 ^ k + 2 ^ k := Nat.add_lt_add_left (Nat.mod_lt _ hpos) _
    _ = (i / 2 ^ k + 2) * 2 ^ k := by
        rw [Nat.add_div_right _ hpos]
        ring
    _ ≤ 2 * m * 2 ^ k := Nat.mul_le_mul_right _ (by omega)
    _ = 2 ^ k * (2 * m) := Nat.mul_comm ..

variable {w k n i : Nat} {low : BitVec w}

/-- The mask of the lower groups is shifted to the upper ones. -/
theorem LowerGroups.upper (hlow : LowerGroups low k n) (hdvd : 2 ^ (k + 1) ∣ n) (hi : i < w) :
    (low <<< 2 ^ k).getLsbD i = (decide (i < n) && i.testBit k) := by
  rw [BitVec.getLsbD_shiftLeft, decide_eq_true hi, Bool.true_and, hlow _ (by omega)]
  cases hbit : i.testBit k with
  | true =>
    obtain ⟨j, rfl, hj, -⟩ := exists_add_two_pow hbit
    rw [Nat.add_sub_cancel, hj]
    have hiff : j < n ↔ j + 2 ^ k < n := ⟨add_two_pow_lt hj hdvd, fun h => by omega⟩
    simp [hiff]
  | false =>
    by_cases hsmall : i < 2 ^ k
    · simp [hsmall]
    · -- Otherwise the bit would come from a lower group, and so be one of an upper group.
      cases hj : (i - 2 ^ k).testBit k with
      | true => simp
      | false =>
        have heq := xor_two_pow hj
        rw [Nat.sub_add_cancel (Nat.le_of_not_lt hsmall)] at heq
        rw [← heq, Nat.testBit_xor, hj, Nat.testBit_two_pow_self] at hbit
        cases hbit

/-- Every bit comes from the same place in the neighbouring group. -/
theorem getLsbD_exchange (hlow : LowerGroups low k n) (hdvd : 2 ^ (k + 1) ∣ n) (hn : n ≤ w)
    (x : BitVec w) (hi : i < w) :
    (exchange x (2 ^ k) low).getLsbD i = (decide (i < n) && x.getLsbD (i ^^^ 2 ^ k)) := by
  rw [exchange, BitVec.getLsbD_or, BitVec.getLsbD_and, BitVec.getLsbD_and, hlow i hi,
    hlow.upper hdvd hi]
  by_cases hin : i < n
  · cases hbit : i.testBit k with
    | false =>
      have hlt := add_two_pow_lt hbit hdvd hin
      rw [xor_two_pow hbit, BitVec.getLsbD_sshiftRight]
      simp [hin, hi, show 2 ^ k + i < w by omega, Nat.add_comm i]
    | true =>
      obtain ⟨j, rfl, -, hxor⟩ := exists_add_two_pow hbit
      rw [hxor, BitVec.getLsbD_shiftLeft]
      simp [hin, hi]
  · simp [hin]

end GroupBits
