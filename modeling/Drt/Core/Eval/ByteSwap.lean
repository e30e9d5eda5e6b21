import Drt.Core.Eval.IntEvaluator
import Drt.Lib.WordBits

/-!
# The swap operator

Each operand of `>><<` exchanges groups of bits at one or more levels. What an exchange does is
known from where each bit comes from: the positions of two exchanges are joined with exclusive or, and
the laws of the operator are those of the positions.
-/

namespace Drt

open GroupBits IntEvaluator

namespace ByteSwap

/-- The value after `>><<` with this right operand. -/
def swap (r l : Int64) : Call Int64 := evaluateBinary .binByteSwap l r

/-- The low `2 ^ m` bits come from the places that differ by `c`, and the others are clear. -/
def Moves (f : Int64 → Int64) (c m : Nat) : Prop :=
  ∀ l : Int64, ∀ i < 64,
    (f l).toBitVec.getLsbD i = (decide (i < 2 ^ m) && l.toBitVec.getLsbD (i ^^^ c))

/-- One exchange at the level of groups of `2 ^ k` bits. -/
theorem moves_swapBits {shift low : Int64} {k m : Nat}
    (hshift : (shift.toBitVec.smod 64).toNat = 2 ^ k) (hlow : LowerGroups low.toBitVec k (2 ^ m))
    (hk : k < m) (hm : m ≤ 6) : Moves (fun l => swapBits l shift low) (2 ^ k) m := by
  intro l i hi
  have hexchange : (swapBits l shift low).toBitVec = exchange l.toBitVec (2 ^ k) low.toBitVec := by
    rw [← hshift]
    rfl
  rw [hexchange]
  exact getLsbD_exchange hlow (pow_dvd_pow 2 hk) (Nat.pow_le_pow_right (by decide) hm) _ hi

variable {f g : Int64 → Int64} {c d m : Nat}

theorem Moves.comp (hg : Moves g d m) (hf : Moves f c m) (hd : d < 2 ^ m) (hm : m ≤ 6) :
    Moves (fun l => g (f l)) (d ^^^ c) m := by
  intro l i hi
  rw [hg (f l) i hi]
  by_cases hin : i < 2 ^ m
  · have hplace : i ^^^ d < 2 ^ m := Nat.xor_lt_two_pow hin hd
    have hword : i ^^^ d < 64 := hplace.trans_le (Nat.pow_le_pow_right (by decide) hm : _ ≤ 2 ^ 6)
    rw [hf l _ hword, decide_eq_true hin, decide_eq_true hplace, Nat.xor_assoc]
    simp
  · simp [hin]

/-- Bits that come from their own places are the low bits of the value. -/
theorem Moves.eq_of_zero (h : Moves f 0 m) {low : Int64}
    (hlow : ∀ i < 64, low.toBitVec.getLsbD i = decide (i < 2 ^ m)) (l : Int64) :
    f l = l &&& low := by
  apply Int64.toBitVec_inj.mp
  apply BitVec.eq_of_getLsbD_eq
  intro i hi
  rw [h l i hi, Nat.xor_zero, Int64.toBitVec_and, BitVec.getLsbD_and, hlow i hi, Bool.and_comm]

/-- Bits that all come from the opposite places are those of the reversed value. -/
theorem Moves.eq_reverse (h : Moves f 63 6) (l : Int64) :
    f l = Int64.ofBitVec l.toBitVec.reverse := by
  apply Int64.toBitVec_inj.mp
  apply BitVec.eq_of_getLsbD_eq
  intro i hi
  have hopposite : ∀ j < 64, j ^^^ 63 = 63 - j := by decide
  rw [h l i hi, Int64.toBitVec_ofBitVec, BitVec.getLsbD_reverse, BitVec.getMsbD_eq_getLsbD,
    hopposite i hi, decide_eq_true hi, Bool.true_and]
  simp [hi]

/-! ### The operands

The positions of the six operands, and the laws that follow from them. -/

/-- The operator with this operand moves the bits so. -/
def Swaps (r : Int64) (c m : Nat) : Prop := ∃ f, (∀ l, swap r l = .ok (f l)) ∧ Moves f c m

theorem moves_bits : Moves (fun l => swapBits l 1 0x5555555555555555) 1 6 :=
  moves_swapBits (k := 0) rfl (by decide) (by decide) (by decide)

theorem moves_pairs : Moves (fun l => swapBits l 2 0x3333333333333333) 2 6 :=
  moves_swapBits (k := 1) rfl (by decide) (by decide) (by decide)

theorem moves_nibbles : Moves (fun l => swapBits l 4 0x0f0f0f0f0f0f0f0f) 4 6 :=
  moves_swapBits (k := 2) rfl (by decide) (by decide) (by decide)

theorem swaps_1 : Swaps 1 1 6 := ⟨_, fun _ => rfl, moves_bits⟩

theorem swaps_2 : Swaps 2 2 6 := ⟨_, fun _ => rfl, moves_pairs⟩

theorem swaps_4 : Swaps 4 4 6 := ⟨_, fun _ => rfl, moves_nibbles⟩

theorem swaps_16 : Swaps 16 8 4 :=
  ⟨_, fun _ => rfl, moves_swapBits (k := 3) rfl (by decide) (by decide) (by decide)⟩

/-- The bytes of a word of 32 bits: those of its halves, and the halves. -/
theorem swaps_32 : Swaps 32 24 5 := by
  have hbytes : Moves (fun l => swapBits l 8 0x00ff00ff) 8 5 :=
    moves_swapBits (k := 3) rfl (by decide) (by decide) (by decide)
  have hhalves : Moves (fun l => swapBits l 16 0x0000ffff) 16 5 :=
    moves_swapBits (k := 4) rfl (by decide) (by decide) (by decide)
  exact ⟨_, fun _ => rfl, hhalves.comp hbytes (by decide) (by decide)⟩

theorem swaps_64 : Swaps 64 56 6 := by
  have hbytes : Moves (fun l => swapBits l 8 0x00ff00ff00ff00ff) 8 6 :=
    moves_swapBits (k := 3) rfl (by decide) (by decide) (by decide)
  have hpairs : Moves (fun l => swapBits l 16 0x0000ffff0000ffff) 16 6 :=
    moves_swapBits (k := 4) rfl (by decide) (by decide) (by decide)
  have hhalves : Moves (fun l => swapBits l 32 0x00000000ffffffff) 32 6 :=
    moves_swapBits (k := 5) rfl (by decide) (by decide) (by decide)
  exact ⟨_, fun _ => rfl,
    hhalves.comp (hpairs.comp hbytes (by decide) (by decide)) (by decide) (by decide)⟩

variable {r r' : Int64}

theorem Swaps.comp (hr' : Swaps r' d m) (hr : Swaps r c m) (hd : d < 2 ^ m) (hm : m ≤ 6) :
    ∃ f, (∀ l, swap r l >>= swap r' = .ok (f l)) ∧ Moves f (d ^^^ c) m := by
  obtain ⟨f, hf, hmoves⟩ := hr
  obtain ⟨g, hg, hmoves'⟩ := hr'
  refine ⟨fun l => g (f l), fun l => ?_, hmoves'.comp hmoves hd hm⟩
  rw [hf, Outcome.ok_bind, hg]

theorem Swaps.twice (h : Swaps r c m) (hc : c < 2 ^ m) (hm : m ≤ 6) {low : Int64}
    (hlow : ∀ i < 64, low.toBitVec.getLsbD i = decide (i < 2 ^ m)) (l : Int64) :
    swap r l >>= swap r = .ok (l &&& low) := by
  obtain ⟨f, hf, hmoves⟩ := h.comp h hc hm
  rw [Nat.xor_self] at hmoves
  rw [hf, hmoves.eq_of_zero hlow]

theorem Swaps.involutive (h : Swaps r c 6) (hc : c < 64) (l : Int64) :
    swap r l >>= swap r = .ok l := by
  have hlow : ∀ i < 64, (-1 : Int64).toBitVec.getLsbD i = decide (i < 2 ^ 6) := by decide
  rw [h.twice hc (by decide) hlow l]
  congr 1
  exact Int64.and_neg_one

/-- For every value: the operands 1, 2, 4 and 64 twice give it back, 16 and 32 twice its low bits, and
64, 4, 2 and 1 one after the other all its bits the other way round. -/
theorem swap_laws (l : Int64) :
    (∀ r ∈ ([1, 2, 4, 64] : List Int64), swap r l >>= swap r = .ok l) ∧
      swap 16 l >>= swap 16 = .ok (l &&& 0xffff) ∧
      swap 32 l >>= swap 32 = .ok (l &&& 0xffffffff) ∧
      swap 64 l >>= swap 4 >>= swap 2 >>= swap 1 = .ok (Int64.ofBitVec l.toBitVec.reverse) := by
  refine ⟨?_, ?_, ?_, ?_⟩
  · simp only [List.forall_mem_cons]
    exact ⟨swaps_1.involutive (by decide) l, swaps_2.involutive (by decide) l,
      swaps_4.involutive (by decide) l, swaps_64.involutive (by decide) l, by simp⟩
  · exact swaps_16.twice (by decide) (by decide) (by decide) l
  · exact swaps_32.twice (by decide) (by decide) (by decide) l
  · obtain ⟨f, hf, hmoves⟩ := swaps_4.comp swaps_64 (by decide) (by decide)
    obtain ⟨g, hg, hmoves'⟩ := swaps_1.comp swaps_2 (by decide) (by decide)
    have hall := hmoves'.comp hmoves (by decide) (by decide)
    rw [hf, Outcome.ok_bind, hg, hall.eq_reverse]

end ByteSwap

end Drt
