import Drt.Core.Base.Exception
import Drt.Core.Types.DrString
import Drt.Lib.Bytes
import Drt.Lib.Fuel

/-!
# Functions on octets

What `Mem` does with the octets of words and of elements. `DR_SEX` fixes the order in which the host stores the octets of a word.
`Mem::copyLe` undoes it, so little-endian octets come out on every host.
-/

open List

namespace Drt

open Bytes

/-- The byte order of the host, `DR_SEX`. -/
inductive Sex where
  /-- `DR_SEX_LE`. -/
  | le
  /-- `DR_SEX_BE`. -/
  | be
  deriving DecidableEq, Repr

namespace Mem

/-- The octets of an `n`-octet word as the host stores them. -/
def hostBytes (sex : Sex) (n v : Nat) : List UInt8 :=
  match sex with
  | .le => leBytes n v
  | .be => (leBytes n v).reverse

/-- The word whose stored octets are `bs`. -/
def hostValue (sex : Sex) (bs : List UInt8) : Nat :=
  match sex with
  | .le => leValue bs
  | .be => leValue bs.reverse

/-- `Mem::copyLe`: a plain copy on a little-endian host, a reversing loop elsewhere. -/
def copyLe (sex : Sex) (src : List UInt8) : List UInt8 :=
  match sex with
  | .le => src
  | .be => src.reverse

@[simp] theorem length_hostBytes (sex : Sex) (n v : Nat) : (hostBytes sex n v).length = n := by
  cases sex <;> simp [hostBytes]

theorem hostValue_hostBytes (sex : Sex) {n v : Nat} (h : v < 256 ^ n) :
    hostValue sex (hostBytes sex n v) = v := by
  cases sex with
  | le => exact leValue_leBytes h
  | be =>
    rw [hostBytes, hostValue, reverse_reverse]
    exact leValue_leBytes h

end Mem

/-! ### Exchanging elements

`Mem::getXchgFunc` chooses by the size of an element a function that exchanges two of them: octet
by octet, word by word, or as one word. The sizes of the words are those of a host with an `int`
of four octets and a `long` of eight. A pointer is the distance from the first octet of a block
of memory, and an access outside the block is a fault. -/

open Blocks

/-- The octets at a pointer. -/
def Mem.load (data : Blob) (pos : Int) (size : Nat) : Call Blob :=
  if 0 ≤ pos ∧ pos + size ≤ data.length then .ok (readAt data pos.toNat size) else .fault

namespace Mem

/-- `x = *d1; *d1 = *d2; *d2 = x` for words of this size. -/
def xchgWord (size : Nat) (data : Blob) (d1 d2 : Int) : Call Blob := do
  let x ← load data d1 size
  let y ← load data d2 size
  .ok (writeAt (writeAt data d1.toNat y) d2.toNat x)

/-- `do { … } while ((len -= size) != 0)` for words of this size. -/
def xchgWords (size : Nat) : Nat → Blob → Int → Int → UInt64 → Call Blob
  | 0, _, _, _, _ => .outOfFuel
  | fuel + 1, data, d1, d2, len => do
    let data ← xchgWord size data d1 d2
    let len := len - .ofNat size
    if len ≠ 0 then xchgWords size fuel data (d1 + size) (d2 + size) len else .ok data

/-- The type of the functions below: a bound, the memory, two pointers and the size. -/
abbrev XchgFunc : Type := Nat → Blob → Int → Int → UInt64 → Call Blob

def xchg_zero : XchgFunc := fun _ data _ _ len => if len = 0 then .ok data else .fault

def xchg_bchar : XchgFunc := xchgWords 1

def xchg_int : XchgFunc := fun _ data d1 d2 len => if len = 4 then xchgWord 4 data d1 d2 else .fault

def xchg_long : XchgFunc := fun _ data d1 d2 len =>
  if len = 8 then xchgWord 8 data d1 d2 else .fault

def xchg_bint : XchgFunc := xchgWords 4

def xchg_blong : XchgFunc := xchgWords 8

def getXchgFunc (tsize : UInt64) : XchgFunc :=
  match tsize.toNat with
  | 0 => xchg_zero
  | 1 | 3 | 5 | 7 => xchg_bchar
  | 4 => xchg_int
  | 8 => xchg_long
  | 16 => xchg_blong
  | tsize =>
    match tsize % 8 with
    | 0 => xchg_blong
    | 4 => xchg_bint
    | _ => xchg_bchar

section Correctness

open Outcome

variable {a x b y c : Blob} {size n : Nat}

theorem load_append (hx : x.length = n) {pos : Int} (hpos : pos = a.length) :
    load (a ++ (x ++ b)) pos n = .ok x := by
  subst hpos
  rw [load, if_pos ⟨by omega, by simp only [length_append]; omega⟩]
  exact congrArg _ (readAt_append (by simp) hx)

/-- Two words change their places. -/
theorem xchgWord_eq (hx : x.length = size) (hy : y.length = size) {p q : Int}
    (hp : p = a.length) (hq : q = a.length + size + b.length) :
    xchgWord size (a ++ (x ++ (b ++ (y ++ c)))) p q =
      .ok (a ++ (y ++ (b ++ (x ++ c)))) := by
  have hassoc : ∀ z : Blob, a ++ (z ++ (b ++ (y ++ c))) = (a ++ (z ++ b)) ++ (y ++ c) := by simp
  have hload : load (a ++ (x ++ (b ++ (y ++ c)))) q size = .ok y := by
    rw [hassoc]
    exact load_append hy (by simp only [length_append, hx]; omega)
  rw [xchgWord, load_append hx hp, ok_bind, hload, ok_bind,
    writeAt_append (by omega) (hx.trans hy.symm), hassoc,
    writeAt_append (by simp only [length_append, hy]; omega) (hy.trans hx.symm)]
  simp

/-- The words of two elements change their places one after the other. -/
theorem xchgWords_returns (hsize : 0 < size) (k : Nat) (hx : x.length = (k + 1) * size)
    (hy : y.length = x.length) {p q : Int} (hp : p = a.length)
    (hq : q = a.length + x.length + b.length) {n : UInt64} (hn : n.toNat = x.length) :
    Returns (fun fuel => xchgWords size fuel (a ++ (x ++ (b ++ (y ++ c)))) p q n)
      (a ++ (y ++ (b ++ (x ++ c)))) := by
  have hlt := n.toNat_lt
  induction k generalizing a x b y p q n with
  | zero =>
    rw [Nat.zero_add, Nat.one_mul] at hx
    have hrest : n - .ofNat size = 0 := by
      rw [← UInt64.toNat_inj, UInt64.toNat_sub,
        UInt64.toNat_ofNat_of_lt' (by simp only [UInt64.size]; omega)]
      change (2 ^ 64 - size + n.toNat) % 2 ^ 64 = 0
      omega
    refine Returns.of_succ_ok fun fuel => ?_
    rw [xchgWords, xchgWord_eq hx (hy.trans hx) hp (by omega), ok_bind]
    simp [hrest]
  | succ k ih =>
    rw [Nat.succ_mul] at hx
    -- The first word of each element is exchanged in this pass.
    obtain ⟨x₁, x₂, rfl, hx₁⟩ : ∃ x₁ x₂, x = x₁ ++ x₂ ∧ x₁.length = size :=
      ⟨_, _, (take_append_drop size x).symm, length_take_of_le (by omega)⟩
    obtain ⟨y₁, y₂, rfl, hy₁⟩ : ∃ y₁ y₂, y = y₁ ++ y₂ ∧ y₁.length = size :=
      ⟨_, _, (take_append_drop size y).symm, length_take_of_le (by omega)⟩
    simp only [length_append, hx₁, hy₁] at hx hy hq hn
    have hrest : (n - .ofNat size).toNat = x₂.length := by
      rw [UInt64.toNat_sub, UInt64.toNat_ofNat_of_lt' (by simp only [UInt64.size]; omega)]
      omega
    have hpos : 0 < (k + 1) * size := Nat.mul_pos k.succ_pos hsize
    have hne : n - .ofNat size ≠ 0 := fun h => by
      rw [h] at hrest
      change 0 = x₂.length at hrest
      omega
    have hnext := ih (a := a ++ y₁) (x := x₂) (b := b ++ x₁) (y := y₂) (p := p + size)
      (q := q + size) (n := n - .ofNat size) (by omega) (by omega)
      (by simp only [length_append, hy₁]; omega)
      (by simp only [length_append, hx₁, hy₁]; omega) hrest (UInt64.toNat_lt _)
    have hfirst : xchgWord size (a ++ (x₁ ++ x₂ ++ (b ++ (y₁ ++ y₂ ++ c)))) p q =
        .ok (a ++ y₁ ++ (x₂ ++ (b ++ x₁ ++ (y₂ ++ c)))) := by
      have hword := xchgWord_eq (a := a) (b := x₂ ++ b) (c := y₂ ++ c) hx₁ hy₁ hp
        (q := q) (by simp only [length_append]; omega)
      simpa using hword
    have hgoal : a ++ (y₁ ++ y₂ ++ (b ++ (x₁ ++ x₂ ++ c))) =
        a ++ y₁ ++ (y₂ ++ (b ++ x₁ ++ (x₂ ++ c))) := by simp
    rw [hgoal]
    refine hnext.of_succ fun fuel => ?_
    rw [xchgWords, hfirst, ok_bind]
    simp only [ne_eq, hne, not_false_eq_true, if_true]

/-- The function for a size has words that divide it. -/
theorem getXchgFunc_cases {tsize : UInt64} (hpos : 0 < tsize.toNat) :
    getXchgFunc tsize = xchg_bchar ∨ getXchgFunc tsize = xchg_bint ∧ tsize.toNat % 4 = 0 ∨
      getXchgFunc tsize = xchg_blong ∧ tsize.toNat % 8 = 0 ∨
        getXchgFunc tsize = xchg_int ∧ tsize = 4 ∨ getXchgFunc tsize = xchg_long ∧ tsize = 8 := by
  have hfour : tsize.toNat = 4 → tsize = 4 := fun h => UInt64.toNat_inj.mp h
  have height : tsize.toNat = 8 → tsize = 8 := fun h => UInt64.toNat_inj.mp h
  unfold getXchgFunc
  generalize tsize.toNat = n at *
  split
  · contradiction
  · exact Or.inl rfl
  · exact Or.inl rfl
  · exact Or.inl rfl
  · exact Or.inl rfl
  · exact Or.inr (Or.inr (Or.inr (Or.inl ⟨rfl, hfour rfl⟩)))
  · exact Or.inr (Or.inr (Or.inr (Or.inr ⟨rfl, height rfl⟩)))
  · exact Or.inr (Or.inr (Or.inl ⟨rfl, rfl⟩))
  · split
    · rename_i hmod
      exact Or.inr (Or.inr (Or.inl ⟨rfl, hmod⟩))
    · rename_i hmod
      exact Or.inr (Or.inl ⟨rfl, by omega⟩)
    · exact Or.inl rfl

/-- The function for a size exchanges two elements of it. -/
theorem getXchgFunc_returns {tsize : UInt64} (hpos : 0 < tsize.toNat)
    (hx : x.length = tsize.toNat) (hy : y.length = tsize.toNat) {d1 d2 : Int} (hd1 : d1 = a.length)
    (hd2 : d2 = a.length + x.length + b.length) :
    Returns (fun fuel => getXchgFunc tsize fuel (a ++ (x ++ (b ++ (y ++ c)))) d1 d2 tsize)
      (a ++ (y ++ (b ++ (x ++ c)))) := by
  have hwords : ∀ size, 0 < size → tsize.toNat % size = 0 →
      Returns (fun fuel => xchgWords size fuel (a ++ (x ++ (b ++ (y ++ c)))) d1 d2 tsize)
        (a ++ (y ++ (b ++ (x ++ c)))) := by
    intro size hsize hmod
    obtain ⟨k, hk⟩ := Nat.dvd_of_mod_eq_zero hmod
    obtain ⟨k, rfl⟩ : ∃ j, k = j + 1 := Nat.exists_eq_succ_of_ne_zero fun h => by
      rw [h, Nat.mul_zero] at hk
      omega
    exact xchgWords_returns hsize k (by rw [hx, hk, Nat.mul_comm]) (hy.trans hx.symm) hd1 hd2
      hx.symm
  have hword : ∀ size : Nat, tsize.toNat = size →
      xchgWord size (a ++ (x ++ (b ++ (y ++ c)))) d1 d2 = .ok (a ++ (y ++ (b ++ (x ++ c)))) := by
    rintro size rfl
    exact xchgWord_eq hx hy hd1 (by omega)
  rcases getXchgFunc_cases hpos with h | ⟨h, hmod⟩ | ⟨h, hmod⟩ | ⟨h, rfl⟩ | ⟨h, rfl⟩
  · rw [h]
    exact hwords 1 (by omega) (Nat.mod_one _)
  · rw [h]
    exact hwords 4 (by omega) hmod
  · rw [h]
    exact hwords 8 (by omega) hmod
  · rw [h]
    exact Returns.of_eq fun _ => hword 4 rfl
  · rw [h]
    exact Returns.of_eq fun _ => hword 8 rfl

end Correctness

end Mem

end Drt
