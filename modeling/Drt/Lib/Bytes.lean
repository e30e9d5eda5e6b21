import Mathlib.Data.List.Basic
import Mathlib.Data.Nat.Bitwise
import Mathlib.Tactic.Ring

/-!
# Base-256 numerals

A word of `n` octets is the list of its base-256 digits, least significant
first. Shift-and-or code reads and writes exactly these digits; the two lemmas
on disjoint bits are what turns such code into arithmetic.
-/

namespace Bytes

/-- The `n` low digits of `v`, least significant first. -/
def leBytes : Nat → Nat → List UInt8
  | 0, _ => []
  | n + 1, v => UInt8.ofNat v :: leBytes n (v / 256)

/-- The number a digit list denotes, least significant first. -/
def leValue : List UInt8 → Nat
  | [] => 0
  | b :: bs => b.toNat + 256 * leValue bs

@[simp] theorem length_leBytes (n v : Nat) : (leBytes n v).length = n := by
  induction n generalizing v with
  | zero => rfl
  | succ n ih => simp [leBytes, ih]

theorem leValue_leBytes_mod (n v : Nat) : leValue (leBytes n v) = v % 256 ^ n := by
  induction n generalizing v with
  | zero => simp [leBytes, leValue, Nat.mod_one]
  | succ n ih =>
    have hdigit : (UInt8.ofNat v).toNat = v % 256 := UInt8.toNat_ofNat'
    rw [leBytes, leValue, ih, hdigit, pow_succ', Nat.mod_mul (a := 256)]

theorem leValue_leBytes {n v : Nat} (h : v < 256 ^ n) : leValue (leBytes n v) = v := by
  rw [leValue_leBytes_mod, Nat.mod_eq_of_lt h]

theorem leValue_lt (bs : List UInt8) : leValue bs < 256 ^ bs.length := by
  induction bs with
  | nil => simp [leValue]
  | cons b bs ih =>
    have hb : b.toNat < 256 := b.toNat_lt
    rw [leValue, List.length_cons, pow_succ]
    omega

theorem or_shiftLeft {a k : Nat} (b : Nat) (h : a < 2 ^ k) : a ||| b <<< k = a + 2 ^ k * b := by
  rw [Nat.lor_comm, ← Nat.shiftLeft_add_eq_or_of_lt h, Nat.shiftLeft_eq]
  ring

theorem shiftLeft_mod (x : UInt8) {k w : Nat} (h : k + 8 ≤ w) :
    x.toNat <<< k % 2 ^ w = x.toNat <<< k := by
  have hx : x.toNat < 2 ^ 8 := x.toNat_lt
  apply Nat.mod_eq_of_lt
  rw [Nat.shiftLeft_eq]
  calc x.toNat * 2 ^ k < 2 ^ 8 * 2 ^ k := Nat.mul_lt_mul_of_pos_right hx (Nat.two_pow_pos k)
    _ = 2 ^ (k + 8) := by rw [pow_add, Nat.mul_comm]
    _ ≤ 2 ^ w := Nat.pow_le_pow_right (by decide) h

theorem and_127 (v : Nat) : v &&& 127 = v % 128 := Nat.and_two_pow_sub_one_eq_mod v 7

theorem or_128 {v : Nat} (h : v < 128) : v ||| 128 = v + 128 := by
  have := or_shiftLeft (k := 7) 1 (by simpa using h)
  simpa using this

end Bytes

/-!
## Blocks of one length

Elements of one length stand one behind the other in a list of octets. A read at the right place
gives one of them, and a write replaces one.
-/

universe u

namespace Blocks

variable {α : Type u} {n : Nat} {a b x y : List α} {pos : Nat}

/-- `n` elements from a place on. -/
def readAt (data : List α) (pos n : Nat) : List α := (data.drop pos).take n

/-- Elements in the place of as many others. -/
def writeAt (data : List α) (pos : Nat) (new : List α) : List α :=
  data.take pos ++ (new ++ data.drop (pos + new.length))

theorem readAt_append (ha : a.length = pos) (hx : x.length = n) :
    readAt (a ++ (x ++ b)) pos n = x := by
  subst ha hx
  simp [readAt]

theorem writeAt_append (ha : a.length = pos) (h : x.length = y.length) :
    writeAt (a ++ (x ++ b)) pos y = a ++ (y ++ b) := by
  subst ha
  simp [writeAt, ← h]

/-- All the blocks have the same length. -/
def Uniform (n : Nat) (l : List (List α)) : Prop := ∀ e ∈ l, e.length = n

namespace Uniform

variable {l r : List (List α)}

theorem append_iff : Uniform n (l ++ r) ↔ Uniform n l ∧ Uniform n r := List.forall_mem_append

theorem cons_iff {e : List α} : Uniform n (e :: l) ↔ e.length = n ∧ Uniform n l :=
  List.forall_mem_cons

theorem length_flatten (h : Uniform n l) : l.flatten.length = l.length * n := by
  induction l with
  | nil => simp
  | cons e l ih =>
    obtain ⟨he, hl⟩ := cons_iff.mp h
    rw [List.flatten_cons, List.length_append, ih hl, he, List.length_cons]
    ring

end Uniform

end Blocks
