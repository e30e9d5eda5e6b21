import Drt.Lib.Bytes
import Drt.Lib.Chain

/-!
# Octets at addresses

Memory as a function from addresses to octets, with reads and writes of several octets and of
words of eight. A word whose value is an address is a link to it, and zero is a link to nothing, so
that lists of memory cells are chains.
-/

/-- The octet at each address. -/
abbrev Memory := Nat → UInt8

namespace Memory

open Bytes

variable {m m' : Memory} {a b n v : Nat} {bs : List UInt8}

/-- `n` octets from an address on. -/
def load (m : Memory) (a n : Nat) : List UInt8 := (List.range' a n).map m

/-- Octets are written from an address on. -/
def store (m : Memory) (a : Nat) (bs : List UInt8) : Memory := fun x =>
  if a ≤ x then bs[x - a]?.getD (m x) else m x

@[simp] theorem length_load (m : Memory) (a n : Nat) : (m.load a n).length = n := by
  simp [load]

theorem getElem?_load {i : Nat} (h : i < n) : (m.load a n)[i]? = some (m (a + i)) := by
  simp [load, h]

theorem store_inside {i : Nat} (h : i < bs.length) : m.store a bs (a + i) = bs[i] := by
  rw [store, if_pos (Nat.le_add_right a i), Nat.add_sub_cancel_left, List.getElem?_eq_getElem h,
    Option.getD_some]

theorem store_outside {x : Nat} (h : x < a ∨ a + bs.length ≤ x) : m.store a bs x = m x := by
  unfold store
  by_cases hle : a ≤ x
  · rw [if_pos hle, List.getElem?_eq_none (by omega), Option.getD_none]
  · rw [if_neg hle]

/-- Two memories have the same octets in a range. -/
def Agree (m m' : Memory) (a n : Nat) : Prop := ∀ x, a ≤ x → x < a + n → m' x = m x

theorem Agree.refl (m : Memory) (a n : Nat) : Agree m m a n := fun _ _ _ => rfl

theorem Agree.mono {k : Nat} (h : Agree m m' a n) (hle : a ≤ b) (hend : b + k ≤ a + n) :
    Agree m m' b k := fun x hx hlt => h x (by omega) (by omega)

theorem agree_store (h : b + n ≤ a ∨ a + bs.length ≤ b) : Agree m (m.store a bs) b n :=
  fun x hle hlt => store_outside (by omega)

theorem Agree.load_eq (h : Agree m m' a n) : m'.load a n = m.load a n := by
  apply List.map_congr_left
  intro x hx
  obtain ⟨hle, hlt⟩ := List.mem_range'_1.mp hx
  exact h x hle hlt

theorem load_store (m : Memory) (a : Nat) (bs : List UInt8) :
    (m.store a bs).load a bs.length = bs := by
  apply List.ext_getElem?
  intro i
  by_cases hi : i < bs.length
  · rw [getElem?_load hi, store_inside hi, List.getElem?_eq_getElem hi]
  · rw [List.getElem?_eq_none (by simp; omega), List.getElem?_eq_none (by omega)]

/-- The word at an address. -/
def loadWord (m : Memory) (a : Nat) : Nat := leValue (m.load a 8)

/-- A word is written. -/
def storeWord (m : Memory) (a v : Nat) : Memory := m.store a (leBytes 8 v)

theorem Agree.loadWord_eq (h : Agree m m' a 8) : m'.loadWord a = m.loadWord a := by
  rw [loadWord, loadWord, h.load_eq]

theorem loadWord_storeWord (m : Memory) (a : Nat) (h : v < 2 ^ 64) :
    (m.storeWord a v).loadWord a = v := by
  have hload := m.load_store a (leBytes 8 v)
  rw [length_leBytes] at hload
  rw [loadWord, storeWord, hload]
  exact leValue_leBytes h

/-- A write of a word agrees with what was there, apart from its eight octets. -/
theorem agree_storeWord (h : b + n ≤ a ∨ a + 8 ≤ b) : Agree m (m.storeWord a v) b n :=
  agree_store (by rwa [length_leBytes])

/-! ### Links -/

/-- What the value of a pointer points to. -/
def pointer (v : Nat) : Option Nat := if v = 0 then none else some v

@[simp] theorem pointer_zero : pointer 0 = none := rfl

theorem pointer_of_pos (h : 0 < v) : pointer v = some v := if_neg (Nat.ne_of_gt h)

/-- The word at an address as a pointer. -/
def link (m : Memory) (a : Nat) : Option Nat := pointer (m.loadWord a)

theorem Agree.link_eq (h : Agree m m' a 8) : m'.link a = m.link a := by
  rw [link, link, h.loadWord_eq]

theorem link_storeWord (m : Memory) (a : Nat) (h : v < 2 ^ 64) :
    (m.storeWord a v).link a = pointer v := by
  rw [link, loadWord_storeWord m a h]

/-- The cells of a chain keep their links if their first words are kept. -/
theorem chain_congr {head : Option Nat} {l : List Nat} (h : Chain m.link head l)
    (hcells : ∀ c ∈ l, Agree m m' c 8) : Chain m'.link head l :=
  h.congr fun c hc => (hcells c hc).link_eq

theorem chain_pos {l : List Nat} (h : Chain m.link (pointer v) l) (hv : 0 < v) :
    ∃ t, l = v :: t ∧ Chain m.link (m.link v) t := by
  rw [pointer_of_pos hv] at h
  exact Chain.some_iff.mp h

/-- The last cell of a chain is linked to the first of another one. -/
theorem chain_storeWord {first : Option Nat} {l l' : List Nat} {last : Nat}
    (h : Chain m.link first (l ++ [last])) (h' : Chain m.link (pointer v) l') (hv : v < 2 ^ 64)
    (hapart : ∀ c ∈ l ++ l', c + 8 ≤ last ∨ last + 8 ≤ c) :
    Chain (m.storeWord last v).link first (l ++ last :: l') := by
  have hne : ∀ c ∈ l ++ l', last ≠ c := by
    rintro c hc rfl
    have hself := hapart last hc
    omega
  have hspliced := Chain.splice h h' (fun hc => hne last (List.mem_append_left _ hc) rfl)
    fun hc => hne last (List.mem_append_right _ hc) rfl
  refine hspliced.congr fun c hc => ?_
  by_cases heq : c = last
  · rw [heq, Function.update_self]
    exact link_storeWord m last hv
  · rw [Function.update_of_ne heq]
    refine (agree_storeWord (hapart c ?_)).link_eq
    simp only [List.mem_append, List.mem_cons] at hc ⊢
    exact hc.imp_right fun hc => hc.resolve_left heq

end Memory
