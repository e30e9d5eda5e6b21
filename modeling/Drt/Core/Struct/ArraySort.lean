import Drt.Core.Base.Mem
import Drt.Lib.Comparison

/-!
# `Array_c`

The elements of an array stand one behind the other in `data`, and `len` is their size in octets.
`sort_i` works on pointers into `data`, which are distances from its first octet here and may
also lie before it. It copies an element into `pivot` and compares with the copy only; the copy is
overwritten by the calls inside.
-/

open List

namespace Drt

/-- The fields of `Array_c`. -/
structure ArrayC where
  len : UInt32
  data : Blob
  deriving DecidableEq, Repr

/-- `struct sortdata`, without the pivot. The functions get the element behind a pointer. -/
structure SortData where
  tsize : UInt64
  cmpfunc : Blob → Blob → Int32
  xchgfunc : Mem.XchgFunc

namespace SortData

variable {δ : Type}

def cmp_tcmp (el_cmp : Blob → Blob → Int32) (d1 d2 : Blob) : Int32 := el_cmp d1 d2

def cmp_userF (userF : Blob → Blob → Int32) (d1 d2 : Blob) : Int32 := userF d1 d2

def cmp_userD (userD : Blob → Blob → δ → Int32) (userDdata : δ) (d1 d2 : Blob) : Int32 :=
  userD d1 d2 userDdata

def rcmp_tcmp (el_cmp : Blob → Blob → Int32) (d1 d2 : Blob) : Int32 := -el_cmp d1 d2

def rcmp_userF (userF : Blob → Blob → Int32) (d1 d2 : Blob) : Int32 := -userF d1 d2

def rcmp_userD (userD : Blob → Blob → δ → Int32) (userDdata : δ) (d1 d2 : Blob) : Int32 :=
  -userD d1 d2 userDdata

variable (sd : SortData)

/-- A step of a pointer. -/
def step : Int := sd.tsize.toNat

/-- `while (sd->cmpfunc(mi, sd->pivot, sd) < 0) mi += tsize`. -/
def scanUp (data pivot : Blob) : Nat → Int → Call Int
  | 0, _ => .outOfFuel
  | fuel + 1, mi => do
    let d ← Mem.load data mi sd.tsize.toNat
    if sd.cmpfunc d pivot < 0 then scanUp data pivot fuel (mi + sd.step) else .ok mi

/-- `while (sd->cmpfunc(sd->pivot, mj, sd) < 0) mj -= tsize`. -/
def scanDown (data pivot : Blob) : Nat → Int → Call Int
  | 0, _ => .outOfFuel
  | fuel + 1, mj => do
    let d ← Mem.load data mj sd.tsize.toNat
    if sd.cmpfunc pivot d < 0 then scanDown data pivot fuel (mj - sd.step) else .ok mj

/-- `do { … } while (mi <= mj)`: the array, `mi` and `mj` after it. -/
def partitionLoop (pivot : Blob) : Nat → Blob → Int → Int → Call (Blob × Int × Int)
  | 0, _, _, _ => .outOfFuel
  | fuel + 1, data, mi, mj => do
    let mi ← sd.scanUp data pivot fuel mi
    let mj ← sd.scanDown data pivot fuel mj
    if mi < mj then do
      let data ← sd.xchgfunc fuel data mi mj sd.tsize
      let mi := mi + sd.step
      let mj := mj - sd.step
      if mi ≤ mj then partitionLoop pivot fuel data mi mj else .ok (data, mi, mj)
    else if mi = mj then .ok (data, mi + sd.step, mj - sd.step)
    else .ok (data, mi, mj)

/-- `beg+(end-beg)/tsize/2*tsize`. -/
def middle (beg theEnd : Int) : Int := beg + (theEnd - beg) / sd.step / 2 * sd.step

def sort_i : Nat → Blob → Int → Int → Call Blob
  | 0, _, _, _ => .outOfFuel
  | fuel + 1, data, beg, theEnd =>
    if sd.tsize = 0 then .fault
    else do
      let pivot ← Mem.load data (sd.middle beg theEnd) sd.tsize.toNat
      let (data, mi, mj) ← sd.partitionLoop pivot fuel data beg theEnd
      let data ← if beg < mj then sort_i fuel data beg mj else .ok data
      if mi < theEnd then sort_i fuel data mi theEnd else .ok data

end SortData

namespace ArrayC

open SortData

variable {δ : Type}

/-- What the sort functions have in common. -/
def sortWith (cmpfunc : Blob → Blob → Int32) (ar : ArrayC) (tsize : UInt64) (fuel : Nat) :
    Call ArrayC :=
  if ar.len.toUInt64 ≤ tsize then .ok ar
  else do
    let sd : SortData := ⟨tsize, cmpfunc, Mem.getXchgFunc tsize⟩
    let data ← sd.sort_i fuel ar.data 0 (ar.len.toNat - tsize.toNat)
    .ok { ar with data := data }

def sort_g (el_cmp : Blob → Blob → Int32) : ArrayC → UInt64 → Nat → Call ArrayC :=
  sortWith (cmp_tcmp el_cmp)

def sortF_g (f : Blob → Blob → Int32) : ArrayC → UInt64 → Nat → Call ArrayC :=
  sortWith (cmp_userF f)

def sortD_g (f : Blob → Blob → δ → Int32) (pass : δ) : ArrayC → UInt64 → Nat → Call ArrayC :=
  sortWith (cmp_userD f pass)

def rsort_g (el_cmp : Blob → Blob → Int32) : ArrayC → UInt64 → Nat → Call ArrayC :=
  sortWith (rcmp_tcmp el_cmp)

def rsortF_g (f : Blob → Blob → Int32) : ArrayC → UInt64 → Nat → Call ArrayC :=
  sortWith (rcmp_userF f)

def rsortD_g (f : Blob → Blob → δ → Int32) (pass : δ) : ArrayC → UInt64 → Nat → Call ArrayC :=
  sortWith (rcmp_userD f pass)

end ArrayC

end Drt

/-!
## Sorting an array

The range of a pass falls into what has been passed from the left, what is between the cursors
and what has been passed from the right. As long as nothing has been exchanged the pivot itself
stops both cursors, and after an exchange an element on the other side does. So each cursor stays
in the range, and both parts that are sorted afterwards are shorter than it.
-/

namespace Drt

open Blocks Comparison Outcome

namespace SortData

variable (sd : SortData)

/-- The pointer to the element with this index. -/
def place (index : Int) : Int := index * sd.step

theorem place_add_step (index : Int) : sd.place index + sd.step = sd.place (index + 1) := by
  rw [place, place, Int.add_mul, Int.one_mul]

theorem place_sub_step (index : Int) : sd.place index - sd.step = sd.place (index - 1) := by
  rw [place, place, Int.sub_mul, Int.one_mul]

/-- What is assumed of the data of a sort: elements have octets, the right function exchanges
them, and the comparison has its laws. -/
structure Good (sd : SortData) : Prop where
  pos : 0 < sd.tsize.toNat
  xchgfunc : sd.xchgfunc = Mem.getXchgFunc sd.tsize
  cmpfunc : IsComparisonOn (fun d1 d2 => (sd.cmpfunc d1 d2).toInt) {d | d.length = sd.tsize.toNat}

/-- The comparison with the sign in an `Int`. -/
def cmp (d1 d2 : Blob) : Int := (sd.cmpfunc d1 d2).toInt

/-- These are elements of the array. -/
abbrev Elements (l : List Blob) : Prop := Uniform sd.tsize.toNat l

variable {sd} (hsd : sd.Good)

include hsd

theorem step_pos : 0 < sd.step := Int.natCast_pos.mpr hsd.pos

theorem place_lt_iff {i j : Int} : sd.place i < sd.place j ↔ i < j :=
  Int.mul_lt_mul_right (step_pos hsd)

theorem place_le_iff {i j : Int} : sd.place i ≤ sd.place j ↔ i ≤ j :=
  Int.mul_le_mul_right (step_pos hsd)

theorem place_inj {i j : Int} : sd.place i = sd.place j ↔ i = j :=
  Int.mul_eq_mul_right_iff (step_pos hsd).ne'

omit hsd in
theorem cmpfunc_lt_iff {d1 d2 : Blob} : sd.cmpfunc d1 d2 < 0 ↔ sd.cmp d1 d2 < 0 :=
  Int32.lt_iff_toInt_lt

section Access

variable {L M R : List Blob} {x y z : Blob}

omit hsd in
theorem length_flatten_eq_place (hL : sd.Elements L) :
    (L.flatten.length : Int) = sd.place L.length := by
  rw [hL.length_flatten, place, step]
  push_cast
  rfl

omit hsd in
theorem load_element (hL : sd.Elements L) (hx : x.length = sd.tsize.toNat) :
    Mem.load (L ++ x :: R).flatten (sd.place L.length) sd.tsize.toNat = .ok x := by
  rw [flatten_append, flatten_cons]
  exact Mem.load_append hx (length_flatten_eq_place hL).symm

/-- An exchange of two elements. -/
theorem xchgfunc_returns (hL : sd.Elements L) (hM : sd.Elements M) (hx : x.length = sd.tsize.toNat)
    (hy : y.length = sd.tsize.toNat) {mi mj : Int} (hmi : mi = sd.place L.length)
    (hmj : mj = sd.place (L.length + 1 + M.length)) :
    Returns (fun fuel => sd.xchgfunc fuel (L ++ x :: (M ++ y :: R)).flatten mi mj sd.tsize)
      (L ++ y :: (M ++ x :: R)).flatten := by
  have hmid := hM.length_flatten
  simp only [hsd.xchgfunc, flatten_append, flatten_cons]
  refine Mem.getXchgFunc_returns hsd.pos hx hy (hmi.trans (length_flatten_eq_place hL).symm) ?_
  rw [hmj, length_flatten_eq_place hL, length_flatten_eq_place hM, hx]
  simp only [place, step]
  ring

end Access

omit hsd

section Scans

variable {L S R els : List Blob} {z pivot : Blob}

/-- The first cursor passes smaller elements. -/
theorem scanUp_returns (hels : sd.Elements els) (heq : els = L ++ (S ++ z :: R))
    (hS : ∀ d ∈ S, sd.cmp d pivot < 0) (hz : ¬ sd.cmp z pivot < 0) {i : Int}
    (hi : i = sd.place L.length) :
    Returns (fun fuel => sd.scanUp els.flatten pivot fuel i)
      (sd.place (L.length + S.length)) := by
  induction S generalizing L i with
  | nil =>
    subst heq hi
    obtain ⟨hL, hrest⟩ := Uniform.append_iff.mp hels
    refine Returns.of_succ_ok fun fuel => ?_
    rw [scanUp, nil_append, load_element hL (Uniform.cons_iff.mp hrest).1, ok_bind,
      if_neg (cmpfunc_lt_iff.not.mpr hz)]
    simp
  | cons d S ih =>
    obtain ⟨hd, hS⟩ := forall_mem_cons.mp hS
    have hnext := ih (L := L ++ [d]) (i := i + sd.step) (heq.trans (by simp)) hS
      (by rw [hi, place_add_step]; simp)
    have hindex : ((L ++ [d]).length : Int) + S.length = L.length + (d :: S).length := by
      simp only [length_append, length_cons, length_nil]
      omega
    rw [hindex] at hnext
    subst heq hi
    obtain ⟨hL, hrest⟩ := Uniform.append_iff.mp hels
    refine hnext.of_succ fun fuel => ?_
    rw [scanUp, cons_append, load_element hL (Uniform.cons_iff.mp hrest).1, ok_bind,
      if_pos (cmpfunc_lt_iff.mpr hd)]

/-- The second cursor passes greater elements. -/
theorem scanDown_returns (hels : sd.Elements els) (heq : els = L ++ z :: (S ++ R))
    (hS : ∀ d ∈ S, sd.cmp pivot d < 0) (hz : ¬ sd.cmp pivot z < 0) {j : Int}
    (hj : j = sd.place (L.length + S.length)) :
    Returns (fun fuel => sd.scanDown els.flatten pivot fuel j) (sd.place L.length) := by
  induction S using List.reverseRecOn generalizing R j with
  | nil =>
    subst heq hj
    obtain ⟨hL, hrest⟩ := Uniform.append_iff.mp hels
    refine Returns.of_succ_ok fun fuel => ?_
    rw [scanDown, length_nil, Int.natCast_zero, Int.add_zero,
      load_element hL (Uniform.cons_iff.mp hrest).1, ok_bind, if_neg (cmpfunc_lt_iff.not.mpr hz)]
  | append_singleton S d ih =>
    obtain ⟨hS, hd⟩ := forall_mem_append.mp hS
    have hnext := ih (R := d :: R) (j := j - sd.step) (heq.trans (by simp)) hS
      (by rw [hj, place_sub_step]; congr 1; simp; omega)
    have hbefore : els = (L ++ z :: S) ++ d :: R := heq.trans (by simp)
    have hplace : j = sd.place (L ++ z :: S).length := by
      rw [hj]
      congr 1
      simp
    rw [hbefore] at hels hnext ⊢
    obtain ⟨hL, hrest⟩ := Uniform.append_iff.mp hels
    refine hnext.of_succ fun fuel => ?_
    rw [scanDown, hplace, load_element hL (Uniform.cons_iff.mp hrest).1, ok_bind,
      if_pos (cmpfunc_lt_iff.mpr (hd d (mem_singleton_self d)))]

end Scans

/-- The three parts of a range after a partition. The middle one is left as it is. -/
structure Parted (sd : SortData) (pivot : Blob) (range X Y Z : List Blob) : Prop where
  perm : (X ++ (Y ++ Z)).Perm range
  single : Y.length ≤ 1
  low : ∀ d ∈ X ++ Y, sd.cmp d pivot ≤ 0
  high : ∀ d ∈ Y ++ Z, sd.cmp pivot d ≤ 0
  /-- The calls inside are for shorter ranges. -/
  left : X.length < range.length
  right : Z.length < range.length

/-- The parts of a range are those of one with the same elements. -/
theorem Parted.of_perm {pivot : Blob} {range range' X Y Z : List Blob}
    (h : sd.Parted pivot range X Y Z) (hperm : range.Perm range') :
    sd.Parted pivot range' X Y Z where
  perm := h.perm.trans hperm
  single := h.single
  low := h.low
  high := h.high
  left := hperm.length_eq ▸ h.left
  right := hperm.length_eq ▸ h.right

/-- What holds before a pass: `A` has been passed from the left, `C` from the right, and there is
something on both sides that stops the other cursor. -/
structure Passing (sd : SortData) (pivot : Blob) (A B C : List Blob) : Prop where
  low : ∀ d ∈ A, sd.cmp d pivot ≤ 0
  high : ∀ d ∈ C, sd.cmp pivot d ≤ 0
  stops : A ≠ [] ∧ C ≠ [] ∨ A = [] ∧ C = [] ∧ pivot ∈ B

section Partition

variable {pivot x y : Blob} {A B C S M T L R : List Blob}

theorem cmp_swap (hsd : sd.Good) {d e : Blob} (hd : d.length = sd.tsize.toNat)
    (he : e.length = sd.tsize.toNat) : sd.cmp e d = -sd.cmp d e :=
  hsd.cmpfunc.swap d hd e he

/-- Both cursors have something to stop at when they pass each other. -/
theorem Passing.stops_crossed (h : sd.Passing pivot A (S ++ T) C) (hsd : sd.Good)
    (hpivot : pivot.length = sd.tsize.toNat) (hS : ∀ d ∈ S, sd.cmp d pivot < 0)
    (hT : ∀ d ∈ T, sd.cmp pivot d < 0) : A ++ S ≠ [] ∧ T ++ C ≠ [] := by
  obtain ⟨hA, hC⟩ | ⟨-, -, hmem⟩ := h.stops
  · exact ⟨fun h => hA (append_eq_nil_iff.mp h).1, fun h => hC (append_eq_nil_iff.mp h).2⟩
  · have hrefl : sd.cmp pivot pivot = 0 := hsd.cmpfunc.refl hpivot
    rcases mem_append.mp hmem with hmem | hmem
    · have := hS pivot hmem
      omega
    · have := hT pivot hmem
      omega

theorem perm_exchange : (A ++ (S ++ [y]) ++ (M ++ (x :: (T ++ C)))).Perm
    (A ++ (S ++ x :: (M ++ y :: T) ++ C)) := by
  have hswap : ([y] ++ (M ++ (x :: (T ++ C)))).Perm ([x] ++ (M ++ (y :: (T ++ C)))) := by
    have hy : ([y] ++ (M ++ (x :: (T ++ C)))).Perm (y :: x :: (M ++ (T ++ C))) :=
      List.Perm.cons y perm_middle
    have hx : ([x] ++ (M ++ (y :: (T ++ C)))).Perm (x :: y :: (M ++ (T ++ C))) :=
      List.Perm.cons x perm_middle
    exact (hy.trans (List.Perm.swap x y _)).trans hx.symm
  simpa using (hswap.append_left S).append_left A

/-- An exchange leaves something to stop at on both sides. -/
theorem Passing.exchange (h : sd.Passing pivot A (S ++ x :: (M ++ y :: T)) C)
    (hS : ∀ d ∈ S, sd.cmp d pivot ≤ 0) (hT : ∀ d ∈ T, sd.cmp pivot d ≤ 0)
    (hx : sd.cmp pivot x ≤ 0) (hy : sd.cmp y pivot ≤ 0) :
    sd.Passing pivot (A ++ (S ++ [y])) M (x :: (T ++ C)) where
  low := by
    simp only [forall_mem_append, forall_mem_singleton]
    exact ⟨h.low, hS, hy⟩
  high := by
    simp only [forall_mem_append, forall_mem_cons]
    exact ⟨hx, hT, h.high⟩
  stops := Or.inl ⟨by simp, by simp⟩

variable {mi mi' mj mj' : Int} {result : Blob × Int × Int}

/-- A pass in which the cursors do not come together. -/
theorem partitionLoop_apart {els els' : List Blob}
    (hup : Returns (fun fuel => sd.scanUp els.flatten pivot fuel mi) mi')
    (hdown : Returns (fun fuel => sd.scanDown els.flatten pivot fuel mj) mj') (hlt : mi' < mj')
    (hxchg : Returns (fun fuel => sd.xchgfunc fuel els.flatten mi' mj' sd.tsize) els'.flatten)
    (hnext : Returns (fun fuel => if mi' + sd.step ≤ mj' - sd.step then
      sd.partitionLoop pivot fuel els'.flatten (mi' + sd.step) (mj' - sd.step)
      else .ok (els'.flatten, mi' + sd.step, mj' - sd.step)) result) :
    Returns (fun fuel => sd.partitionLoop pivot fuel els.flatten mi mj) result := by
  refine Returns.pass (fun fuel => by rw [partitionLoop]) hup (hdown.bind ?_)
  simp only [if_pos hlt]
  exact hxchg.bind hnext

theorem partitionLoop_together {els : List Blob}
    (hup : Returns (fun fuel => sd.scanUp els.flatten pivot fuel mi) mi')
    (hdown : Returns (fun fuel => sd.scanDown els.flatten pivot fuel mj) mj') (hle : mj' ≤ mi') :
    Returns (fun fuel => sd.partitionLoop pivot fuel els.flatten mi mj)
      (if mi' = mj' then (els.flatten, mi' + sd.step, mj' - sd.step)
        else (els.flatten, mi', mj')) := by
  refine Returns.pass (fun fuel => by rw [partitionLoop]) hup (hdown.bind ?_)
  simp only [if_neg (Int.not_lt.mpr hle)]
  split_ifs
  · exact Returns.ok _
  · exact Returns.ok _

/-- The cursors pass each other. -/
theorem partitionLoop_crossed (hsd : sd.Good) (hpivot : pivot.length = sd.tsize.toNat)
    (hels : sd.Elements (L ++ (A ++ (S ++ T ++ (C ++ R))))) (hpass : sd.Passing pivot A (S ++ T) C)
    (hS : ∀ d ∈ S, sd.cmp d pivot < 0) (hT : ∀ d ∈ T, sd.cmp pivot d < 0)
    (hmi : mi = sd.place (L.length + A.length))
    (hmj : mj = sd.place (L.length + A.length + (S ++ T).length - 1)) :
    Returns (fun fuel =>
        sd.partitionLoop pivot fuel (L ++ (A ++ (S ++ T ++ (C ++ R)))).flatten mi mj)
      ((L ++ (A ++ (S ++ T ++ (C ++ R)))).flatten, sd.place (L.length + A.length + S.length),
        sd.place (L.length + A.length + S.length - 1)) := by
  obtain ⟨hleft, hright⟩ := hpass.stops_crossed hsd hpivot hS hT
  obtain ⟨z, W, hz⟩ := exists_cons_of_ne_nil hright
  obtain ⟨V, y, hy⟩ := (eq_nil_or_concat _).resolve_left hleft
  rw [concat_eq_append] at hy
  have hlength := congrArg List.length hy
  simp only [length_append, length_singleton] at hlength
  have hmem : ∀ d ∈ A ++ S ++ (T ++ C), d.length = sd.tsize.toNat := by
    intro d hd
    refine hels d ?_
    simp only [mem_append] at hd ⊢
    tauto
  have hzstop : ¬ sd.cmp z pivot < 0 := by
    have hzmem : z ∈ T ++ C := by simp [hz]
    have hle : sd.cmp pivot z ≤ 0 := by
      rcases mem_append.mp hzmem with h | h
      · exact (hT z h).le
      · exact hpass.high z h
    have := cmp_swap hsd hpivot (hmem z (mem_append_right _ hzmem))
    omega
  have hystop : ¬ sd.cmp pivot y < 0 := by
    have hymem : y ∈ A ++ S := by simp [hy]
    have hle : sd.cmp y pivot ≤ 0 := by
      rcases mem_append.mp hymem with h | h
      · exact hpass.low y h
      · exact (hS y h).le
    have := cmp_swap hsd (hmem y (mem_append_left _ hymem)) hpivot
    omega
  have hup := scanUp_returns (L := L ++ A) (S := S) (z := z) (R := W ++ R) (i := mi) hels
    (by rw [← cons_append, ← hz]; simp) hS hzstop (by rw [hmi]; simp)
  have hdown := scanDown_returns (L := L ++ V) (S := T) (z := y) (R := C ++ R) (j := mj) hels
    (by
      have : A ++ (S ++ T ++ (C ++ R)) = (A ++ S) ++ (T ++ (C ++ R)) := by simp
      rw [this, hy]
      simp) hT hystop (by rw [hmj]; congr 1; simp only [length_append]; omega)
  have hplace : ((L ++ V).length : Int) = L.length + A.length + S.length - 1 := by
    simp only [length_append]
    omega
  have hplace' : ((L ++ A).length : Int) + S.length = L.length + A.length + S.length := by simp
  rw [hplace] at hdown
  rw [hplace'] at hup
  have hpass := partitionLoop_together hup hdown ((place_le_iff hsd).mpr (by omega))
  rwa [if_neg ((place_inj hsd).not.mpr (by omega))] at hpass

/-- The cursors meet. -/
theorem partitionLoop_met (hels : sd.Elements (L ++ (A ++ (S ++ x :: T ++ (C ++ R)))))
    (hS : ∀ d ∈ S, sd.cmp d pivot < 0) (hT : ∀ d ∈ T, sd.cmp pivot d < 0)
    (hx : ¬ sd.cmp x pivot < 0) (hx' : ¬ sd.cmp pivot x < 0)
    (hmi : mi = sd.place (L.length + A.length))
    (hmj : mj = sd.place (L.length + A.length + (S ++ x :: T).length - 1)) :
    Returns (fun fuel =>
        sd.partitionLoop pivot fuel (L ++ (A ++ (S ++ x :: T ++ (C ++ R)))).flatten mi mj)
      ((L ++ (A ++ (S ++ x :: T ++ (C ++ R)))).flatten,
        sd.place (L.length + A.length + S.length + 1),
        sd.place (L.length + A.length + S.length - 1)) := by
  have hup := scanUp_returns (L := L ++ A) (S := S) (z := x) (R := T ++ (C ++ R)) (i := mi) hels
    (by simp) hS hx (by rw [hmi]; simp)
  have hdown := scanDown_returns (L := L ++ A ++ S) (S := T) (z := x) (R := C ++ R) (j := mj) hels
    (by simp) hT hx' (by
      rw [hmj]
      congr 1
      simp only [length_append, length_cons]
      omega)
  have hplace : ((L ++ A ++ S).length : Int) = L.length + A.length + S.length := by
    simp only [length_append]
    omega
  have hplace' : ((L ++ A).length : Int) + S.length = L.length + A.length + S.length := by simp
  rw [hplace] at hdown
  rw [hplace'] at hup
  have hpass := partitionLoop_together hup hdown (Int.le_refl _)
  rwa [if_pos rfl, place_add_step, place_sub_step] at hpass

/-- The cursors stop at two elements, which are exchanged. -/
theorem partitionLoop_exchange (hsd : sd.Good)
    (hels : sd.Elements (L ++ (A ++ (S ++ x :: (M ++ y :: T) ++ (C ++ R)))))
    (hS : ∀ d ∈ S, sd.cmp d pivot < 0) (hT : ∀ d ∈ T, sd.cmp pivot d < 0)
    (hx : ¬ sd.cmp x pivot < 0) (hy : ¬ sd.cmp pivot y < 0)
    (hmi : mi = sd.place (L.length + A.length))
    (hmj : mj = sd.place (L.length + A.length + (S ++ x :: (M ++ y :: T)).length - 1))
    (hnext : Returns (fun fuel =>
      if M = [] then
        .ok ((L ++ (A ++ (S ++ [y]) ++ (M ++ (x :: (T ++ C) ++ R)))).flatten,
          sd.place (L.length + (A ++ (S ++ [y])).length),
          sd.place (L.length + (A ++ (S ++ [y])).length + M.length - 1))
      else sd.partitionLoop pivot fuel (L ++ (A ++ (S ++ [y]) ++ (M ++ (x :: (T ++ C) ++ R)))).flatten
        (sd.place (L.length + (A ++ (S ++ [y])).length))
        (sd.place (L.length + (A ++ (S ++ [y])).length + M.length - 1))) result) :
    Returns (fun fuel => sd.partitionLoop pivot fuel
      (L ++ (A ++ (S ++ x :: (M ++ y :: T) ++ (C ++ R)))).flatten mi mj) result := by
  have hup := scanUp_returns (L := L ++ A) (S := S) (z := x)
    (R := M ++ y :: T ++ (C ++ R)) (i := mi) hels (by simp) hS hx (by rw [hmi]; simp)
  have hdown := scanDown_returns (L := L ++ A ++ S ++ x :: M) (S := T) (z := y) (R := C ++ R)
    (j := mj) hels (by simp) hT hy (by
      rw [hmj]
      congr 1
      simp only [length_append, length_cons]
      omega)
  have hplace : ((L ++ A).length : Int) + S.length = (L ++ A ++ S).length := by
    simp only [length_append]
    omega
  have hplace' : ((L ++ A ++ S ++ x :: M).length : Int) =
      (L ++ A ++ S).length + 1 + M.length := by
    simp only [length_append, length_cons]
    omega
  rw [hplace] at hup
  rw [hplace'] at hdown
  have hbefore : L ++ (A ++ (S ++ x :: (M ++ y :: T) ++ (C ++ R))) =
      L ++ A ++ S ++ x :: (M ++ y :: (T ++ (C ++ R))) := by simp
  have hafter : L ++ A ++ S ++ y :: (M ++ x :: (T ++ (C ++ R))) =
      L ++ (A ++ (S ++ [y]) ++ (M ++ (x :: (T ++ C) ++ R))) := by simp
  rw [hbefore] at hels hup hdown ⊢
  obtain ⟨hL, hels⟩ := Uniform.append_iff.mp hels
  obtain ⟨hxlen, hels⟩ := Uniform.cons_iff.mp hels
  obtain ⟨hM, hels⟩ := Uniform.append_iff.mp hels
  have hxchg := xchgfunc_returns (R := T ++ (C ++ R)) hsd hL hM hxlen
    (Uniform.cons_iff.mp hels).1 rfl rfl
  rw [hafter] at hxchg
  have hmi' : sd.place (L ++ A ++ S).length + sd.step =
      sd.place (L.length + (A ++ (S ++ [y])).length) := by
    rw [place_add_step]
    congr 1
    simp only [length_append, length_singleton]
    omega
  have hmj' : sd.place ((L ++ A ++ S).length + 1 + M.length) - sd.step =
      sd.place (L.length + (A ++ (S ++ [y])).length + M.length - 1) := by
    rw [place_sub_step]
    congr 1
    simp only [length_append, length_singleton]
    omega
  have hM : ¬ M = [] ↔ sd.place (L.length + (A ++ (S ++ [y])).length) ≤
      sd.place (L.length + (A ++ (S ++ [y])).length + M.length - 1) := by
    rw [place_le_iff hsd, ← ne_eq, ← length_pos_iff]
    omega
  refine partitionLoop_apart hup hdown ((place_lt_iff hsd).mpr (by omega)) hxchg ?_
  rw [hmi', hmj']
  simp only [← hM, ite_not]
  exact hnext

/-- The range is partitioned, whatever stands between the cursors. -/
theorem partitionLoop_returns (hsd : sd.Good) (hpivot : pivot.length = sd.tsize.toNat)
    (hels : sd.Elements (L ++ (A ++ (B ++ (C ++ R))))) (hB : B ≠ []) (hpass : sd.Passing pivot A B C)
    {i j : Int} (hi : i = sd.place (L.length + A.length))
    (hj : j = sd.place (L.length + A.length + B.length - 1)) :
    ∃ X Y Z, sd.Parted pivot (A ++ (B ++ C)) X Y Z ∧
      Returns (fun fuel =>
          sd.partitionLoop pivot fuel (L ++ (A ++ (B ++ (C ++ R)))).flatten i j)
        ((L ++ (X ++ (Y ++ (Z ++ R)))).flatten, sd.place (L.length + X.length + Y.length),
          sd.place (L.length + X.length - 1)) := by
  induction hn : B.length using Nat.strong_induction_on generalizing A B C i j with
  | h n ih =>
    have hmem : ∀ d ∈ A ++ (B ++ C), d.length = sd.tsize.toNat := by
      intro d hd
      refine hels d ?_
      simp only [mem_append] at hd ⊢
      tauto
    cases ends (fun d => sd.cmp d pivot < 0) (fun d => sd.cmp pivot d < 0) B with
    | crossed S T hS hT =>
      obtain ⟨hleft, hright⟩ := hpass.stops_crossed hsd hpivot hS hT
      refine ⟨A ++ S, [], T ++ C, ⟨by simp, by simp, ?_, ?_, ?_, ?_⟩, ?_⟩
      · simp only [append_nil, forall_mem_append]
        exact ⟨hpass.low, fun d hd => (hS d hd).le⟩
      · simp only [nil_append, forall_mem_append]
        exact ⟨fun d hd => (hT d hd).le, hpass.high⟩
      · have := length_pos_iff.mpr hright
        simp only [length_append] at this ⊢
        omega
      · have := length_pos_iff.mpr hleft
        simp only [length_append] at this ⊢
        omega
      · have hlast := partitionLoop_crossed hsd hpivot hels hpass hS hT hi hj
        convert hlast using 3
        · simp
        · simp only [length_append, length_nil]
          congr 1
          omega
        · simp only [length_append]
          congr 1
          omega
    | met S T x hS hT hx hx' =>
      have hxlen : x.length = sd.tsize.toNat := hmem x (by simp)
      have hswap := cmp_swap hsd hpivot hxlen
      refine ⟨A ++ S, [x], T ++ C, ⟨by simp, by simp, ?_, ?_, ?_, ?_⟩, ?_⟩
      · simp only [forall_mem_append, forall_mem_singleton]
        exact ⟨⟨hpass.low, fun d hd => (hS d hd).le⟩, by omega⟩
      · simp only [forall_mem_append, forall_mem_singleton]
        exact ⟨by omega, fun d hd => (hT d hd).le, hpass.high⟩
      · simp only [length_append, length_cons]
        omega
      · simp only [length_append, length_cons]
        omega
      · have hlast := partitionLoop_met hels hS hT hx hx' hi hj
        convert hlast using 3
        · simp
        · simp only [length_append, length_singleton]
          congr 1
          omega
        · simp only [length_append]
          congr 1
          omega
    | apart S M T x y hS hT hx hy =>
      have hxswap := cmp_swap hsd hpivot (hmem x (by simp))
      have hyswap := cmp_swap hsd hpivot (hmem y (by simp))
      have hexchange := hpass.exchange (fun d hd => (hS d hd).le) (fun d hd => (hT d hd).le)
        (by omega) (by omega)
      by_cases hM : M = []
      · -- Nothing is left between the cursors.
        subst hM
        refine ⟨A ++ (S ++ [y]), [], x :: (T ++ C), ⟨perm_exchange, by simp, ?_, ?_, ?_, ?_⟩, ?_⟩
        · rw [append_nil]
          exact hexchange.low
        · exact hexchange.high
        · simp only [length_append, length_cons, length_nil]
          omega
        · simp only [length_append, length_cons, length_nil]
          omega
        · refine partitionLoop_exchange hsd hels hS hT hx hy hi hj ?_
          simp only [if_true, length_nil, Int.natCast_zero, Int.add_zero]
          exact Returns.ok _
      · have hels' : sd.Elements (L ++ (A ++ (S ++ [y]) ++ (M ++ (x :: (T ++ C) ++ R)))) := by
          intro d hd
          refine hels d ?_
          simp only [mem_append, mem_cons] at hd ⊢
          tauto
        obtain ⟨X, Y, Z, hparted, hreturns⟩ := ih M.length
          (by rw [← hn]; simp only [length_append, length_cons]; omega)
          hels' hM hexchange rfl rfl rfl
        refine ⟨X, Y, Z, hparted.of_perm perm_exchange, ?_⟩
        refine partitionLoop_exchange hsd hels hS hT hx hy hi hj ?_
        simpa only [if_neg hM] using hreturns

end Partition

/-- What is the result of a sort of some elements between others. -/
def Sorts (sd : SortData) (L m R : List Blob) (run : Nat → Call Blob) : Prop :=
  ∃ m', Returns run (L ++ (m' ++ R)).flatten ∧ m'.Perm m ∧ Sorted sd.cmp m'

section Ranges

variable {m L R : List Blob}

/-- A range of at most one element is not sorted. -/
theorem sorts_part {run : Nat → Call Blob} {beg theEnd : Int} (hsd : sd.Good)
    (hbeg : beg = L.length) (hend : theEnd = L.length + m.length - 1)
    (hsort : 2 ≤ m.length → sd.Sorts L m R run) :
    sd.Sorts L m R fun fuel =>
      if sd.place beg < sd.place theEnd then run fuel else .ok (L ++ (m ++ R)).flatten := by
  by_cases h : 2 ≤ m.length
  · obtain ⟨m', hrun, hperm, hsorted⟩ := hsort h
    refine ⟨m', ?_, hperm, hsorted⟩
    simpa only [if_pos ((place_lt_iff hsd).mpr (by omega : beg < theEnd))] using hrun
  · refine ⟨m, ?_, List.Perm.refl m, ?_⟩
    · simp only [if_neg ((place_lt_iff hsd).not.mpr (by omega : ¬ beg < theEnd))]
      exact Returns.ok _
    · match m, h with
      | [], _ => exact List.Pairwise.nil
      | [d], _ => exact pairwise_singleton _ d
      | _ :: _ :: _, h => simp at h

/-- The pivot is the element in the middle of the range. -/
theorem load_middle (hsd : sd.Good) (hels : sd.Elements (L ++ (m ++ R))) (hm : m ≠ []) :
    ∃ pivot ∈ m, pivot.length = sd.tsize.toNat ∧
      Mem.load (L ++ (m ++ R)).flatten
        (sd.middle (sd.place L.length) (sd.place (L.length + m.length - 1))) sd.tsize.toNat =
          .ok pivot := by
  have hlen := length_pos_iff.mpr hm
  obtain ⟨M, p, N, rfl, hM⟩ : ∃ M p N, m = M ++ p :: N ∧ M.length = (m.length - 1) / 2 := by
    refine ⟨m.take ((m.length - 1) / 2), m[(m.length - 1) / 2], m.drop ((m.length - 1) / 2 + 1),
      ?_, length_take_of_le (by omega)⟩
    rw [getElem_cons_drop, take_append_drop]
  have hmiddle : sd.middle (sd.place L.length) (sd.place (L.length + (M ++ p :: N).length - 1)) =
      sd.place (L ++ M).length := by
    have hdiff : sd.place (L.length + (M ++ p :: N).length - 1) - sd.place L.length =
        ((M ++ p :: N).length - 1 : Int) * sd.step := by
      simp only [place]
      ring
    rw [middle, hdiff, Int.mul_ediv_cancel _ (step_pos hsd).ne', place, place, ← Int.add_mul]
    congr 1
    simp only [length_append, length_cons] at hM ⊢
    omega
  have hsplit : L ++ (M ++ p :: N ++ R) = L ++ M ++ p :: (N ++ R) := by simp
  rw [hsplit] at hels ⊢
  obtain ⟨hL, hp⟩ := Uniform.append_iff.mp hels
  have hplen := (Uniform.cons_iff.mp hp).1
  refine ⟨p, by simp, hplen, ?_⟩
  rw [hmiddle]
  exact load_element hL hplen

/-- The range is sorted. -/
theorem sort_i_sorts (hsd : sd.Good) (hels : sd.Elements (L ++ (m ++ R))) (hm : m ≠ []) :
    sd.Sorts L m R fun fuel => sd.sort_i fuel (L ++ (m ++ R)).flatten (sd.place L.length)
      (sd.place (L.length + m.length - 1)) := by
  induction hn : m.length using Nat.strong_induction_on generalizing L m R with
  | h n ih =>
    obtain ⟨pivot, hmem, hpivot, hload⟩ := load_middle hsd hels hm
    rw [hn] at hload
    have hstart : sd.Passing pivot [] m [] :=
      ⟨by simp, by simp, Or.inr ⟨rfl, rfl, hmem⟩⟩
    obtain ⟨X, Y, Z, hparted, hpartition⟩ := partitionLoop_returns (A := []) (C := [])
      (i := sd.place L.length) (j := sd.place (L.length + n - 1)) hsd hpivot
      (by simpa using hels) hm hstart (by simp) (by simp [hn])
    rw [nil_append, append_nil] at hparted
    have hlength := hparted.perm.length_eq
    have hleft := hparted.left
    have hright := hparted.right
    simp only [length_append, hn] at hlength hleft hright
    have hpart : ∀ d ∈ X ++ (Y ++ Z), d.length = sd.tsize.toNat := fun d hd =>
      hels d (mem_append_right L (mem_append_left R (hparted.perm.mem_iff.mp hd)))
    have hL : sd.Elements L := (Uniform.append_iff.mp hels).1
    have hR : sd.Elements R := (Uniform.append_iff.mp (Uniform.append_iff.mp hels).2).2
    obtain ⟨hX, hYZ⟩ := Uniform.append_iff.mp hpart
    obtain ⟨hY, hZ⟩ := Uniform.append_iff.mp hYZ
    -- The part on the left is sorted first, and the one on the right is where it was.
    obtain ⟨X', hrunX, hpermX, hsortedX⟩ := sorts_part (L := L) (m := X) (R := Y ++ (Z ++ R))
      hsd rfl rfl fun h2 => ih X.length hleft
        (Uniform.append_iff.mpr ⟨hL, Uniform.append_iff.mpr
          ⟨hX, Uniform.append_iff.mpr ⟨hY, Uniform.append_iff.mpr ⟨hZ, hR⟩⟩⟩⟩)
        (ne_nil_of_length_pos (by omega)) rfl
    have hX' : sd.Elements X' := fun d hd => hX d (hpermX.mem_iff.mp hd)
    have hXlength := hpermX.length_eq
    have hindex : ((L ++ (X' ++ Y)).length : Int) = L.length + X.length + Y.length := by
      simp only [length_append]
      omega
    obtain ⟨Z', hrunZ, hpermZ, hsortedZ⟩ := sorts_part (L := L ++ (X' ++ Y)) (m := Z) (R := R)
      hsd rfl rfl fun h2 => ih Z.length hright
        (Uniform.append_iff.mpr ⟨Uniform.append_iff.mpr ⟨hL, Uniform.append_iff.mpr ⟨hX', hY⟩⟩,
          Uniform.append_iff.mpr ⟨hZ, hR⟩⟩)
        (ne_nil_of_length_pos (by omega)) rfl
    have hend : ((L ++ (X' ++ Y)).length : Int) + Z.length - 1 = L.length + n - 1 := by omega
    have hjoin : L ++ (X' ++ (Y ++ (Z ++ R))) = L ++ (X' ++ Y) ++ (Z ++ R) := by simp
    rw [hjoin] at hrunX
    rw [hend, hindex] at hrunZ
    refine ⟨X' ++ (Y ++ Z'), ?_, ?_, ?_⟩
    · have hall : Returns (fun fuel =>
          sd.partitionLoop pivot fuel (L ++ ([] ++ (m ++ ([] ++ R)))).flatten (sd.place L.length)
              (sd.place (L.length + n - 1)) >>= fun r =>
            (if sd.place L.length < r.2.2 then sd.sort_i fuel r.1 (sd.place L.length) r.2.2
              else .ok r.1) >>= fun data =>
                if r.2.1 < sd.place (L.length + n - 1) then
                  sd.sort_i fuel data r.2.1 (sd.place (L.length + n - 1))
                else .ok data) (L ++ (X' ++ Y) ++ (Z' ++ R)).flatten :=
        hpartition.bind (hrunX.bind hrunZ)
      have hresult : L ++ (X' ++ (Y ++ Z') ++ R) = L ++ (X' ++ Y) ++ (Z' ++ R) := by simp
      have htsize : sd.tsize ≠ 0 := fun h => by
        have hpos := hsd.pos
        rw [h] at hpos
        exact absurd hpos (by decide)
      rw [hresult]
      refine hall.of_succ fun fuel => ?_
      rw [sort_i, if_neg htsize, hload, ok_bind]
      congr 1
      funext ⟨data, mi, mj⟩
      by_cases h : sd.place L.length < mj
      · simp only [if_pos h]
      · simp only [if_neg h]
    · exact (hpermX.append (hpermZ.append_left Y)).trans hparted.perm
    · refine Sorted.join (p := pivot) hsd.cmpfunc hpivot ?_ ?_ hsortedX ?_ hsortedZ ?_ ?_
      · exact forall_mem_append.mpr ⟨hX', hY⟩
      · exact forall_mem_append.mpr ⟨hY, fun d hd => hZ d (hpermZ.mem_iff.mp hd)⟩
      · match Y, hparted.single with
        | [], _ => exact List.Pairwise.nil
        | [d], _ => exact pairwise_singleton _ d
        | _ :: _ :: _, h => simp at h
      · intro d hd
        refine hparted.low d ?_
        simp only [mem_append, hpermX.mem_iff] at hd ⊢
        exact hd
      · intro d hd
        refine hparted.high d ?_
        simp only [mem_append, hpermZ.mem_iff] at hd ⊢
        exact hd

end Ranges

end SortData

namespace ArrayC

open SortData

/-- The array holds these elements, one behind the other. -/
structure Holds (ar : ArrayC) (tsize : UInt64) (els : List Blob) : Prop where
  pos : 0 < tsize.toNat
  data : ar.data = els.flatten
  len : ar.len.toNat = ar.data.length
  size : Uniform tsize.toNat els

/-- A sort returns, and the array holds the same elements in this order after it. -/
def Sorts (cmp : Blob → Blob → Int) (els : List Blob) (ar : ArrayC) (run : Nat → Call ArrayC) :
    Prop :=
  ∃ els', Returns run { ar with data := els'.flatten } ∧ els'.Perm els ∧ Sorted cmp els'

variable {ar : ArrayC} {tsize : UInt64} {els : List Blob} {cmpfunc : Blob → Blob → Int32}

/-- The elements of an array, compared by an `int`. -/
abbrev Compares (tsize : UInt64) (f : Blob → Blob → Int32) : Prop :=
  IsComparisonOn (fun d1 d2 => (f d1 d2).toInt) {d | d.length = tsize.toNat}

/-- Any sort of an array. -/
theorem sortWith_sorts (h : ar.Holds tsize els) (hcmp : Compares tsize cmpfunc) :
    Sorts (fun d1 d2 => (cmpfunc d1 d2).toInt) els ar (sortWith cmpfunc ar tsize) := by
  have hlen : ar.len.toNat = els.length * tsize.toNat := by
    rw [h.len, h.data, h.size.length_flatten]
  by_cases hshort : ar.len.toUInt64 ≤ tsize
  · have hle : els.length * tsize.toNat ≤ 1 * tsize.toNat := by
      have := UInt64.le_iff_toNat_le.mp hshort
      rw [UInt32.toNat_toUInt64] at this
      omega
    have hone := Nat.le_of_mul_le_mul_right hle h.pos
    refine ⟨els, ?_, List.Perm.refl els, ?_⟩
    · rw [← h.data]
      exact Returns.of_eq fun fuel => by rw [sortWith, if_pos hshort]
    · match els, hone with
      | [], _ => exact List.Pairwise.nil
      | [d], _ => exact pairwise_singleton _ d
      | _ :: _ :: _, hone => simp at hone
  · have hne : els ≠ [] := fun hnil => by
      subst hnil
      refine hshort (UInt64.le_iff_toNat_le.mpr ?_)
      rw [UInt32.toNat_toUInt64, hlen]
      simp
    have hgood : SortData.Good ⟨tsize, cmpfunc, Mem.getXchgFunc tsize⟩ := ⟨h.pos, rfl, hcmp⟩
    obtain ⟨els', hrun, hperm, hsorted⟩ := sort_i_sorts (L := []) (R := []) hgood
      (by simpa using h.size) hne
    refine ⟨els', ?_, hperm, hsorted⟩
    have hend : SortData.place ⟨tsize, cmpfunc, Mem.getXchgFunc tsize⟩
        (([] : List Blob).length + els.length - 1) = ar.len.toNat - tsize.toNat := by
      rw [SortData.place, SortData.step, hlen]
      simp only [length_nil]
      push_cast
      ring
    have hbeg : SortData.place ⟨tsize, cmpfunc, Mem.getXchgFunc tsize⟩
        (([] : List Blob).length) = 0 := Int.zero_mul _
    rw [hend, hbeg, nil_append, append_nil, append_nil, nil_append,
      ← h.data] at hrun
    have hall : Returns (fun fuel => SortData.sort_i ⟨tsize, cmpfunc, Mem.getXchgFunc tsize⟩ fuel
        ar.data 0 (ar.len.toNat - tsize.toNat) >>= fun data => .ok { ar with data := data })
        { ar with data := els'.flatten } := hrun.bind (Returns.ok _)
    refine hall.congr fun fuel => ?_
    rw [sortWith, if_neg hshort]

/-- The order of a comparison. -/
def Ascending (f : Blob → Blob → Int32) : Blob → Blob → Int := fun d1 d2 => (f d1 d2).toInt

/-- The other order. -/
def Descending (f : Blob → Blob → Int32) : Blob → Blob → Int := fun d1 d2 => (f d2 d1).toInt

variable {f : Blob → Blob → Int32}

theorem Compares.toInt_neg (h : Compares tsize f) {d1 d2 : Blob} (h1 : d1.length = tsize.toNat)
    (h2 : d2.length = tsize.toNat) : (-f d1 d2).toInt = -(f d1 d2).toInt := by
  have hsign := h.unit d1 h1 d2 h2
  rw [Int32.toInt_neg]
  exact Int.bmod_eq_of_le (by omega) (by omega)

theorem Compares.neg (h : Compares tsize f) : Compares tsize fun d1 d2 => -f d1 d2 :=
  IsComparisonOn.congr (IsComparisonOn.neg h) fun _ h1 _ h2 => h.toInt_neg h1 h2

theorem sortWith_neg_sorts (h : ar.Holds tsize els) (hcmp : Compares tsize f) :
    Sorts (Descending f) els ar (sortWith (fun d1 d2 => -f d1 d2) ar tsize) := by
  obtain ⟨els', hrun, hperm, hsorted⟩ := sortWith_sorts h hcmp.neg
  have hsize : Uniform tsize.toNat els' := fun d hd => h.size d (hperm.mem_iff.mp hd)
  refine ⟨els', hrun, hperm, List.Pairwise.imp_of_mem ?_ hsorted⟩
  intro d1 d2 h1 h2 hle
  change (-f d1 d2).toInt ≤ 0 at hle
  rw [hcmp.toInt_neg (hsize d1 h1) (hsize d2 h2)] at hle
  exact (hcmp.swap d1 (hsize d1 h1) d2 (hsize d2 h2)).trans_le hle

/-- Every sort function returns, without an access outside the array, and leaves the elements in
its order. -/
theorem sorts {δ : Type} (h : ar.Holds tsize els) {f : Blob → Blob → Int32}
    (hf : Compares tsize f) {g : Blob → Blob → δ → Int32} (pass : δ)
    (hg : Compares tsize fun d1 d2 => g d1 d2 pass) :
    Sorts (Ascending f) els ar (sort_g f ar tsize) ∧
      Sorts (Ascending f) els ar (sortF_g f ar tsize) ∧
      Sorts (Ascending fun d1 d2 => g d1 d2 pass) els ar (sortD_g g pass ar tsize) ∧
      Sorts (Descending f) els ar (rsort_g f ar tsize) ∧
      Sorts (Descending f) els ar (rsortF_g f ar tsize) ∧
      Sorts (Descending fun d1 d2 => g d1 d2 pass) els ar (rsortD_g g pass ar tsize) :=
  ⟨sortWith_sorts h hf, sortWith_sorts h hf, sortWith_sorts h hg, sortWith_neg_sorts h hf,
    sortWith_neg_sorts h hf, sortWith_neg_sorts h hg⟩

/-- The comparison of the numbers that two elements denote. -/
def tcmp (d1 d2 : Blob) : Int32 :=
  if Bytes.leValue d1 < Bytes.leValue d2 then -1
  else if Bytes.leValue d2 < Bytes.leValue d1 then 1 else 0

theorem toInt_tcmp (d1 d2 : Blob) : (tcmp d1 d2).toInt =
    if Bytes.leValue d1 < Bytes.leValue d2 then -1
    else if Bytes.leValue d2 < Bytes.leValue d1 then 1 else 0 := by
  unfold tcmp
  split_ifs <;> rfl

theorem compares_tcmp (tsize : UInt64) : Compares tsize tcmp where
  unit d1 _ d2 _ := by
    rw [toInt_tcmp]
    split_ifs <;> simp
  swap d1 _ d2 _ := by
    simp only [toInt_tcmp]
    split_ifs <;> omega
  trans d1 _ d2 _ d3 _ := by
    simp only [toInt_tcmp]
    split_ifs <;> omega

/-- Three elements of two octets. -/
theorem sorts_three : Sorts (Ascending tcmp) [[3, 0], [1, 0], [2, 0]] ⟨6, [3, 0, 1, 0, 2, 0]⟩
    (sort_g tcmp ⟨6, [3, 0, 1, 0, 2, 0]⟩ 2) := by
  have h : Holds ⟨6, [3, 0, 1, 0, 2, 0]⟩ 2 [[3, 0], [1, 0], [2, 0]] :=
    ⟨by decide, rfl, rfl, by simp [Uniform]⟩
  exact (sorts h (compares_tcmp 2) (g := fun d1 d2 (_ : Unit) => tcmp d1 d2) ()
    (compares_tcmp 2)).1

end ArrayC

end Drt
