import Drt.Core.Types.StringKeeps
import Drt.Lib.Machine

/-!
# Who shares the data of strings

The count of data is the number of strings that have them, less one: data that one string has
alone have the count zero. The null data and the empty data are never given up. So data are there
as long as a string has them, and go with the last one.
-/

open List Outcome

namespace Drt

open StrData

namespace Strings

variable {c : CharSize} {s s' s'' : Strings c} {a b e x y : Nat} {d d' : StrData c}
  {hand : List Nat} {garbage : Nat → Nat → StrChar c}

/-- How many have these data: strings, and the operation that is under way, with those in hand.
The static data have two more. -/
def owners (s : Strings c) (hand : List Nat) (a : Nat) : Nat :=
  s.strs.count (some a) + hand.count a + if a ≤ zeroData then 2 else 0

/-- Data are counted, and those that somebody has are there. -/
structure Sound (s : Strings c) (hand : List Nat) : Prop where
  counted : ∀ a d, s.cell a = some d → d.refcnt + 1 = owners s hand a
  live : ∀ a, 0 < owners s hand a → ∃ d, s.cell a = some d
  room : ∀ a d, s.cell a = some d → zeroData < a → 0 < d.al
  static : ∀ a d, s.cell a = some d → a ≤ zeroData → d.size = 0 ∧ d.al ≤ 0
  inside : ∀ a d, s.cell a = some d → zeroData < a → d.size < StrData.roundsize c d.al.toNat

/-- Only the counts change, or data go. -/
structure Released (s s' : Strings c) : Prop where
  strs : s'.strs = s.strs
  length : s'.cells.length = s.cells.length
  cell : ∀ a d', s'.cell a = some d' → ∃ d, s.cell a = some d ∧ d' = { d with refcnt := d'.refcnt }

@[simp] theorem strs_put (s : Strings c) (a : Nat) (e : Option (StrData c)) :
    (s.put a e).strs = s.strs := rfl

@[simp] theorem owners_put (s : Strings c) (b : Nat) (e : Option (StrData c)) (hand : List Nat)
    (a : Nat) : owners (s.put b e) hand a = owners s hand a := rfl

theorem cell_lt (h : s.cell a = some d) : a < s.cells.length := by
  by_contra hge
  rw [cell, List.getElem?_eq_none (by omega)] at h
  cases h

theorem owners_cons (s : Strings c) (hand : List Nat) (a b : Nat) :
    owners s (b :: hand) a = owners s hand a + if b = a then 1 else 0 := by
  rw [owners, owners, count_cons]
  simp only [beq_iff_eq]
  omega

theorem owners_cons_self (s : Strings c) (hand : List Nat) (a : Nat) :
    owners s (a :: hand) a = owners s hand a + 1 := by
  rw [owners_cons, if_pos rfl]

theorem owners_cons_of_ne (h : b ≠ a) : owners s (b :: hand) a = owners s hand a := by
  rw [owners_cons, if_neg h, Nat.add_zero]

theorem owners_pos (h : s.data x = .ok a) (hand : List Nat) : 0 < owners s hand a := by
  have hmem : some a ∈ s.strs := by
    have hjoin := data_eq_ok.mp h
    cases hx : s.strs[x]? with
    | none => simp [hx] at hjoin
    | some o =>
      rw [hx, Option.join_some] at hjoin
      exact hjoin ▸ mem_of_getElem? hx
  have hcount := count_pos_iff.mpr hmem
  rw [owners]
  omega

theorem owners_push (s : Strings c) (hand : List Nat) (a b : Nat) :
    owners (s.push b) hand a = owners s (b :: hand) a := by
  rw [owners_cons, owners, owners, push, count_append, count_singleton]
  simp only [beq_iff_eq, Option.some.injEq]
  omega

theorem getElem_of_data (h : s.data x = .ok b) :
    ∃ hx : x < s.strs.length, s.strs[x] = some b := by
  have hjoin := data_eq_ok.mp h
  cases hx : s.strs[x]? with
  | none => simp [hx] at hjoin
  | some o =>
    rw [hx, Option.join_some] at hjoin
    obtain ⟨hlt, hget⟩ := List.getElem?_eq_some_iff.mp hx
    exact ⟨hlt, hget.trans hjoin⟩

/-- A string that gets what was in hand leaves its former data there. -/
theorem owners_setData (h : s.data x = .ok b) (hand : List Nat) (a e : Nat) :
    owners (s.setData x e) (b :: hand) a = owners s (e :: hand) a := by
  obtain ⟨hx, hget⟩ := getElem_of_data h
  rw [owners_cons, owners_cons, owners, owners, setData, count_set hx, hget]
  simp only [beq_iff_eq, Option.some.injEq]
  have hpos : b = a → 0 < s.strs.count (some a) := by
    rintro rfl
    exact count_pos_iff.mpr (hget ▸ getElem_mem hx)
  generalize (if a ≤ zeroData then 2 else 0) = own
  by_cases hb : b = a
  · have := hpos hb
    rw [if_pos hb]
    omega
  · rw [if_neg hb]
    omega

/-- A string that is destroyed leaves its data in hand. -/
theorem owners_destroyed (h : s.data x = .ok b) (hand : List Nat) (a : Nat) :
    owners { s with strs := s.strs.set x none } (b :: hand) a = owners s hand a := by
  obtain ⟨hx, hget⟩ := getElem_of_data h
  rw [owners_cons, owners, owners, count_set hx, hget]
  have hpos : b = a → 0 < s.strs.count (some a) := by
    rintro rfl
    exact count_pos_iff.mpr (hget ▸ getElem_mem hx)
  simp only [beq_iff_eq, Option.some.injEq, reduceCtorEq, if_false, Nat.add_zero]
  generalize (if a ≤ zeroData then 2 else 0) = own
  by_cases hb : b = a
  · have := hpos hb
    rw [if_pos hb]
    omega
  · rw [if_neg hb]
    omega

namespace Released

theorem trans (h : Released s s') (h' : Released s' s'') : Released s s'' := by
  refine ⟨h'.strs.trans h.strs, h'.length.trans h.length, fun a d'' hd'' => ?_⟩
  obtain ⟨d', hd', heq'⟩ := h'.cell a d'' hd''
  obtain ⟨d, hd, heq⟩ := h.cell a d' hd'
  refine ⟨d, hd, ?_⟩
  rw [heq', heq]

end Released

namespace Sound

theorem of_owners (h : Sound s hand) {hand' : List Nat} (hcells : s'.cells = s.cells)
    (howners : ∀ a, owners s' hand' a = owners s hand a) : Sound s' hand' := by
  have hcell (a : Nat) : s'.cell a = s.cell a := by rw [cell, cell, hcells]
  refine ⟨fun a d hd => ?_, fun a ha => ?_, fun a d hd => ?_, fun a d hd => ?_, fun a d hd => ?_⟩
  · rw [howners]
    exact h.counted a d (hcell a ▸ hd)
  · rw [hcell]
    exact h.live a (howners a ▸ ha)
  · exact h.room a d (hcell a ▸ hd)
  · exact h.static a d (hcell a ▸ hd)
  · exact h.inside a d (hcell a ▸ hd)

theorem push (h : Sound s (a :: hand)) : Sound (s.push a) hand :=
  h.of_owners rfl fun b => owners_push s hand b a

theorem setData (h : Sound s (a :: hand)) (hx : s.data x = .ok b) :
    Sound (s.setData x a) (b :: hand) :=
  h.of_owners rfl fun e => owners_setData hx hand e a

section

variable (h : Sound s hand)
include h

theorem destroyed (hx : s.data x = .ok b) :
    Sound { s with strs := s.strs.set x none } (b :: hand) :=
  h.of_owners rfl (owners_destroyed hx hand)

theorem exists_cell (hx : s.data x = .ok a) : ∃ d, s.cell a = some d :=
  h.live a (owners_pos hx hand)

theorem refcnt_nonneg (hx : s.data x = .ok a) (hd : s.cell a = some d) : 0 ≤ d.refcnt := by
  have hcount := h.counted a d hd
  have hpos := owners_pos hx hand
  omega

/-- Data that one string has alone are not the static ones, and no other string has them. -/
theorem alone (hx : s.data x = .ok a) (hd : s.cell a = some d) (hrefcnt : d.refcnt = 0) :
    zeroData < a ∧ ∀ y, s.data y = .ok a → y = x := by
  have hcount := h.counted a d hd
  rw [hrefcnt, owners] at hcount
  obtain ⟨hlt, hget⟩ := getElem_of_data hx
  have hmem : some a ∈ s.strs := hget ▸ getElem_mem hlt
  have hpos := count_pos_iff.mpr hmem
  have hone : s.strs.count (some a) = 1 := by
    split_ifs at hcount <;> omega
  refine ⟨?_, fun y hy => ?_⟩
  · by_contra hle
    rw [if_pos (Nat.le_of_not_lt hle)] at hcount
    omega
  · obtain ⟨hlt', hget'⟩ := getElem_of_data hy
    by_contra hne
    -- the string would still have the data after the other one has lost them
    have hlost : (s.strs.set x none).count (some a) = 0 := by
      rw [count_set hlt, hget, hone]
      simp
    have hstill : some a ∈ s.strs.set x none := by
      rw [mem_iff_getElem]
      refine ⟨y, by rwa [length_set], ?_⟩
      rw [getElem_set_ne (Ne.symm hne), hget']
    exact absurd (count_pos_iff.mpr hstill) (by omega)

/-- Data are written, whose count stays. -/
theorem put (hd : s.cell a = some d) (hrefcnt : d'.refcnt = d.refcnt) (hal : d'.al = d.al)
    (hsize : d'.size = d.size ∨
      zeroData < a ∧ d'.size < roundsize c d.al.toNat) :
    Sound (s.put a (some d')) hand := by
  refine ⟨fun b e he => ?_, fun b hb => ?_, fun b e he hlt => ?_, fun b e he hle => ?_,
    fun b e he hlt => ?_⟩
  · rw [owners_put]
    rcases cell_put_cases hd he with ⟨rfl, heq⟩ | he
    · cases heq
      rw [hrefcnt]
      exact h.counted b d hd
    · exact h.counted b e he
  · by_cases hba : b = a
    · subst hba
      exact ⟨d', cell_put_self hd _⟩
    · rw [cell_put_of_ne hba]
      exact h.live b hb
  · rcases cell_put_cases hd he with ⟨rfl, heq⟩ | he
    · cases heq
      rw [hal]
      exact h.room b d hd hlt
    · exact h.room b e he hlt
  · rcases cell_put_cases hd he with ⟨rfl, heq⟩ | he
    · cases heq
      rw [hal, hsize.resolve_right fun hdynamic => Nat.not_lt.mpr hle hdynamic.1]
      exact h.static b d hd hle
    · exact h.static b e he hle
  · rcases cell_put_cases hd he with ⟨rfl, heq⟩ | he
    · cases heq
      rw [hal]
      rcases hsize with hsame | ⟨-, hinside⟩
      · rw [hsame]
        exact h.inside b d hd hlt
      · exact hinside
    · exact h.inside b e he hlt

/-- The count of data goes up or down with those who have them. -/
theorem recount (hd : s.cell a = some d) {hand' : List Nat} {n : Int}
    (hself : n + 1 = owners s hand' a) (hothers : ∀ b, b ≠ a → owners s hand' b = owners s hand b) :
    Sound (s.put a (some { d with refcnt := n })) hand' := by
  refine ⟨fun b e he => ?_, fun b hb => ?_, fun b e he hlt => ?_, fun b e he hle => ?_,
    fun b e he hlt => ?_⟩
  · rw [owners_put]
    by_cases hba : b = a
    · subst hba
      rw [cell_put_self hd] at he
      cases he
      exact hself
    · rw [cell_put_of_ne hba] at he
      rw [hothers b hba]
      exact h.counted b e he
  · by_cases hba : b = a
    · subst hba
      exact ⟨_, cell_put_self hd _⟩
    · rw [cell_put_of_ne hba]
      rw [owners_put, hothers b hba] at hb
      exact h.live b hb
  · rcases cell_put_cases hd he with ⟨rfl, heq⟩ | he
    · cases heq
      exact h.room b d hd hlt
    · exact h.room b e he hlt
  · rcases cell_put_cases hd he with ⟨rfl, heq⟩ | he
    · cases heq
      exact h.static b d hd hle
    · exact h.static b e he hle
  · rcases cell_put_cases hd he with ⟨rfl, heq⟩ | he
    · cases heq
      exact h.inside b d hd hlt
    · exact h.inside b e he hlt

end

theorem released_put (hd : s.cell a = some d) (n : Int) :
    Released s (s.put a (some { d with refcnt := n })) := by
  refine ⟨rfl, by simp [Strings.put], fun b e he => ?_⟩
  rcases cell_put_cases hd he with ⟨rfl, heq⟩ | he
  · cases heq
    exact ⟨d, hd, rfl⟩
  · exact ⟨e, he, rfl⟩

theorem refDg (h : Sound s hand) (hd : s.cell a = some d) :
    ∃ s', s.refDg a = .ok s' ∧ Sound s' (a :: hand) ∧ Released s s' ∧
      ∀ b, b ≠ a → s'.cell b = s.cell b := by
  have hcount := h.counted a d hd
  refine ⟨_, by rw [Strings.refDg, load_eq_ok.mpr hd]; rfl, h.recount hd ?_ fun b hb => ?_,
    released_put hd _, fun b hb => cell_put_of_ne hb _⟩
  · rw [owners_cons_self]
    omega
  · exact owners_cons_of_ne (Ne.symm hb)

/-- `unrefDg` gives up what is in hand. -/
theorem unrefDg (h : Sound s (a :: hand)) :
    ∃ s', s.unrefDg a = .ok s' ∧ Sound s' hand ∧ Released s s' ∧
      ∀ b, b ≠ a → s'.cell b = s.cell b := by
  obtain ⟨d, hd⟩ := h.live a (by rw [owners_cons_self]; omega)
  have hcount := h.counted a d hd
  rw [owners_cons_self] at hcount
  rw [Strings.unrefDg, load_eq_ok.mpr hd, ok_bind]
  by_cases hmany : 0 < d.refcnt
  · rw [if_pos hmany]
    refine ⟨_, rfl, h.recount hd (by omega) fun b hb => ?_, released_put hd _,
      fun b hb => cell_put_of_ne hb _⟩
    exact (owners_cons_of_ne (Ne.symm hb)).symm
  · -- nobody else has them
    have hnone : owners s hand a = 0 := by omega
    have hdynamic : zeroData < a := by
      by_contra hle
      rw [owners, if_pos (Nat.le_of_not_lt hle)] at hnone
      omega
    rw [if_neg hmany, if_pos (h.room a d hd hdynamic)]
    have hother (b : Nat) (e : StrData c) (he : (s.put a none).cell b = some e) :
        b ≠ a ∧ s.cell b = some e := by
      by_cases hba : b = a
      · subst hba
        rw [cell_put_self hd] at he
        cases he
      · exact ⟨hba, by rwa [cell_put_of_ne hba] at he⟩
    refine ⟨_, rfl, ⟨fun b e he => ?_, fun b hb => ?_, fun b e he => ?_, fun b e he => ?_,
      fun b e he => ?_⟩, ⟨rfl, by simp [Strings.put], fun b e he => ⟨e, (hother b e he).2, rfl⟩⟩,
      fun b hb => cell_put_of_ne hb _⟩
    · obtain ⟨hba, he⟩ := hother b e he
      rw [owners_put, h.counted b e he, owners_cons_of_ne (Ne.symm hba)]
    · have hba : b ≠ a := by
        rintro rfl
        rw [owners_put, hnone] at hb
        exact absurd hb (Nat.lt_irrefl 0)
      rw [cell_put_of_ne hba]
      exact h.live b (by rw [owners_cons_of_ne (Ne.symm hba)]; exact hb)
    · exact h.room b e (hother b e he).2
    · exact h.static b e (hother b e he).2
    · exact h.inside b e (hother b e he).2

theorem two_le (h : Sound s hand) : zeroData < s.cells.length := by
  obtain ⟨d, hd⟩ := h.live zeroData (by rw [owners, if_pos (Nat.le_refl _)]; omega)
  exact cell_lt hd

theorem owners_new (h : Sound s hand) : owners s hand s.cells.length = 0 := by
  by_contra hne
  obtain ⟨d, hd⟩ := h.live _ (Nat.pos_of_ne_zero hne)
  exact absurd (cell_lt hd) (Nat.lt_irrefl _)

end Sound

/-- Strings with data more. -/
def grown (s : Strings c) (n : StrData c) : Strings c := { s with cells := s.cells ++ [some n] }

theorem cell_grown_new (s : Strings c) (n : StrData c) :
    (s.grown n).cell s.cells.length = some n := by
  simp [grown, cell]

theorem cell_grown_of_lt (h : a < s.cells.length) (n : StrData c) :
    (s.grown n).cell a = s.cell a := by
  simp [grown, cell, List.getElem?_append_left h]

/-- Data that are there are the new ones or former ones. -/
theorem cell_grown_cases {n : StrData c} (h : (s.grown n).cell a = some d) :
    a = s.cells.length ∧ d = n ∨ a < s.cells.length ∧ s.cell a = some d := by
  have hlt := cell_lt h
  rw [grown, length_append, length_singleton] at hlt
  by_cases ha : a < s.cells.length
  · exact .inr ⟨ha, cell_grown_of_lt ha n ▸ h⟩
  · obtain rfl : a = s.cells.length := by omega
    rw [cell_grown_new] at h
    exact .inl ⟨rfl, (Option.some.inj h).symm⟩

theorem unrefDg_strs (strs : List (Option Nat)) (hrun : s.unrefDg a = .ok s') :
    ({ s with strs := strs } : Strings c).unrefDg a = .ok { s' with strs := strs } := by
  obtain ⟨d, hd, hcases⟩ := bind_eq_ok.mp hrun
  have hd' : ({ s with strs := strs } : Strings c).load a = .ok d := hd
  rw [unrefDg, hd', ok_bind]
  split_ifs at hcases ⊢ with hmany hroom
  · rw [← ok.inj hcases]
    rfl
  · rw [← ok.inj hcases]
    rfl

namespace Sound

/-- New data are in hand. -/
theorem grown (h : Sound s hand) {n : StrData c} (hrefcnt : n.refcnt = 0) (hal : 0 < n.al)
    (hsize : n.size < roundsize c n.al.toNat) :
    Sound (s.grown n) (s.cells.length :: hand) := by
  have howners (a : Nat) (ha : a ≠ s.cells.length) :
      owners (s.grown n) (s.cells.length :: hand) a = owners s hand a :=
    owners_cons_of_ne (Ne.symm ha)
  refine ⟨fun a d hd => ?_, fun a ha => ?_, fun a d hd hlt => ?_, fun a d hd hle => ?_,
    fun a d hd hlt => ?_⟩
  · rcases cell_grown_cases hd with ⟨rfl, rfl⟩ | ⟨hlt, hd⟩
    · rw [owners_cons_self, hrefcnt]
      change (0 : Int) + 1 = (owners s hand s.cells.length + 1 : Nat)
      rw [h.owners_new]
      rfl
    · rw [howners a (Nat.ne_of_lt hlt)]
      exact h.counted a d hd
  · by_cases hnew : a = s.cells.length
    · exact ⟨n, hnew ▸ cell_grown_new s n⟩
    · rw [howners a hnew] at ha
      obtain ⟨d, hd⟩ := h.live a ha
      exact ⟨d, (cell_grown_of_lt (cell_lt hd) n).trans hd⟩
  · rcases cell_grown_cases hd with ⟨rfl, rfl⟩ | ⟨-, hd⟩
    · exact hal
    · exact h.room a d hd hlt
  · rcases cell_grown_cases hd with ⟨rfl, rfl⟩ | ⟨-, hd⟩
    · exact absurd h.two_le (Nat.not_lt.mpr hle)
    · exact h.static a d hd hle
  · rcases cell_grown_cases hd with ⟨rfl, rfl⟩ | ⟨-, hd⟩
    · exact hsize
    · exact h.inside a d hd hlt

theorem i_setNoref (h : Sound s (a :: hand)) (hx : s.data x = .ok b) :
    ∃ s', s.i_setNoref x a = .ok s' ∧ Sound s' hand ∧ Released (s.setData x a) s' ∧
      ∀ e, e ≠ b → s'.cell e = s.cell e := by
  obtain ⟨s', hrun, hsound, hreleased, hothers⟩ := (h.setData hx).unrefDg
  refine ⟨s', ?_, hsound, hreleased, hothers⟩
  have hunref : s.unrefDg b = .ok { s' with strs := s.strs } :=
    unrefDg_strs (s := s.setData x a) s.strs hrun
  rw [Strings.i_setNoref, hx, ok_bind, hunref, ok_bind]
  change ok ({ s' with strs := (s.setData x a).strs } : Strings c) = .ok s'
  rw [← hreleased.strs]

/-- `i_setDoref` gives a string data that are there. -/
theorem i_setDoref (h : Sound s hand) (hx : s.data x = .ok b) (hd : s.cell a = some d) :
    ∃ s', s.i_setDoref x a = .ok s' ∧ Sound s' hand ∧ Released (s.setData x a) s' := by
  obtain ⟨s₁, hrun₁, hsound₁, hreleased₁, -⟩ := h.refDg hd
  have hx₁ : s₁.data x = .ok b := by rw [Strings.data, hreleased₁.strs]; exact hx
  obtain ⟨s', hrun, hsound, hreleased, -⟩ := hsound₁.i_setNoref hx₁
  refine ⟨s', ?_, hsound, ?_⟩
  · rw [Strings.i_setNoref, hx₁] at hrun
    rw [Strings.i_setDoref, hx, ok_bind, hrun₁]
    exact hrun
  · have hset : Released (s.setData x a) (s₁.setData x a) := by
      refine ⟨?_, hreleased₁.length, hreleased₁.cell⟩
      simp only [Strings.setData, hreleased₁.strs]
    exact hset.trans hreleased

end Sound

theorem le_roundsize (c : CharSize) (n : Nat) : n ≤ roundsize c n := by
  unfold roundsize
  cases c <;> simp only [CharSize.perLong] <;> omega

theorem roundsize_le (c : CharSize) {n m : Nat} (h : n ≤ m) :
    roundsize c n ≤ roundsize c m := by
  unfold roundsize
  exact Nat.mul_le_mul_right _ (Nat.div_le_div_right (by omega))

theorem data_setData_self (hx : s.data x = .ok b) (a : Nat) : (s.setData x a).data x = .ok a := by
  obtain ⟨hlt, -⟩ := getElem_of_data hx
  rw [data_eq_ok, Strings.setData, List.getElem?_set_self hlt, Option.join_some]

theorem data_setData_of_ne (h : y ≠ x) (s : Strings c) (a : Nat) :
    (s.setData x a).data y = s.data y := by
  rw [Strings.data, Strings.data, Strings.setData, List.getElem?_set_ne (Ne.symm h)]

theorem cell_i_setNoref (hx : s.data x = .ok b) (hd : s.cell b = some d)
    (hrun : s.i_setNoref x a = .ok s') :
    s'.cell b = if 0 < d.refcnt then some { d with refcnt := d.refcnt - 1 } else none := by
  rw [Strings.i_setNoref, hx, ok_bind] at hrun
  obtain ⟨s₁, hunref, hset⟩ := bind_eq_ok.mp hrun
  rw [Strings.unrefDg, load_eq_ok.mpr hd, ok_bind] at hunref
  cases hset
  change s₁.cell b = _
  split_ifs at hunref ⊢ with hmany hroom
  · rw [← ok.inj hunref]
    exact cell_put_self hd _
  · rw [← ok.inj hunref]
    exact cell_put_self hd _

/-- A string has new data for its own, and its former data have one owner less. -/
structure Renewed (s s' : Strings c) (x : Nat) (n : StrData c) : Prop where
  own : s'.data x = .ok s.cells.length ∧ s'.cell s.cells.length = some n
  data : ∀ y, y ≠ x → s'.data y = s.data y
  other : ∀ a d, ¬ s.data x = .ok a → s.cell a = some d → s'.cell a = some d
  former : ∀ a d, s.data x = .ok a → s.cell a = some d →
    s'.cell a = if 0 < d.refcnt then some { d with refcnt := d.refcnt - 1 } else none

variable {newcsize size : Nat}

/-- `i_setNoref` gives a string new data. -/
theorem Sound.renew (garbage : Nat → Nat → StrChar c) (h : Sound s hand) (hx : s.data x = .ok a)
    {al : Nat} (hal : 0 < al) (hsize : size < roundsize c al)
    (fill : (Nat → StrChar c) → Nat → StrChar c) :
    let n := allocDg (garbage s.cells.length) al size
    ∃ s', (s.newData garbage al size fill >>= fun p => p.2.i_setNoref x p.1) = .ok s' ∧
      Sound s' hand ∧ Renewed s s' x { n with mem := fill n.mem } := by
  intro n
  have hgrown := h.grown (n := { n with mem := fill n.mem }) rfl (Int.natCast_pos.mpr hal) hsize
  obtain ⟨d, hd⟩ := h.exists_cell hx
  have hlt := cell_lt hd
  have hx' : (s.grown { n with mem := fill n.mem }).data x = .ok a := hx
  have hd' := (cell_grown_of_lt hlt { n with mem := fill n.mem }).trans hd
  obtain ⟨s', hrun, hsound, hreleased, hothers⟩ := hgrown.i_setNoref hx'
  have hdata (y : Nat) : s'.data y =
      ((s.grown { n with mem := fill n.mem }).setData x s.cells.length).data y := by
    rw [Strings.data, Strings.data, hreleased.strs]
  refine ⟨s', hrun, hsound, ⟨?_, ?_⟩, fun y hy => ?_, fun e f he hf => ?_, fun e f he hf => ?_⟩
  · rw [hdata]
    exact data_setData_self hx' _
  · rw [hothers _ (by omega)]
    exact cell_grown_new s _
  · rw [hdata]
    exact data_setData_of_ne hy _ _
  · have hne : e ≠ a := by
      rintro rfl
      exact he hx
    rw [hothers e hne, cell_grown_of_lt (cell_lt hf), hf]
  · obtain rfl : a = e := ok.inj (hx.symm.trans he)
    obtain rfl : d = f := Option.some.inj (hd.symm.trans hf)
    exact cell_i_setNoref hx' hd' hrun

/-- Of the former data, what is left has another count at most. -/
theorem Renewed.cell {n : StrData c} (hr : Renewed s s' x n) (hd : s.cell b = some d)
    (hd' : s'.cell b = some d') : d' = { d with refcnt := d'.refcnt } := by
  by_cases hx : s.data x = .ok b
  · have hformer := hr.former b d hx hd
    rw [hd'] at hformer
    split_ifs at hformer
    cases hformer
    rfl
  · obtain rfl := Option.some.inj (hd'.symm.trans (hr.other b d hx hd))
    rfl

/-- The data that `reallocSelf` makes. -/
def moved (garbage : Nat → Nat → StrChar c) (s : Strings c) (newcsize : Nat) (d : StrData c) :
    StrData c :=
  let n := StrData.allocDg (garbage s.cells.length) (newcsize + 1) d.size
  { n with mem := StrData.pcopy n.mem 0 d.mem 0 d.size }

theorem reallocSelf_of_fits (hx : s.data x = .ok a) (hd : s.cell a = some d)
    (hfits : fits d newcsize) : s.reallocSelf garbage x newcsize = .ok s := by
  rw [reallocSelf, hx, ok_bind, load_eq_ok.mpr hd, ok_bind, if_pos hfits]

/-- Where there is no room, `reallocSelf` copies the characters. -/
theorem Sound.reallocSelf (garbage : Nat → Nat → StrChar c) (h : Sound s hand)
    (hx : s.data x = .ok a) (hd : s.cell a = some d) (hsize : d.size ≤ newcsize)
    (hfits : ¬ fits d newcsize) :
    ∃ s', s.reallocSelf garbage x newcsize = .ok s' ∧ Sound s' hand ∧
      Renewed s s' x (moved garbage s newcsize d) := by
  obtain ⟨s', hrun, hsound, hrenewed⟩ := h.renew garbage hx (Nat.succ_pos newcsize)
    (Nat.lt_of_lt_of_le (Nat.lt_succ_of_le hsize) (le_roundsize c (newcsize + 1)))
    fun mem => pcopy mem 0 d.mem 0 d.size
  refine ⟨s', ?_, hsound, hrenewed⟩
  rw [Strings.reallocSelf, hx, ok_bind, load_eq_ok.mpr hd, ok_bind, if_neg hfits,
    reallocSelfDo, hx, ok_bind, load_eq_ok.mpr hd, ok_bind]
  exact hrun

/-- `reallocSelf` leaves the former data, with another count at most. -/
theorem Sound.cell_reallocSelf (h : Sound s hand) (hx : s.data x = .ok a) (hd : s.cell a = some d)
    (hsize : d.size ≤ newcsize) (hrun : s.reallocSelf garbage x newcsize = .ok s')
    {n n' : StrData c} (hn : s.cell b = some n) (hn' : s'.cell b = some n') :
    n' = { n with refcnt := n'.refcnt } := by
  by_cases hfits : fits d newcsize
  · obtain rfl := ok.inj ((reallocSelf_of_fits hx hd hfits).symm.trans hrun)
    obtain rfl := Option.some.inj (hn.symm.trans hn')
    rfl
  · obtain ⟨s₁, hrun₁, -, hrenewed⟩ := h.reallocSelf garbage hx hd hsize hfits
    obtain rfl := ok.inj (hrun₁.symm.trans hrun)
    exact hrenewed.cell hn hn'

/-- After `reallocSelf` a string has its data alone, with room. -/
theorem Sound.reserved (h : Sound s hand) (hx : s.data x = .ok a) (hd : s.cell a = some d)
    (hsize : d.size ≤ newcsize) (hrun : s.reallocSelf garbage x newcsize = .ok s') :
    Sound s' hand ∧ ∀ b e, s'.data x = .ok b → s'.cell b = some e →
      e.refcnt = 0 ∧ (newcsize : Int) < e.al ∧ e.size = d.size := by
  by_cases hfits : fits d newcsize
  · obtain rfl := ok.inj ((reallocSelf_of_fits hx hd hfits).symm.trans hrun)
    refine ⟨h, fun b e hb he => ?_⟩
    obtain rfl : a = b := ok.inj (hx.symm.trans hb)
    obtain rfl : d = e := Option.some.inj (hd.symm.trans he)
    obtain ⟨hrefcnt, hroom⟩ := hfits
    have hpos := h.room a d hd (h.alone hx hd hrefcnt).1
    rw [BitVec.toNat_ofInt] at hroom
    exact ⟨hrefcnt, by omega, rfl⟩
  · obtain ⟨s₁, hrun₁, hsound, hrenewed⟩ := h.reallocSelf garbage hx hd hsize hfits
    obtain rfl := ok.inj (hrun₁.symm.trans hrun)
    refine ⟨hsound, fun b e hb he => ?_⟩
    obtain rfl := ok.inj (hrenewed.own.1.symm.trans hb)
    obtain rfl := Option.some.inj (hrenewed.own.2.symm.trans he)
    refine ⟨rfl, ?_, rfl⟩
    change (newcsize : Int) < ((newcsize + 1 : Nat) : Int)
    omega

theorem ssize_of_lt (h : size < 2 ^ 63) : ssize size = size := by
  rw [ssize, BitVec.toInt_ofNat']
  exact Int.bmod_eq_of_le (by omega) (by omega)

/-- Before any string is constructed, nobody but the static data has the static data. -/
theorem Sound.initial : Sound (initial c) [] := by
  have hcell : ∀ a d, (Strings.initial c).cell a = some d →
      a = nullData ∧ d = .null ∨ a = zeroData ∧ d = .zero := by
    intro a d hd
    match a with
    | 0 => exact .inl ⟨rfl, (Option.some.inj hd).symm⟩
    | 1 => exact .inr ⟨rfl, (Option.some.inj hd).symm⟩
    | a + 2 => cases hd
  refine ⟨fun a d hd => ?_, fun a ha => ?_, fun a d hd hlt => ?_, fun a d hd _ => ?_,
    fun a d hd hlt => ?_⟩
  · obtain ⟨rfl, rfl⟩ | ⟨rfl, rfl⟩ := hcell a d hd <;> rfl
  · match a with
    | 0 => exact ⟨.null, rfl⟩
    | 1 => exact ⟨.zero, rfl⟩
    | a + 2 => exact absurd ha (Nat.lt_irrefl 0)
  · obtain ⟨rfl, -⟩ | ⟨rfl, -⟩ := hcell a d hd
    · exact absurd hlt (by decide)
    · exact absurd hlt (by decide)
  · obtain ⟨-, rfl⟩ | ⟨-, rfl⟩ := hcell a d hd
    · exact ⟨rfl, Int.neg_nonpos_of_nonneg Int.one_nonneg⟩
    · exact ⟨rfl, Int.le_refl 0⟩
  · obtain ⟨rfl, -⟩ | ⟨rfl, -⟩ := hcell a d hd
    · exact absurd hlt (by decide)
    · exact absurd hlt (by decide)

end Strings

end Drt
