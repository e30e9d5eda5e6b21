import Drt.Core.Types.StringC

/-!
# What operations on strings leave of data

Most operations leave the characters of data that have a hash value. `lock` and its caller
write to the data of one string, and so do the appending functions in place; data that have no
hash value may be written to in any case.
-/

open Outcome

namespace Drt

namespace Strings

variable {c : CharSize} {s s' s'' : Strings c} {a b x y : Nat} {d d' : StrData c}
  {garbage : Nat → Nat → StrChar c}

theorem cell_put_self (h : s.cell a = some d) (e : Option (StrData c)) :
    (s.put a e).cell a = e := by
  have hlt : a < s.cells.length := by
    by_contra hge
    rw [cell, List.getElem?_eq_none (by omega)] at h
    cases h
  simp [cell, put, hlt]

theorem cell_put_of_ne (h : b ≠ a) (e : Option (StrData c)) : (s.put a e).cell b = s.cell b := by
  simp [cell, put, List.getElem?_set_ne (Ne.symm h)]

theorem cell_put_cases {e : Option (StrData c)} (h : s.cell a = some d)
    (h' : (s.put a e).cell b = some d') : (b = a ∧ e = some d') ∨ s.cell b = some d' := by
  by_cases hb : b = a
  · subst hb
    rw [cell_put_self h] at h'
    exact .inl ⟨rfl, h'⟩
  · rw [cell_put_of_ne hb] at h'
    exact .inr h'

theorem roundsize_zero (c : CharSize) : StrData.roundsize c 0 = 0 := by
  cases c <;> decide

theorem load_eq_ok : s.load a = .ok d ↔ s.cell a = some d := by
  unfold load
  cases s.cell a <;> simp [ofOption]

theorem data_eq_ok : s.data x = .ok a ↔ s.strs[x]?.join = some a := by
  unfold data
  cases s.strs[x]?.join <;> simp [ofOption]

/-- What is left of data: with a hash value they have the one they had, and their characters, if
these are not written to. -/
def Left (written : Prop) (d d' : StrData c) : Prop :=
  d'.al = d.al ∧ (d'.hash = -1 ∨ d'.hash = d.hash ∧ (d'.content = d.content ∨ written))

/-- What is left of all data. New ones have no hash value. -/
structure Keeps (written : Nat → Prop) (s s' : Strings c) : Prop where
  length : s.cells.length ≤ s'.cells.length
  cell : ∀ a d', s'.cell a = some d' →
    (s.cells.length ≤ a ∧ d'.hash = -1) ∨ ∃ d, s.cell a = some d ∧ Left (written a) d d'

theorem Left.refl (written : Prop) (d : StrData c) : Left written d d :=
  ⟨rfl, .inr ⟨rfl, .inl rfl⟩⟩

theorem Left.trans {written : Prop} {d'' : StrData c} (h : Left written d d')
    (h' : Left written d' d'') : Left written d d'' := by
  refine ⟨h'.1.trans h.1, ?_⟩
  rcases h'.2 with hnone | ⟨hhash', hcontent'⟩
  · exact .inl hnone
  · rcases h.2 with hnone | ⟨hhash, hcontent⟩
    · exact .inl (hhash'.trans hnone)
    · refine .inr ⟨hhash'.trans hhash, ?_⟩
      rcases hcontent' with hcontent' | hwritten
      · exact hcontent.imp_left hcontent'.trans
      · exact .inr hwritten

namespace Keeps

variable {written : Nat → Prop}

theorem of_cells (h : s'.cells = s.cells) : Keeps written s s' := by
  refine ⟨Nat.le_of_eq (by rw [h]), fun a d' hd' => .inr ⟨d', ?_, .refl _ d'⟩⟩
  rwa [Strings.cell, h] at hd'

theorem refl (s : Strings c) : Keeps written s s := of_cells rfl

theorem trans (h : Keeps written s s') (h' : Keeps written s' s'') : Keeps written s s'' := by
  refine ⟨Nat.le_trans h.length h'.length, fun a d'' hd'' => ?_⟩
  rcases h'.cell a d'' hd'' with ⟨hnew, hnone⟩ | ⟨d', hd', hleft'⟩
  · exact .inl ⟨Nat.le_trans h.length hnew, hnone⟩
  · rcases h.cell a d' hd' with ⟨hnew, hnone⟩ | ⟨d, hd, hleft⟩
    · refine .inl ⟨hnew, ?_⟩
      rcases hleft'.2 with hnone' | ⟨hhash, -⟩
      · exact hnone'
      · exact hhash.trans hnone
    · exact .inr ⟨d, hd, hleft.trans hleft'⟩

theorem put (h : s.cell a = some d) {e : Option (StrData c)}
    (he : ∀ d', e = some d' → Left (written a) d d') : Keeps written s (s.put a e) := by
  refine ⟨by simp [Strings.put], fun b d' hd' => ?_⟩
  rcases cell_put_cases h hd' with ⟨rfl, heq⟩ | hd'
  · exact .inr ⟨d, h, he d' heq⟩
  · exact .inr ⟨d', hd', .refl _ d'⟩

theorem exists_cell (h : Keeps written s s') (hd' : s'.cell a = some d') :
    d'.hash = -1 ∨ ∃ d, s.cell a = some d ∧ d'.hash = d.hash ∧
      (d'.content = d.content ∨ written a) := by
  rcases h.cell a d' hd' with ⟨-, hnone⟩ | ⟨d, hd, -, hnone | hleft⟩
  · exact .inl hnone
  · exact .inl hnone
  · exact .inr ⟨d, hd, hleft⟩

end Keeps

/-- Whatever an operation returns, it keeps the data. -/
def Preserves (written : Nat → Prop) (s : Strings c) (run : Call (Strings c)) : Prop :=
  ∀ s', run = .ok s' → Keeps written s s'

namespace Preserves

variable {written : Nat → Prop} {α : Type}

theorem ok (h : Keeps written s s') : Preserves written s (.ok s') := by
  rintro s'' heq
  cases heq
  exact h

theorem fault : Preserves written s .fault := by
  rintro s' heq
  cases heq

theorem read {r : Call α} {next : α → Call (Strings c)}
    (h : ∀ v, r = .ok v → Preserves written s (next v)) : Preserves written s (r >>= next) := by
  intro s' heq
  obtain ⟨v, hv, hnext⟩ := bind_eq_ok.mp heq
  exact h v hv s' hnext

theorem bind {run : Call (Strings c)} {next : Strings c → Call (Strings c)}
    (h : Preserves written s run) (hnext : ∀ s', run = .ok s' → Preserves written s' (next s')) :
    Preserves written s (run >>= next) := by
  intro s'' heq
  obtain ⟨s', hs', hlater⟩ := bind_eq_ok.mp heq
  exact (h s' hs').trans (hnext s' hs' s'' hlater)

theorem of_keeps {run : Call (Strings c)} (h : Keeps written s s')
    (hrun : Preserves written s' run) : Preserves written s run :=
  fun s'' heq => h.trans (hrun s'' heq)

variable (written)

theorem refDg (a : Nat) (s : Strings c) : Preserves written s (s.refDg a) := by
  refine read fun d hd => ok (.put (load_eq_ok.mp hd) ?_)
  rintro d' heq
  cases heq
  exact .refl _ d

theorem unrefDg (a : Nat) (s : Strings c) : Preserves written s (s.unrefDg a) := by
  refine read fun d hd => ?_
  have hcell := load_eq_ok.mp hd
  split_ifs
  · refine ok (.put hcell ?_)
    rintro d' heq
    cases heq
    exact .refl _ d
  · refine ok (.put hcell ?_)
    rintro d' heq
    cases heq
  · exact fault

theorem i_setDoref (x a : Nat) (s : Strings c) : Preserves written s (s.i_setDoref x a) :=
  read fun d _ => (refDg written a s).bind fun s₁ _ => (unrefDg written d s₁).bind fun _ _ =>
    ok (.of_cells rfl)

theorem i_setNoref (x a : Nat) (s : Strings c) : Preserves written s (s.i_setNoref x a) :=
  read fun d _ => (unrefDg written d s).bind fun _ _ => ok (.of_cells rfl)

theorem initD (a : Nat) (s : Strings c) : Preserves written s (s.initD a) :=
  (refDg written a s).bind fun _ _ => ok (.of_cells rfl)

/-- New data have no hash value. -/
theorem newData (al size : Nat) (fill : (Nat → StrChar c) → Nat → StrChar c)
    (next : Nat → Strings c → Call (Strings c))
    (hnext : ∀ a s', Preserves written s' (next a s')) :
    Preserves written s (s.newData garbage al size fill >>= fun p => next p.1 p.2) := by
  refine of_keeps ⟨by simp, fun a d' hd' => ?_⟩ (hnext _ _)
  by_cases ha : a < s.cells.length
  · refine .inr ⟨d', ?_, .refl _ d'⟩
    simpa only [cell, List.getElem?_append_left ha] using hd'
  · simp only [cell, List.getElem?_append_right (Nat.le_of_not_lt ha)] at hd'
    by_cases hzero : a - s.cells.length = 0
    · simp only [hzero, List.getElem?_cons_zero, Option.join_some, Option.some.injEq] at hd'
      subst hd'
      exact .inl ⟨Nat.le_of_not_lt ha, rfl⟩
    · rw [List.getElem?_eq_none (by simp only [List.length_singleton]; omega)] at hd'
      cases hd'

/-- Characters become data of a new string, or of one that is there. -/
theorem createDgLen (src : Nat → StrChar c) (start size : Nat) (s : Strings c)
    (next : Nat → Strings c → Call (Strings c))
    (hnext : ∀ a s', Preserves written s' (next a s')) :
    Preserves written s (s.createDgLen garbage src start size >>= fun p => next p.1 p.2) := by
  unfold Strings.createDgLen
  split_ifs
  · rw [bind_assoc]
    exact (refDg written zeroData s).bind fun s₁ _ => hnext zeroData s₁
  · exact newData written _ _ _ next hnext

theorem initSub (src : Nat → StrChar c) (start size : Nat) (s : Strings c) :
    Preserves written s (s.initSub garbage src start size) :=
  createDgLen written src start size s (fun a s => .ok (s.push a)) fun _ _ => ok (.of_cells rfl)

theorem copySub (x : Nat) (src : Nat → StrChar c) (start size : Nat) (s : Strings c) :
    Preserves written s (s.copySub garbage x src start size) :=
  createDgLen written src start size s (fun a s => s.i_setNoref x a) (i_setNoref written x)

theorem reallocSelf (x newcsize : Nat) (s : Strings c) :
    Preserves written s (s.reallocSelf garbage x newcsize) := by
  refine read fun a _ => read fun d _ => ?_
  split_ifs
  · exact ok (.refl s)
  · refine read fun a _ => read fun d _ => ?_
    exact newData written _ _ _ (fun a s => s.i_setNoref x a) (i_setNoref written x)

theorem lockCopy (x size newSize : Nat) (d : StrData c) (s : Strings c) :
    Preserves written s (s.lockCopy garbage x size newSize d) := by
  unfold Strings.lockCopy
  split_ifs
  · exact newData written _ _ _ (fun a s => s.i_setNoref x a) (i_setNoref written x)
  · exact fault

theorem resize (hcell : s.cell a = some d) (size : Nat) :
    Preserves written s (.ok (s.put a (some (resize d size)))) := by
  refine ok (.put hcell ?_)
  rintro d' heq
  cases heq
  exact ⟨rfl, .inl rfl⟩

end Preserves

/-- The string has its data alone, and they are not the shared empty ones. -/
def Alone (s : Strings c) (x : Nat) : Prop :=
  ∀ a d, s.data x = .ok a → s.cell a = some d → d.refcnt = 0 ∧ a ≠ zeroData

/-- The shared empty data have no room. -/
def EmptyZero (s : Strings c) : Prop := ∀ d, s.cell zeroData = some d → d.al = 0

/-- The data of a string that has them alone go when it becomes empty. -/
theorem cell_setEmpty (hdata : s.data x = .ok a) (hcell : s.cell a = some d)
    (hlast : d.refcnt = 0) (ha : a ≠ zeroData) (hrun : s.i_setDoref x zeroData = .ok s') :
    s'.cell a = none := by
  obtain ⟨a', hdata', hrest⟩ := bind_eq_ok.mp hrun
  obtain rfl : a = a' := ok.inj (hdata.symm.trans hdata')
  obtain ⟨s₁, href, hlater⟩ := bind_eq_ok.mp hrest
  obtain ⟨s₂, hunref, hset⟩ := bind_eq_ok.mp hlater
  obtain ⟨z, hz, hput⟩ := bind_eq_ok.mp href
  cases hput
  obtain ⟨e, he, hfree⟩ := bind_eq_ok.mp hunref
  have hsame : e = d := by
    have hload := load_eq_ok.mp he
    rw [cell_put_of_ne ha, hcell] at hload
    exact (Option.some.inj hload).symm
  subst hsame
  cases hset
  change s₂.cell a = none
  split_ifs at hfree with hmany hown
  · omega
  · cases hfree
    exact cell_put_self (load_eq_ok.mp he) none

variable {size : Nat}

/-- The data of a string whose size changes lose their hash value, or go. -/
theorem unlockTo_changed (halone : Alone s x) (ha : s.data x = .ok a) (hcell : s.cell a = some d)
    (hne : d.size ≠ size) (hrun : s.unlockTo x size = .ok s') (hd' : s'.cell a = some d') :
    d'.hash = -1 := by
  obtain ⟨a', ha', hrest⟩ := bind_eq_ok.mp hrun
  obtain rfl : a = a' := ok.inj (ha.symm.trans ha')
  obtain ⟨e, he, hif⟩ := bind_eq_ok.mp hrest
  obtain rfl : d = e := Option.some.inj (hcell.symm.trans (load_eq_ok.mp he))
  obtain ⟨hlast, hzero⟩ := halone a d ha hcell
  rw [if_neg hne] at hif
  split_ifs at hif
  · have hgone := cell_setEmpty (s := s.put a _) (d := { d with size := 0 }) ha
      (cell_put_self hcell _) hlast hzero hif
    rw [hgone] at hd'
    cases hd'
  · cases hif
    rw [cell_put_self hcell] at hd'
    cases hd'
    rfl

/-- `unlock` makes sure that the string has its data alone. -/
theorem unlock_eq_ok (hempty : EmptyZero s) (hrun : s.unlock x size = .ok s') :
    Alone s x ∧ s.unlockTo x size = .ok s' := by
  obtain ⟨a, ha, hrest⟩ := bind_eq_ok.mp hrun
  obtain ⟨d, hd, hif⟩ := bind_eq_ok.mp hrest
  split_ifs at hif with h
  refine ⟨fun a' d' ha' hd' => ?_, hif⟩
  obtain rfl : a = a' := ok.inj (ha.symm.trans ha')
  obtain rfl : d = d' := Option.some.inj ((load_eq_ok.mp hd).symm.trans hd')
  refine ⟨h.1, ?_⟩
  rintro rfl
  have hal := hempty d hd'
  omega

/-- So does `unlockZ`, that looks for the size in the memory. -/
theorem unlockZ_eq_ok (hempty : EmptyZero s) (hrun : s.unlockZ x = .ok s') :
    Alone s x ∧ ∃ size, (∀ a d, s.data x = .ok a → s.cell a = some d → zlen d = some size) ∧
      s.unlockTo x size = .ok s' := by
  obtain ⟨a, ha, hrest⟩ := bind_eq_ok.mp hrun
  obtain ⟨d, hd, hif⟩ := bind_eq_ok.mp hrest
  split_ifs at hif with h
  obtain ⟨size, hsize, hunlock⟩ := bind_eq_ok.mp hif
  have hzlen : zlen d = some size := by
    cases hz : zlen d with
    | none => simp [hz] at hsize
    | some n => simpa [hz] using hsize
  have honly : ∀ a' d', s.data x = .ok a' → s.cell a' = some d' → a' = a ∧ d' = d := by
    intro a' d' ha' hd'
    obtain rfl : a = a' := ok.inj (ha.symm.trans ha')
    exact ⟨rfl, (Option.some.inj ((load_eq_ok.mp hd).symm.trans hd')).symm⟩
  refine ⟨fun a' d' ha' hd' => ?_, size, fun a' d' ha' hd' => ?_, hunlock⟩
  · obtain ⟨rfl, rfl⟩ := honly a' d' ha' hd'
    refine ⟨h, ?_⟩
    rintro rfl
    rw [zlen, hempty d' hd', Int.toNat_zero, roundsize_zero] at hzlen
    cases hzlen
  · obtain ⟨rfl, rfl⟩ := honly a' d' ha' hd'
    exact hzlen

namespace Preserves

variable (written : Nat → Prop)

theorem unlockTo {size : Nat} (halone : Alone s x) :
    Preserves written s (s.unlockTo x size) := by
  refine read fun a ha => read fun d hd => ?_
  have hcell := load_eq_ok.mp hd
  obtain ⟨hlast, hne⟩ := halone a d ha hcell
  split_ifs with hsize hzero
  · exact ok (.refl s)
  · intro s' hrun
    have hkeeps := i_setDoref written x zeroData _ s' hrun
    have hgone := cell_setEmpty (s := s.put a _) (d := { d with size := 0 }) ha
      (cell_put_self hcell _) hlast hne hrun
    refine ⟨by simpa [Strings.put] using hkeeps.length, fun b d' hd' => ?_⟩
    have hb : b ≠ a := by
      rintro rfl
      rw [hgone] at hd'
      cases hd'
    rcases hkeeps.cell b d' hd' with ⟨hnew, hnone⟩ | ⟨f, hf, hleft⟩
    · exact .inl ⟨by simpa [Strings.put] using hnew, hnone⟩
    · rw [cell_put_of_ne hb] at hf
      exact .inr ⟨f, hf, hleft⟩
  · exact resize written hcell size

theorem unlockSame (x : Nat) (s : Strings c) : Preserves written s (s.unlockSame x) := by
  refine read fun a _ => read fun d _ => ?_
  split_ifs
  · exact ok (.refl s)
  · exact fault

theorem unlockAppend (x size : Nat) (s : Strings c) :
    Preserves written s (s.unlockAppend x size) := by
  refine read fun a _ => read fun d hd => ?_
  split_ifs
  · exact ok (.refl s)
  · exact resize written (load_eq_ok.mp hd) _
  · exact fault

end Preserves

theorem data_i_setNoref (hrun : s.i_setNoref x a = .ok s') (hdata : s'.data x = .ok b) : b = a := by
  obtain ⟨d, -, hrest⟩ := bind_eq_ok.mp hrun
  obtain ⟨s₁, -, hset⟩ := bind_eq_ok.mp hrest
  cases hset
  have hjoin := data_eq_ok.mp hdata
  rw [setData, List.getElem?_set_self'] at hjoin
  cases hx : s₁.strs[x]? with
  | none => simp [hx] at hjoin
  | some old => simpa [hx, eq_comm] using hjoin

/-- A string is written to in place only where its data have no hash value. -/
def Unhashed (s : Strings c) (x : Nat) (inPlace : StrData c → Prop) : Prop :=
  ∀ a d, s.data x = .ok a → s.cell a = some d → inPlace d → d.hash = -1

/-- After `reallocSelf` the data of the string have no hash value. -/
theorem hash_reallocSelf {newcsize : Nat} (hfits : s.Unhashed x fun d => fits d newcsize)
    (hrun : s.reallocSelf garbage x newcsize = .ok s') (hdata : s'.data x = .ok b)
    (hcell : s'.cell b = some d') : d'.hash = -1 := by
  obtain ⟨a, ha, hrest⟩ := bind_eq_ok.mp hrun
  obtain ⟨d, hd, hif⟩ := bind_eq_ok.mp hrest
  split_ifs at hif with hroom
  · cases hif
    obtain rfl : a = b := ok.inj (ha.symm.trans hdata)
    obtain rfl : d = d' := Option.some.inj ((load_eq_ok.mp hd).symm.trans hcell)
    exact hfits a d ha hcell hroom
  · obtain ⟨a', -, hload⟩ := bind_eq_ok.mp hif
    obtain ⟨d₁, -, hnew⟩ := bind_eq_ok.mp hload
    obtain ⟨⟨cr, s₁⟩, halloc, hset⟩ := bind_eq_ok.mp hnew
    obtain rfl := data_i_setNoref hset hdata
    have hkeeps := Preserves.i_setNoref (fun _ => False) x b s₁ s' hset
    cases halloc
    rcases hkeeps.exists_cell hcell with hnone | ⟨e, he, hhash, -⟩
    · exact hnone
    · simp only [cell, List.getElem?_concat_length, Option.join_some, Option.some.injEq] at he
      subst he
      exact hhash

namespace Preserves

section Copies

variable (written : Nat → Prop)

theorem appendReverse (x : Nat) (l : List (StrChar c)) (s : Strings c) :
    Preserves written s (s.appendReverse garbage x l) := by
  unfold Strings.appendReverse
  split_ifs
  · exact ok (.refl s)
  · refine read fun a _ => read fun d _ => ?_
    exact newData written _ _ _ (fun a s => s.i_setNoref x a) (i_setNoref written x)

theorem lockKeep (x size : Nat) (s : Strings c) :
    Preserves written s (s.lockKeep garbage x size) := by
  refine read fun a _ => read fun d _ => ?_
  split_ifs
  · exact lockCopy written x size d.size d s
  · exact ok (.refl s)

theorem plus (x y : Nat) (s : Strings c) : Preserves written s (s.plus garbage x y) := by
  refine read fun a _ => read fun b _ => read fun d _ => read fun e _ => ?_
  split_ifs
  · exact initD written b s
  · exact initD written a s
  · exact newData written _ _ _ (fun a s => .ok (s.push a)) fun _ _ => ok (.of_cells rfl)

theorem left (x length : Nat) (s : Strings c) : Preserves written s (s.left garbage x length) := by
  refine read fun a _ => read fun d _ => ?_
  split_ifs
  · exact initD written a s
  · exact initSub written d.mem 0 length s

theorem mid (x pos : Nat) (s : Strings c) : Preserves written s (s.mid garbage x pos) := by
  refine read fun a _ => read fun d _ => ?_
  split_ifs
  · exact initD written zeroData s
  · exact initSub written d.mem pos _ s

theorem midLen (x pos length : Nat) (s : Strings c) :
    Preserves written s (s.midLen garbage x pos length) := by
  refine read fun a _ => read fun d _ => ?_
  split_ifs
  · exact initD written zeroData s
  · exact initSub written d.mem pos _ s

theorem right (x size : Nat) (s : Strings c) : Preserves written s (s.right garbage x size) := by
  refine read fun a _ => read fun d _ => ?_
  split_ifs
  · exact initD written a s
  · exact initSub written d.mem _ size s

theorem cleanGet (x : Nat) (s : Strings c) : Preserves written s (s.cleanGet x) :=
  read fun _ _ => (refDg written zeroData s).bind fun _ _ => ok (.of_cells rfl)

theorem removeLeft (x size : Nat) (s : Strings c) :
    Preserves written s (s.removeLeft garbage x size) := by
  unfold Strings.removeLeft
  split_ifs
  · exact ok (.refl s)
  · exact read fun a _ => read fun d _ => copySub written x d.mem _ _ s

theorem removeFrom (x pos : Nat) (s : Strings c) :
    Preserves written s (s.removeFrom garbage x pos) :=
  read fun _ _ => read fun d _ => copySub written x d.mem 0 _ s

theorem removeMid (x pos size : Nat) (s : Strings c) :
    Preserves written s (s.removeMid garbage x pos size) :=
  read fun _ _ => read fun _ _ =>
    newData written _ _ _ (fun a s => s.i_setNoref x a) (i_setNoref written x)

theorem removeRight (x size : Nat) (s : Strings c) :
    Preserves written s (s.removeRight garbage x size) :=
  read fun _ _ => read fun d _ => copySub written x d.mem 0 _ s

end Copies

variable {written : Nat → Prop}

/-- Appending keeps the data, if nothing with a hash value is written to in place. -/
theorem appendMem {newcsize : Nat} (hfits : s.Unhashed x fun d => fits d newcsize)
    (hrun : s.reallocSelf garbage x newcsize = .ok s') (ha : s'.data x = .ok a)
    (hd : s'.load a = .ok d) (src : Nat → StrChar c) (count : Nat) :
    Preserves written s' (.ok (s'.put a (some (d.appendMem src count)))) := by
  have hcell := load_eq_ok.mp hd
  have hnone : d.hash = -1 := hash_reallocSelf hfits hrun ha hcell
  refine ok (.put hcell ?_)
  rintro d' heq
  cases heq
  exact ⟨rfl, .inl hnone⟩

theorem appendLen (l : List (StrChar c))
    (hfits : l ≠ [] → s.Unhashed x fun d => fits d (d.size + l.length)) :
    Preserves written s (s.appendLen garbage x l) := by
  unfold Strings.appendLen
  split_ifs with hl
  · exact ok (.refl s)
  · refine read fun a ha => read fun d hd => ?_
    refine (reallocSelf written x _ s).bind fun s' hrun => ?_
    refine read fun b hb => read fun e he => appendMem ?_ hrun hb he _ _
    intro a' d' ha' hd'
    obtain rfl : a = a' := ok.inj (ha.symm.trans ha')
    obtain rfl : d = d' := Option.some.inj ((load_eq_ok.mp hd).symm.trans hd')
    exact hfits hl a d ha hd'

theorem append (y : Nat)
    (hfits : ∀ b n, s.data y = .ok b → s.cell b = some n → n.size ≠ 0 →
      s.Unhashed x fun d => d.size ≠ 0 ∧ fits d (d.size + n.size)) :
    Preserves written s (s.append garbage x y) := by
  refine read fun b hb => read fun a ha => read fun n hn => read fun d hd => ?_
  split_ifs with hempty hfirst
  · exact ok (.refl s)
  · exact i_setDoref written x b s
  · refine (reallocSelf written x _ s).bind fun s' hrun => ?_
    refine read fun a' ha' => read fun n' _ => read fun e he => appendMem ?_ hrun ha' he _ _
    intro a₁ d₁ ha₁ hd₁ hroom
    obtain rfl : a = a₁ := ok.inj (ha.symm.trans ha₁)
    obtain rfl : d = d₁ := Option.some.inj ((load_eq_ok.mp hd).symm.trans hd₁)
    exact hfits b n hb (load_eq_ok.mp hn) hempty a d ha hd₁ ⟨hfirst, hroom⟩

/-- `lock` may change the characters of the data that the string has then. -/
theorem lock (size : Nat) (hrun : s.lock garbage x size = .ok s') :
    Keeps (fun a => s'.data x = .ok a) s s' := by
  obtain ⟨a, ha, hrest⟩ := bind_eq_ok.mp hrun
  obtain ⟨d, hd, hif⟩ := bind_eq_ok.mp hrest
  split_ifs at hif with hcopy hsize hinside
  · exact lockCopy _ x size size d s s' hif
  · cases hif
    exact .refl s
  · cases hif
    refine .put (load_eq_ok.mp hd) ?_
    rintro d' heq
    cases heq
    exact ⟨rfl, .inr ⟨rfl, .inr ha⟩⟩

theorem write (i : Nat) (ch : StrChar c) :
    Preserves (fun a => s.data x = .ok a) s (s.write x i ch) := by
  refine read fun a ha => read fun d hd => ?_
  split_ifs
  · refine ok (.put (load_eq_ok.mp hd) ?_)
    rintro d' heq
    cases heq
    exact ⟨rfl, .inr ⟨rfl, .inr ha⟩⟩
  · exact fault

end Preserves

/-- So do they when `unlockAppend` makes the string longer. -/
theorem unlockAppend_changed (ha : s.data x = .ok a) (hcell : s.cell a = some d) (hne : size ≠ 0)
    (hrun : s.unlockAppend x size = .ok s') (hd' : s'.cell a = some d') : d'.hash = -1 := by
  obtain ⟨a', ha', hrest⟩ := bind_eq_ok.mp hrun
  obtain rfl : a = a' := ok.inj (ha.symm.trans ha')
  obtain ⟨e, he, hif⟩ := bind_eq_ok.mp hrest
  rw [if_neg hne] at hif
  split_ifs at hif
  cases hif
  rw [cell_put_self hcell] at hd'
  cases hd'
  rfl

/-- Hash values that were not computed are computed, and nothing else changes. -/
structure Rehashed (s s' : Strings c) : Prop where
  length : s'.cells.length = s.cells.length
  cell : ∀ a d', s'.cell a = some d' →
    ∃ d, s.cell a = some d ∧ (d' = d ∨ d.hash < 0 ∧ d' = d.updateHash)

namespace Rehashed

theorem trans (h : Rehashed s s') (h' : Rehashed s' s'') : Rehashed s s'' := by
  refine ⟨h'.length.trans h.length, fun a d'' hd'' => ?_⟩
  obtain ⟨d', hd', hcases'⟩ := h'.cell a d'' hd''
  obtain ⟨d, hd, hcases⟩ := h.cell a d' hd'
  refine ⟨d, hd, ?_⟩
  rcases hcases' with rfl | ⟨hneg, rfl⟩
  · exact hcases
  · rcases hcases with rfl | ⟨_, rfl⟩
    · exact .inr ⟨hneg, rfl⟩
    · have hnonneg := StrData.hashOf_nonneg d.content
      simp only [StrData.updateHash] at hneg
      omega

theorem rehash (hrun : s.rehash a = .ok s') : Rehashed s s' := by
  obtain ⟨d, hd, hif⟩ := bind_eq_ok.mp hrun
  split_ifs at hif with hneg
  · cases hif
    refine ⟨by simp [put], fun b d' hd' => ?_⟩
    rcases cell_put_cases (load_eq_ok.mp hd) hd' with ⟨rfl, heq⟩ | hd'
    · cases heq
      exact ⟨d, load_eq_ok.mp hd, .inr ⟨hneg, rfl⟩⟩
    · exact ⟨d', hd', .inl rfl⟩
  · cases hif
    exact ⟨rfl, fun b d' hd' => ⟨d', hd', .inl rfl⟩⟩

theorem getHash {hash : Int} (hrun : s.getHash x = .ok (hash, s')) : Rehashed s s' := by
  obtain ⟨a, -, hrest⟩ := bind_eq_ok.mp hrun
  obtain ⟨s₁, hrehash, hload⟩ := bind_eq_ok.mp hrest
  obtain ⟨d, -, heq⟩ := bind_eq_ok.mp hload
  cases heq
  exact rehash hrehash

theorem beq {eq : Bool} (hrun : s.beq x y = .ok (eq, s')) : Rehashed s s' := by
  obtain ⟨fd, -, hrest⟩ := bind_eq_ok.mp hrun
  obtain ⟨sd, -, hrest⟩ := bind_eq_ok.mp hrest
  obtain ⟨s₁, hfirst, hrest⟩ := bind_eq_ok.mp hrest
  obtain ⟨s₂, hsecond, hrest⟩ := bind_eq_ok.mp hrest
  obtain ⟨f, -, hrest⟩ := bind_eq_ok.mp hrest
  obtain ⟨n, -, heq⟩ := bind_eq_ok.mp hrest
  cases heq
  exact (rehash hfirst).trans (rehash hsecond)

end Rehashed

/-- `getHash` returns the hash value that the data have, or else that of their characters. -/
theorem getHash_eq (ha : s.data x = .ok a) (hd : s.cell a = some d) :
    ∃ s', s.getHash x = .ok (if d.hash < 0 then StrData.hashOf d.content else d.hash, s') := by
  have hload := load_eq_ok.mpr hd
  by_cases hneg : d.hash < 0
  · refine ⟨s.put a (some d.updateHash), ?_⟩
    have hload' : (s.put a (some d.updateHash)).load a = .ok d.updateHash :=
      load_eq_ok.mpr (cell_put_self hd _)
    simp only [getHash, rehash, ha, hload, hneg, if_true, ok_bind, hload']
    rfl
  · refine ⟨s, ?_⟩
    simp only [getHash, rehash, ha, hload, hneg, if_false, ok_bind]

end Strings

end Drt
