import Drt.Core.Types.StringSharing

/-!
# Where the characters of strings end

A zero comes after the characters of a string, and there is room for it. This holds of all data
but those that are opened: `lock` opens the data of a string, that are written to then, and only
the `unlock` functions close them. The other operations leave no data open that were closed.
-/

open Function Outcome

namespace Drt

open StrData

namespace Strings

variable {c : CharSize} {s s' : Strings c} {a b x y : Nat} {d d' : StrData c}
  {hand hand' : List Nat} {garbage : Nat → Nat → StrChar c} {opened opened' : Nat → Prop}

/-- There is a zero behind the characters, in what has been allocated. For the static data
nothing has. -/
def Ended (d : StrData c) : Prop := (0 < d.al → (d.size : Int) < d.al) ∧ d.mem d.size = 0

/-- Data are counted, and those that are not opened are ended. -/
structure Closed (opened : Nat → Prop) (s : Strings c) (hand : List Nat) : Prop where
  sound : Sound s hand
  ended : ∀ a d, s.cell a = some d → opened a ∨ Ended d

namespace Closed

theorem recounted (h : Closed opened s hand) (hsound : Sound s' hand')
    (hcell : ∀ a d', s'.cell a = some d' →
      ∃ d, s.cell a = some d ∧ d' = { d with refcnt := d'.refcnt }) :
    Closed opened s' hand' := by
  refine ⟨hsound, fun a d' hd' => ?_⟩
  obtain ⟨d, hd, heq⟩ := hcell a d' hd'
  rw [heq]
  exact h.ended a d hd

theorem released (h : Closed opened s hand) (hsound : Sound s' hand') (hr : Released s s') :
    Closed opened s' hand' :=
  h.recounted hsound hr.cell

theorem of_cells (h : Closed opened s hand) (hsound : Sound s' hand')
    (hcells : s'.cells = s.cells) : Closed opened s' hand' := by
  refine ⟨hsound, fun a d hd => ?_⟩
  rw [cell, hcells] at hd
  exact h.ended a d hd

theorem push (h : Closed opened s (a :: hand)) : Closed opened (s.push a) hand :=
  h.of_cells h.sound.push rfl

theorem mono (h : Closed opened s hand) (himp : ∀ a, opened a → opened' a) :
    Closed opened' s hand :=
  ⟨h.sound, fun a d hd => (h.ended a d hd).imp_left (himp a)⟩

theorem put (h : Closed opened s hand) (hd : s.cell a = some d) (hrefcnt : d'.refcnt = d.refcnt)
    (hal : d'.al = d.al) (hsize : d'.size = d.size ∨
      zeroData < a ∧ d'.size < roundsize c d.al.toNat)
    (hended : opened' a ∨ Ended d') (hothers : ∀ b, b ≠ a → opened b → opened' b) :
    Closed opened' (s.put a (some d')) hand := by
  refine ⟨h.sound.put hd hrefcnt hal hsize, fun b e he => ?_⟩
  by_cases hb : b = a
  · subst hb
    rw [cell_put_self hd] at he
    cases he
    exact hended
  · rw [cell_put_of_ne hb] at he
    exact (h.ended b e he).imp_left (hothers b hb)

end Closed

/-- What an operation returns is closed, as far as it is not opened. -/
def Stays (opened : Nat → Prop) (hand : List Nat) (run : Call (Strings c)) : Prop :=
  ∀ s', run = .ok s' → Closed opened s' hand

namespace Stays

variable {α : Type}

theorem ok (h : Closed opened s hand) : Stays opened hand (.ok s) := by
  rintro s' heq
  cases heq
  exact h

theorem fault : Stays opened hand (.fault : Call (Strings c)) := by
  rintro s' heq
  cases heq

theorem read {r : Call α} {next : α → Call (Strings c)}
    (h : ∀ v, r = .ok v → Stays opened hand (next v)) : Stays opened hand (r >>= next) := by
  intro s' heq
  obtain ⟨v, hv, hnext⟩ := bind_eq_ok.mp heq
  exact h v hv s' hnext

theorem bind {run : Call (Strings c)} {next : Strings c → Call (Strings c)}
    (h : Stays opened hand run)
    (hnext : ∀ s', Closed opened s' hand → Stays opened' hand' (next s')) :
    Stays opened' hand' (run >>= next) := by
  intro s'' heq
  obtain ⟨s', hs', hlater⟩ := bind_eq_ok.mp heq
  exact hnext s' (h s' hs') s'' hlater

theorem refDg (h : Closed opened s hand) (a : Nat) : Stays opened (a :: hand) (s.refDg a) := by
  intro s' heq
  obtain ⟨d, hd, -⟩ := bind_eq_ok.mp heq
  obtain ⟨s₁, hrun, hsound, hreleased, -⟩ := h.sound.refDg (load_eq_ok.mp hd)
  exact ok.inj (hrun.symm.trans heq) ▸ h.released hsound hreleased

theorem unrefDg (h : Closed opened s (a :: hand)) : Stays opened hand (s.unrefDg a) := by
  intro s' heq
  obtain ⟨s₁, hrun, hsound, hreleased, -⟩ := h.sound.unrefDg
  exact ok.inj (hrun.symm.trans heq) ▸ h.released hsound hreleased

theorem i_setNoref (h : Closed opened s (a :: hand)) (x : Nat) :
    Stays opened hand (s.i_setNoref x a) := by
  intro s' heq
  obtain ⟨b, hx, -⟩ := bind_eq_ok.mp heq
  obtain ⟨s₁, hrun, hsound, hreleased, -⟩ := h.sound.i_setNoref hx
  exact ok.inj (hrun.symm.trans heq) ▸ h.recounted hsound hreleased.cell

theorem i_setDoref (h : Closed opened s hand) (x a : Nat) :
    Stays opened hand (s.i_setDoref x a) := by
  intro s' heq
  obtain ⟨b, hx, hrest⟩ := bind_eq_ok.mp heq
  obtain ⟨s₁, href, -⟩ := bind_eq_ok.mp hrest
  obtain ⟨d, hd, -⟩ := bind_eq_ok.mp href
  obtain ⟨s₂, hrun, hsound, hreleased⟩ := h.sound.i_setDoref hx (load_eq_ok.mp hd)
  exact ok.inj (hrun.symm.trans heq) ▸ h.recounted hsound hreleased.cell

theorem initD (h : Closed opened s hand) (a : Nat) : Stays opened hand (s.initD a) :=
  (refDg h a).bind fun _ hclosed => ok hclosed.push

variable {al size : Nat}

section

variable (h : Closed opened s hand)
include h

/-- New data are in hand. -/
theorem newData (hal : 0 < al) (hsize : size < roundsize c al)
    (fill : (Nat → StrChar c) → Nat → StrChar c) (next : Nat → Strings c → Call (Strings c))
    (hended : opened s.cells.length ∨ size < al ∧
      fill (allocDg (garbage s.cells.length) al size).mem size = 0)
    (hnext : ∀ a s', Closed opened s' (a :: hand) → Stays opened hand (next a s')) :
    Stays opened hand (s.newData garbage al size fill >>= fun p => next p.1 p.2) := by
  refine hnext _ _ ⟨h.sound.grown rfl (Int.natCast_pos.mpr hal) hsize, fun a d hd => ?_⟩
  rcases cell_grown_cases hd with ⟨rfl, rfl⟩ | ⟨-, hd⟩
  · exact hended.imp_right fun hzero => ⟨fun _ => Int.ofNat_lt.mpr hzero.1, hzero.2⟩
  · exact h.ended a d hd

/-- With a size that leaves room for a zero. -/
theorem newData_succ (size : Nat) (fill : (Nat → StrChar c) → Nat → StrChar c)
    (next : Nat → Strings c → Call (Strings c))
    (hzero : ∀ mem : Nat → StrChar c, mem size = 0 → fill mem size = 0)
    (hnext : ∀ a s', Closed opened s' (a :: hand) → Stays opened hand (next a s')) :
    Stays opened hand (s.newData garbage (size + 1) size fill >>= fun p => next p.1 p.2) := by
  refine newData h (Nat.succ_pos size) (le_roundsize c (size + 1)) fill next
    (.inr ⟨Nat.lt_succ_self size, hzero _ (if_pos ⟨?_, ?_⟩)⟩) hnext
  · rw [Nat.succ_sub_one]
    exact Nat.div_mul_le_self size c.perLong
  · rw [Nat.succ_sub_one]
    cases c <;> simp only [CharSize.perLong] <;> omega

theorem createDgLen (src : Nat → StrChar c) (start size : Nat)
    (next : Nat → Strings c → Call (Strings c))
    (hnext : ∀ a s', Closed opened s' (a :: hand) → Stays opened hand (next a s')) :
    Stays opened hand (s.createDgLen garbage src start size >>= fun p => next p.1 p.2) := by
  unfold Strings.createDgLen
  split_ifs
  · rw [bind_assoc]
    exact (refDg h zeroData).bind fun s₁ hclosed => hnext zeroData s₁ hclosed
  · refine newData_succ h size _ next (fun mem hmem => ?_) hnext
    rw [pcopy, if_neg (by omega), hmem]

theorem initSub (src : Nat → StrChar c) (start size : Nat) :
    Stays opened hand (s.initSub garbage src start size) :=
  createDgLen h src start size (fun a s => .ok (s.push a)) fun _ _ hclosed => ok hclosed.push

theorem copySub (x : Nat) (src : Nat → StrChar c) (start size : Nat) :
    Stays opened hand (s.copySub garbage x src start size) :=
  createDgLen h src start size (fun a s => s.i_setNoref x a) fun _ _ hclosed =>
    i_setNoref hclosed x

/-- A string gets new data, which are opened. -/
theorem renew (hx : s.data x = .ok a) (hal : 0 < al) (hsize : size < roundsize c al)
    (fill : (Nat → StrChar c) → Nat → StrChar c)
    (hrun : (s.newData garbage al size fill >>= fun p => p.2.i_setNoref x p.1) = .ok s') :
    Closed (fun e => opened e ∨ s'.data x = .ok e) s' hand := by
  obtain ⟨s₁, hrun₁, -, hrenewed⟩ := h.sound.renew garbage hx hal hsize fill
  obtain rfl := ok.inj (hrun₁.symm.trans hrun)
  have hstays : Stays (fun e => opened e ∨ s₁.data x = .ok e) hand
      (s.newData garbage al size fill >>= fun p => p.2.i_setNoref x p.1) :=
    newData (h.mono fun _ => .inl) hal hsize fill (fun a s => s.i_setNoref x a)
      (.inl (.inr hrenewed.own.1)) fun _ _ hclosed => i_setNoref hclosed x
  exact hstays s₁ hrun

theorem lockCopy (hx : s.data x = .ok a) {newSize : Nat} (hsize : newSize = size ∨ newSize = d.size)
    (hrun : s.lockCopy garbage x size newSize d = .ok s') :
    Closed (fun e => opened e ∨ s'.data x = .ok e) s' hand := by
  rw [Strings.lockCopy] at hrun
  split_ifs at hrun with hholds
  refine renew h hx (Nat.succ_pos size) ?_ _ hrun
  rcases hsize with rfl | rfl
  · exact le_roundsize c (newSize + 1)
  · exact Nat.lt_of_lt_of_le (le_roundsize c (d.size + 1)) hholds

/-- Data that a string has alone get another size. -/
theorem resize (hx : s.data x = .ok a) (hd : s.load a = .ok d) (hrefcnt : d.refcnt = 0)
    (hsize : size < roundsize c d.al.toNat)
    (hd' : d'.refcnt = d.refcnt ∧ d'.al = d.al ∧ d'.size = size)
    (hended : opened' a ∨ (size : Int) < d.al ∧ d'.mem size = 0)
    (hothers : ∀ b, ¬ s.data x = .ok b → opened b → opened' b) :
    Stays opened' hand (.ok (s.put a (some d'))) := by
  have hcell := load_eq_ok.mp hd
  obtain ⟨hrefcnt', hal, rfl⟩ := hd'
  refine ok (h.put hcell hrefcnt' hal (.inr ⟨(h.sound.alone hx hcell hrefcnt).1, hsize⟩)
    (hended.imp_right fun hzero => ⟨fun _ => hal ▸ hzero.1, hzero.2⟩) fun b hb => hothers b ?_)
  rintro hxb
  exact hb (ok.inj (hxb.symm.trans hx))

end

theorem lt_roundsize (h : (size : Int) < d.al) : size < roundsize c d.al.toNat := by
  have hle := le_roundsize c d.al.toNat
  omega

theorem resize_mem (d : StrData c) (size : Nat) : (Strings.resize d size).mem size = 0 := by
  refine if_pos ⟨Nat.le_refl size, ?_⟩
  change size < (size / c.perLong + 1) * c.perLong
  cases c <;> simp only [CharSize.perLong] <;> omega

section

variable (h : Closed opened s hand)
include h

/-- Characters are written behind the former ones. -/
theorem appendMem (hx : s.data x = .ok a) (hd : s.load a = .ok d) {count : Nat}
    (hrun : s.reallocSelf garbage x (d.size + count) = .ok s') (hb : s'.data x = .ok b)
    (hd' : s'.load b = .ok d') (src : Nat → StrChar c) :
    Stays opened hand (.ok (s'.put b (some (d'.appendMem src count)))) := by
  have hcell := load_eq_ok.mp hd
  obtain ⟨-, howned⟩ := h.sound.reserved hx hcell (Nat.le_add_right _ _) hrun
  obtain ⟨hrefcnt, hroom, hsize⟩ := howned b d' hb (load_eq_ok.mp hd')
  rw [← hsize] at hroom
  have hopened : Closed (fun e => opened e ∨ s'.data x = .ok e) s' hand := by
    by_cases hfits : fits d (d.size + count)
    · obtain rfl := ok.inj ((reallocSelf_of_fits hx hcell hfits).symm.trans hrun)
      exact h.mono fun _ => .inl
    · rw [Strings.reallocSelf, hx, ok_bind, hd, ok_bind, if_neg hfits,
        reallocSelfDo, hx, ok_bind, hd, ok_bind] at hrun
      refine renew h hx (Nat.succ_pos _) ?_ _ hrun
      exact Nat.lt_of_lt_of_le (by omega) (le_roundsize c (d.size + count + 1))
  have hinside : d'.size + count < roundsize c d'.al.toNat := lt_roundsize hroom
  refine resize hopened hb hd' hrefcnt hinside
    ⟨rfl, rfl, rfl⟩ (.inr ⟨hroom, update_self _ _ _⟩) fun e he hor => ?_
  exact hor.resolve_right he

theorem append (x y : Nat) : Stays opened hand (s.append garbage x y) := by
  refine read fun b hb => read fun a ha => read fun n hn => read fun d hd => ?_
  split_ifs
  · exact ok h
  · exact i_setDoref h x b
  · refine read fun s' hrun => read fun a' ha' => read fun n' hn' => read fun d' hd' => ?_
    have hsame := h.sound.cell_reallocSelf ha (load_eq_ok.mp hd) (Nat.le_add_right _ _) hrun
      (load_eq_ok.mp hn) (load_eq_ok.mp hn')
    rw [show n'.size = n.size by rw [hsame]]
    exact appendMem h ha hd hrun ha' hd' n'.mem

theorem appendLen (x : Nat) (l : List (StrChar c)) :
    Stays opened hand (s.appendLen garbage x l) := by
  unfold Strings.appendLen
  split_ifs
  · exact ok h
  · refine read fun a ha => read fun d hd => read fun s' hrun => read fun b hb => ?_
    exact read fun d' hd' => appendMem h ha hd hrun hb hd' _

theorem appendReverse (x : Nat) (l : List (StrChar c)) :
    Stays opened hand (s.appendReverse garbage x l) := by
  unfold Strings.appendReverse
  split_ifs
  · exact ok h
  · refine read fun a _ => read fun d _ => ?_
    exact newData_succ h _ _ (fun a s => s.i_setNoref x a)
      (fun _ _ => update_self _ _ _) fun _ _ hclosed => i_setNoref hclosed x

theorem plus (x y : Nat) : Stays opened hand (s.plus garbage x y) := by
  refine read fun a _ => read fun b _ => read fun f _ => read fun n _ => ?_
  split_ifs
  · exact initD h b
  · exact initD h a
  · exact newData_succ h _ _ (fun a s => .ok (s.push a))
      (fun _ _ => update_self _ _ _) fun _ _ hclosed => ok hclosed.push

theorem removeMid (x pos size : Nat) : Stays opened hand (s.removeMid garbage x pos size) := by
  refine read fun a _ => read fun d _ => ?_
  refine newData_succ h _ _ (fun a s => s.i_setNoref x a) (fun _ _ => if_pos ⟨Nat.le_refl _, ?_⟩)
    fun _ _ hclosed => i_setNoref hclosed x
  cases c <;> simp only [CharSize.perLong] <;> omega

theorem destroy (x : Nat) : Stays opened hand (s.destroy x) := by
  refine read fun a ha => read fun s₁ hunref => ok ?_
  have hlost := unrefDg_strs (s.strs.set x none) hunref
  have hstrs : s₁.strs = s.strs := by
    obtain ⟨d, -, hcases⟩ := bind_eq_ok.mp hunref
    split_ifs at hcases
    · exact ok.inj hcases ▸ rfl
    · exact ok.inj hcases ▸ rfl
  rw [hstrs]
  exact unrefDg (h.of_cells (h.sound.destroyed ha) rfl) _ hlost

theorem cleanGet (x : Nat) : Stays opened hand (s.cleanGet x) := by
  refine read fun a ha => ?_
  obtain ⟨d, hd⟩ := h.sound.live zeroData (by rw [owners, if_pos (Nat.le_refl _)]; omega)
  obtain ⟨s₁, hrun, hsound, hreleased, -⟩ := h.sound.refDg hd
  have ha' : s₁.data x = .ok a := by
    rw [Strings.data, hreleased.strs]
    exact ha
  rw [hrun]
  exact ok ((h.released hsound hreleased).of_cells (hsound.setData ha').push rfl)

theorem rehash (a : Nat) : Stays opened hand (s.rehash a) := by
  refine read fun d hd => ?_
  have hcell := load_eq_ok.mp hd
  split_ifs
  · exact ok (h.put hcell rfl rfl (.inl rfl) (h.ended a d hcell) fun _ _ => id)
  · exact ok h

theorem getHash (x : Nat) {hash : Int} (hrun : s.getHash x = .ok (hash, s')) :
    Closed opened s' hand := by
  obtain ⟨a, -, hrest⟩ := bind_eq_ok.mp hrun
  obtain ⟨s₁, hrehash, hload⟩ := bind_eq_ok.mp hrest
  obtain ⟨d, -, heq⟩ := bind_eq_ok.mp hload
  cases heq
  exact rehash h a _ hrehash

theorem beq (x y : Nat) {eq : Bool} (hrun : s.beq x y = .ok (eq, s')) : Closed opened s' hand := by
  obtain ⟨a, -, hrest⟩ := bind_eq_ok.mp hrun
  obtain ⟨b, -, hrest⟩ := bind_eq_ok.mp hrest
  obtain ⟨s₁, hfirst, hrest⟩ := bind_eq_ok.mp hrest
  obtain ⟨s₂, hsecond, hrest⟩ := bind_eq_ok.mp hrest
  obtain ⟨f, -, hrest⟩ := bind_eq_ok.mp hrest
  obtain ⟨n, -, heq⟩ := bind_eq_ok.mp hrest
  cases heq
  exact rehash (rehash h a s₁ hfirst) b _ hsecond

/-- `lock` opens the data that the string has then. -/
theorem lock (hsize : size < 2 ^ 63) (hrun : s.lock garbage x size = .ok s') :
    Closed (fun e => opened e ∨ s'.data x = .ok e) s' hand := by
  obtain ⟨a, ha, hrest⟩ := bind_eq_ok.mp hrun
  obtain ⟨d, hd, hif⟩ := bind_eq_ok.mp hrest
  split_ifs at hif with hcopy
  · exact lockCopy h ha (.inl rfl) hif
  · cases hif
    exact h.mono fun _ => .inl
  · cases hif
    rw [ssize_of_lt hsize] at hcopy
    have hnonneg := h.sound.refcnt_nonneg ha (load_eq_ok.mp hd)
    have hroom : (size : Int) < d.al := by omega
    have hput : Stays (fun e => opened e ∨ s.data x = .ok e) hand
        (.ok (s.put a (some { d.padzeroes with size := size }))) :=
      resize h ha hd (by omega) (lt_roundsize hroom) ⟨rfl, rfl, rfl⟩ (.inl (.inr ha))
        fun _ _ => .inl
    exact hput _ rfl

theorem lockKeep (hrun : s.lockKeep garbage x size = .ok s') :
    Closed (fun e => opened e ∨ s'.data x = .ok e) s' hand := by
  obtain ⟨a, ha, hrest⟩ := bind_eq_ok.mp hrun
  obtain ⟨d, hd, hif⟩ := bind_eq_ok.mp hrest
  split_ifs at hif
  · exact lockCopy h ha (.inr rfl) hif
  · cases hif
    exact h.mono fun _ => .inl

theorem write (hopen : ∀ a, s.data x = .ok a → opened a) (i : Nat) (ch : StrChar c) :
    Stays opened hand (s.write x i ch) := by
  refine read fun a ha => read fun d hd => ?_
  split_ifs
  · exact ok (h.put (load_eq_ok.mp hd) rfl rfl (.inl rfl) (.inl (hopen a ha)) fun _ _ => id)
  · exact fault

end

section Closing

-- The data of a string that are there, alone, are closed; the other data stay as they are.
variable (h : Closed opened s hand) (hothers : ∀ b, ¬ s.data x = .ok b → opened b → opened' b)

include h hothers

theorem closing (hx : s.data x = .ok a) (hd : s.load a = .ok d) (hended : opened' a ∨ Ended d) :
    Stays opened' hand (.ok s) := by
  refine ok ⟨h.sound, fun b e he => ?_⟩
  by_cases hb : s.data x = .ok b
  · obtain rfl := ok.inj (hx.symm.trans hb)
    obtain rfl := Option.some.inj ((load_eq_ok.mp hd).symm.trans he)
    exact hended
  · exact (h.ended b e he).imp_left (hothers b hb)

theorem unlockSame (hended : ∀ a d, s.data x = .ok a → s.cell a = some d →
      opened' a ∨ Ended d) : Stays opened' hand (s.unlockSame x) := by
  refine read fun a ha => read fun d hd => ?_
  split_ifs
  · exact closing h hothers ha hd (hended a d ha (load_eq_ok.mp hd))
  · exact fault

variable {size : Nat}

theorem unlockTo (halone : ∀ a d, s.data x = .ok a → s.load a = .ok d →
      d.refcnt = 0 ∧ size < roundsize c d.al.toNat ∧
        (opened' a ∨ (size : Int) < d.al ∧ (d.size = size → d.mem size = 0))) :
    Stays opened' hand (s.unlockTo x size) := by
  refine read fun a ha => read fun d hd => ?_
  obtain ⟨hrefcnt, hsize, hended⟩ := halone a d ha hd
  split_ifs with hsame hzero
  · refine closing h hothers ha hd (hended.imp_right fun hroom => ?_)
    exact ⟨fun _ => hsame ▸ hroom.1, hsame ▸ hroom.2 hsame⟩
  · intro s' hrun
    have hput : Stays (fun e => opened' e ∨ s.data x = .ok e) hand
        (.ok (s.put a (some { d with size := 0 }))) :=
      resize h ha hd hrefcnt (hzero ▸ hsize) ⟨rfl, rfl, rfl⟩ (.inl (.inr ha))
        fun b hb hopen => .inl (hothers b hb hopen)
    have hcell := load_eq_ok.mp hd
    have hgone := cell_setEmpty (s := s.put a (some { d with size := 0 })) ha
      (cell_put_self hcell _) hrefcnt (Nat.ne_of_gt (h.sound.alone ha hcell hrefcnt).1) hrun
    have hclosed := i_setDoref (hput _ rfl) x zeroData s' hrun
    refine ⟨hclosed.sound, fun b e he => ?_⟩
    rcases hclosed.ended b e he with (hopen | hb) | hended'
    · exact .inl hopen
    · obtain rfl := ok.inj (ha.symm.trans hb)
      rw [hgone] at he
      cases he
    · exact .inr hended'
  · exact resize h ha hd hrefcnt hsize ⟨rfl, rfl, rfl⟩
      (hended.imp_right fun hroom => ⟨hroom.1, resize_mem d size⟩) hothers

theorem unlock (hended : ∀ a d, s.data x = .ok a → s.cell a = some d →
      opened' a ∨ (d.size = size → d.mem size = 0)) : Stays opened' hand (s.unlock x size) := by
  refine read fun a ha => read fun d hd => ?_
  split_ifs with hroom
  · refine unlockTo h hothers fun a' d' ha' hd' => ?_
    obtain rfl : a = a' := ok.inj (ha.symm.trans ha')
    obtain rfl : d = d' := ok.inj (hd.symm.trans hd')
    exact ⟨hroom.1, lt_roundsize hroom.2,
      (hended a d ha (load_eq_ok.mp hd)).imp_right fun hzero => ⟨hroom.2, hzero⟩⟩
  · exact fault

theorem unlockAppend (hended : ∀ a d, s.data x = .ok a → s.cell a = some d →
      opened' a ∨ (size = 0 → d.mem d.size = 0)) : Stays opened' hand (s.unlockAppend x size) := by
  refine read fun a ha => read fun d hd => ?_
  have hzero := hended a d ha (load_eq_ok.mp hd)
  split_ifs with hroom hsize
  · refine closing h hothers ha hd (hzero.imp_right fun hmem => ⟨fun _ => ?_, hmem hsize⟩)
    have hlt := hroom.2
    omega
  · exact resize h ha hd hroom.1 (lt_roundsize hroom.2) ⟨rfl, rfl, rfl⟩
      (.inr ⟨hroom.2, resize_mem d _⟩) hothers
  · exact fault

theorem unlockZ (hended : ∀ a d size, s.data x = .ok a → s.cell a = some d →
      zlen d = some size → opened' a ∨ (size : Int) < d.al) :
    Stays opened' hand (s.unlockZ x) := by
  refine read fun a ha => read fun d hd => ?_
  split_ifs with hrefcnt
  · refine read fun size hsize => unlockTo h hothers fun a' d' ha' hd' => ?_
    obtain rfl : a = a' := ok.inj (ha.symm.trans ha')
    obtain rfl : d = d' := ok.inj (hd.symm.trans hd')
    have hzlen : zlen d = some size := by
      cases hz : zlen d with
      | none => simp [hz] at hsize
      | some n => simpa [hz] using hsize
    have hzero : d.mem size = 0 :=
      of_decide_eq_true (List.find?_some (p := fun i => decide (d.mem i = 0)) hzlen)
    exact ⟨hrefcnt, List.mem_range.mp (List.mem_of_find?_eq_some hzlen),
      (hended a d size ha (load_eq_ok.mp hd) hzlen).imp_right fun hroom => ⟨hroom, fun _ => hzero⟩⟩
  · exact fault

end Closing

end Stays

variable {op : StringOp c}

/-- The operations that are not about open data. -/
theorem Closed.apply (h : Closed opened s []) (hop : op.locking = none) :
    Stays opened [] (s.apply garbage op) := by
  cases op with
  | new => exact Stays.initD h zeroData
  | newNull => exact Stays.initD h nullData
  | newCopy y => exact .read fun a _ => Stays.initD h a
  | newLen l | newZ l => exact Stays.initSub h _ 0 _
  | destroy x => exact Stays.destroy h x
  | copyS x y => exact .read fun a _ => Stays.i_setDoref h x a
  | copyLen x l | copyZ x l => exact Stays.copySub h x _ 0 _
  | setNull x => exact Stays.i_setDoref h x nullData
  | setEmpty x => exact Stays.i_setDoref h x zeroData
  | append x y => exact Stays.append h x y
  | appendLen x l => exact Stays.appendLen h x l
  | appendAscii x l => exact Stays.appendLen h x _
  | appendReverse x l => exact Stays.appendReverse h x l
  | getHash x =>
    refine .read fun p hp => .ok ?_
    exact Stays.getHash h x hp
  | beq x y =>
    refine .read fun p hp => .ok ?_
    exact Stays.beq h x y hp
  | plus x y => exact Stays.plus h x y
  | left x length =>
    refine .read fun a _ => .read fun d _ => ?_
    split_ifs
    · exact Stays.initD h a
    · exact Stays.initSub h d.mem 0 length
  | mid x pos | midLen x pos length =>
    refine .read fun a _ => .read fun d _ => ?_
    split_ifs
    · exact Stays.initD h zeroData
    · exact Stays.initSub h d.mem pos _
  | right x size =>
    refine .read fun a _ => .read fun d _ => ?_
    split_ifs
    · exact Stays.initD h a
    · exact Stays.initSub h d.mem _ size
  | cleanGet x => exact Stays.cleanGet h x
  | removeLeft x size =>
    change Stays opened [] (s.removeLeft garbage x size)
    unfold Strings.removeLeft
    split_ifs
    · exact .ok h
    · exact .read fun a _ => .read fun d _ => Stays.copySub h x d.mem _ _
  | removeFrom x pos | removeRight x size =>
    exact .read fun _ _ => .read fun d _ => Stays.copySub h x d.mem 0 _
  | removeMid x pos size => exact Stays.removeMid h x pos size
  | lock x _ | lockKeep x _ | write x _ _ | unlockSame x | unlock x _ | unlockAppend x _
  | unlockZ x => cases hop

/-- Operations keep the counts. -/
theorem Sound.apply (h : Sound s []) (hsized : op.Sized) (hrun : s.apply garbage op = .ok s') :
    Sound s' [] := by
  have hclosed : Closed (fun _ => True) s [] := ⟨h, fun _ _ _ => .inl trivial⟩
  cases hop : op.locking with
  | none => exact (hclosed.apply hop s' hrun).sound
  | some x =>
    cases op with
    | lock x size => exact (Stays.lock hclosed hsized hrun).sound
    | lockKeep x size => exact (Stays.lockKeep hclosed hrun).sound
    | write x i ch => exact (Stays.write hclosed (fun _ _ => trivial) i ch s' hrun).sound
    | unlockSame x =>
      exact (Stays.unlockSame hclosed (fun _ _ => id) (fun _ _ _ _ => .inl trivial) s' hrun).sound
    | unlock x size =>
      exact (Stays.unlock hclosed (fun _ _ => id) (fun _ _ _ _ => .inl trivial) s' hrun).sound
    | unlockAppend x size =>
      exact (Stays.unlockAppend hclosed (fun _ _ => id) (fun _ _ _ _ => .inl trivial) s'
        hrun).sound
    | unlockZ x =>
      exact (Stays.unlockZ hclosed (fun _ _ => id) (fun _ _ _ _ _ _ => .inl trivial) s'
        hrun).sound
    | _ => cases hop

/-- Strings, and the operations on them. -/
def machine (garbage : Nat → Nat → StrChar c) : Machine (Strings c) (StringOp c) where
  init s := s = initial c
  step s op :=
    if op.Sized then
      match s.apply garbage op with
      | .ok s' => some s'
      | _ => none
    else none

theorem step_eq_some (h : (machine garbage).step s op = some s') :
    op.Sized ∧ s.apply garbage op = .ok s' := by
  simp only [machine] at h
  split_ifs at h with hsized
  split at h
  · rename_i hrun
    cases h
    exact ⟨hsized, hrun⟩
  · cases h

theorem sound_of_reachable (h : (machine garbage).Reachable s) : Sound s [] := by
  refine h.invariant (fun s => Sound s []) ?_ ?_
  · rintro s rfl
    exact .initial
  · intro s op s' hsound hstep
    obtain ⟨hsized, hrun⟩ := step_eq_some hstep
    exact hsound.apply hsized hrun

end Strings

/-! ### The zero behind the characters of strings

The callers of `lock` write up to the size that they have asked for, and an `unlock` function
makes a zero follow the characters again, but not where the size stays: there it is still what was
in the memory before. -/

/-- Strings, and the sizes of the locks that are outstanding on data. -/
structure LockedStrings (c : CharSize) where
  strings : Strings c
  locks : Nat → Option Nat

namespace LockedStrings

variable {c : CharSize} {t t' : LockedStrings c} {s' : Strings c} {a x : Nat} {d : StrData c}
  {garbage : Nat → Nat → StrChar c} {op : StringOp c}

def initial (c : CharSize) : LockedStrings c := ⟨.initial c, fun _ => none⟩

/-- A lock on the data of a string. -/
def setLock (locks : Nat → Option Nat) (data : Call Nat) (size : Option Nat) : Nat → Option Nat :=
  match data with
  | .ok a => Function.update locks a size
  | _ => locks

/-- The locks that are outstanding after an operation. -/
def locksAfter (t : LockedStrings c) (s' : Strings c) : StringOp c → Nat → Option Nat
  | .lock x size => setLock t.locks (s'.data x) (some size)
  | .lockKeep x size => setLock t.locks (s'.data x) (some size)
  | .unlockSame x => setLock t.locks (t.strings.data x) none
  | .unlock x _ => setLock t.locks (t.strings.data x) none
  | .unlockAppend x _ => setLock t.locks (t.strings.data x) none
  | .unlockZ x => setLock t.locks (t.strings.data x) none
  | _ => t.locks

/-- Data that are locked for more than so many characters. -/
def lockedBeyond (t : LockedStrings c) (x i : Nat) : Bool :=
  match t.strings.data x with
  | .ok a => (t.locks a).any fun size => i < size
  | _ => false

/-- A caller of `lock` writes up to the size it has asked for. -/
def enabled (t : LockedStrings c) : StringOp c → Bool
  | .write x i _ => t.lockedBeyond x i
  | _ => true

/-- One operation. -/
def next (garbage : Nat → Nat → StrChar c) (t : LockedStrings c) (op : StringOp c) :
    Option (LockedStrings c) :=
  if t.enabled op ∧ op.Sized then
    match t.strings.apply garbage op with
    | .ok s' => some ⟨s', t.locksAfter s' op⟩
    | _ => none
  else none

/-- Something holds of the data of a string. -/
def DataOf (s : Strings c) (x : Nat) (p : StrData c → Prop) : Prop :=
  ∀ a d, s.data x = .ok a → s.cell a = some d → p d

/-- An `unlock` function of a size that stays finds a zero there, and `unlockZ` one in what has
been allocated. -/
def Terminating (t : LockedStrings c) : StringOp c → Prop
  | .unlockSame x => DataOf t.strings x Strings.Ended
  | .unlock x size => DataOf t.strings x fun d => d.size = size → d.mem size = 0
  | .unlockAppend x size => DataOf t.strings x fun d => size = 0 → d.mem d.size = 0
  | .unlockZ x => DataOf t.strings x fun d => ∀ size, Strings.zlen d = some size → size < d.al
  | _ => True

/-- Without a lock outstanding a zero follows the characters of a string, in what has been
allocated. -/
def Terminated (t : LockedStrings c) : Prop :=
  ∀ x a d, t.strings.data x = .ok a → t.strings.cell a = some d → t.locks a = none →
    Strings.Ended d

/-- The data with a lock outstanding are open, and the others are ended. -/
def Inv (t : LockedStrings c) : Prop :=
  Strings.Closed (fun a => (t.locks a).isSome) t.strings []

theorem next_eq_some (h : t.next garbage op = some t') :
    t.enabled op ∧ op.Sized ∧ t.strings.apply garbage op = .ok t'.strings ∧
      t'.locks = t.locksAfter t'.strings op := by
  unfold next at h
  split_ifs at h with henabled
  split at h
  · rename_i hrun
    cases h
    exact ⟨henabled.1, henabled.2, hrun, rfl⟩
  · cases h

variable {locks : Nat → Option Nat}

theorem isSome_setLock_some {data : Call Nat} {size : Nat} (h : (locks a).isSome ∨ data = .ok a) :
    (setLock locks data (some size) a).isSome := by
  cases data with
  | ok b =>
    by_cases hb : a = b
    · rw [setLock, hb, update_self]
      rfl
    · rw [setLock, update_of_ne hb]
      exact h.resolve_right fun heq => hb (ok.inj heq).symm
  | _ =>
    refine h.resolve_right fun heq => ?_
    cases heq

theorem isSome_setLock_none {data : Call Nat} (hdata : ¬ data = .ok a) (h : (locks a).isSome) :
    (setLock locks data none a).isSome := by
  cases data with
  | ok b =>
    have hb : a ≠ b := by
      rintro rfl
      exact hdata rfl
    rw [setLock, update_of_ne hb]
    exact h
  | _ => exact h

/-- A step that finds a zero where it has to keeps the invariant. -/
theorem Inv.step (hinv : t.Inv) (hterm : t.Terminating op) (h : t.next garbage op = some t') :
    t'.Inv := by
  obtain ⟨henabled, hsized, hrun, hlocks⟩ := next_eq_some h
  rw [Inv, hlocks]
  have hothers (x : Nat) (b : Nat) (hb : ¬ t.strings.data x = .ok b) (hopen : (t.locks b).isSome) :
      ((setLock t.locks (t.strings.data x) none) b).isSome := isSome_setLock_none hb hopen
  cases op with
  | lock x size => exact (Strings.Stays.lock hinv hsized hrun).mono fun _ => isSome_setLock_some
  | lockKeep x size => exact (Strings.Stays.lockKeep hinv hrun).mono fun _ => isSome_setLock_some
  | write x i ch =>
    refine Strings.Stays.write hinv (fun a ha => ?_) i ch _ hrun
    have hbeyond : t.lockedBeyond x i := henabled
    rw [lockedBeyond, ha] at hbeyond
    exact Option.isSome_of_any hbeyond
  | unlockSame x =>
    exact Strings.Stays.unlockSame hinv (hothers x) (fun a d ha hd => .inr (hterm a d ha hd)) _
      hrun
  | unlock x size =>
    exact Strings.Stays.unlock hinv (hothers x) (fun a d ha hd => .inr (hterm a d ha hd)) _ hrun
  | unlockAppend x size =>
    exact Strings.Stays.unlockAppend hinv (hothers x) (fun a d ha hd => .inr (hterm a d ha hd)) _
      hrun
  | unlockZ x =>
    exact Strings.Stays.unlockZ hinv (hothers x)
      (fun a d size ha hd hzlen => .inr (hterm a d ha hd size hzlen)) _ hrun
  | _ => exact Strings.Closed.apply hinv rfl _ hrun

theorem Inv.initial : (initial c).Inv := by
  refine ⟨.initial, fun a d hd => .inr ?_⟩
  match a with
  | 0 =>
    cases hd
    exact ⟨fun h => absurd h (Int.not_lt.mpr (Int.neg_nonpos_of_nonneg Int.one_nonneg)), rfl⟩
  | 1 =>
    cases hd
    exact ⟨fun h => absurd h (Int.lt_irrefl 0), rfl⟩
  | a + 2 => cases hd

/-- Strings with their locks, and the operations on them. -/
def machine (garbage : Nat → Nat → StrChar c) : Machine (LockedStrings c) (StringOp c) where
  init t := t = initial c
  step t op := t.next garbage op

/-- In a run whose `unlock` functions of a size that stays find a zero there, a zero follows the
characters of all strings without a lock outstanding. -/
theorem terminated_of_terminating (h : (machine garbage).ReachableWith Terminating t) :
    t.Terminated := by
  have hinv : t.Inv := by
    refine h.invariant Inv ?_ fun t op t' hinv hterm hstep => hinv.step hterm hstep
    rintro t rfl
    exact .initial
  intro x a d hx hd hunlocked
  rcases hinv.ended a d hd with hopen | hended
  · rw [hunlocked] at hopen
    cases hopen
  · exact hended

/-- Memory that holds zeroes. -/
def cleared : Nat → Nat → StrChar .byte := fun _ _ => 0

/-- A string of six characters is locked and unlocked with three of them: the fourth one follows.
A string of two characters is locked for ten, the third one is written, and nothing is appended:
it follows the two. -/
theorem not_terminated_runs :
    (∃ t, (machine cleared).Reachable t ∧ ¬ t.Terminated ∧
      (t.strings.cell 2).map StrData.content = some [97, 98, 99] ∧
        (t.strings.cell 2).map (fun d => d.mem d.size) = some 100) ∧
    ∃ t, (machine cleared).Reachable t ∧ ¬ t.Terminated ∧
      (t.strings.cell 3).map StrData.content = some [97, 98] ∧
        (t.strings.cell 3).map (fun d => d.mem d.size) = some 120 := by
  have hstart : (machine cleared).Reachable (initial .byte) := .init rfl
  refine ⟨?_, ?_⟩
  · have hnew := hstart.next (a := StringOp.newLen [97, 98, 99, 100, 101, 102]) trivial rfl
    have hlock := hnew.next (a := StringOp.lock 0 3) trivial rfl
    have hunlock := hlock.next (a := StringOp.unlock 0 3) trivial rfl
    refine ⟨_, hunlock, fun hterm => ?_, by decide, by decide⟩
    exact absurd (hterm 0 2 _ rfl rfl rfl).2 (by decide)
  · have hnew := hstart.next (a := StringOp.newLen [97, 98]) trivial rfl
    have hlock := hnew.next (a := StringOp.lockKeep 0 10) trivial rfl
    have hwrite := hlock.next (a := StringOp.write 0 2 120) trivial rfl
    have hunlock := hwrite.next (a := StringOp.unlockAppend 0 0) trivial rfl
    refine ⟨_, hunlock, fun hterm => ?_, by decide, by decide⟩
    exact absurd (hterm 0 3 _ rfl rfl rfl).2 (by decide)

/-- A string of six characters is locked for three, of which two are kept and written to, and then
appended to a copy of it. -/
theorem terminated_shortened : ∃ t, (machine cleared).ReachableWith Terminating t ∧
    t.Terminated ∧ (t.strings.cell 3).map StrData.content = some [120, 98, 120, 98] := by
  have hstart : (machine cleared).ReachableWith Terminating (initial .byte) := .init rfl
  have hnew := hstart.next (a := StringOp.newLen [97, 98, 99, 100, 101, 102]) trivial rfl
  have hlock := hnew.next (a := StringOp.lock 0 3) trivial rfl
  have hwrite := hlock.next (a := StringOp.write 0 0 120) trivial rfl
  have hunlock := hwrite.next (a := StringOp.unlock 0 2) ?_ rfl
  · have hcopy := hunlock.next (a := StringOp.newCopy 0) trivial rfl
    have happend := hcopy.next (a := StringOp.append 1 0) trivial rfl
    exact ⟨_, happend, terminated_of_terminating happend, by decide⟩
  · -- the size changes
    rintro a d ha hd hsame
    obtain rfl : 2 = a := ok.inj ha
    cases hd
    cases hsame

end LockedStrings

end Drt
