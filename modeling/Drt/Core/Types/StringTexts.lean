import Drt.Core.Types.StringEnds

/-!
# What operations on one string do to the others

A string that has its data alone is written to in place, and any other gets data of its own. The
others keep theirs, as the counts tell who has them. There are two exceptions: `lock` copies as
much as there was to where there is less room, and `append` of a string to itself reads what
`reallocSelf` has given up.
-/

open List Function Outcome

namespace Drt

open StrData

namespace StrData

variable {c : CharSize}

/-- The characters after others have been written behind them. -/
theorem content_appendMem (d : StrData c) (src : Nat → StrChar c) (count : Nat) :
    (d.appendMem src count).content = d.content ++ (List.range count).map src := by
  change (List.range (d.size + count)).map _ = _
  rw [range_add, map_append, map_map]
  congr 1
  · refine map_congr_left fun i hi => ?_
    have hlt := mem_range.mp hi
    change update (pcopy d.mem d.size src 0 count) _ 0 i = d.mem i
    rw [update_of_ne (by omega), pcopy, if_neg (by omega)]
  · refine map_congr_left fun i hi => ?_
    have hlt := mem_range.mp hi
    change update (pcopy d.mem d.size src 0 count) _ 0 (d.size + i) = src i
    rw [update_of_ne (by omega), pcopy, if_pos (by omega)]
    congr 1
    omega

theorem map_charsOf (l : List (StrChar c)) : (List.range l.length).map (charsOf l) = l := by
  refine ext_getElem (by simp) fun i hi hi' => ?_
  simp [charsOf, hi']

theorem take_content (d : StrData c) (n : Nat) :
    d.content.take n = (List.range (min n d.size)).map d.mem := by
  rw [content, ← map_take, take_range]

theorem map_pcopy (mem src : Nat → StrChar c) {n count : Nat} (h : n ≤ count) :
    (List.range n).map (pcopy mem 0 src 0 count) = (List.range n).map src := by
  refine map_congr_left fun i hi => ?_
  have hlt := mem_range.mp hi
  rw [pcopy, if_pos (by omega), Nat.zero_add, Nat.sub_zero]

end StrData

namespace Strings

variable {c : CharSize} {s s' : Strings c} {a b e x y : Nat} {d d' n : StrData c}
  {hand : List Nat} {garbage : Nat → Nat → StrChar c}

/-- The characters of a string. -/
def text (s : Strings c) (x : Nat) : Call (List (StrChar c)) := do
  let a ← s.data x
  let d ← s.load a
  .ok d.content

theorem text_eq (hx : s.data x = .ok a) (hd : s.cell a = some d) : s.text x = .ok d.content := by
  rw [text, hx, ok_bind, load_eq_ok.mpr hd, ok_bind]

/-- Strings have the same text if they have the same data, and these the same characters. -/
theorem text_congr (hdata : s'.data y = s.data y)
    (hcell : ∀ a, s.data y = .ok a →
      (s'.cell a).map content = (s.cell a).map content) :
    s'.text y = s.text y := by
  rw [text, text, hdata]
  cases hy : s.data y with
  | ok a =>
    rw [ok_bind, ok_bind, load, load]
    have hmap := hcell a hy
    cases hold : s.cell a <;> cases hnew : s'.cell a <;> simp_all [ofOption]
  | _ => rfl

/-- The data of a string that has them alone are of no matter to the others. -/
theorem Sound.text_put (h : Sound s hand) (hx : s.data x = .ok a) (hd : s.cell a = some d)
    (hrefcnt : d.refcnt = 0) (e : Option (StrData c)) (hy : y ≠ x) :
    (s.put a e).text y = s.text y := by
  refine text_congr rfl fun b hb => ?_
  have hne : b ≠ a := by
    rintro rfl
    exact hy ((h.alone hx hd hrefcnt).2 y hb)
  rw [cell_put_of_ne hne]

theorem Renewed.text (hr : Renewed s s' x n) (h : Sound s hand) (hy : y ≠ x) :
    s'.text y = s.text y := by
  refine text_congr (hr.data y hy) fun b hb => ?_
  obtain ⟨d, hd⟩ := h.exists_cell hb
  by_cases hx : s.data x = .ok b
  · have hmany : 0 < d.refcnt := by
      have hnonneg := h.refcnt_nonneg hb hd
      by_contra hnone
      exact hy ((h.alone hx hd (by omega)).2 y hb)
    rw [hr.former b d hx hd, hd, if_pos hmany]
    rfl
  · rw [hr.other b d hx hd, hd]

theorem Released.text (hr : Released s s') (h' : Sound s' hand) (y : Nat) :
    s'.text y = s.text y := by
  have hdata : s'.data y = s.data y := by rw [Strings.data, Strings.data, hr.strs]
  refine text_congr hdata fun b hb => ?_
  obtain ⟨d', hd'⟩ := h'.exists_cell (hdata.trans hb)
  obtain ⟨d, hd, heq⟩ := hr.cell b d' hd'
  rw [hd', hd, heq]
  rfl

theorem text_setData_of_ne (h : y ≠ x) (s : Strings c) (a : Nat) :
    (s.setData x a).text y = s.text y :=
  text_congr (data_setData_of_ne h s a) fun _ _ => rfl

theorem Renewed.text_self (hr : Renewed s s' x n) : s'.text x = .ok n.content :=
  text_eq hr.own.1 hr.own.2

/-- `appendReverse` gives a string of its own the characters, the last one first. -/
theorem text_appendReverse (garbage : Nat → Nat → StrChar c) (h : Sound s [])
    (hx : s.data x = .ok a) (l : List (StrChar c)) :
    ∃ s' old, s.appendReverse garbage x l = .ok s' ∧ s.text x = .ok old ∧
      s'.text x = .ok (old ++ l.reverse) ∧ ∀ y, y ≠ x → s'.text y = s.text y := by
  obtain ⟨d, hd⟩ := h.exists_cell hx
  rw [appendReverse]
  split_ifs with hl
  · refine ⟨s, d.content, rfl, text_eq hx hd, ?_, fun y _ => rfl⟩
    rw [hl, reverse_nil, append_nil]
    exact text_eq hx hd
  · obtain ⟨s', hrun, -, hrenewed⟩ := h.renew garbage hx
      (Nat.succ_pos (d.size + l.length)) (le_roundsize c (d.size + l.length + 1))
      fun mem => update (pcopy (pcopy mem 0 d.mem 0 d.size) d.size
        (charsOf l.reverse) 0 l.length) (d.size + l.length) 0
    refine ⟨s', d.content, ?_, text_eq hx hd, ?_, fun y hy => hrenewed.text h hy⟩
    · rw [hx, ok_bind, load_eq_ok.mpr hd, ok_bind]
      exact hrun
    · -- the characters are those of the former ones in the new memory, and those appended
      rw [hrenewed.text_self]
      have happended := content_appendMem
        { allocDg (garbage s.cells.length) (d.size + l.length + 1) d.size with
          mem := pcopy (allocDg (garbage s.cells.length) (d.size + l.length + 1)
            (d.size + l.length)).mem 0 d.mem 0 d.size } (charsOf l.reverse) l.length
      have hold : (List.range d.size).map (pcopy (allocDg (garbage s.cells.length)
          (d.size + l.length + 1) (d.size + l.length)).mem 0 d.mem 0 d.size) = d.content :=
        map_pcopy _ d.mem (Nat.le_refl d.size)
      have hadded := map_charsOf l.reverse
      rw [length_reverse] at hadded
      rw [hadded] at happended
      exact congrArg ok (happended.trans (congrArg (· ++ l.reverse) hold))

/-- A string has a buffer for so many characters, that no other string has and that begins with
the former characters, and the others are as they were. -/
structure Private (s s' : Strings c) (x size : Nat) : Prop where
  buffer : ∃ a d old, s'.data x = .ok a ∧ s'.cell a = some d ∧ s.text x = .ok old ∧
    (size : Int) < d.al ∧ (List.range (min size old.length)).map d.mem = old.take size
  alone : ∀ a y, s'.data x = .ok a → s'.data y = .ok a → y = x
  others : ∀ y, y ≠ x → s'.text y = s.text y

/-- A `lock` returns, and leaves the string alone with data of this size. -/
def Yields (s : Strings c) (x size : Nat) (run : Call (Strings c)) : Prop :=
  ∃ s', run = .ok s' ∧ Private s s' x size

theorem roundsize_roundsize (c : CharSize) (size : Nat) :
    roundsize c (roundsize c size) = roundsize c size := by
  unfold roundsize
  cases c <;> simp only [CharSize.perLong] <;> omega

variable {newSize size : Nat}

theorem holds_of_le (h : Sound s hand) (hx : s.data x = .ok a) (hd : s.cell a = some d)
    (hrefcnt : d.refcnt = 0) (hal : d.al ≤ size) : holds c size d.size := by
  have hinside := h.inside a d hd (h.alone hx hd hrefcnt).1
  have hup := roundsize_le c (Nat.succ_le_of_lt hinside)
  rw [roundsize_roundsize] at hup
  exact Nat.le_trans hup (roundsize_le c (by omega))

/-- The copy that a lock makes is a private buffer, if it has room for all of the former data. -/
theorem yields_lockCopy (h : Sound s hand) (hx : s.data x = .ok a) (hd : s.cell a = some d)
    (hsize : newSize = size ∨ newSize = d.size) :
    Yields s x size (s.lockCopy garbage x size newSize d) ↔ holds c size d.size := by
  rw [lockCopy]
  split_ifs with hholds
  · refine iff_of_true ?_ hholds
    have hinside : newSize < roundsize c (size + 1) := by
      rcases hsize with rfl | rfl
      · exact le_roundsize c (newSize + 1)
      · exact Nat.lt_of_lt_of_le (le_roundsize c (d.size + 1)) hholds
    obtain ⟨s', hrun, hsound, hrenewed⟩ := h.renew garbage hx (Nat.succ_pos size)
      hinside fun mem => pcopy mem 0 d.mem 0 (roundsize c (d.size + 1))
    refine ⟨s', hrun, ⟨_, _, d.content, hrenewed.own.1, hrenewed.own.2, text_eq hx hd, ?_, ?_⟩,
      fun b y hb hy => ?_, fun y hy => hrenewed.text h hy⟩
    · change (size : Int) < ((size + 1 : Nat) : Int)
      omega
    · have hle := le_roundsize c (d.size + 1)
      rw [take_content, length_content]
      exact map_pcopy _ _ (by omega)
    · obtain rfl := ok.inj (hrenewed.own.1.symm.trans hb)
      exact (hsound.alone hrenewed.own.1 hrenewed.own.2 rfl).2 y hy
  · refine iff_of_false ?_ hholds
    rintro ⟨s', heq, -⟩
    cases heq

/-- In place, what a lock writes comes after the characters. -/
theorem yields_put (h : Sound s hand) (hx : s.data x = .ok a) (hd : s.cell a = some d)
    (hrefcnt : d.refcnt = 0) (hal : (size : Int) < d'.al)
    (hmem : ∀ i, i < d.size → d'.mem i = d.mem i) : Yields s x size (.ok (s.put a (some d'))) := by
  refine ⟨_, rfl, ⟨a, d', d.content, hx, cell_put_self hd _, text_eq hx hd, hal, ?_⟩,
    fun b y hb hy => ?_, fun y hy => h.text_put hx hd hrefcnt _ hy⟩
  · rw [take_content, length_content]
    refine map_congr_left fun i hi => ?_
    have hlt := mem_range.mp hi
    exact hmem i (by omega)
  · obtain rfl := ok.inj (hx.symm.trans hb)
    exact (h.alone hx hd hrefcnt).2 y hy

theorem yields_ok (h : Sound s hand) (hx : s.data x = .ok a) (hd : s.cell a = some d)
    (hrefcnt : d.refcnt = 0) (hal : (size : Int) < d.al) : Yields s x size (.ok s) := by
  refine ⟨s, rfl, ⟨a, d, d.content, hx, hd, text_eq hx hd, hal, ?_⟩, fun b y hb hy => ?_,
    fun y _ => rfl⟩
  · rw [take_content, length_content]
  · obtain rfl := ok.inj (hx.symm.trans hb)
    exact (h.alone hx hd hrefcnt).2 y hy

/-- A string is not shared, or a new buffer has room for the longs of its data. -/
def Lockable (s : Strings c) (x size : Nat) : Prop :=
  ∀ a d, s.data x = .ok a → s.cell a = some d → 0 < d.refcnt → holds c size d.size

theorem lockable_iff (hx : s.data x = .ok a) (hd : s.cell a = some d) :
    Lockable s x size ↔ (0 < d.refcnt → holds c size d.size) := by
  refine ⟨fun h => h a d hx hd, fun h b e hb he => ?_⟩
  obtain rfl := ok.inj (hx.symm.trans hb)
  obtain rfl := Option.some.inj (hd.symm.trans he)
  exact h

/-- Both work on a copy, or in place, where the string is not shared and there is room. -/
theorem yields_iff (h : Sound s hand) (hx : s.data x = .ok a) (hd : s.cell a = some d)
    (hsize : newSize = size ∨ newSize = d.size) {inPlace : Call (Strings c)}
    (hin : d.refcnt = 0 → (size : Int) < d.al → Yields s x size inPlace) :
    Yields s x size (if 0 < d.refcnt ∨ d.al ≤ size then s.lockCopy garbage x size newSize d
      else inPlace) ↔ Lockable s x size := by
  have hnonneg := h.refcnt_nonneg hx hd
  rw [lockable_iff hx hd]
  split_ifs with hcopy
  · rw [yields_lockCopy h hx hd hsize]
    refine ⟨fun hholds _ => hholds, fun hholds => ?_⟩
    by_cases hmany : 0 < d.refcnt
    · exact hholds hmany
    · exact holds_of_le h hx hd (by omega) (hcopy.resolve_left hmany)
  · refine iff_of_true (hin (by omega) (by omega)) fun hmany => ?_
    exact absurd (.inl hmany) hcopy

/-- `lock` and `lockKeep` yield a private buffer exactly if the string is not shared, or the
buffer is no smaller than the data of the string, both in whole longs. -/
theorem yields_lock_iff (h : (machine garbage).Reachable s) (hx : s.data x = .ok a)
    {size : Nat} (hsize : size < 2 ^ 63) :
    (Yields s x size (s.lock garbage x size) ↔ Lockable s x size) ∧
      (Yields s x size (s.lockKeep garbage x size) ↔ Lockable s x size) := by
  have hsound := sound_of_reachable h
  obtain ⟨d, hd⟩ := hsound.exists_cell hx
  refine ⟨?_, ?_⟩
  · rw [lock, hx, ok_bind, load_eq_ok.mpr hd, ok_bind, ssize_of_lt hsize]
    refine yields_iff hsound hx hd (.inl rfl) fun hrefcnt hal => ?_
    have hinside := hsound.inside a d hd (hsound.alone hx hd hrefcnt).1
    split_ifs
    · exact yields_ok hsound hx hd hrefcnt hal
    · refine yields_put hsound hx hd hrefcnt hal fun i hi => ?_
      exact if_neg (by omega)
  · rw [lockKeep, hx, ok_bind, load_eq_ok.mpr hd, ok_bind, ssize_of_lt hsize]
    exact yields_iff hsound hx hd (.inr rfl) fun hrefcnt hal => yields_ok hsound hx hd hrefcnt hal

/-- Memory that holds zeroes. -/
def blank : Nat → Nat → StrChar .byte := fun _ _ => 0

/-- Two strings of eight characters, with the same data: the copy that `lock(0)` and `lockKeep(0)`
make is written to behind its end. -/
theorem not_yields_lock : ∃ s, (machine blank).Reachable s ∧ s.data 0 = .ok 2 ∧
    ¬ Yields s 0 0 (s.lock blank 0 0) ∧ ¬ Yields s 0 0 (s.lockKeep blank 0 0) := by
  have hstart : (machine blank).Reachable (initial .byte) := .init rfl
  have hnew := hstart.next (a := .newLen [97, 98, 99, 100, 101, 102, 103, 104]) trivial rfl
  have hcopy := hnew.next (a := .newCopy 0) trivial rfl
  refine ⟨_, hcopy, rfl, ?_, ?_⟩
  · rintro ⟨s', heq, -⟩
    cases heq
  · rintro ⟨s', heq, -⟩
    cases heq

/-- With room for its characters, a string that is shared is locked. -/
theorem yields_lock_shared : ∃ s, (machine blank).Reachable s ∧
    (Yields s 0 2 (s.lock blank 0 2) ↔ Lockable s 0 2) ∧
      (Yields s 0 2 (s.lockKeep blank 0 2) ↔ Lockable s 0 2) := by
  have hstart : (machine blank).Reachable (initial .byte) := .init rfl
  have hnew := hstart.next (a := .newLen [97, 98]) trivial rfl
  have hcopy := hnew.next (a := .newCopy 0) trivial rfl
  exact ⟨_, hcopy, yields_lock_iff hcopy (a := 2) rfl (by decide)⟩

/-- An `append` returns, with the characters of both in the one string. -/
def Appends (s : Strings c) (x y : Nat) (run : Call (Strings c)) : Prop :=
  ∃ s' old added, run = .ok s' ∧ s.text x = .ok old ∧ s.text y = .ok added ∧
    s'.text x = .ok (old ++ added) ∧ ∀ z, z ≠ x → s'.text z = s.text z

/-- A string that is appended to itself is empty, shares its data, or has room. -/
def Appendable (s : Strings c) (x y : Nat) : Prop :=
  x = y → ∀ a d, s.data x = .ok a → s.cell a = some d → d.size ≠ 0 → d.refcnt = 0 →
    fits d (d.size + d.size)

theorem Sound.i_setDoref_text (h : Sound s []) (hx : s.data x = .ok b) (hd : s.cell a = some d) :
    ∃ s', s.i_setDoref x a = .ok s' ∧ s'.text x = .ok d.content ∧
      ∀ z, z ≠ x → s'.text z = s.text z := by
  obtain ⟨s', hrun, hsound, hreleased⟩ := h.i_setDoref hx hd
  refine ⟨s', hrun, ?_, fun z hz => ?_⟩
  · rw [hreleased.text hsound]
    exact text_eq (data_setData_self hx a) hd
  · rw [hreleased.text hsound]
    exact text_setData_of_ne hz s a

/-- Where there is room, characters are written behind the others in place. -/
theorem appends_fits (h : Sound s []) (hx : s.data x = .ok a) (hd : s.cell a = some d)
    (hy : s.data y = .ok b) (hn : s.cell b = some n) (hrefcnt : d.refcnt = 0) :
    Appends s x y (.ok (s.put a (some (d.appendMem n.mem n.size)))) := by
  refine ⟨_, d.content, n.content, rfl, text_eq hx hd, text_eq hy hn, ?_,
    fun z hz => h.text_put hx hd hrefcnt _ hz⟩
  rw [text_eq (s := s.put a _) hx (cell_put_self hd _), content_appendMem]
  rfl

/-- Where there is none, the data of the other string have to be there still. -/
theorem appends_copied (h : Sound s []) (hx : s.data x = .ok a) (hd : s.cell a = some d)
    (hy : s.data y = .ok b) (hn : s.cell b = some n) {newcsize : Nat}
    (hr : Renewed s s' x (moved garbage s newcsize d)) (hsound : Sound s' []) :
    Appends s x y (s'.data x >>= fun a => s'.load b >>= fun n => s'.load a >>= fun d =>
      .ok (s'.put a (some (d.appendMem n.mem n.size)))) ↔ ¬ (a = b ∧ d.refcnt = 0) := by
  obtain ⟨hown, hnew⟩ := hr.own
  have hnonneg := h.refcnt_nonneg hx hd
  rw [hown, ok_bind, load_eq_ok.mpr hnew]
  by_cases hlost : a = b ∧ d.refcnt = 0
  · obtain ⟨rfl, hrefcnt⟩ := hlost
    have hfreed := hr.former a d hx hd
    rw [if_neg (by omega)] at hfreed
    refine iff_of_false ?_ (not_not_intro ⟨rfl, hrefcnt⟩)
    rintro ⟨t, old, added, hrun, -⟩
    rw [load, hfreed] at hrun
    cases hrun
  · obtain ⟨n', hn'⟩ : ∃ n', s'.cell b = some n' := by
      by_cases hsame : s.data x = .ok b
      · obtain rfl := ok.inj (hx.symm.trans hsame)
        obtain rfl := Option.some.inj (hd.symm.trans hn)
        have hformer := hr.former a d hx hd
        rw [if_pos (by omega)] at hformer
        exact ⟨_, hformer⟩
      · exact ⟨n, hr.other b n hsame hn⟩
    have heq := hr.cell hn hn'
    have hcontent : (moved garbage s newcsize d).content = d.content :=
      map_pcopy _ d.mem (Nat.le_refl d.size)
    refine iff_of_true ?_ hlost
    rw [load_eq_ok.mpr hn', ok_bind, ok_bind]
    refine ⟨_, d.content, n.content, rfl, text_eq hx hd, text_eq hy hn, ?_, fun z hz => ?_⟩
    · rw [text_eq (s := s'.put _ _) hown (cell_put_self hnew _), content_appendMem,
        hcontent, heq]
      rfl
    · rw [hsound.text_put hown hnew rfl _ hz]
      exact hr.text h hz

/-- `append` does what it is to exactly if it is not the string itself that is appended, or that
is empty, shares its data or has room. -/
theorem appends_iff (h : (machine garbage).Reachable s) (hx : s.data x = .ok a)
    (hy : s.data y = .ok b) : Appends s x y (s.append garbage x y) ↔ Appendable s x y := by
  have hsound := sound_of_reachable h
  obtain ⟨d, hd⟩ := hsound.exists_cell hx
  obtain ⟨n, hn⟩ := hsound.exists_cell hy
  have hitself : Appendable s x y ↔
      (x = y → d.size ≠ 0 → d.refcnt = 0 → fits d (d.size + d.size)) := by
    refine ⟨fun happ hxy => happ hxy a d hx hd, fun happ hxy a' d' ha' hd' => ?_⟩
    obtain rfl := ok.inj (hx.symm.trans ha')
    obtain rfl := Option.some.inj (hd.symm.trans hd')
    exact happ hxy
  have hsame (hxy : x = y) : a = b ∧ d = n := by
    subst hxy
    obtain rfl := ok.inj (hx.symm.trans hy)
    exact ⟨rfl, Option.some.inj (hd.symm.trans hn)⟩
  rw [hitself, append, hy, ok_bind, hx, ok_bind, load_eq_ok.mpr hn,
    ok_bind, load_eq_ok.mpr hd, ok_bind]
  by_cases hempty : n.size = 0
  · rw [if_pos hempty]
    refine iff_of_true ?_ fun hxy hsize => ?_
    · have hnil : n.content = [] := length_eq_zero_iff.mp (n.length_content.trans hempty)
      refine ⟨s, d.content, n.content, rfl, text_eq hx hd, text_eq hy hn, ?_, fun z _ => rfl⟩
      rw [hnil, append_nil]
      exact text_eq hx hd
    · rw [(hsame hxy).2] at hsize
      exact absurd hempty hsize
  · rw [if_neg hempty]
    by_cases hfirst : d.size = 0
    · rw [if_pos hfirst]
      refine iff_of_true ?_ fun _ hsize => absurd hfirst hsize
      have hnil : d.content = [] := length_eq_zero_iff.mp (d.length_content.trans hfirst)
      obtain ⟨s', hrun, htext, hothers⟩ := hsound.i_setDoref_text hx hn
      refine ⟨s', d.content, n.content, hrun, text_eq hx hd, text_eq hy hn, ?_, hothers⟩
      rw [hnil]
      exact htext
    · rw [if_neg hfirst]
      by_cases hfits : fits d (d.size + n.size)
      · rw [reallocSelf_of_fits hx hd hfits, ok_bind, hx, ok_bind,
          load_eq_ok.mpr hn, ok_bind, load_eq_ok.mpr hd, ok_bind]
        refine iff_of_true (appends_fits hsound hx hd hy hn hfits.1) fun hxy _ _ => ?_
        rw [← (hsame hxy).2] at hfits
        exact hfits
      · obtain ⟨s', hrun, hsound', hrenewed⟩ := hsound.reallocSelf garbage hx hd
          (Nat.le_add_right _ _) hfits
        rw [hrun, ok_bind, appends_copied hsound hx hd hy hn hrenewed hsound']
        refine ⟨fun hkept hxy _ hrefcnt => ?_, fun happ hlost => hfits ?_⟩
        · exact absurd ⟨(hsame hxy).1, hrefcnt⟩ hkept
        · obtain ⟨rfl, hrefcnt⟩ := hlost
          obtain rfl := (hsound.alone hx hd hrefcnt).2 y hy
          rw [← (hsame rfl).2]
          exact happ rfl hfirst hrefcnt

/-- A string of two characters that is appended to itself: they are read after they have been
freed. -/
theorem not_appends_itself : ∃ s, (machine blank).Reachable s ∧ s.data 0 = .ok 2 ∧
    ¬ Appends s 0 0 (s.append blank 0 0) := by
  have hstart : (machine blank).Reachable (initial .byte) := .init rfl
  have hnew := hstart.next (a := .newLen [97, 98]) trivial rfl
  refine ⟨_, hnew, rfl, ?_⟩
  rintro ⟨s', old, added, heq, -⟩
  cases heq

/-- A string that shares its data is appended to itself. -/
theorem appends_shared : ∃ s, (machine blank).Reachable s ∧
    (Appends s 0 0 (s.append blank 0 0) ↔ Appendable s 0 0) := by
  have hstart : (machine blank).Reachable (initial .byte) := .init rfl
  have hnew := hstart.next (a := .newLen [97, 98]) trivial rfl
  have hcopy := hnew.next (a := .newCopy 0) trivial rfl
  exact ⟨_, hcopy, appends_iff hcopy (a := 2) (b := 2) rfl rfl⟩

end Strings

end Drt
