import Drt.Core.Types.StringKeeps
import Drt.Lib.Machine

/-!
# The hash value that strings keep

A hash value that data keep has been computed of the characters they had then. It is theirs
still as long as nobody writes to them. The appending functions in place, and the `unlock`
functions of a size that stays, do not make the data forget it.
-/

namespace Drt

open StrData

/-- Strings, and what is not in their memory: the data with a lock outstanding, and the characters
that a hash value has been computed of. -/
structure TrackedStrings (c : CharSize) where
  strings : Strings c
  locked : Nat → Bool
  hashed : Nat → List (StrChar c)

namespace TrackedStrings

variable {c : CharSize} {t t' : TrackedStrings c} {s' : Strings c} {a b x y : Nat}
  {d d' : StrData c} {garbage : Nat → Nat → StrChar c}

def initial (c : CharSize) : TrackedStrings c := ⟨.initial c, fun _ => false, fun _ => []⟩

/-- The data of a string are locked or unlocked. -/
def setLocked (locked : Nat → Bool) (data : Call Nat) (value : Bool) : Nat → Bool :=
  match data with
  | .ok a => Function.update locked a value
  | _ => locked

/-- The locks outstanding after an operation. -/
def lockedAfter (t : TrackedStrings c) (s' : Strings c) : StringOp c → Nat → Bool
  | .lock x _ => setLocked t.locked (s'.data x) true
  | .lockKeep x _ => setLocked t.locked (s'.data x) true
  | .unlockSame x => setLocked t.locked (t.strings.data x) false
  | .unlock x _ => setLocked t.locked (t.strings.data x) false
  | .unlockAppend x _ => setLocked t.locked (t.strings.data x) false
  | .unlockZ x => setLocked t.locked (t.strings.data x) false
  | _ => t.locked

/-- Data that had no hash value and have one now: it has been computed of their characters. -/
def hashedAfter (t : TrackedStrings c) (s' : Strings c) (a : Nat) : List (StrChar c) :=
  match s'.cell a with
  | none => t.hashed a
  | some d' =>
    if d'.hash ≠ -1 ∧ ((t.strings.cell a).all fun d => decide (d.hash = -1)) then d'.content
    else t.hashed a

/-- Characters are written by a caller of `lock` only. -/
def enabled (t : TrackedStrings c) : StringOp c → Bool
  | .write x _ _ =>
    match t.strings.data x with
    | .ok a => t.locked a
    | _ => false
  | _ => true

/-- One operation. -/
def next (garbage : Nat → Nat → StrChar c) (t : TrackedStrings c) (op : StringOp c) :
    Option (TrackedStrings c) :=
  if t.enabled op then
    match t.strings.apply garbage op with
    | .ok s' => some ⟨s', t.lockedAfter s' op, t.hashedAfter s'⟩
    | _ => none
  else none

/-- The data of a string have no hash value, or the characters it has been computed of. -/
def Unwritten (t : TrackedStrings c) (x : Nat) : Prop :=
  ∀ a d, t.strings.data x = .ok a → t.strings.cell a = some d →
    d.hash = -1 ∨ d.content = t.hashed a

/-- An appending function does not write to data with a hash value in place, and an `unlock`
function of a size that stays comes after no change of the characters. -/
def Harmless (t : TrackedStrings c) : StringOp c → Prop
  | .append x y => ∀ b n, t.strings.data y = .ok b → t.strings.cell b = some n → n.size ≠ 0 →
    t.strings.Unhashed x fun d => d.size ≠ 0 ∧ Strings.fits d (d.size + n.size)
  | .appendLen x l => l ≠ [] → t.strings.Unhashed x fun d => Strings.fits d (d.size + l.length)
  | .appendAscii x l => l ≠ [] → t.strings.Unhashed x fun d => Strings.fits d (d.size + l.length)
  | .unlockSame x => t.Unwritten x
  | .unlock x size => ∀ a d, t.strings.data x = .ok a → t.strings.cell a = some d →
    d.size = size → t.Unwritten x
  | .unlockAppend x size => size = 0 → t.Unwritten x
  | .unlockZ x => ∀ a d, t.strings.data x = .ok a → t.strings.cell a = some d →
    Strings.zlen d = some d.size → t.Unwritten x
  | _ => True

/-- The hash value of data without a lock outstanding is not computed or theirs, and
equal strings return equal ones. -/
structure CacheRight (t : TrackedStrings c) : Prop where
  cached : ∀ x a d, t.strings.data x = .ok a → t.strings.cell a = some d → t.locked a = false →
    d.hash = -1 ∨ d.hash = StrData.hashOf d.content
  equal : ∀ x y a b d e, t.strings.data x = .ok a → t.strings.cell a = some d →
    t.locked a = false → t.strings.data y = .ok b → t.strings.cell b = some e →
    t.locked b = false → d.content = e.content →
    ∃ hash s₁ s₂, t.strings.getHash x = .ok (hash, s₁) ∧ t.strings.getHash y = .ok (hash, s₂)

/-- The invariant: a hash value has been computed of the characters of that time, and data
without a lock outstanding have them still. -/
structure Inv (t : TrackedStrings c) : Prop where
  length : 2 ≤ t.strings.cells.length
  zero : Strings.EmptyZero t.strings
  hash : ∀ a d, t.strings.cell a = some d → d.hash = -1 ∨ d.hash = StrData.hashOf (t.hashed a)
  same : ∀ a d, t.strings.cell a = some d → t.locked a = false →
    d.hash = -1 ∨ d.content = t.hashed a

theorem hashedAfter_of_ne (hd : t.strings.cell a = some d) (hne : d.hash ≠ -1) :
    t.hashedAfter s' a = t.hashed a := by
  unfold hashedAfter
  cases hd' : s'.cell a with
  | none => rfl
  | some d' => simp [hd, hne]

namespace Inv

/-- An operation that keeps the data keeps the invariant, if what is written to is locked
afterwards, and what is unlocked has its characters still. -/
theorem of_keeps (hinv : t.Inv) {written : Nat → Prop} {locked : Nat → Bool}
    (hkeeps : Strings.Keeps written t.strings s')
    (hlocked : ∀ a, locked a = false → ¬ written a)
    (hunlocked : ∀ a d, locked a = false → t.strings.cell a = some d →
      t.locked a = false ∨ d.hash = -1 ∨ d.content = t.hashed a ∨ ∀ d', s'.cell a = some d' →
        d'.hash = -1) :
    Inv ⟨s', locked, t.hashedAfter s'⟩ := by
  refine ⟨Nat.le_trans hinv.length hkeeps.length, fun d' hd' => ?_, fun a d' hd' => ?_,
    fun a d' hd' ha => ?_⟩
  · have hlt := hinv.length
    rcases hkeeps.cell zeroData d' hd' with ⟨hnew, -⟩ | ⟨d, hd, hal, -⟩
    · simp only [zeroData] at hnew
      omega
    · exact hal.trans (hinv.zero d hd)
  · rcases hkeeps.exists_cell hd' with hnone | ⟨d, hd, hhash, -⟩
    · exact .inl hnone
    · by_cases hne : d.hash = -1
      · exact .inl (hhash.trans hne)
      · have hvalue := (hinv.hash a d hd).resolve_left hne
        change d'.hash = -1 ∨ d'.hash = hashOf (t.hashedAfter s' a)
        rw [hashedAfter_of_ne hd hne]
        exact .inr (hhash.trans hvalue)
  · rcases hkeeps.exists_cell hd' with hnone | ⟨d, hd, hhash, hcontent⟩
    · exact .inl hnone
    · have hcontent' := hcontent.resolve_right (hlocked a ha)
      by_cases hne : d.hash = -1
      · exact .inl (hhash.trans hne)
      · change d'.hash = -1 ∨ d'.content = t.hashedAfter s' a
        rw [hashedAfter_of_ne hd hne]
        rcases hunlocked a d ha hd with hfree | hnone | hsame | hgone
        · exact .inr (hcontent'.trans ((hinv.same a d hd hfree).resolve_left hne))
        · exact absurd hnone hne
        · exact .inr (hcontent'.trans hsame)
        · exact .inl (hgone d' hd')

/-- Computing hash values keeps the invariant. -/
theorem of_rehashed (hinv : t.Inv) (h : Strings.Rehashed t.strings s') :
    Inv ⟨s', t.locked, t.hashedAfter s'⟩ := by
  have hcases : ∀ a d', s'.cell a = some d' →
      (t.strings.cell a = some d' ∧ (d'.hash = -1 ∨ t.hashedAfter s' a = t.hashed a)) ∨
        d'.hash = hashOf d'.content ∧ t.hashedAfter s' a = d'.content := by
    intro a d' hd'
    obtain ⟨d, hd, rfl | ⟨hneg, rfl⟩⟩ := h.cell a d' hd'
    · refine .inl ⟨hd, ?_⟩
      by_cases hne : d'.hash = -1
      · exact .inl hne
      · exact .inr (hashedAfter_of_ne hd hne)
    · have hnone : d.hash = -1 := by
        rcases hinv.hash a d hd with hnone | hhash
        · exact hnone
        · have hnonneg := hashOf_nonneg (t.hashed a)
          omega
      have hne := hashOf_ne d.content
      exact .inr ⟨rfl, by simp [hashedAfter, hd', hd, hnone, hne, updateHash]⟩
  refine ⟨h.length ▸ hinv.length, fun d' hd' => ?_, fun a d' hd' => ?_, fun a d' hd' ha => ?_⟩
  · obtain ⟨d, hd, rfl | ⟨-, rfl⟩⟩ := h.cell zeroData d' hd'
    · exact hinv.zero d' hd
    · exact hinv.zero d hd
  · change d'.hash = -1 ∨ d'.hash = hashOf (t.hashedAfter s' a)
    rcases hcases a d' hd' with ⟨hd, hnone | hsame⟩ | ⟨hhash, hsame⟩
    · exact .inl hnone
    · rw [hsame]
      exact hinv.hash a d' hd
    · rw [hsame]
      exact .inr hhash
  · change d'.hash = -1 ∨ d'.content = t.hashedAfter s' a
    rcases hcases a d' hd' with ⟨hd, hnone | hsame⟩ | ⟨-, hsame⟩
    · exact .inl hnone
    · rw [hsame]
      exact hinv.same a d' hd ha
    · exact .inr hsame.symm

/-- An operation without locks that leaves the characters keeps the invariant. -/
theorem of_preserves (hinv : t.Inv) {run : Call (Strings c)}
    (h : Strings.Preserves (fun _ => False) t.strings run) (hrun : run = .ok s') :
    Inv ⟨s', t.locked, t.hashedAfter s'⟩ :=
  hinv.of_keeps (h s' hrun) (fun _ _ hwritten => hwritten) fun _ _ hlocked _ => .inl hlocked

end Inv

/-- What is unlocked after data have been locked was so before, and is not in these data. -/
theorem setLocked_true {locked : Nat → Bool} {data : Call Nat}
    (h : setLocked locked data true a = false) : locked a = false ∧ data ≠ .ok a := by
  cases data with
  | ok b =>
    by_cases hb : a = b
    · subst hb
      simp [setLocked] at h
    · refine ⟨by simpa [setLocked, hb] using h, ?_⟩
      rintro heq
      exact hb (Outcome.ok.inj heq).symm
  | raise _ | fault | outOfFuel => exact ⟨h, nofun⟩

/-- What is unlocked after data have been unlocked was so before, or is in these data. -/
theorem setLocked_false {locked : Nat → Bool} {data : Call Nat}
    (h : setLocked locked data false a = false) : locked a = false ∨ data = .ok a := by
  cases data with
  | ok b =>
    by_cases hb : a = b
    · exact .inr (by rw [hb])
    · exact .inl (by simpa [setLocked, hb] using h)
  | raise _ | fault | outOfFuel => exact .inl h

namespace Inv

/-- Locking the data that may have been written to keeps the invariant. -/
theorem of_lock (hinv : t.Inv)
    (h : Strings.Keeps (fun a => s'.data x = .ok a) t.strings s') :
    Inv ⟨s', setLocked t.locked (s'.data x) true, t.hashedAfter s'⟩ :=
  hinv.of_keeps h (fun _ hfree hwritten => (setLocked_true hfree).2 hwritten)
    fun _ _ hfree _ => .inl (setLocked_true hfree).1

/-- Unlocking data keeps the invariant, if they have no hash value afterwards or their characters
are those it has been computed of. -/
theorem of_unlock (hinv : t.Inv) (h : Strings.Keeps (fun _ => False) t.strings s')
    (hdata : ∀ a d, t.strings.data x = .ok a → t.strings.cell a = some d →
      t.Unwritten x ∨ ∀ d', s'.cell a = some d' → d'.hash = -1) :
    Inv ⟨s', setLocked t.locked (t.strings.data x) false, t.hashedAfter s'⟩ := by
  refine hinv.of_keeps h (fun _ _ hwritten => hwritten) fun a d hfree hd => ?_
  rcases setLocked_false hfree with hlocked | ha
  · exact .inl hlocked
  · rcases hdata a d ha hd with hunwritten | hchanged
    · rcases hunwritten a d ha hd with hnone | hsame
      · exact .inr (.inl hnone)
      · exact .inr (.inr (.inl hsame))
    · exact .inr (.inr (.inr hchanged))

theorem of_unlockTo (hinv : t.Inv) {size : Nat} (halone : Strings.Alone t.strings x)
    (hrun : t.strings.unlockTo x size = .ok s')
    (hsame : ∀ a d, t.strings.data x = .ok a → t.strings.cell a = some d → d.size = size →
      t.Unwritten x) :
    Inv ⟨s', setLocked t.locked (t.strings.data x) false, t.hashedAfter s'⟩ := by
  refine hinv.of_unlock (Strings.Preserves.unlockTo _ halone s' hrun) fun a d ha hd => ?_
  by_cases hsize : d.size = size
  · exact .inl (hsame a d ha hd hsize)
  · exact .inr fun d' hd' =>
      Strings.unlockTo_changed halone ha hd hsize hrun hd'

end Inv

/-- What `apply` and the two ghosts make of an operation. -/
theorem next_eq_some {op : StringOp c} (h : t.next garbage op = some t') :
    t.enabled op = true ∧ ∃ s', t.strings.apply garbage op = .ok s' ∧
      t' = ⟨s', t.lockedAfter s' op, t.hashedAfter s'⟩ := by
  unfold next at h
  split_ifs at h with henabled
  refine ⟨henabled, ?_⟩
  cases hrun : t.strings.apply garbage op with
  | ok s' =>
    simp only [hrun, Option.some.injEq] at h
    exact ⟨s', rfl, h.symm⟩
  | raise _ | fault | outOfFuel => simp [hrun] at h

open Strings in
/-- A harmless operation keeps the invariant. -/
theorem Inv.step (hinv : t.Inv) {op : StringOp c} (hharmless : t.Harmless op)
    (h : t.next garbage op = some t') : t'.Inv := by
  obtain ⟨henabled, s', hrun, rfl⟩ := next_eq_some h
  cases op with
  | new | newNull => exact hinv.of_preserves (.initD _ _ _) hrun
  | newCopy y => exact hinv.of_preserves (.read fun a _ => .initD _ a _) hrun
  | newLen l | newZ l => exact hinv.of_preserves (.initSub _ _ _ _ _) hrun
  | destroy x =>
    refine hinv.of_preserves (.read fun a _ => ?_) hrun
    exact (Preserves.unrefDg _ a _).bind fun _ _ => .ok (.of_cells rfl)
  | copyS x y => exact hinv.of_preserves (.read fun a _ => .i_setDoref _ x a _) hrun
  | copyLen x l | copyZ x l => exact hinv.of_preserves (.copySub _ x _ _ _ _) hrun
  | setNull x | setEmpty x => exact hinv.of_preserves (.i_setDoref _ x _ _) hrun
  | append x y => exact hinv.of_preserves (.append y hharmless) hrun
  | appendLen x l => exact hinv.of_preserves (.appendLen l hharmless) hrun
  | appendAscii x l =>
    refine hinv.of_preserves (.appendLen _ fun hl => ?_) hrun
    rw [List.length_map]
    exact hharmless fun hnil => hl (by rw [hnil]; rfl)
  | appendReverse x l => exact hinv.of_preserves (.appendReverse _ x l _) hrun
  | lock x size => exact hinv.of_lock (Preserves.lock size hrun)
  | lockKeep x size => exact hinv.of_lock (Preserves.lockKeep _ x size _ s' hrun)
  | write x i ch =>
    refine hinv.of_keeps (Preserves.write i ch s' hrun) (fun a hfree ha => ?_)
      fun _ _ hlocked _ => .inl hlocked
    change t.locked a = false at hfree
    simp only [enabled, ha, hfree, Bool.false_eq_true] at henabled
  | unlockSame x =>
    refine hinv.of_unlock (Preserves.unlockSame _ x _ s' hrun) fun _ _ _ _ => .inl hharmless
  | unlock x size =>
    obtain ⟨halone, hunlock⟩ := unlock_eq_ok hinv.zero hrun
    exact hinv.of_unlockTo halone hunlock hharmless
  | unlockAppend x size =>
    refine hinv.of_unlock (Preserves.unlockAppend _ x size _ s' hrun) fun a d ha hd => ?_
    by_cases hsize : size = 0
    · exact .inl (hharmless hsize)
    · exact .inr fun d' hd' => unlockAppend_changed ha hd hsize hrun hd'
  | unlockZ x =>
    obtain ⟨halone, size, hzlen, hunlock⟩ := unlockZ_eq_ok hinv.zero hrun
    refine hinv.of_unlockTo halone hunlock fun a d ha hd hsize => ?_
    exact hharmless a d ha hd (hsize ▸ hzlen a d ha hd)
  | getHash x =>
    obtain ⟨⟨hash, s₁⟩, hget, heq⟩ := Outcome.bind_eq_ok.mp hrun
    cases heq
    exact hinv.of_rehashed (.getHash hget)
  | beq x y =>
    obtain ⟨⟨eq, s₁⟩, hbeq, heq⟩ := Outcome.bind_eq_ok.mp hrun
    cases heq
    exact hinv.of_rehashed (.beq hbeq)
  | plus x y => exact hinv.of_preserves (.plus _ x y _) hrun
  | left x length => exact hinv.of_preserves (.left _ x length _) hrun
  | mid x pos => exact hinv.of_preserves (.mid _ x pos _) hrun
  | midLen x pos length => exact hinv.of_preserves (.midLen _ x pos length _) hrun
  | right x size => exact hinv.of_preserves (.right _ x size _) hrun
  | cleanGet x => exact hinv.of_preserves (.cleanGet _ x _) hrun
  | removeLeft x size => exact hinv.of_preserves (.removeLeft _ x size _) hrun
  | removeFrom x pos => exact hinv.of_preserves (.removeFrom _ x pos _) hrun
  | removeMid x pos size => exact hinv.of_preserves (.removeMid _ x pos size _) hrun
  | removeRight x size => exact hinv.of_preserves (.removeRight _ x size _) hrun

/-- The invariant holds before any string is constructed. -/
theorem Inv.initial : (initial c).Inv := by
  have hhash : ∀ a d, (Strings.initial c).cell a = some d → d.hash = -1 := by
    rintro (_ | _ | a) d hd
    · cases hd
      rfl
    · cases hd
      rfl
    · simp [Strings.initial, Strings.cell] at hd
  refine ⟨Nat.le_refl 2, fun d hd => ?_, fun a d hd => .inl (hhash a d hd),
    fun a d hd _ => .inl (hhash a d hd)⟩
  cases hd
  rfl

theorem Inv.cached (hinv : t.Inv) (hd : t.strings.cell a = some d) (ha : t.locked a = false) :
    d.hash = -1 ∨ d.hash = hashOf d.content := by
  by_cases hne : d.hash = -1
  · exact .inl hne
  · have hhash := (hinv.hash a d hd).resolve_left hne
    have hsame := (hinv.same a d hd ha).resolve_left hne
    exact .inr (hsame ▸ hhash)

theorem Inv.getHash (hinv : t.Inv) (hx : t.strings.data x = .ok a)
    (hd : t.strings.cell a = some d) (ha : t.locked a = false) :
    ∃ s', t.strings.getHash x = .ok (hashOf d.content, s') := by
  obtain ⟨s', hrun⟩ := Strings.getHash_eq hx hd
  refine ⟨s', ?_⟩
  have hnonneg := hashOf_nonneg d.content
  rcases hinv.cached hd ha with hnone | hhash
  · rw [hrun, if_pos (by omega)]
  · rw [hrun, if_neg (by omega), hhash]

theorem Inv.cacheRight (hinv : t.Inv) : t.CacheRight := by
  refine ⟨fun x a d _ hd ha => hinv.cached hd ha, fun x y a b d e hx hd ha hy he hb heq => ?_⟩
  obtain ⟨s₁, hfirst⟩ := hinv.getHash hx hd ha
  obtain ⟨s₂, hsecond⟩ := hinv.getHash hy he hb
  exact ⟨_, s₁, s₂, hfirst, heq ▸ hsecond⟩

/-- Strings under any operations. -/
def machine (garbage : Nat → Nat → StrChar c) : Machine (TrackedStrings c) (StringOp c) where
  init t := t = initial c
  step t op := t.next garbage op

/-- The invariant holds in every run whose operations are harmless. -/
theorem inv_of_harmless (garbage : Nat → Nat → StrChar c)
    (h : (machine garbage).ReachableWith Harmless t) : t.Inv := by
  refine h.invariant Inv ?_ ?_
  · rintro _ rfl
    exact .initial
  · intro t op t' hinv hharmless hstep
    exact hinv.step hharmless hstep

/-- In every run whose operations are harmless, hash values are not computed or right in every
state. -/
theorem cacheRight_of_harmless (garbage : Nat → Nat → StrChar c)
    (h : (machine garbage).ReachableWith Harmless t) : t.CacheRight :=
  (inv_of_harmless garbage h).cacheRight

/-- A string whose data keep a hash value that is not theirs, with no lock outstanding. -/
def stale (t : TrackedStrings c) (x : Nat) : Bool :=
  t.strings.strs[x]?.join.any fun a => (t.strings.cell a).any fun d =>
    !t.locked a && decide (d.hash ≠ -1 ∧ d.hash ≠ StrData.hashOf d.content)

theorem not_cacheRight_of_stale (h : t.stale x = true) : ¬ t.CacheRight := by
  intro hright
  rw [stale, Option.any_eq_true] at h
  obtain ⟨a, ha, h⟩ := h
  rw [Option.any_eq_true] at h
  obtain ⟨d, hd, h⟩ := h
  rw [Bool.and_eq_true, decide_eq_true_eq, Bool.not_eq_true'] at h
  obtain ⟨hfree, hne, hwrong⟩ := h
  rcases hright.cached x a d (Strings.data_eq_ok.mpr ha) hd hfree with hnone | hhash
  · exact hne hnone
  · exact hwrong hhash

/-- Memory that holds zeroes. -/
def zeroed : Nat → Nat → StrChar .byte := fun _ _ => 0

/-- A run in which a string gets its hash value, and then another character by way of `lock`. -/
def writtenRun : List (StringOp .byte) :=
  [.newLen [97, 98], .getHash 0, .lock 0 2, .write 0 0 120, .unlock 0 2]

/-- A run in which a string gets its hash value, and then one character more in place. -/
def appendedRun : List (StringOp .byte) :=
  [.new, .lock 0 10, .write 0 0 97, .unlock 0 1, .getHash 0, .appendLen 0 [98]]

/-- After a run that ends in a stale string the cache is not right. -/
theorem exists_not_cacheRight {ops : List (StringOp .byte)}
    (h : ((machine zeroed).execute (initial .byte) ops).any (fun t => t.stale 0) = true) :
    ∃ t, (machine zeroed).execute (initial .byte) ops = some t ∧ ¬ t.CacheRight := by
  obtain ⟨t, hrun, hstale⟩ := (Option.any_eq_true _ _).mp h
  exact ⟨t, hrun, not_cacheRight_of_stale hstale⟩

/-- Both runs end in a state in which a hash value is not that of the characters. -/
theorem not_cacheRight_runs :
    (∃ t, (machine zeroed).execute (initial .byte) writtenRun = some t ∧ ¬ t.CacheRight) ∧
    ∃ t, (machine zeroed).execute (initial .byte) appendedRun = some t ∧ ¬ t.CacheRight :=
  ⟨exists_not_cacheRight (by decide), exists_not_cacheRight (by decide)⟩

/-- A copy gets a character more; the two strings have the hash values of their characters. -/
theorem cacheRight_copied : ∃ t, (machine zeroed).ReachableWith Harmless t ∧ t.CacheRight ∧
    t.strings.data 1 = .ok 3 ∧ (t.strings.cell 3).map StrData.content = some [97, 98, 99] := by
  have hstart : (machine zeroed).ReachableWith Harmless (initial .byte) := .init rfl
  have hnew := hstart.next (a := StringOp.newLen [97, 98]) trivial rfl
  have hhash := hnew.next (a := StringOp.getHash 0) trivial rfl
  have hcopy := hhash.next (a := StringOp.newCopy 0) trivial rfl
  have happended := hcopy.next (a := StringOp.appendLen 1 [99]) ?_ rfl
  · have hagain := happended.next (a := StringOp.getHash 1) trivial rfl
    exact ⟨_, hagain, cacheRight_of_harmless zeroed hagain, rfl, by decide⟩
  · -- the other string has the data too, so that they are not written to in place
    rintro - a d ha hd ⟨hrefcnt, -⟩
    obtain rfl : 2 = a := Outcome.ok.inj ha
    cases hd
    exact absurd hrefcnt (by decide)

end TrackedStrings

end Drt
