import Drt.Core.Types.StringEnds
import Drt.Core.Types.StringHash
import Drt.Lib.Comparison
import Mathlib.Data.List.Basic

/-!
# The order of strings

`String_c::bcmp` puts the null string before all others, and these in lexicographic order. It
looks at characters only, while `beq` looks at hash values first: what the two say of equality
fits together unless data keep a hash value that is not theirs.
-/

open Outcome

namespace Drt

open StrData

open Comparison

/-- The number that `memcmp` or `wmemcmp` compare of a character: wide ones of four octets are
signed. -/
def charValue : (c : CharSize) → StrChar c → Int
  | .byte, ch => ch.toNat
  | .two, ch => ch.toNat
  | .four, ch => ch.toInt

theorem charValue_injective (c : CharSize) : Function.Injective (charValue c) := by
  intro a b h
  cases c with
  | byte | two => exact BitVec.eq_of_toNat_eq (Int.ofNat.inj h)
  | four => exact BitVec.eq_of_toInt_eq h

namespace StrData

variable {c : CharSize}

/-- `pbcmp` of the characters. -/
def pbcmp (f t : StrData c) (l : Nat) : Option Ordering :=
  firstDifference compare l (f.content.map (charValue c)) (t.content.map (charValue c))

/-- The hash value that `beq` compares: what the data keep, or that of the characters. -/
def keptHash (d : StrData c) : Int := if d.hash < 0 then hashOf d.content else d.hash

/-- The data with this hash value. -/
def rehashed (d : StrData c) : StrData c := { d with hash := d.keptHash }

theorem rehashed_of_neg {d : StrData c} (h : d.hash < 0) : d.rehashed = d.updateHash := by
  unfold rehashed keptHash
  rw [if_pos h]
  rfl

theorem rehashed_of_nonneg {d : StrData c} (h : ¬ d.hash < 0) : d.rehashed = d := by
  unfold rehashed keptHash
  rw [if_neg h]

@[simp] theorem rehashed_rehashed (d : StrData c) : d.rehashed.rehashed = d.rehashed := by
  apply rehashed_of_nonneg
  have hnonneg := hashOf_nonneg d.content
  change ¬ d.keptHash < 0
  unfold keptHash
  split_ifs with h
  · exact Int.not_lt.mpr hnonneg
  · exact h

/-- What the order of strings goes by; the null string has no characters. -/
def orderKey (d : StrData c) : Option (List Int) :=
  if d.al < 0 then none else some (d.content.map (charValue c))

theorem orderKey_null {d : StrData c} (h : d.al < 0) : d.orderKey = none := if_pos h

theorem orderKey_chars {d : StrData c} (h : ¬ d.al < 0) :
    d.orderKey = some (d.content.map (charValue c)) := if_neg h

end StrData

namespace Strings

variable {c : CharSize} {s : Strings c} {x y a b : Nat} {d e : StrData c}

def bcmp (x y : Nat) (s : Strings c) : Call Int := do
  let fd ← s.data x
  let sd ← s.data y
  let f ← s.load fd
  let t ← s.load sd
  if f.al < 0 then .ok (if t.al < 0 then 0 else -1 - (if t.al ≠ 0 then 1 else 0))
  else if t.al < 0 then .ok (1 + (if f.al ≠ 0 then 1 else 0))
  else if fd = sd then .ok 0
  else do
    let r ← Outcome.ofOption (f.pbcmp t (if f.size < t.size then f.size else t.size))
    if r = .eq then
      if f.size ≠ t.size then .ok (if f.size < t.size then -2 else 2) else .ok 0
    else .ok (4 * (if r = .gt then 1 else 0) - 2)

/-- The part of `bcmp` behind the characters that both strings have. -/
theorem bcmp_chars (hx : s.data x = .ok a) (hd : s.cell a = some d) (hy : s.data y = .ok b)
    (he : s.cell b = some e) (hal : ¬ d.al < 0) (hal' : ¬ e.al < 0) (hne : a ≠ b) :
    ∃ r, s.bcmp x y = .ok r ∧ r.sign =
      sign (compare (d.content.map (charValue c)) (e.content.map (charValue c))) := by
  have hmin : (if d.size < e.size then d.size else e.size) =
      min (d.content.map (charValue c)).length (e.content.map (charValue c)).length := by
    rw [List.length_map, List.length_map, length_content, length_content]
    split_ifs <;> omega
  obtain ⟨o, ho, hlex⟩ := compareLex_eq_firstDifference compare (d.content.map (charValue c))
    (e.content.map (charValue c))
  rw [← hmin] at ho
  rw [List.length_map, List.length_map, length_content, length_content] at hlex
  rw [List.compare_eq_compareLex, hlex]
  unfold bcmp
  simp only [hx, hy, ok_bind, load_eq_ok.mpr hd, load_eq_ok.mpr he, if_neg hal,
    if_neg hal', if_neg hne, pbcmp, ho, ofOption_some]
  cases o with
  | lt => exact ⟨-2, rfl, rfl⟩
  | gt => exact ⟨2, rfl, rfl⟩
  | eq =>
    rw [if_pos rfl, Ordering.eq_then]
    rcases Nat.lt_trichotomy d.size e.size with hlt | heq | hgt
    · rw [if_pos (Nat.ne_of_lt hlt), if_pos hlt, Nat.compare_eq_lt.mpr hlt]
      exact ⟨-2, rfl, rfl⟩
    · rw [if_neg (not_not_intro heq), Nat.compare_eq_eq.mpr heq]
      exact ⟨0, rfl, rfl⟩
    · rw [if_pos (Nat.ne_of_gt hgt), if_neg (Nat.lt_asymm hgt), Nat.compare_eq_gt.mpr hgt]
      exact ⟨2, rfl, rfl⟩

/-- The sign of `bcmp` is that of the order of the keys. -/
theorem bcmp_sign (hx : s.data x = .ok a) (hd : s.cell a = some d) (hy : s.data y = .ok b)
    (he : s.cell b = some e) :
    ∃ r, s.bcmp x y = .ok r ∧ r.sign = sign (compare d.orderKey e.orderKey) := by
  by_cases hal : d.al < 0
  · have hrun : s.bcmp x y =
        .ok (if e.al < 0 then 0 else -1 - (if e.al ≠ 0 then 1 else 0)) := by
      unfold bcmp
      simp only [hx, hy, ok_bind, load_eq_ok.mpr hd, load_eq_ok.mpr he, if_pos hal]
    refine ⟨_, hrun, ?_⟩
    rw [orderKey_null hal]
    by_cases hal' : e.al < 0
    · rw [orderKey_null hal', if_pos hal']
      rfl
    · rw [orderKey_chars hal', if_neg hal']
      split_ifs <;> rfl
  · rw [orderKey_chars hal]
    by_cases hal' : e.al < 0
    · have hrun : s.bcmp x y = .ok (1 + (if d.al ≠ 0 then 1 else 0)) := by
        unfold bcmp
        simp only [hx, hy, ok_bind, load_eq_ok.mpr hd, load_eq_ok.mpr he, if_neg hal,
          if_pos hal']
      refine ⟨_, hrun, ?_⟩
      rw [orderKey_null hal']
      split_ifs <;> rfl
    · rw [orderKey_chars hal']
      by_cases hne : a = b
      · subst hne
        obtain rfl : d = e := Option.some.inj (hd.symm.trans he)
        have hrun : s.bcmp x y = .ok 0 := by
          unfold bcmp
          simp only [hx, hy, ok_bind, load_eq_ok.mpr hd, if_neg hal, if_true]
        have hself : compare (some (d.content.map (charValue c)))
            (some (d.content.map (charValue c))) = .eq := Std.ReflOrd.compare_self
        rw [hself]
        exact ⟨0, hrun, rfl⟩
      · exact bcmp_chars hx hd hy he hal hal' hne

/-- What `rehash` leaves. -/
theorem rehash_cell (hd : s.cell a = some d) : ∃ s', s.rehash a = .ok s' ∧
    s'.cell a = some d.rehashed ∧
    ∀ b e, s.cell b = some e → s'.cell b = some e ∨ s'.cell b = some e.rehashed := by
  unfold rehash
  rw [load_eq_ok.mpr hd, ok_bind]
  by_cases hneg : d.hash < 0
  · refine ⟨s.put a (some d.updateHash), if_pos hneg, ?_, ?_⟩
    · rw [cell_put_self hd, rehashed_of_neg hneg]
    · intro b e he
      by_cases hb : b = a
      · subst hb
        obtain rfl : d = e := Option.some.inj (hd.symm.trans he)
        right
        rw [cell_put_self hd, rehashed_of_neg hneg]
      · left
        rw [cell_put_of_ne hb, he]
  · refine ⟨s, if_neg hneg, ?_, fun b e he => .inl he⟩
    rw [rehashed_of_nonneg hneg, hd]

/-- `beq` compares the hash values that are kept, and then the characters. -/
theorem beq_eq (hx : s.data x = .ok a) (hd : s.cell a = some d) (hy : s.data y = .ok b)
    (he : s.cell b = some e) : ∃ s', s.beq x y =
      .ok (decide (d.keptHash = e.keptHash ∧ d.content = e.content), s') := by
  obtain ⟨s₁, hrun₁, hd₁, hframe₁⟩ := rehash_cell hd
  obtain ⟨e₁, he₁, heq⟩ : ∃ e₁, s₁.cell b = some e₁ ∧ e₁.rehashed = e.rehashed := by
    rcases hframe₁ b e he with h | h
    · exact ⟨e, h, rfl⟩
    · exact ⟨e.rehashed, h, e.rehashed_rehashed⟩
  obtain ⟨s₂, hrun₂, he₂, hframe₂⟩ := rehash_cell he₁
  have hd₂ : s₂.cell a = some d.rehashed := by
    rcases hframe₂ a _ hd₁ with h | h
    · exact h
    · rw [h, rehashed_rehashed]
  rw [heq] at he₂
  refine ⟨s₂, ?_⟩
  unfold beq
  simp only [hx, hy, ok_bind, hrun₁, hrun₂, load_eq_ok.mpr hd₂, load_eq_ok.mpr he₂]
  have hiff : (d.rehashed.hash = e.rehashed.hash ∧ (a = b ∨
      d.rehashed.size = e.rehashed.size ∧ d.rehashed.content = e.rehashed.content)) ↔
      d.keptHash = e.keptHash ∧ d.content = e.content := by
    change (d.keptHash = e.keptHash ∧ (a = b ∨ d.size = e.size ∧ d.content = e.content)) ↔ _
    constructor
    · rintro ⟨hhash, rfl | ⟨-, hcontent⟩⟩
      · obtain rfl : d = e := Option.some.inj (hd.symm.trans he)
        exact ⟨rfl, rfl⟩
      · exact ⟨hhash, hcontent⟩
    · rintro ⟨hhash, hcontent⟩
      refine ⟨hhash, .inr ⟨?_, hcontent⟩⟩
      rw [← d.length_content, ← e.length_content, hcontent]
  rw [decide_eq_decide.mpr hiff]

/-- The string is one of those that there are. -/
def Live (s : Strings c) (x : Nat) : Prop := ∃ a, s.data x = .ok a

/-- `isNull()`. -/
def IsNull (s : Strings c) (x : Nat) : Prop :=
  ∃ a d, s.data x = .ok a ∧ s.cell a = some d ∧ d.al < 0

/-- `bcmp` is a total preorder of the strings, and gives zero for those that `beq` takes for equal
and that are both null or both not. -/
structure OrderedBy (s : Strings c) (cmp : Nat → Nat → Int) : Prop where
  /-- It gives these results. -/
  returns : ∀ x y, s.Live x → s.Live y → s.bcmp x y = .ok (cmp x y)
  /-- Their signs are opposite ones for the operands the other way round, and transitive. -/
  laws : IsComparisonOn (fun x y => (cmp x y).sign) {x | s.Live x}
  /-- Zero is equality. -/
  zero : ∀ x y, s.Live x → s.Live y →
    (cmp x y = 0 ↔ (∃ s', s.beq x y = .ok (true, s')) ∧ (s.IsNull x ↔ s.IsNull y))

/-- Strings of the same characters, both null or both not, keep the same hash value. -/
def HashesAgree (s : Strings c) : Prop :=
  ∀ x y a b d e, s.data x = .ok a → s.cell a = some d → s.data y = .ok b → s.cell b = some e →
    d.content = e.content → (d.al < 0 ↔ e.al < 0) → d.keptHash = e.keptHash

theorem Sound.content_null (h : Sound s []) (hd : s.cell a = some d) (hal : d.al < 0) :
    d.content = [] := by
  have hstatic : a ≤ zeroData := by
    by_contra hgt
    have hroom := h.room a d hd (Nat.lt_of_not_le hgt)
    omega
  rw [← List.length_eq_zero_iff, length_content]
  exact (h.static a d hd hstatic).1

/-- Strings have the same place in the order if they have the same characters and are both null or
both not. -/
theorem Sound.orderKey_eq_iff (h : Sound s []) (hd : s.cell a = some d)
    (he : s.cell b = some e) :
    d.orderKey = e.orderKey ↔ d.content = e.content ∧ (d.al < 0 ↔ e.al < 0) := by
  by_cases hal : d.al < 0
  · rw [orderKey_null hal]
    by_cases hal' : e.al < 0
    · rw [orderKey_null hal', h.content_null hd hal, h.content_null he hal']
      exact ⟨fun _ => ⟨rfl, fun _ => hal', fun _ => hal⟩, fun _ => rfl⟩
    · rw [orderKey_chars hal']
      constructor
      · intro heq
        cases heq
      · exact fun hboth => absurd (hboth.2.mp hal) hal'
  · rw [orderKey_chars hal]
    by_cases hal' : e.al < 0
    · rw [orderKey_null hal']
      constructor
      · intro heq
        cases heq
      · exact fun hboth => absurd (hboth.2.mpr hal') hal
    · rw [orderKey_chars hal', Option.some.injEq,
        (List.map_injective_iff.mpr (charValue_injective c)).eq_iff]
      exact ⟨fun heq => ⟨heq, fun hneg => absurd hneg hal, fun hneg => absurd hneg hal'⟩,
        fun hboth => hboth.1⟩

/-- What the order of a string goes by. -/
def keyAt (s : Strings c) (x : Nat) : Option (List Int) :=
  match s.data x with
  | .ok a => (s.cell a).bind StrData.orderKey
  | _ => none

theorem keyAt_eq (hx : s.data x = .ok a) (hd : s.cell a = some d) : s.keyAt x = d.orderKey := by
  unfold keyAt
  rw [hx]
  change (s.cell a).bind orderKey = d.orderKey
  rw [hd, Option.bind_some]

theorem isNull_iff (hx : s.data x = .ok a) (hd : s.cell a = some d) :
    s.IsNull x ↔ d.al < 0 := by
  constructor
  · rintro ⟨a', d', hx', hd', hal⟩
    obtain rfl : a = a' := Outcome.ok.inj (hx.symm.trans hx')
    obtain rfl : d = d' := Option.some.inj (hd.symm.trans hd')
    exact hal
  · exact fun hal => ⟨a, d, hx, hd, hal⟩

/-- `beq` finds the strings equal with the same hash value kept and the same characters. -/
theorem beq_true_iff (hx : s.data x = .ok a) (hd : s.cell a = some d) (hy : s.data y = .ok b)
    (he : s.cell b = some e) : (∃ s', s.beq x y = .ok (true, s')) ↔
      d.keptHash = e.keptHash ∧ d.content = e.content := by
  obtain ⟨s', hrun⟩ := beq_eq hx hd hy he
  rw [hrun]
  constructor
  · rintro ⟨s'', heq⟩
    exact of_decide_eq_true (congrArg Prod.fst (Outcome.ok.inj heq))
  · intro h
    exact ⟨s', by rw [decide_eq_true h]⟩

/-- A result of `bcmp` is zero for strings of the same characters, both null or both not. -/
theorem Sound.bcmp_zero_iff (h : Sound s []) (hx : s.data x = .ok a) (hd : s.cell a = some d)
    (hy : s.data y = .ok b) (he : s.cell b = some e) {r : Int} (hr : s.bcmp x y = .ok r) :
    r = 0 ↔ d.content = e.content ∧ (d.al < 0 ↔ e.al < 0) := by
  obtain ⟨r', hrun, hsign⟩ := bcmp_sign hx hd hy he
  obtain rfl : r = r' := Outcome.ok.inj (hr.symm.trans hrun)
  rw [← Int.sign_eq_zero_iff_zero, hsign, sign_eq_zero, Std.LawfulEqOrd.compare_eq_iff_eq,
    h.orderKey_eq_iff hd he]

/-- The laws of the order hold in every state; only what `beq` says may not fit. -/
theorem Sound.bcmp_laws (h : Sound s []) : ∃ cmp : Nat → Nat → Int,
    (∀ x y, s.Live x → s.Live y → s.bcmp x y = .ok (cmp x y)) ∧
      IsComparisonOn (fun x y => (cmp x y).sign) {x | s.Live x} := by
  have hrun : ∀ x y, s.Live x → s.Live y →
      ∃ r, s.bcmp x y = .ok r ∧ r.sign = sign (compare (s.keyAt x) (s.keyAt y)) := by
    rintro x y ⟨a, hx⟩ ⟨b, hy⟩
    obtain ⟨d, hd⟩ := h.exists_cell hx
    obtain ⟨e, he⟩ := h.exists_cell hy
    rw [keyAt_eq hx hd, keyAt_eq hy he]
    exact bcmp_sign hx hd hy he
  refine ⟨fun x y => (s.bcmp x y).getD 0, ?_, ?_⟩
  · intro x y hx hy
    obtain ⟨r, hr, -⟩ := hrun x y hx hy
    change s.bcmp x y = .ok ((s.bcmp x y).getD 0)
    rw [hr]
    rfl
  · have hkeys : IsComparisonOn (fun x y => sign (compare (s.keyAt x) (s.keyAt y)))
        {x | s.Live x} := isComparisonOn_sign s.keyAt {x | s.Live x}
    apply hkeys.congr
    intro x hx y hy
    obtain ⟨r, hr, hsign⟩ := hrun x y hx hy
    change Int.sign ((s.bcmp x y).getD 0) = _
    rw [hr]
    exact hsign

variable {garbage : Nat → Nat → StrChar c}

/-- In every state that operations lead to, `bcmp` is a total preorder that fits with `beq` exactly
if the hash values that strings of the same characters keep are the same. -/
theorem orderedBy_iff (hreach : (machine garbage).Reachable s) :
    (∃ cmp, s.OrderedBy cmp) ↔ s.HashesAgree := by
  have hsound := sound_of_reachable hreach
  constructor
  · rintro ⟨cmp, hordered⟩ x y a b d e hx hd hy he hcontent hnull
    have hzero := (hsound.bcmp_zero_iff hx hd hy he
      (hordered.returns x y ⟨a, hx⟩ ⟨b, hy⟩)).mpr ⟨hcontent, hnull⟩
    have hequal := (hordered.zero x y ⟨a, hx⟩ ⟨b, hy⟩).mp hzero
    exact ((beq_true_iff hx hd hy he).mp hequal.1).1
  · intro hagree
    obtain ⟨cmp, hreturns, hlaws⟩ := hsound.bcmp_laws
    refine ⟨cmp, hreturns, hlaws, ?_⟩
    rintro x y ⟨a, hx⟩ ⟨b, hy⟩
    obtain ⟨d, hd⟩ := hsound.exists_cell hx
    obtain ⟨e, he⟩ := hsound.exists_cell hy
    rw [hsound.bcmp_zero_iff hx hd hy he (hreturns x y ⟨a, hx⟩ ⟨b, hy⟩),
      beq_true_iff hx hd hy he, isNull_iff hx hd, isNull_iff hy he]
    constructor
    · rintro ⟨hcontent, hnull⟩
      exact ⟨⟨hagree x y a b d e hx hd hy he hcontent hnull, hcontent⟩, hnull⟩
    · rintro ⟨⟨-, hcontent⟩, hnull⟩
      exact ⟨hcontent, hnull⟩

/-- Hash values that are those of the characters agree. -/
theorem hashesAgree_of_cached (h : ∀ x a d, s.data x = .ok a → s.cell a = some d →
    d.hash = -1 ∨ d.hash = hashOf d.content) : s.HashesAgree := by
  have hkept : ∀ x a d, s.data x = .ok a → s.cell a = some d →
      d.keptHash = hashOf d.content := by
    intro x a d hx hd
    have hnonneg := hashOf_nonneg d.content
    unfold keptHash
    rcases h x a d hx hd with hnone | hhash
    · rw [if_pos (by omega)]
    · rw [if_neg (by omega), hhash]
  intro x y a b d e hx hd hy he hcontent _
  rw [hkept x a d hx hd, hkept y b e hy he, hcontent]

/-- The null string, the empty one and "a". -/
theorem orderedBy_iff_three : ∃ s : Strings .byte,
    (∃ cmp, s.OrderedBy cmp) ∧ s.Live 0 ∧ s.Live 1 ∧ s.Live 2 := by
  have hinit : (machine fun _ _ => 0).Reachable (initial .byte) := .init rfl
  have hnull := hinit.next (a := StringOp.newNull) trivial rfl
  have hempty := hnull.next (a := StringOp.new) trivial rfl
  have hchars := hempty.next (a := StringOp.newLen [97]) trivial rfl
  refine ⟨_, (orderedBy_iff hchars).mpr (hashesAgree_of_cached ?_), ⟨0, rfl⟩, ⟨1, rfl⟩, ⟨2, rfl⟩⟩
  rintro x (_ | _ | _ | a) d - hd
  · cases hd
    exact .inl rfl
  · cases hd
    exact .inl rfl
  · cases hd
    exact .inl rfl
  · cases hd

/-- A run in which a string gets its hash value and one character more in place, and another one is
made of the same characters. -/
def staleRun : List (StringOp .byte) :=
  [.new, .lock 0 10, .write 0 0 97, .unlock 0 1, .getHash 0, .appendLen 0 [98], .newLen [97, 98]]

/-- `bcmp` gives zero, and `beq` does not take the strings for equal. -/
def unequal (s : Strings .byte) : Bool :=
  decide (s.bcmp 0 1 = .ok 0) &&
    match s.beq 0 1 with
    | .ok (eq, _) => !eq
    | _ => false

/-- Then it is not an order that fits. -/
theorem not_orderedBy_of_unequal {s : Strings .byte} (h : s.unequal = true) :
    s.Live 0 ∧ s.Live 1 ∧ ¬ ∃ cmp, s.OrderedBy cmp := by
  rw [unequal, Bool.and_eq_true, decide_eq_true_eq] at h
  obtain ⟨hbcmp, hbeq⟩ := h
  obtain ⟨a, ha, hrest⟩ := bind_eq_ok.mp hbcmp
  obtain ⟨b, hb, -⟩ := bind_eq_ok.mp hrest
  refine ⟨⟨a, ha⟩, ⟨b, hb⟩, ?_⟩
  rintro ⟨cmp, hordered⟩
  have hreturns := hordered.returns 0 1 ⟨a, ha⟩ ⟨b, hb⟩
  have hzero : cmp 0 1 = 0 := (Outcome.ok.inj (hbcmp.symm.trans hreturns)).symm
  obtain ⟨⟨s', hequal⟩, -⟩ := (hordered.zero 0 1 ⟨a, ha⟩ ⟨b, hb⟩).mp hzero
  rw [hequal] at hbeq
  cases hbeq

/-- Both strings are "ab". -/
theorem not_orderedBy_stale : ∃ s,
    (machine fun _ _ => 0).execute (initial .byte) staleRun = some s ∧
      s.Live 0 ∧ s.Live 1 ∧ ¬ ∃ cmp, s.OrderedBy cmp := by
  have hunequal :
      (((machine fun _ _ => 0).execute (initial .byte) staleRun).any unequal) = true := by
    decide
  obtain ⟨s, hrun, hs⟩ := (Option.any_eq_true _ _).mp hunequal
  exact ⟨s, hrun, not_orderedBy_of_unequal hs⟩

end Strings

namespace TrackedStrings

variable {c : CharSize} {t : TrackedStrings c}

/-- In every run whose operations are harmless, hash values agree as long as no lock is
outstanding. -/
theorem hashesAgree_of_harmless (garbage : Nat → Nat → StrChar c)
    (h : (machine garbage).ReachableWith Harmless t) (hfree : ∀ a, t.locked a = false) :
    t.strings.HashesAgree := by
  have hinv := inv_of_harmless garbage h
  apply Strings.hashesAgree_of_cached
  exact fun x a d _ hd => hinv.cached hd (hfree a)

end TrackedStrings

end Drt
