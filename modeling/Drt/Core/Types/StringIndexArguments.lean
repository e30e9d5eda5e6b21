import Drt.Core.Types.StringIndex

/-!
# Names as arguments

The constructors of `StringIndex` with a variable number of arguments collect them in an array
for 32, and take one of twice the size when it is full. The one for names with values copies what
has been collected. The one for names alone does not, so that it reads pointers that were never
stored as soon as there are more than 32 names.
-/

open List Outcome

namespace Drt

namespace StringIndex

variable {α : Type} {known args : List α} {copies : Bool} {s s' : List (Option α)}
  {count count' : Nat} {arg : α}

/-- What has been stored, and the rest of the array. -/
def stored (known : List α) (room : Nat) : List (Option α) := known.map some ++ alloca α room

@[simp] theorem length_stored (known : List α) (room : Nat) :
    (stored known room).length = known.length + room := by
  rw [stored, length_append, length_map, alloca, length_replicate]

theorem set_stored (known : List α) (room : Nat) (arg : α) :
    (stored known (room + 1)).set known.length (some arg) = stored (known ++ [arg]) room := by
  have hlength : (known.map some).length = known.length := length_map some
  rw [stored, stored, set_append_right _ _ (Nat.le_of_eq hlength), hlength, Nat.sub_self,
    alloca, replicate_succ, set_cons_zero, map_append, append_assoc]
  rfl

theorem getElem_stored (known : List α) (room : Nat) {i : Nat} (hi : i < known.length) :
    (stored known room)[i]?.join = some known[i] := by
  have hi' : i < (known.map some).length := by
    rwa [length_map]
  rw [stored, List.getElem?_append_left hi', List.getElem?_map, List.getElem?_eq_getElem hi]
  rfl

theorem collect_store (hstay : ¬ (count &&& (count - 1) = 0 ∧ 32 ≤ count))
    (hroom : count < s.length) :
    collect copies (arg :: args) count s =
      collect copies args (count + 1) (s.set count (some arg)) := by
  rw [collect, if_neg hstay, if_pos hroom]

theorem collect_grow (hgrow : count &&& (count - 1) = 0 ∧ 32 ≤ count)
    (hroom : count < (grown copies s count).length) :
    collect copies (arg :: args) count s =
      collect copies args (count + 1) ((grown copies s count).set count (some arg)) := by
  rw [collect, if_pos hgrow, if_pos hroom]

/-- The first array has room for 32 arguments. -/
theorem collect_short (hshort : known.length + args.length ≤ 32) :
    collect copies args known.length (stored known (32 - known.length)) =
      .ok (stored (known ++ args) (32 - (known ++ args).length), (known ++ args).length) := by
  induction args generalizing known with
  | nil => rw [append_nil, collect]
  | cons arg args ih =>
    rw [length_cons] at hshort
    have hroom : 32 - known.length = 32 - (known ++ [arg]).length + 1 := by
      rw [length_append, length_singleton]
      omega
    rw [collect_store (by omega) (by rw [length_stored]; omega), hroom, set_stored]
    have hshort' : (known ++ [arg]).length + args.length ≤ 32 := by
      rw [length_append, length_singleton]
      omega
    have hnext := ih hshort'
    rw [append_assoc, singleton_append, length_append, length_singleton]
      at hnext
    rw [length_append, length_singleton]
    exact hnext

theorem grown_stored (known : List α) (room : Nat) :
    grown true (stored known room) known.length = stored known known.length := by
  have hlength : (known.map some).length = known.length := length_map some
  rw [grown, if_pos rfl, stored, take_left' hlength, stored]
  congr 2
  omega

/-- With copies any number of arguments is collected. -/
theorem collect_copies (known args : List α) {room : Nat}
    (hsize : (known.length + room).isPowerOfTwo) (hlarge : 32 ≤ known.length + room) :
    ∃ room', collect true args known.length (stored known room) =
      .ok (stored (known ++ args) room', (known ++ args).length) := by
  induction args generalizing known room with
  | nil => exact ⟨room, by rw [append_nil, collect]⟩
  | cons arg args ih =>
    have hnext : ∀ room, (known.length + (room + 1)).isPowerOfTwo →
        32 ≤ known.length + (room + 1) → ∃ room',
          collect true args (known.length + 1) (stored (known ++ [arg]) room) =
            .ok (stored (known ++ arg :: args) room', (known ++ arg :: args).length) := by
      intro room hsize hlarge
      have hlength : (known ++ [arg]).length = known.length + 1 := by
        rw [length_append, length_singleton]
      have hsum : (known ++ [arg]).length + room = known.length + (room + 1) := by omega
      obtain ⟨room', hrun⟩ := ih (known ++ [arg]) (hsum ▸ hsize) (hsum ▸ hlarge)
      rw [hlength, append_assoc, singleton_append] at hrun
      exact ⟨room', hrun⟩
    by_cases hgrow : known.length &&& (known.length - 1) = 0 ∧ 32 ≤ known.length
    · have hpos : known.length ≠ 0 := by omega
      have hpower := (Nat.and_sub_one_eq_zero_iff_isPowerOfTwo hpos).mp hgrow.1
      obtain ⟨room', hroom'⟩ : ∃ room', known.length = room' + 1 :=
        Nat.exists_eq_succ_of_ne_zero hpos
      have hdouble : (known.length + (room' + 1)).isPowerOfTwo := by
        rw [← hroom', ← Nat.mul_two]
        exact Nat.isPowerOfTwo_mul_two_of_isPowerOfTwo hpower
      have hgrown : grown true (stored known room) known.length = stored known (room' + 1) :=
        (grown_stored known room).trans (congrArg (stored known) hroom')
      obtain ⟨left, hrun⟩ := hnext room' hdouble (by omega)
      refine ⟨left, ?_⟩
      rw [collect_grow hgrow (by rw [hgrown, length_stored]; omega), hgrown, set_stored]
      exact hrun
    · have hpos : room ≠ 0 := by
        rintro rfl
        rw [Nat.add_zero] at hsize hlarge
        have hpower := (Nat.and_sub_one_eq_zero_iff_isPowerOfTwo (by omega)).mpr hsize
        exact hgrow ⟨hpower, hlarge⟩
      obtain ⟨room', rfl⟩ := Nat.exists_eq_succ_of_ne_zero hpos
      obtain ⟨left, hrun⟩ := hnext room' hsize hlarge
      refine ⟨left, ?_⟩
      rw [collect_store hgrow (by rw [length_stored]; omega), set_stored]
      exact hrun

theorem count_collect (hrun : collect copies args count s = .ok (s', count')) :
    count' = count + args.length := by
  induction args generalizing s count with
  | nil =>
    rw [collect] at hrun
    cases hrun
    rfl
  | cons arg args ih =>
    rw [collect] at hrun
    split_ifs at hrun <;> (rw [ih hrun, length_cons]; omega)

/-- The first name is not stored any more. -/
def Lost (s : List (Option α)) : Prop := s[0]?.join = none

/-- It is not stored again. -/
theorem Lost.collect (hlost : Lost s) (hpos : count ≠ 0)
    (hrun : StringIndex.collect false args count s = .ok (s', count')) : Lost s' := by
  induction args generalizing s count with
  | nil =>
    rw [StringIndex.collect] at hrun
    cases hrun
    exact hlost
  | cons arg args ih =>
    have hset : ∀ {r : List (Option α)}, Lost r → Lost (r.set count (some arg)) := by
      intro r hr
      rw [Lost, List.getElem?_set_ne hpos]
      exact hr
    rw [StringIndex.collect] at hrun
    by_cases hgrow : count &&& (count - 1) = 0 ∧ 32 ≤ count
    · rw [if_pos hgrow] at hrun
      split_ifs at hrun
      refine ih (hset ?_) (Nat.succ_ne_zero count) hrun
      rw [Lost, grown, if_neg Bool.false_ne_true, alloca, List.getElem?_replicate]
      split_ifs <;> rfl
    · rw [if_neg hgrow] at hrun
      split_ifs at hrun
      exact ih (hset hlost) (Nat.succ_ne_zero count) hrun

/-- With more than 32 arguments it is lost. -/
theorem lost_of_collect (hfew : count ≤ 32) (hpos : count ≠ 0)
    (hmany : 32 < count + args.length)
    (hrun : StringIndex.collect false args count s = .ok (s', count')) : Lost s' := by
  induction args generalizing s count with
  | nil =>
    rw [length_nil] at hmany
    omega
  | cons arg args ih =>
    rw [length_cons] at hmany
    rw [StringIndex.collect] at hrun
    by_cases hfull : count = 32
    · subst hfull
      have hgrow : 32 &&& (32 - 1) = 0 ∧ 32 ≤ 32 := by decide
      rw [if_pos hgrow] at hrun
      split_ifs at hrun
      refine Lost.collect ?_ (Nat.succ_ne_zero 32) hrun
      rw [Lost, List.getElem?_set_ne (by decide), grown, if_neg Bool.false_ne_true]
      rfl
    · have hstay : ¬ (count &&& (count - 1) = 0 ∧ 32 ≤ count) := fun h => by omega
      rw [if_neg hstay] at hrun
      split_ifs at hrun
      exact ih (by omega) (Nat.succ_ne_zero count) (by omega) hrun

section Constructors

variable {h : DataOfStrings} {names : List Nat}

variable {strs : List (Option Nat)} {value : Nat → Option Int}

theorem stored_of_fill {fuel size : Nat} {t t' : StringIndex}
    (hrun : fill h fuel size strs value count t = .ok t') : ∀ i < count, strs[i]?.join ≠ none := by
  induction count generalizing t with
  | zero =>
    intro i hi
    exact absurd hi (Nat.not_lt_zero i)
  | succ count ih =>
    obtain ⟨str, hstr, hrest⟩ := bind_eq_ok.mp hrun
    obtain ⟨t₁, -, hlater⟩ := bind_eq_ok.mp hrest
    intro i hi
    by_cases hlast : i = count
    · subst hlast
      intro hnone
      rw [hnone] at hstr
      cases hstr
    · exact ih hlater i (by omega)

theorem not_init_of_lost (hlost : Lost strs) {fuel : Nat} (hpos : count ≠ 0) (t : StringIndex) :
    init h fuel count strs value ≠ .ok t := by
  intro hrun
  rw [init, if_neg (by omega)] at hrun
  obtain ⟨slots, -, hfill⟩ := bind_eq_ok.mp hrun
  exact stored_of_fill hfill 0 (Nat.pos_of_ne_zero hpos) hlost

section

variable (hdistinct : Distinct h names)
include hdistinct

theorem places_of_stored (hstrs : ∀ i (hi : i < names.length), strs[i]?.join = some names[i]) :
    ∃ t, Outcome.Returns (fun fuel => init h fuel names.length strs fun i => some (i : Int)) t ∧
      t.Finds h names fun i => i :=
  finds_of_stored hdistinct hstrs fun _ _ => rfl

/-- The constructors from an array of pointers and from an array of strings. -/
theorem ofPointers_finds :
    ∃ t, Outcome.Returns (fun fuel => ofPointers h fuel names) t ∧
      t.Finds h names fun i => i := by
  apply places_of_stored hdistinct
  intro i hi
  rw [List.getElem?_map, List.getElem?_eq_getElem hi]
  rfl

theorem ofArray_finds :
    ∃ t, Outcome.Returns (fun fuel => ofArray h fuel names) t ∧ t.Finds h names fun i => i := by
  obtain ⟨t, hrun, ht⟩ := ofPointers_finds hdistinct
  refine ⟨t, hrun.congr fun fuel => ?_, ht⟩
  by_cases hnone : names.length = 0
  · obtain rfl : names = [] := length_eq_zero_iff.mp hnone
    rfl
  · exact if_neg hnone

/-- The constructor from arguments, as long as the first array has room for these. -/
theorem ofArguments_finds (hshort : names.length ≤ 32) :
    ∃ t, Outcome.Returns (fun fuel => ofArguments h fuel names) t ∧
      t.Finds h names fun i => i := by
  rcases names with _ | ⟨str0, _ | ⟨str1, args⟩⟩
  · exact ofPointers_finds hdistinct
  · exact ofPointers_finds hdistinct
  · obtain ⟨t, hrun, ht⟩ := places_of_stored hdistinct
      fun i hi => getElem_stored (str0 :: str1 :: args) (32 - (str0 :: str1 :: args).length) hi
    refine ⟨t, hrun.congr fun fuel => ?_, ht⟩
    have hfew : [str0, str1].length + args.length ≤ 32 := by
      rw [length_cons, length_cons] at hshort
      change 2 + args.length ≤ 32
      omega
    have hcollect : collect false args 2
        (((alloca Nat 32).set 0 (some str0)).set 1 (some str1)) = _ := collect_short hfew
    rw [ofArguments, hcollect, ok_bind]
    rfl

end

theorem not_ofArguments (hlong : 32 < names.length) (fuel : Nat) (t : StringIndex) :
    ofArguments h fuel names ≠ .ok t := by
  rcases names with _ | ⟨str0, _ | ⟨str1, args⟩⟩
  · cases hlong
  · rw [length_singleton] at hlong
    omega
  · intro hrun
    rw [length_cons, length_cons] at hlong
    obtain ⟨⟨s, count⟩, hcollect, hinit⟩ := bind_eq_ok.mp hrun
    have hlost := lost_of_collect (by omega) (by omega) (by omega) hcollect
    have hcount := count_collect hcollect
    exact not_init_of_lost hlost (by omega) t hinit

/-- With copies all arguments behind the first one are collected, into an array for 32. -/
theorem collect_arguments (arg : α) (args : List α) :
    ∃ room, collect true args 1 ((alloca α 32).set 0 (some arg)) =
      .ok (stored (arg :: args) room, (arg :: args).length) := by
  have hpower : ([arg].length + 31).isPowerOfTwo := ⟨5, rfl⟩
  obtain ⟨room, hrun⟩ := collect_copies [arg] args hpower (Nat.le_refl 32)
  exact ⟨room, hrun⟩

/-- The constructor from names with values has no such limit. -/
theorem ofValues_finds {args : List (Nat × Int)} (hdistinct : Distinct h (args.map Prod.fst)) :
    ∃ t, Outcome.Returns (fun fuel => ofValues h fuel args) t ∧
      t.Finds h (args.map Prod.fst) fun i => (args.map Prod.snd)[i]?.getD 0 := by
  rcases args with _ | ⟨⟨str0, value0⟩, args⟩
  · exact finds_of_stored hdistinct (fun i hi => absurd hi (Nat.not_lt_zero i))
      fun i hi => absurd hi (Nat.not_lt_zero i)
  · obtain ⟨room, hnames⟩ := collect_arguments str0 (args.map Prod.fst)
    obtain ⟨room', hvalues⟩ := collect_arguments value0 (args.map Prod.snd)
    have hstored : ∀ i (_ : i < (((str0, value0) :: args).map Prod.fst).length),
        (stored (value0 :: args.map Prod.snd) room')[i]?.join =
          some ((((str0, value0) :: args).map Prod.snd)[i]?.getD 0) := by
      intro i hi
      have hi' : i < (value0 :: args.map Prod.snd).length := by
        simpa using hi
      rw [getElem_stored _ room' hi', map_cons, List.getElem?_eq_getElem hi']
      rfl
    obtain ⟨t, hrun, ht⟩ := finds_of_stored hdistinct
      (fun i hi => getElem_stored (((str0, value0) :: args).map Prod.fst) room hi) hstored
    refine ⟨t, hrun.congr fun fuel => ?_, ht⟩
    rw [ofValues, hnames, ok_bind, hvalues]
    rfl

/-- The constructors of names. -/
inductive Constructor where
  | pointers
  | array
  | arguments
  deriving DecidableEq

/-- An index built by a constructor. -/
def build (h : DataOfStrings) (fuel : Nat) (names : List Nat) : Constructor → Call StringIndex
  | .pointers => ofPointers h fuel names
  | .array => ofArray h fuel names
  | .arguments => ofArguments h fuel names

/-- For distinct names an index is built that finds each of them at its place, and no other
string, exactly if the names come in an array or there are at most 32 of them. -/
theorem builds_iff (hdistinct : Distinct h names) (c : Constructor) :
    (∃ t, Outcome.Returns (fun fuel => build h fuel names c) t ∧ t.Finds h names fun i => i) ↔
      c ≠ .arguments ∨ names.length ≤ 32 := by
  cases c with
  | pointers => exact ⟨fun _ => .inl (by decide), fun _ => ofPointers_finds hdistinct⟩
  | array => exact ⟨fun _ => .inl (by decide), fun _ => ofArray_finds hdistinct⟩
  | arguments =>
    constructor
    · rintro ⟨t, ⟨least, hrun⟩, -⟩
      right
      by_contra hlong
      exact not_ofArguments (Nat.lt_of_not_le hlong) least t (hrun least (Nat.le_refl least))
    · rintro (hne | hshort)
      · exact absurd rfl hne
      · exact ofArguments_finds hdistinct hshort

end Constructors

/-- Strings of one octet each. -/
def letters : DataOfStrings := fun i => .ofOctets [UInt8.ofNat i]

/-- Two names as arguments. -/
theorem builds_iff_two :
    ∃ t, Outcome.Returns (fun fuel => build letters fuel [97, 98] .arguments) t ∧
      t.Finds letters [97, 98] fun i => i := by
  have hdistinct : Distinct letters [97, 98] := by
    simp only [Distinct]
    decide
  exact (builds_iff hdistinct .arguments).mpr (.inr (by decide))

/-- With 33 names and values an index is built. -/
theorem ofValues_finds_many : ∃ args : List (Nat × Int), args.length = 33 ∧ ∃ t,
    Outcome.Returns (fun fuel => ofValues letters fuel args) t ∧
      t.Finds letters (args.map Prod.fst) fun i => (args.map Prod.snd)[i]?.getD 0 := by
  have hdistinct : Distinct letters (((List.range 33).map (·, (7 : Int))).map Prod.fst) := by
    simp only [Distinct]
    decide
  exact ⟨_, rfl, ofValues_finds hdistinct⟩

/-- With 33 names as arguments no index is built. -/
theorem not_builds_many : Distinct letters (List.range 33) ∧
    ¬ ∃ t, Outcome.Returns (fun fuel => build letters fuel (List.range 33) .arguments) t ∧
      t.Finds letters (List.range 33) fun i => i := by
  constructor
  · simp only [Distinct]
    decide
  · rintro ⟨t, ⟨least, hrun⟩, -⟩
    have hlong : 32 < (List.range 33).length := by decide
    exact not_ofArguments hlong least t (hrun least (Nat.le_refl least))

end StringIndex

end Drt
