import Drt.Lib.Completes
import Mathlib.Data.List.Basic

/-!
# The end of a parenthesis

`findEndParenthesis` goes from one parenthesis or quote to the next one, whichever is nearest. Both
kinds of quoted parts are left by a loop of its own, and the one for apostrophes is a copy that
looks for the other quote. What the function does is what a reading character by character does in
which every quoted part ends with a double quote.
-/

open List

namespace Drt

open Outcome

namespace EndParenthesis

def index (str : List Char) (c : Char) (p : Nat) : Option Nat :=
  ((str.drop p).findIdx? (· = c)).map (· + p)

/-- A loop that leaves a quoted part from a place inside it on, or dies with this text. -/
def leave (text : String) (closing : Char) (str : List Char) : Nat → Nat → Outcome String Nat
  | 0, _ => .outOfFuel
  | fuel + 1, p =>
    match index str closing (p + 1) with
    | none => .raise (text ++ String.ofList str)
    | some q =>
      match index str '\\' (p + 1) with
      | none => .ok q
      | some b => if q < b then .ok q else leave text closing str fuel (b + 1)

/-- The loop for a double quote. -/
def leaveQuote : List Char → Nat → Nat → Outcome String Nat :=
  leave "cannot find end of quote in " '"'

/-- The loop for an apostrophe. It looks for a double quote, too. -/
def leaveApostrophe : List Char → Nat → Nat → Outcome String Nat :=
  leave "cannot find end of apostrophe in " '"'

/-- The loop of `findEndParenthesis`, at a level and a place. -/
def findFrom (str : List Char) : Nat → Nat → Nat → Outcome String Nat
  | 0, _, _ => .outOfFuel
  | _ + 1, 0, p => .ok p
  | fuel + 1, level + 1, p => do
    let o := (index str '(' p).getD str.length
    let c := (index str ')' p).getD str.length
    let q := (index str '"' p).getD str.length
    let a := (index str '\'' p).getD str.length
    if c ≤ o ∧ c ≤ q ∧ c ≤ a then
      if c = str.length then
        .raise ("cannot find matching end parenthesis in string " ++ String.ofList str)
      else findFrom str fuel level (c + 1)
    else if o < q ∧ o < a then findFrom str fuel (level + 2) (o + 1)
    else if q < a then
      let p ← leaveQuote str fuel q
      findFrom str fuel (level + 1) (p + 1)
    else
      let p ← leaveApostrophe str fuel a
      findFrom str fuel (level + 1) (p + 1)

def findEndParenthesis (fuel : Nat) (str : List Char) : Outcome String Nat := findFrom str fuel 1 0

/-! ### What is to be found

A text between parentheses in which parentheses are matched, but for those in quoted parts. -/

/-- The inside of a part that is quoted with `q`. -/
inductive Quoted (q : Char) : List Char → Prop
  | nil : Quoted q []
  | escape {c : Char} {cs : List Char} (tail : Quoted q cs) : Quoted q ('\\' :: c :: cs)
  | char {c : Char} {cs : List Char} (closing : c ≠ q) (escaping : c ≠ '\\') (tail : Quoted q cs) :
      Quoted q (c :: cs)

/-- The characters that the function looks for. -/
def specials : List Char := ['(', ')', '"', '\'']

/-- The inside of a parenthesis. -/
inductive Body : List Char → Prop
  | nil : Body []
  | char {c : Char} {cs : List Char} (plain : c ∉ specials) (tail : Body cs) : Body (c :: cs)
  | quote {q : Char} {inside cs : List Char} (kind : q = '"' ∨ q = '\'') (part : Quoted q inside)
      (tail : Body cs) : Body (q :: (inside ++ q :: cs))
  | nest {inside cs : List Char} (part : Body inside) (tail : Body cs) :
      Body ('(' :: (inside ++ ')' :: cs))

/-- The place just past the parenthesis that closes the one before the string. -/
def Closes (str : List Char) (n : Nat) : Prop :=
  ∃ body rest, str = body ++ ')' :: rest ∧ Body body ∧ n = body.length + 1

/-- The function does with the string what it is to do. -/
def Finds (str : List Char) : Prop :=
  (∀ n, Closes str n → Returns (fun fuel => findEndParenthesis fuel str) n) ∧
    ((∀ n, ¬ Closes str n) → ∃ e, Raises (fun fuel => findEndParenthesis fuel str) e)

/-! ### Reading character by character -/

/-- Where a character stands. -/
inductive Part where
  | plain
  | quoted (closing : Char)
  | escaped (closing : Char)
  deriving DecidableEq, Repr

/-- The place just past the closing parenthesis, from a place with `depth` more ones open. A part
that is opened with a quote `q` is closed with `closer q`. -/
def read (closer : Char → Char) : List Char → Nat → Nat → Part → Option Nat
  | [], _, _, _ => none
  | _ :: rest, pos, depth, .escaped q => read closer rest (pos + 1) depth (.quoted q)
  | c :: rest, pos, depth, .quoted q =>
    if c = q then read closer rest (pos + 1) depth .plain
    else if c = '\\' then read closer rest (pos + 1) depth (.escaped q)
    else read closer rest (pos + 1) depth (.quoted q)
  | c :: rest, pos, depth, .plain =>
    if c = ')' then
      match depth with
      | 0 => some (pos + 1)
      | depth + 1 => read closer rest (pos + 1) depth .plain
    else if c = '(' then read closer rest (pos + 1) (depth + 1) .plain
    else if c = '"' ∨ c = '\'' then read closer rest (pos + 1) depth (.quoted (closer c))
    else read closer rest (pos + 1) depth .plain

theorem read_plain (closer : Char → Char) (c : Char) (rest : List Char) (pos depth : Nat) :
    read closer (c :: rest) pos depth .plain =
      if c = ')' then
        if depth = 0 then some (pos + 1) else read closer rest (pos + 1) (depth - 1) .plain
      else if c = '(' then read closer rest (pos + 1) (depth + 1) .plain
      else if c = '"' ∨ c = '\'' then read closer rest (pos + 1) depth (.quoted (closer c))
      else read closer rest (pos + 1) depth .plain := by
  cases depth <;> rfl

/-- The place just past the first apostrophe that is met outside of quoted parts. -/
def meetsApostrophe : List Char → Nat → Nat → Part → Option Nat
  | [], _, _, _ => none
  | _ :: rest, pos, depth, .escaped q => meetsApostrophe rest (pos + 1) depth (.quoted q)
  | c :: rest, pos, depth, .quoted q =>
    if c = q then meetsApostrophe rest (pos + 1) depth .plain
    else if c = '\\' then meetsApostrophe rest (pos + 1) depth (.escaped q)
    else meetsApostrophe rest (pos + 1) depth (.quoted q)
  | c :: rest, pos, depth, .plain =>
    if c = ')' then
      match depth with
      | 0 => none
      | depth + 1 => meetsApostrophe rest (pos + 1) depth .plain
    else if c = '(' then meetsApostrophe rest (pos + 1) (depth + 1) .plain
    else if c = '"' then meetsApostrophe rest (pos + 1) depth (.quoted '"')
    else if c = '\'' then some (pos + 1)
    else meetsApostrophe rest (pos + 1) depth .plain

theorem meetsApostrophe_plain (c : Char) (rest : List Char) (pos depth : Nat) :
    meetsApostrophe (c :: rest) pos depth .plain =
      if c = ')' then
        if depth = 0 then none else meetsApostrophe rest (pos + 1) (depth - 1) .plain
      else if c = '(' then meetsApostrophe rest (pos + 1) (depth + 1) .plain
      else if c = '"' then meetsApostrophe rest (pos + 1) depth (.quoted '"')
      else if c = '\'' then some (pos + 1)
      else meetsApostrophe rest (pos + 1) depth .plain := by
  cases depth <;> rfl

/-! ### Searches

The string in front of the place is split off, and so is a text that holds nothing of interest. -/

section Search

variable {before t rest : List Char} {c s : Char}

theorem index_skip (h : c ∉ t) : index (before ++ (t ++ rest)) c before.length =
    index (before ++ t ++ rest) c (before ++ t).length := by
  have hnot : t.findIdx? (· = c) = none := by
    rw [List.findIdx?_eq_none_iff]
    intro x hx
    exact decide_eq_false fun heq => h (heq ▸ hx)
  rw [index, index, drop_left, drop_left, List.findIdx?_append, hnot, Option.none_or,
    Option.map_map, length_append]
  congr 1
  funext i
  simp only [Function.comp_apply]
  omega

@[simp] theorem index_self : index (before ++ c :: rest) c before.length = some before.length := by
  rw [index, drop_left, List.findIdx?_cons]
  simp

@[simp] theorem index_nil : index before c before.length = none := by
  rw [index, drop_length]
  rfl

theorem index_found (h : c ∉ t) :
    index (before ++ (t ++ c :: rest)) c before.length = some (before.length + t.length) := by
  rw [index_skip h, index_self, length_append]

theorem index_absent (h : c ∉ t) : index (before ++ t) c before.length = none := by
  have hskip : index (before ++ (t ++ [])) c before.length = _ := index_skip h
  rwa [append_nil, append_nil, index_nil] at hskip

theorem index_ge {str : List Char} {p i : Nat} (h : index str c p = some i) : p ≤ i := by
  obtain ⟨j, -, rfl⟩ := Option.map_eq_some_iff.mp h
  exact Nat.le_add_left p j

theorem index_behind {i : Nat} (h : c ∉ t) (hne : c ≠ s)
    (hi : index (before ++ (t ++ s :: rest)) c before.length = some i) :
    before.length + t.length < i := by
  have hts : c ∉ t ++ [s] := by simp [h, hne]
  have heq : t ++ s :: rest = (t ++ [s]) ++ rest := by simp
  rw [heq, index_skip hts] at hi
  have hge := index_ge hi
  simp only [length_append, length_singleton] at hge
  omega

/-- The place that stands for a character in the comparisons. -/
def place (str : List Char) (c : Char) (p : Nat) : Nat := (index str c p).getD str.length

theorem place_found (h : c ∉ t) :
    place (before ++ (t ++ c :: rest)) c before.length = before.length + t.length := by
  rw [place, index_found h]
  rfl

theorem place_behind (h : c ∉ t) (hne : c ≠ s) :
    before.length + t.length < place (before ++ (t ++ s :: rest)) c before.length := by
  cases hi : index (before ++ (t ++ s :: rest)) c before.length with
  | some i =>
    rw [place, hi]
    exact index_behind h hne hi
  | none =>
    rw [place, hi]
    simp

theorem place_absent (h : c ∉ t) : place (before ++ t) c before.length = (before ++ t).length := by
  rw [place, index_absent h]
  rfl

theorem exists_first (chars text : List Char) : ∃ t, (∀ c ∈ chars, c ∉ t) ∧
    (text = t ∨ ∃ s rest, s ∈ chars ∧ text = t ++ s :: rest) := by
  induction text with
  | nil => exact ⟨[], by simp, .inl rfl⟩
  | cons d text ih =>
    by_cases hd : d ∈ chars
    · exact ⟨[], by simp, .inr ⟨d, text, hd, rfl⟩⟩
    · obtain ⟨t, ht, hsplit⟩ := ih
      refine ⟨d :: t, fun c hc => mem_cons.not.mpr (not_or.mpr ⟨?_, ht c hc⟩), ?_⟩
      · rintro rfl
        exact hd hc
      · rcases hsplit with rfl | ⟨s, rest, hs, rfl⟩
        · exact .inl rfl
        · exact .inr ⟨s, rest, hs, rfl⟩

end Search

/-! ### Quoted parts -/

section Leave

variable {closer : Char → Char} {closing : Char} {before rest t : List Char} {pos depth : Nat}

theorem read_quoted_skip (hclosing : closing ∉ t) (hescape : '\\' ∉ t) :
    read closer (t ++ rest) pos depth (.quoted closing) =
      read closer rest (pos + t.length) depth (.quoted closing) := by
  induction t generalizing pos with
  | nil => rfl
  | cons c t ih =>
    obtain ⟨hc, hclosing⟩ := not_or.mp (mem_cons.not.mp hclosing)
    obtain ⟨hb, hescape⟩ := not_or.mp (mem_cons.not.mp hescape)
    rw [cons_append, read, if_neg (Ne.symm hc), if_neg (Ne.symm hb), ih hclosing hescape,
      length_cons]
    congr 1
    omega

theorem read_quoted_absent (h : closing ∉ t) :
    read closer t pos depth (.quoted closing) = none ∧
      read closer t pos depth (.escaped closing) = none := by
  induction t generalizing pos with
  | nil => exact ⟨rfl, rfl⟩
  | cons c t ih =>
    obtain ⟨hc, h⟩ := not_or.mp (mem_cons.not.mp h)
    refine ⟨?_, (ih h).1⟩
    rw [read, if_neg (Ne.symm hc)]
    split_ifs
    · exact (ih h).2
    · exact (ih h).1

/-- The loop leaves a quoted part where it ends, or dies if it does not end. -/
theorem leave_ends (text : String) (hne : closing ≠ '\\') (before rest : List Char) {p : Nat}
    (hp : p + 1 = before.length) :
    (∃ inside after, rest = inside ++ closing :: after ∧
      EndsAs (fun fuel => leave text closing (before ++ rest) fuel p)
        (.ok (before.length + inside.length)) ∧
      ∀ closer depth, read closer rest before.length depth (.quoted closing) =
        read closer after (before.length + inside.length + 1) depth .plain) ∨
    ((∃ e, EndsAs (fun fuel => leave text closing (before ++ rest) fuel p) (.raise e)) ∧
      ∀ closer depth, read closer rest before.length depth (.quoted closing) = none) := by
  induction hlen : rest.length using Nat.strongRecOn generalizing before rest p with
  | ind len ih =>
    obtain ⟨t, ht, rfl | ⟨s, more, hs, rfl⟩⟩ := exists_first [closing, '\\'] rest
    · refine .inr ⟨⟨text ++ String.ofList (before ++ rest), EndsAs.of_succ_eq fun fuel => ?_⟩,
        fun _ _ => ?_⟩
      · rw [leave, hp, index_absent (ht closing (by simp))]
      · exact (read_quoted_absent (ht closing (by simp))).1
    have hclosing := ht closing (by simp)
    have hescape := ht '\\' (by simp)
    rcases mem_cons.mp hs with rfl | hs
    · -- The part ends here, and what is escaped comes later.
      refine .inl ⟨t, more, rfl, EndsAs.of_succ_eq fun fuel => ?_, fun _ _ => ?_⟩
      · rw [leave, hp, index_found hclosing]
        cases hb : index (before ++ (t ++ s :: more)) '\\' before.length with
        | none => rfl
        | some b => exact if_pos (index_behind hescape (Ne.symm hne) hb)
      · rw [read_quoted_skip hclosing hescape, read, if_pos rfl]
    · -- A backslash comes first: the character behind it is passed over.
      obtain rfl := mem_singleton.mp hs
      cases hq : index (before ++ (t ++ '\\' :: more)) closing before.length with
      | none =>
        have hmore : closing ∉ more := by
          intro hmem
          obtain ⟨u, v, rfl, hu⟩ := eq_append_cons_of_mem hmem
          have hskip : closing ∉ t ++ '\\' :: u := by simp [hclosing, hne, hu]
          have hfound : index (before ++ ((t ++ '\\' :: u) ++ closing :: v)) closing
              before.length = _ := index_found hskip
          rw [append_assoc, cons_append, hq] at hfound
          cases hfound
        refine .inr ⟨⟨text ++ String.ofList (before ++ (t ++ '\\' :: more)),
          EndsAs.of_succ_eq fun fuel => ?_⟩, fun _ _ => ?_⟩
        · rw [leave, hp, hq]
        · rw [read_quoted_skip hclosing hescape, read, if_neg (Ne.symm hne), if_pos rfl]
          exact (read_quoted_absent hmore).2
      | some q =>
        have hlt := index_behind hclosing hne hq
        have hpass : ∀ fuel, leave text closing (before ++ (t ++ '\\' :: more)) (fuel + 1) p =
            leave text closing (before ++ (t ++ '\\' :: more)) fuel
              (before.length + t.length + 1) := by
          intro fuel
          rw [leave, hp, hq, index_found hescape]
          exact if_neg (by omega)
        cases more with
        | nil =>
          have habsent : index (before ++ (t ++ ['\\'])) closing before.length = none :=
            index_absent (by simp [hclosing, hne])
          rw [hq] at habsent
          cases habsent
        | cons d more =>
          have hsplit : before ++ (t ++ '\\' :: d :: more) =
              before ++ (t ++ ['\\', d]) ++ more := by simp
          have hlength : (before ++ (t ++ ['\\', d])).length = before.length + t.length + 2 := by
            simp [Nat.add_assoc]
          have hread : ∀ closer depth,
              read closer (t ++ '\\' :: d :: more) before.length depth (.quoted closing) =
                read closer more (before.length + t.length + 2) depth (.quoted closing) := by
            intro closer depth
            rw [read_quoted_skip hclosing hescape, read, if_neg (Ne.symm hne), if_pos rfl, read]
          have hshorter : more.length < len := by
            rw [← hlen]
            simp
            omega
          rw [hsplit] at hpass ⊢
          rw [← hlength] at hread
          obtain ⟨inside, after, rfl, hends, hplain⟩ | ⟨⟨e, hends⟩, hnone⟩ :=
            ih more.length hshorter (before ++ (t ++ ['\\', d])) more
              (p := before.length + t.length + 1) hlength.symm rfl
          · refine .inl ⟨t ++ '\\' :: d :: inside, after, by simp, ?_, fun closer depth => ?_⟩
            · have hend : before.length + (t ++ '\\' :: d :: inside).length =
                  (before ++ (t ++ ['\\', d])).length + inside.length := by
                simp
                omega
              rw [hend]
              exact hends.of_succ hpass
            · rw [hread, hplain]
              congr 1
              simp
              omega
          · exact .inr ⟨⟨e, hends.of_succ hpass⟩, fun closer depth =>
              (hread closer depth).trans (hnone closer depth)⟩

end Leave

/-! ### The whole string

The loop agrees with the reading in which both kinds of quoted parts end with a double quote. -/

/-- The reading that the function makes. -/
def readsAs : List Char → Nat → Nat → Part → Option Nat := read fun _ => '"'

/-- What the function comes to where the reading comes to this. -/
def Answers : Option Nat → Outcome String Nat → Prop
  | some n, x => x = .ok n
  | none, x => ∃ e, x = .raise e

section Find

variable {before t more : List Char} {depth : Nat}

/-- Characters outside of quoted parts that do not matter. -/
theorem read_plain_skip {closer : Char → Char} {rest : List Char} {pos : Nat}
    (h : ∀ c ∈ specials, c ∉ t) : read closer (t ++ rest) pos depth .plain =
      read closer rest (pos + t.length) depth .plain := by
  induction t generalizing pos with
  | nil => rfl
  | cons c t ih =>
    have hne : ∀ d ∈ specials, c ≠ d := by
      rintro d hd rfl
      exact h c hd mem_cons_self
    rw [cons_append, read_plain, if_neg (hne ')' (by decide)), if_neg (hne '(' (by decide)),
      if_neg (not_or.mpr ⟨hne '"' (by decide), hne '\'' (by decide)⟩),
      ih fun d hd hmem => h d hd (mem_cons_of_mem c hmem), length_cons]
    congr 1
    omega

/-- A pass of the loop. -/
theorem findFrom_pass (str : List Char) (fuel level p : Nat) :
    findFrom str (fuel + 1) (level + 1) p =
      if place str ')' p ≤ place str '(' p ∧ place str ')' p ≤ place str '"' p ∧
          place str ')' p ≤ place str '\'' p then
        if place str ')' p = str.length then
          .raise ("cannot find matching end parenthesis in string " ++ String.ofList str)
        else findFrom str fuel level (place str ')' p + 1)
      else if place str '(' p < place str '"' p ∧ place str '(' p < place str '\'' p then
        findFrom str fuel (level + 2) (place str '(' p + 1)
      else if place str '"' p < place str '\'' p then
        leaveQuote str fuel (place str '"' p) >>= fun p => findFrom str fuel (level + 1) (p + 1)
      else
        leaveApostrophe str fuel (place str '\'' p) >>= fun p =>
          findFrom str fuel (level + 1) (p + 1) := rfl

theorem findFrom_end (h : ∀ c ∈ specials, c ∉ t) (fuel level : Nat) :
    findFrom (before ++ t) (fuel + 1) (level + 1) before.length =
      .raise ("cannot find matching end parenthesis in string " ++ String.ofList (before ++ t)) := by
  rw [findFrom_pass, place_absent (h ')' (by decide)), place_absent (h '(' (by decide)),
    place_absent (h '"' (by decide)), place_absent (h '\'' (by decide))]
  simp

/-- The pass for each of the characters, if it is the nearest one. -/
theorem findFrom_near (h : ∀ c ∈ specials, c ∉ t) {s : Char} (hs : s ∈ specials)
    (fuel level : Nat) :
    findFrom (before ++ (t ++ s :: more)) (fuel + 1) (level + 1) before.length =
      if s = ')' then
        findFrom (before ++ (t ++ s :: more)) fuel level (before.length + t.length + 1)
      else if s = '(' then
        findFrom (before ++ (t ++ s :: more)) fuel (level + 2) (before.length + t.length + 1)
      else
        leave (if s = '"' then "cannot find end of quote in "
            else "cannot find end of apostrophe in ") '"' (before ++ (t ++ s :: more)) fuel
            (before.length + t.length) >>= fun p =>
          findFrom (before ++ (t ++ s :: more)) fuel (level + 1) (p + 1) := by
  have hfound : place (before ++ (t ++ s :: more)) s before.length = before.length + t.length :=
    place_found (h s hs)
  have hbehind : ∀ c ∈ specials, c ≠ s →
      before.length + t.length < place (before ++ (t ++ s :: more)) c before.length :=
    fun c hc hne => place_behind (h c hc) hne
  have hlength : before.length + t.length ≠ (before ++ (t ++ s :: more)).length := by
    simp
  rw [findFrom_pass]
  simp only [specials, mem_cons, not_mem_nil, or_false] at hs
  rcases hs with rfl | rfl | rfl | rfl
  · have hc := hbehind ')' (by decide) (by decide)
    have hq := hbehind '"' (by decide) (by decide)
    have ha := hbehind '\'' (by decide) (by decide)
    rw [hfound, if_neg (by omega), if_pos (by omega), if_neg (by decide), if_pos rfl]
  · have ho := hbehind '(' (by decide) (by decide)
    have hq := hbehind '"' (by decide) (by decide)
    have ha := hbehind '\'' (by decide) (by decide)
    rw [hfound, if_pos (by omega), if_neg hlength, if_pos rfl]
  · have ho := hbehind '(' (by decide) (by decide)
    have hc := hbehind ')' (by decide) (by decide)
    have ha := hbehind '\'' (by decide) (by decide)
    rw [hfound, if_neg (by omega), if_neg (by omega), if_pos (by omega), if_neg (by decide),
      if_neg (by decide), if_pos rfl]
    rfl
  · have ho := hbehind '(' (by decide) (by decide)
    have hc := hbehind ')' (by decide) (by decide)
    have hq := hbehind '"' (by decide) (by decide)
    rw [hfound, if_neg (by omega), if_neg (by omega), if_neg (by omega), if_neg (by decide),
      if_neg (by decide), if_neg (by decide)]
    rfl

/-- From any place on the loop ends as the reading does. -/
theorem findFrom_ends (before text : List Char) (depth : Nat) :
    ∃ x, EndsAs (fun fuel => findFrom (before ++ text) fuel (depth + 1) before.length) x ∧
      Answers (readsAs text before.length depth .plain) x := by
  induction hlen : text.length using Nat.strongRecOn generalizing before text depth with
  | ind len ih =>
    obtain ⟨t, ht, rfl | ⟨s, more, hs, rfl⟩⟩ := exists_first specials text
    · refine ⟨_, EndsAs.of_succ_eq fun fuel => findFrom_end ht fuel depth, ?_⟩
      have hread : read (fun _ => '"') (text ++ []) before.length depth .plain = _ :=
        read_plain_skip ht
      rw [append_nil] at hread
      rw [readsAs, hread]
      exact ⟨_, rfl⟩
    have hshorter : more.length < len := by
      rw [← hlen]
      simp
      omega
    have hsplit : before ++ (t ++ s :: more) = before ++ (t ++ [s]) ++ more := by simp
    have hlength : (before ++ (t ++ [s])).length = before.length + t.length + 1 := by
      simp [Nat.add_assoc]
    -- Behind the character the induction hypothesis goes on with what is left.
    have hnext : ∀ depth', ∃ x,
        EndsAs (fun fuel => findFrom (before ++ (t ++ s :: more)) fuel (depth' + 1)
          (before.length + t.length + 1)) x ∧
        Answers (readsAs more (before.length + t.length + 1) depth' .plain) x := by
      intro depth'
      have hrest := ih more.length hshorter (before ++ (t ++ [s])) more depth' rfl
      rwa [← hsplit, hlength] at hrest
    have hpass : ∀ fuel level, findFrom (before ++ (t ++ s :: more)) (fuel + 1) (level + 1)
        before.length = _ := findFrom_near ht hs
    rw [readsAs, read_plain_skip ht, read_plain]
    by_cases hclose : s = ')'
    · subst hclose
      simp only [if_true] at hpass ⊢
      cases depth with
      | zero =>
        exact ⟨_, (EndsAs.of_succ_eq fun _ => rfl).of_succ fun fuel => hpass fuel 0, rfl⟩
      | succ depth =>
        obtain ⟨x, hx, hanswers⟩ := hnext depth
        exact ⟨x, hx.of_succ fun fuel => hpass fuel (depth + 1), hanswers⟩
    by_cases hopen : s = '('
    · subst hopen
      obtain ⟨x, hx, hanswers⟩ := hnext (depth + 1)
      exact ⟨x, hx.of_succ fun fuel => hpass fuel depth, hanswers⟩
    have hquote : s = '"' ∨ s = '\'' := by simpa [specials, hclose, hopen] using hs
    rw [if_neg hclose, if_neg hopen, if_pos hquote]
    simp only [if_neg hclose, if_neg hopen] at hpass
    have hleave := leave_ends (if s = '"' then "cannot find end of quote in "
      else "cannot find end of apostrophe in ") (show '"' ≠ '\\' by decide) (before ++ (t ++ [s])) more
      (p := before.length + t.length) hlength.symm
    rw [← hsplit, hlength] at hleave
    obtain ⟨inside, after, rfl, hends, hplain⟩ | ⟨⟨e, hends⟩, hnone⟩ := hleave
    · have hafter := ih after.length (by simp at hshorter; omega)
        (before ++ (t ++ s :: (inside ++ ['"']))) after depth rfl
      have hwhole : before ++ (t ++ s :: (inside ++ ['"'])) ++ after =
          before ++ (t ++ s :: (inside ++ '"' :: after)) := by simp
      have hend : (before ++ (t ++ s :: (inside ++ ['"']))).length =
          before.length + t.length + 1 + inside.length + 1 := by
        simp
        omega
      rw [hwhole, hend] at hafter
      obtain ⟨x, hx, hanswers⟩ := hafter
      rw [hplain]
      refine ⟨x, (EndsAs.of_returns hends ?_).of_succ fun fuel => hpass fuel depth, hanswers⟩
      exact hx
    · rw [hnone]
      exact ⟨_, hends.of_raise.of_succ fun fuel => hpass fuel depth, _, rfl⟩

end Find

/-! ### What is found

The right reading ends each part with its own quote. It finds the closing parenthesis of the text
wherever there is one. -/

section Closes

variable {q : Char} {inside body text rest : List Char} {pos depth n k : Nat}

/-- A quoted part is read to its end. -/
theorem Quoted.read_eq {closer : Char → Char} (h : Quoted q inside) (hq : q ≠ '\\') :
    read closer (inside ++ q :: rest) pos depth (.quoted q) =
      read closer rest (pos + inside.length + 1) depth .plain := by
  induction h generalizing pos with
  | nil => rw [nil_append, read, if_pos rfl, length_nil, Nat.add_zero]
  | escape _ ih =>
    rw [cons_append, cons_append, read, if_neg (Ne.symm hq), if_pos rfl, read, ih]
    congr 1
    simp only [length_cons]
    omega
  | char closing escaping _ ih =>
    rw [cons_append, read, if_neg closing, if_neg escaping, ih]
    congr 1
    simp only [length_cons]
    omega

theorem ne_backslash (h : q = '"' ∨ q = '\'') : q ≠ '\\' := by
  rcases h with rfl | rfl <;> decide

theorem mem_specials (h : q = '"' ∨ q = '\'') : q ≠ ')' ∧ q ≠ '(' := by
  rcases h with rfl | rfl <;> decide

/-- The inside of a parenthesis is read to its end. -/
theorem Body.read_eq (h : Body body) : read id (body ++ rest) pos depth .plain =
    read id rest (pos + body.length) depth .plain := by
  induction h generalizing pos depth rest with
  | nil => rfl
  | @char c cs plain _ ih =>
    simp only [specials, mem_cons, not_mem_nil, or_false, not_or] at plain
    obtain ⟨hopen, hclose, hquote, hapostrophe⟩ := plain
    rw [cons_append, read_plain, if_neg hclose, if_neg hopen,
      if_neg (not_or.mpr ⟨hquote, hapostrophe⟩), ih]
    congr 1
    simp only [length_cons]
    omega
  | @quote q inside cs kind part _ ih =>
    obtain ⟨hclose, hopen⟩ := mem_specials kind
    rw [cons_append, read_plain, if_neg hclose, if_neg hopen, if_pos kind, append_assoc,
      cons_append, id, part.read_eq (ne_backslash kind), ih]
    congr 1
    simp only [length_cons, length_append]
    omega
  | @nest inside cs _ _ ih ih' =>
    rw [cons_append, read_plain, if_neg (by decide), if_pos rfl, append_assoc,
      cons_append, ih, read_plain, if_pos rfl, if_neg (Nat.succ_ne_zero depth),
      Nat.add_sub_cancel, ih']
    congr 1
    simp only [length_cons, length_append]
    omega

theorem Closes.read_eq (h : Closes text n) : read id text pos 0 .plain = some (pos + n) := by
  obtain ⟨body, rest, rfl, hbody, rfl⟩ := h
  rw [hbody.read_eq, read_plain, if_pos rfl, if_pos rfl, Nat.add_assoc]

/-- A part that is left was quoted. -/
theorem quoted_of_read {closer : Char → Char} :
    (read closer text pos depth (.quoted q) = some n → ∃ inside rest, text = inside ++ q :: rest ∧
      Quoted q inside ∧ read closer rest (pos + inside.length + 1) depth .plain = some n) ∧
    (read closer text pos depth (.escaped q) = some n → ∃ c inside rest,
      text = c :: (inside ++ q :: rest) ∧ Quoted q inside ∧
        read closer rest (pos + inside.length + 2) depth .plain = some n) := by
  induction text generalizing pos with
  | nil => exact ⟨fun h => (by cases h), fun h => (by cases h)⟩
  | cons c text ih =>
    constructor
    · intro h
      rw [read] at h
      split_ifs at h with hc hb
      · subst hc
        exact ⟨[], text, rfl, .nil, h⟩
      · subst hb
        obtain ⟨d, inside, rest, rfl, hinside, hrest⟩ := ih.2 h
        refine ⟨'\\' :: d :: inside, rest, rfl, .escape hinside, ?_⟩
        rw [← hrest]
        congr 1
        simp only [length_cons]
        omega
      · obtain ⟨inside, rest, rfl, hinside, hrest⟩ := ih.1 h
        refine ⟨c :: inside, rest, rfl, .char hc hb hinside, ?_⟩
        rw [← hrest]
        congr 1
        simp only [length_cons]
        omega
    · intro h
      rw [read] at h
      obtain ⟨inside, rest, rfl, hinside, hrest⟩ := ih.1 h
      refine ⟨c, inside, rest, rfl, hinside, ?_⟩
      rw [← hrest]
      congr 1
      omega

/-- The place just past the parenthesis that closes the last of some more ones. -/
def ClosesAt : Nat → List Char → Nat → Prop
  | 0, text, n => Closes text n
  | depth + 1, text, n => ∃ body rest m, text = body ++ ')' :: rest ∧ Body body ∧
      ClosesAt depth rest m ∧ n = body.length + 1 + m

/-- Whatever may stand at the start of a body may stand in front of the first parenthesis. -/
theorem ClosesAt.prepend {pre : List Char} (hpre : ∀ body, Body body → Body (pre ++ body))
    (h : ClosesAt depth text n) : ClosesAt depth (pre ++ text) (pre.length + n) := by
  cases depth with
  | zero =>
    obtain ⟨body, rest, rfl, hbody, rfl⟩ := h
    refine ⟨pre ++ body, rest, by simp, hpre body hbody, ?_⟩
    rw [length_append, Nat.add_assoc]
  | succ depth =>
    obtain ⟨body, rest, m, rfl, hbody, hrest, rfl⟩ := h
    refine ⟨pre ++ body, rest, m, by simp, hpre body hbody, hrest, ?_⟩
    rw [length_append]
    omega

theorem ClosesAt.open (h : ClosesAt (depth + 1) text n) :
    ClosesAt depth ('(' :: text) (n + 1) := by
  obtain ⟨body, rest, m, rfl, hbody, hrest, rfl⟩ := h
  have hpre : ∀ cs, Body cs → Body ('(' :: (body ++ [')']) ++ cs) := fun cs hcs => by
    simpa using Body.nest hbody hcs
  have hnest := hrest.prepend hpre
  simpa [Nat.add_comm, Nat.add_left_comm, Nat.add_assoc] using hnest

/-- What is read closes. -/
theorem closesAt_of_read (h : read id text pos depth .plain = some n) :
    ∃ k, ClosesAt depth text k ∧ n = pos + k := by
  induction hlen : text.length using Nat.strongRecOn generalizing text pos depth with
  | ind len ih =>
    cases text with
    | nil => cases h
    | cons c text =>
      have hshorter : text.length < len := by
        rw [← hlen]
        exact Nat.lt_succ_self _
      rw [read_plain] at h
      split_ifs at h with hclose hdepth hopen hquote
      · subst hclose hdepth
        exact ⟨1, ⟨[], text, rfl, .nil, rfl⟩, (Option.some.inj h).symm⟩
      · obtain ⟨k, hk, rfl⟩ := ih _ hshorter h rfl
        obtain ⟨depth, rfl⟩ := Nat.exists_eq_succ_of_ne_zero hdepth
        subst hclose
        exact ⟨1 + k, ⟨[], text, k, rfl, .nil, hk, by simp⟩, by omega⟩
      · obtain ⟨k, hk, rfl⟩ := ih _ hshorter h rfl
        subst hopen
        exact ⟨k + 1, hk.open, by omega⟩
      · obtain ⟨inside, rest, rfl, hinside, hrest⟩ := quoted_of_read.1 h
        obtain ⟨k, hk, rfl⟩ := ih _ (by simp at hshorter; omega) hrest rfl
        have hpre : ∀ cs, Body cs → Body (c :: (inside ++ [c]) ++ cs) := fun cs hcs => by
          simpa using Body.quote hquote hinside hcs
        have hpart := hk.prepend hpre
        rw [cons_append, append_assoc, singleton_append] at hpart
        refine ⟨_, hpart, ?_⟩
        simp only [length_cons, length_append, length_nil]
        omega
      · obtain ⟨k, hk, rfl⟩ := ih _ hshorter h rfl
        have hplain : c ∉ specials := by simp_all [specials]
        have hpre : ∀ cs, Body cs → Body ([c] ++ cs) := fun cs hcs => .char hplain hcs
        exact ⟨_, hk.prepend hpre, by
          simp only [length_singleton]
          omega⟩

/-- The right reading finds exactly the places just past the closing parenthesis. -/
theorem closes_iff : Closes text n ↔ read id text 0 0 .plain = some n := by
  constructor
  · intro h
    rw [h.read_eq, Nat.zero_add]
  · intro h
    obtain ⟨k, hk, rfl⟩ := closesAt_of_read h
    rwa [Nat.zero_add]

/-- The function does what it is to do if it reads as it should. -/
theorem finds_iff : Finds text ↔ readsAs text 0 0 .plain = read id text 0 0 .plain := by
  obtain ⟨x, hx, hanswers⟩ := findFrom_ends [] text 0
  have hfind : EndsAs (fun fuel => findEndParenthesis fuel text) x := hx
  rw [length_nil] at hanswers
  constructor
  · rintro ⟨hreturns, hraises⟩
    cases hread : read id text 0 0 .plain with
    | some n =>
      have hok := hfind.returns_iff.mp (hreturns n (closes_iff.mpr hread))
      cases hcode : readsAs text 0 0 .plain with
      | some m =>
        rw [hcode] at hanswers
        rw [hanswers] at hok
        rw [Outcome.ok.inj hok]
      | none =>
        rw [hcode] at hanswers
        obtain ⟨e, rfl⟩ := hanswers
        cases hok
    | none =>
      obtain ⟨e, he⟩ := hraises fun n hn => by
        rw [closes_iff, hread] at hn
        cases hn
      cases hcode : readsAs text 0 0 .plain with
      | some m =>
        rw [hcode] at hanswers
        exact absurd (hfind.returns_iff.mpr hanswers) he.not_returns
      | none => rfl
  · intro heq
    rw [heq] at hanswers
    refine ⟨fun n hn => ?_, fun hnone => ?_⟩
    · rw [closes_iff.mp hn] at hanswers
      exact hfind.returns_iff.mpr hanswers
    · cases hread : read id text 0 0 .plain with
      | some n => exact absurd (closes_iff.mpr hread) (hnone n)
      | none =>
        rw [hread] at hanswers
        obtain ⟨e, rfl⟩ := hanswers
        exact ⟨e, hfind⟩

end Closes

/-! ### Apostrophes

Both readings agree up to the first apostrophe that opens a quoted part. From there on they may come
to anything: behind it an apostrophe and enough parentheses close the text for one of them only. -/

section Apostrophe

variable {text : List Char} {pos depth k : Nat}

/-- The parts that are met as long as no apostrophe is. -/
def Part.known (part : Part) : Prop := part = .plain ∨ part = .quoted '"' ∨ part = .escaped '"'

/-- Without an apostrophe both readings agree. -/
theorem readsAs_eq_read {part : Part} (hpart : part.known)
    (h : meetsApostrophe text pos depth part = none) :
    readsAs text pos depth part = read id text pos depth part := by
  induction text generalizing pos depth part with
  | nil => rfl
  | cons c text ih =>
    rcases hpart with rfl | rfl | rfl
    · rw [meetsApostrophe_plain] at h
      rw [readsAs, read_plain, read_plain]
      split_ifs at h with hclose hdepth hopen hquote
      · rw [if_pos hclose, if_pos hclose, if_pos hdepth, if_pos hdepth]
      · rw [if_pos hclose, if_pos hclose, if_neg hdepth, if_neg hdepth]
        exact ih (.inl rfl) h
      · rw [if_neg hclose, if_neg hclose, if_pos hopen, if_pos hopen]
        exact ih (.inl rfl) h
      · subst hquote
        exact ih (.inr (.inl rfl)) h
      · rename_i hapostrophe
        have hnot : ¬ (c = '"' ∨ c = '\'') := not_or.mpr ⟨hquote, hapostrophe⟩
        rw [if_neg hclose, if_neg hclose, if_neg hopen, if_neg hopen, if_neg hnot, if_neg hnot]
        exact ih (.inl rfl) h
    · rw [meetsApostrophe] at h
      rw [readsAs, read, read]
      split_ifs at h ⊢
      · exact ih (.inl rfl) h
      · exact ih (.inr (.inr rfl)) h
      · exact ih (.inr (.inl rfl)) h
    · exact ih (.inr (.inl rfl)) h

/-- Up to the apostrophe the text is read the same way, whatever is behind. -/
theorem exists_read_apostrophe {part : Part} (hpart : part.known)
    (h : meetsApostrophe text pos depth part = some k) :
    ∃ pre rest d, text = pre ++ rest ∧ k = pos + pre.length ∧
      ∀ closer, closer '"' = '"' → ∀ tail, read closer (pre ++ tail) pos depth part =
        read closer tail k d (.quoted (closer '\'')) := by
  induction text generalizing pos depth part with
  | nil => cases h
  | cons c text ih =>
    -- Each character but the apostrophe itself is read, and the rest as by induction.
    have hstep : ∀ {depth' part'}, part'.known →
        meetsApostrophe text (pos + 1) depth' part' = some k →
        (∀ closer, closer '"' = '"' → ∀ tail, read closer (c :: tail) pos depth part =
          read closer tail (pos + 1) depth' part') →
        ∃ pre rest d, c :: text = pre ++ rest ∧ k = pos + pre.length ∧
          ∀ closer, closer '"' = '"' → ∀ tail, read closer (pre ++ tail) pos depth part =
            read closer tail k d (.quoted (closer '\'')) := by
      intro depth' part' hpart' hmeets hread
      obtain ⟨pre, rest, d, rfl, hk, hpre⟩ := ih hpart' hmeets
      refine ⟨c :: pre, rest, d, rfl, by simp only [length_cons]; omega, ?_⟩
      intro closer hcloser tail
      rw [cons_append, hread closer hcloser, hpre closer hcloser]
    rcases hpart with rfl | rfl | rfl
    · rw [meetsApostrophe_plain] at h
      split_ifs at h with hclose hdepth hopen hquote hapostrophe
      · exact hstep (.inl rfl) h fun closer _ tail => by
          rw [read_plain, if_pos hclose, if_neg hdepth]
      · exact hstep (.inl rfl) h fun closer _ tail => by
          rw [read_plain, if_neg hclose, if_pos hopen]
      · exact hstep (.inr (.inl rfl)) h fun closer hcloser tail => by
          rw [read_plain, if_neg hclose, if_neg hopen, if_pos (.inl hquote), hquote, hcloser]
      · refine ⟨[c], text, depth, rfl, (Option.some.inj h).symm, fun closer _ tail => ?_⟩
        rw [singleton_append, read_plain, if_neg hclose, if_neg hopen,
          if_pos (.inr hapostrophe), hapostrophe, Option.some.inj h]
      · exact hstep (.inl rfl) h fun closer _ tail => by
          rw [read_plain, if_neg hclose, if_neg hopen, if_neg (not_or.mpr ⟨hquote, hapostrophe⟩)]
    · rw [meetsApostrophe] at h
      split_ifs at h with hclosing hescape
      · exact hstep (.inl rfl) h fun closer _ tail => by rw [read, if_pos hclosing]
      · exact hstep (.inr (.inr rfl)) h fun closer _ tail => by
          rw [read, if_neg hclosing, if_pos hescape]
      · exact hstep (.inr (.inl rfl)) h fun closer _ tail => by
          rw [read, if_neg hclosing, if_neg hescape]
    · rw [meetsApostrophe] at h
      exact hstep (.inr (.inl rfl)) h fun closer _ tail => by rw [read]

theorem read_replicate (closer : Char → Char) (pos depth : Nat) :
    read closer (List.replicate (depth + 1) ')') pos depth .plain = some (pos + depth + 1) := by
  induction depth generalizing pos with
  | zero => rfl
  | succ depth ih =>
    rw [replicate_succ, read_plain, if_pos rfl, if_neg (Nat.succ_ne_zero depth),
      Nat.add_sub_cancel, ih]
    congr 1
    omega

/-- Behind such an apostrophe the function can be wrong. -/
theorem exists_not_finds (h : meetsApostrophe text 0 0 .plain = some k) :
    ∃ tail, ¬ Finds (text.take k ++ tail) := by
  obtain ⟨pre, rest, d, rfl, hk, hread⟩ := exists_read_apostrophe (.inl rfl) h
  rw [Nat.zero_add] at hk
  subst hk
  have hcode : readsAs (pre ++ '\'' :: List.replicate (d + 1) ')') 0 0 .plain = none := by
    rw [readsAs, hread _ rfl]
    exact (read_quoted_absent (by simp [mem_replicate])).1
  have hright : read id (pre ++ '\'' :: List.replicate (d + 1) ')') 0 0 .plain =
      some (pre.length + 1 + d + 1) := by
    rw [hread id rfl, id, read, if_pos rfl, read_replicate]
  refine ⟨'\'' :: List.replicate (d + 1) ')', ?_⟩
  rw [take_left, finds_iff, hcode, hright]
  simp

end Apostrophe

/-- The function ends on every string. It does what it is to do if no apostrophe opens a quoted part
before the closing parenthesis, and where one does there is a string with the same beginning on
which the function is wrong. -/
theorem findEndParenthesis_finds (str : List Char) :
    (∃ x, EndsAs (fun fuel => findEndParenthesis fuel str) x ∧
      ((∃ n, x = .ok n) ∨ ∃ e, x = .raise e)) ∧
    (meetsApostrophe str 0 0 .plain = none → Finds str) ∧
    ∀ k, meetsApostrophe str 0 0 .plain = some k → ∃ tail, ¬ Finds (str.take k ++ tail) := by
  refine ⟨?_, fun h => finds_iff.mpr (readsAs_eq_read (.inl rfl) h), fun k => exists_not_finds⟩
  obtain ⟨x, hx, hanswers⟩ := findFrom_ends [] str 0
  refine ⟨x, hx, ?_⟩
  cases hread : readsAs str [].length 0 .plain with
  | some n =>
    rw [hread] at hanswers
    exact .inl ⟨n, hanswers⟩
  | none =>
    rw [hread] at hanswers
    exact .inr hanswers

/-- A part in apostrophes and the closing parenthesis. -/
theorem not_finds_apostrophes : ¬ Finds ['\'', 'a', '\'', ')'] := by
  rw [finds_iff]
  decide

end EndParenthesis

end Drt
