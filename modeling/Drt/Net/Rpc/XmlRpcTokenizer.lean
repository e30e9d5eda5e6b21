import Drt.Net.Rpc.XmlRpcDecoding
import Drt.Net.Rpc.XmlRpcMarkup

/-!
# The tokenizer of XML-RPC

From any place in the buffer `moveToNextElement` gives the tag that comes next, behind the
comments, or raises an exception; only at a "<!" that is cut off it reads beyond the end.
-/

open List

namespace Drt

namespace XmlRpcDecoder

/-- The tag that comes next. -/
def markup (d : XmlRpcDecoder) : XmlMarkup :=
  match d.empty_el with
  | some start => XmlMarkup.emptyTag (d.content.drop start)
  | none => XmlMarkup.element (d.theEnd + 1) d.ahead

/-- The decoder with `pos` and `empty_el` in front of some of the last octets. -/
def behind (d : XmlRpcDecoder) (emptyName : Option Blob) (l : Blob) : XmlRpcDecoder :=
  { d with pos := d.theEnd - l.length, empty_el := emptyName.map (d.theEnd - ·.length) }

/-- `pos` is not beyond the end, nor is the name of an empty tag. -/
def Inside (d : XmlRpcDecoder) : Prop := d.pos ≤ d.theEnd ∧ ∀ start ∈ d.empty_el, start ≤ d.theEnd

/-- The same for a decoder of some buffer. -/
def Within (content : Blob) (d : XmlRpcDecoder) : Prop := d.content = content ∧ d.Inside

variable {d : XmlRpcDecoder} {m : Option Blob} {l l' : Blob} {c : UInt8}

theorem inside_behind (d : XmlRpcDecoder) (m : Option Blob) (l : Blob) :
    (d.behind m l).Inside := by
  refine ⟨Nat.sub_le _ _, ?_⟩
  intro start hstart
  obtain ⟨name, -, rfl⟩ := Option.map_eq_some_iff.mp hstart
  exact Nat.sub_le _ _

theorem within_behind (d : XmlRpcDecoder) (m : Option Blob) (l : Blob) :
    (d.behind m l).Within d.content :=
  ⟨rfl, inside_behind d m l⟩

theorem behind_ahead (hin : d.Inside) (hempty : d.empty_el = none) :
    d.behind none d.ahead = d := by
  obtain ⟨content, pos, empty_el⟩ := d
  cases hempty
  have hpos : pos ≤ content.length := hin.1
  unfold behind ahead theEnd
  simp only [length_drop, Option.map_none, mk.injEq, true_and, and_true]
  omega

theorem ahead_behind (hl : l <:+ d.content) : (d.behind m l).ahead = l :=
  (suffix_iff_eq_drop.mp hl).symm

theorem skip_behind (hl : l <:+ d.content) {n : Nat} (hn : n ≤ l.length) :
    (d.behind m l).skip n = d.behind m (l.drop n) := by
  have hle := hl.length_le
  unfold skip behind theEnd
  simp only [length_drop, mk.injEq, true_and, and_true]
  omega

end XmlRpcDecoder

namespace XmlDecoding

open Keeping XmlRpcDecoder XmlMarkup

variable {d : XmlRpcDecoder} {m : Option Blob} {l l' : Blob} {c : UInt8}

theorem peek_behind (hl : c :: l <:+ d.content) :
    peek (d.behind m (c :: l)) = (.ok c, d.behind m (c :: l)) := by
  have hahead := ahead_behind (m := m) hl
  have hget : (d.behind m (c :: l)).content[(d.behind m (c :: l)).pos]? = some c := by
    have h0 := congrArg (fun l => l[0]?) hahead
    simpa [ahead] using h0
  unfold peek lift XmlRpcDecoder.peek
  dsimp only
  rw [hget]
  rfl

theorem skip_eq (hl : l <:+ d.content) {n : Nat} (hn : n ≤ l.length) :
    skip n (d.behind m l) = (.ok (), d.behind m (l.drop n)) := by
  unfold skip modify
  dsimp only
  rw [skip_behind hl hn]

theorem skip_one (hl : c :: l <:+ d.content) :
    skip 1 (d.behind m (c :: l)) = (.ok (), d.behind m l) :=
  skip_eq hl (Nat.succ_le_succ (Nat.zero_le _))

/-- A loop that passes characters comes to the first other one, or to the end. -/
theorem skipWhile_eq (p : UInt8 → Bool) (value_name : String) (hl : l <:+ d.content) :
    skipWhile p value_name (d.behind m l) =
      if l.dropWhile p = [] then
        (.raise (.endOfDataException "char" value_name), d.behind m [])
      else (.ok (), d.behind m (l.dropWhile p)) := by
  have hdrop : l.drop (l.takeWhile p).length = l.dropWhile p :=
    calc
      l.drop (l.takeWhile p).length =
          (l.takeWhile p ++ l.dropWhile p).drop (l.takeWhile p).length := by
        rw [takeWhile_append_dropWhile]
      _ = l.dropWhile p := drop_left
  have hpos : ¬ (d.behind m l).pos > (d.behind m l).theEnd := Nat.not_lt.mpr (Nat.sub_le _ _)
  have hlength : (l.takeWhile p).length ≤ l.length := (List.takeWhile_prefix p).length_le
  unfold skipWhile
  rw [if_neg hpos, ahead_behind hl, skip_behind hl hlength, hdrop]
  dsimp only
  have hsuffix := ((dropWhile_suffix p).trans hl).length_le
  by_cases hnil : l.dropWhile p = []
  · rw [if_pos hnil, hnil]
    exact if_pos rfl
  · rw [if_neg hnil]
    have hne := length_pos_iff.mpr hnil
    refine if_neg fun hend => ?_
    change d.content.length - (l.dropWhile p).length = d.content.length at hend
    omega

section

variable (hl : l <:+ d.content)
include hl

theorem skipBlanks_nil (h : afterBlanks l = []) :
    skipBlanks (d.behind m l) =
      (.raise (.endOfDataException "char" "element"), d.behind m []) :=
  (skipWhile_eq isspace "element" hl).trans (if_pos h)

theorem skipBlanks_cons (h : afterBlanks l = c :: l') :
    skipBlanks (d.behind m l) = (.ok (), d.behind m (c :: l')) := by
  have hskip := skipWhile_eq isspace "element" (m := m) hl
  unfold afterBlanks at h
  rw [h, if_neg (cons_ne_nil c l')] at hskip
  exact hskip

theorem takeName_nil (h : afterName l = []) :
    ∃ e, takeName (d.behind m l) = (.raise e, d.behind m []) := by
  have hget : get (d.behind m l) = (.ok (d.behind m l), d.behind m l) := rfl
  have hname := skipWhile_eq isNameChar "element name" (m := m) hl
  unfold takeName
  rw [bind_ok hget]
  by_cases hnil : l.dropWhile isNameChar = []
  · rw [if_pos hnil] at hname
    exact ⟨_, bind_raise hname⟩
  · rw [if_neg hnil] at hname
    rw [bind_ok hname]
    exact ⟨_, bind_raise (skipBlanks_nil ((dropWhile_suffix _).trans hl) h)⟩

theorem takeName_cons (h : afterName l = c :: l') :
    takeName (d.behind m l) = (.ok (l.takeWhile isNameChar), d.behind m (c :: l')) := by
  have hget : get (d.behind m l) = (.ok (d.behind m l), d.behind m l) := rfl
  have hname := skipWhile_eq isNameChar "element name" (m := m) hl
  have hne : l.dropWhile isNameChar ≠ [] := by
    intro hnil
    unfold afterName at h
    rw [hnil] at h
    cases h
  rw [if_neg hne] at hname
  unfold takeName
  rw [bind_ok hget, bind_ok hname,
    bind_ok (skipBlanks_cons ((dropWhile_suffix _).trans hl) h), ahead_behind hl]
  rfl

end

theorem takeEnd_eq (chr : UInt8) (value : String) (hl : c :: l <:+ d.content) :
    takeEnd chr value (d.behind m (c :: l)) =
      if c = chr then (.ok (), d.behind m l)
      else (.raise (.invalidFormatException "end tag" value), d.behind m (c :: l)) := by
  unfold takeEnd
  rw [bind_ok (peek_behind hl)]
  by_cases hc : c = chr
  · rw [if_pos hc, if_neg (not_not_intro hc)]
    exact skip_one hl
  · rw [if_neg hc, if_pos hc]
    rfl

/-- What the markup in front of a text says about the code that takes it. -/
def Gives (d : XmlRpcDecoder) : XmlMarkup → Outcome Exception XmlRpcElement × XmlRpcDecoder → Prop
  | cut, r => r.1 = .fault
  | nothing, r => ∃ e, r.1 = .raise e ∧ r.2.Within d.content
  | comment _, _ => False
  | tag el emptyName l, r => r = (.ok el, d.behind emptyName l)

theorem gives_raise {α : Type} {x : XmlDecoding α} {k : α → XmlDecoding XmlRpcElement}
    {e : Exception} {d' d'' : XmlRpcDecoder} (h : x d' = (.raise e, d'')) (hin : d''.Within d.content) :
    Gives d nothing ((x >>= k) d') := by
  rw [bind_raise h]
  exact ⟨e, rfl, hin⟩

variable {k : Unit → XmlDecoding XmlRpcElement} {f : Blob → XmlMarkup}

variable {chr : UInt8} {value : String}

theorem gives_takeEnd (hl : c :: l <:+ d.content) (hf : Gives d (f l) (k () (d.behind m l))) :
    Gives d (behindOctet chr f (c :: l)) ((takeEnd chr value >>= k) (d.behind m (c :: l))) := by
  have htake := takeEnd_eq (m := m) chr value hl
  by_cases hc : c = chr
  · have hmarkup : behindOctet chr f (c :: l) = f l := if_pos hc
    rw [if_pos hc] at htake
    rw [hmarkup, bind_ok htake]
    exact hf
  · have hmarkup : behindOctet chr f (c :: l) = nothing := if_neg hc
    rw [if_neg hc] at htake
    rw [hmarkup]
    exact gives_raise htake (within_behind d m _)

theorem gives_skipBlanks_takeEnd (hl : l <:+ d.content)
    (hf : ∀ l', l' <:+ d.content → Gives d (f l') (k () (d.behind m l'))) :
    Gives d (behindOctet chr f (afterBlanks l))
      ((skipBlanks >>= fun _ => takeEnd chr value >>= k) (d.behind m l)) := by
  cases hafter : afterBlanks l with
  | nil => exact gives_raise (skipBlanks_nil hl hafter) (within_behind d _ _)
  | cons c l' =>
    have hl' : c :: l' <:+ d.content := hafter ▸ (afterBlanks_suffix l).trans hl
    rw [bind_ok (skipBlanks_cons hl hafter)]
    exact gives_takeEnd hl' (hf l' ((suffix_cons c l').trans hl'))

/-- An octet that is required behind a name. -/
theorem gives_takeName_takeEnd {k : Blob → XmlDecoding XmlRpcElement} (hl : l <:+ d.content)
    (hf : ∀ l', l' <:+ d.content →
      Gives d (f l') (k (l.takeWhile isNameChar) (d.behind m l'))) :
    Gives d (behindOctet chr f (afterName l))
      ((takeName >>= fun name => takeEnd chr value >>= fun _ => k name) (d.behind m l)) := by
  cases hafter : afterName l with
  | nil =>
    obtain ⟨e, hname⟩ := takeName_nil (m := m) hl hafter
    exact gives_raise hname (within_behind d _ _)
  | cons c l' =>
    have hl' : c :: l' <:+ d.content := hafter ▸ (afterName_suffix l).trans hl
    rw [bind_ok (takeName_cons hl hafter)]
    exact gives_takeEnd hl' (hf l' ((suffix_cons c l').trans hl'))

theorem gives_endElement (hl : l <:+ d.content) :
    Gives d (endTag l) (endElement (d.behind none l)) := by
  unfold endTag endElement
  cases hafter : afterBlanks l with
  | nil => exact gives_raise (skipBlanks_nil hl hafter) (within_behind d _ _)
  | cons c l' =>
    have hl' : c :: l' <:+ d.content := hafter ▸ (afterBlanks_suffix l).trans hl
    rw [bind_ok (skipBlanks_cons hl hafter)]
    exact gives_takeName_takeEnd hl' fun _ _ => rfl

theorem gives_emptyElement {start : Nat} (hstart : start ≤ d.theEnd) :
    Gives d (emptyTag (d.content.drop start)) (emptyElement start d) := by
  have hset : modify (fun d => { d with pos := start, empty_el := none }) d =
      (.ok (), d.behind none (d.content.drop start)) := by
    have hpos : d.theEnd - (d.content.drop start).length = start := by
      unfold theEnd at hstart ⊢
      rw [length_drop]
      omega
    unfold behind modify
    rw [hpos]
    rfl
  have hl : d.content.drop start <:+ d.content := drop_suffix _ _
  unfold emptyTag emptyElement
  rw [bind_ok hset]
  exact gives_takeName_takeEnd hl fun l' hl' =>
    gives_skipBlanks_takeEnd hl' fun _ _ => rfl

theorem gives_startElement (hl : l <:+ d.content) :
    Gives d (startTag l) (startElement (d.behind none l)) := by
  have hget : get (d.behind none l) = (.ok (d.behind none l), d.behind none l) := rfl
  unfold startTag startElement
  rw [bind_ok hget]
  cases hafter : afterName l with
  | nil =>
    obtain ⟨e, hname⟩ := takeName_nil (m := none) hl hafter
    exact gives_raise hname (within_behind d _ _)
  | cons c l' =>
    have hl' : c :: l' <:+ d.content := hafter ▸ (afterName_suffix l).trans hl
    have hpeek := peek_behind (m := none) hl'
    rw [bind_ok (takeName_cons hl hafter)]
    dsimp only
    by_cases hc : c = 47
    · -- the name stays for the end tag
      have hset : modify (fun d' => { d' with empty_el := some (d.behind none l).pos })
          (d.behind none (c :: l')) = (.ok (), d.behind (some l) (c :: l')) := rfl
      have hskip := skip_one (m := some l) hl'
      have hl'' : l' <:+ d.content := (suffix_cons c l').trans hl'
      have hslash : skipSlash (d.behind none l).pos (d.behind none (c :: l')) =
          skipBlanks (d.behind (some l) l') := by
        unfold skipSlash
        rw [bind_ok hpeek, if_pos hc, bind_ok hset, bind_ok hskip]
      rw [if_pos hc, bind_congr_at hslash]
      exact gives_skipBlanks_takeEnd hl'' fun _ _ => rfl
    · have hslash : skipSlash (d.behind none l).pos (d.behind none (c :: l')) =
          (.ok (), d.behind none (c :: l')) := by
        unfold skipSlash
        rw [bind_ok hpeek, if_neg hc]
        rfl
      rw [if_neg hc, bind_ok hslash]
      exact gives_takeEnd hl' rfl

theorem memcmp_short {octets : Blob} (hl : l <:+ d.content) (h : l.length < octets.length) :
    memcmp octets (d.behind m l) = (.fault, d.behind m l) := by
  have hle := hl.length_le
  have hend : (d.behind m l).pos + octets.length > (d.behind m l).theEnd := by
    change d.content.length - l.length + octets.length > d.content.length
    omega
  unfold memcmp lift XmlRpcDecoder.memcmp
  dsimp only
  rw [if_pos hend]
  rfl

theorem memcmp_long {octets : Blob} (hl : l <:+ d.content) (h : octets.length ≤ l.length) :
    memcmp octets (d.behind m l) = (.ok (l.take octets.length = octets), d.behind m l) := by
  have hle := hl.length_le
  have hend : ¬ (d.behind m l).pos + octets.length > (d.behind m l).theEnd := by
    change ¬ d.content.length - l.length + octets.length > d.content.length
    omega
  unfold memcmp lift XmlRpcDecoder.memcmp
  dsimp only
  rw [if_neg hend, ahead_behind hl]
  rfl

/-- The comparison with the two octets behind "!". -/
theorem skipComment_eq (hl : c :: l <:+ d.content) (h : ¬ l.length < 2) :
    skipComment (d.behind m (c :: l)) =
      if l.take 2 = ascii "--" then skipToCommentEnd (d.behind m (l.drop 2))
      else (.raise (.invalidFormatException "comment" "--"), d.behind m l) := by
  have hl' : l <:+ d.content := (suffix_cons c l).trans hl
  have hcmp : memcmp (ascii "--") (d.behind m l) =
      (.ok (decide (l.take 2 = ascii "--")), d.behind m l) :=
    memcmp_long hl' (Nat.le_of_not_lt h)
  unfold skipComment
  rw [bind_ok (skip_one hl), bind_ok hcmp]
  by_cases hstart : l.take 2 = ascii "--"
  · rw [if_pos (decide_eq_true hstart), if_pos hstart,
      bind_ok (skip_eq hl' (Nat.le_of_not_lt h))]
  · rw [if_neg (by simpa using hstart), if_neg hstart]
    rfl

theorem skipComment_cut (hl : c :: l <:+ d.content) (h : l.length < 2) :
    (skipComment (d.behind m (c :: l))).1 = .fault := by
  have hcmp : memcmp (ascii "--") (d.behind m l) = (.fault, d.behind m l) :=
    memcmp_short ((suffix_cons c l).trans hl) h
  unfold skipComment
  rw [bind_ok (skip_one hl), bind_fault hcmp]

/-- The end of a comment is looked for. -/
theorem gives_skipToCommentEnd {l₀ : Blob} (hl : l <:+ d.content) (hle : l.length ≤ l₀.length)
    (hf : ∀ l', l' <:+ d.content → l'.length ≤ l₀.length → Gives d (f l') (k () (d.behind m l'))) :
    Gives d ((commentText l).past f) ((skipToCommentEnd >>= k) (d.behind m l)) := by
  have hahead := ahead_behind (m := m) hl
  unfold commentText
  cases hend : commentEnd l with
  | some n =>
    have hskip : skipToCommentEnd (d.behind m l) = (.ok (), d.behind m (l.drop (n + 3))) := by
      unfold skipToCommentEnd
      rw [hahead, hend, ← skip_behind hl (le_of_commentEnd hend)]
    rw [bind_ok hskip]
    refine hf _ ((drop_suffix _ _).trans hl) ?_
    rw [length_drop]
    omega
  | none =>
    obtain ⟨d', hskip, hin⟩ : ∃ d', skipToCommentEnd (d.behind m l) =
        (.raise (.endOfDataException "char" "element"), d') ∧ d'.Within d.content := by
      refine ⟨{ d.behind m l with pos := max (d.behind m l).pos (d.theEnd - 2) }, ?_, ?_⟩
      · unfold skipToCommentEnd
        rw [hahead, hend]
        rfl
      · exact ⟨rfl, max_le (inside_behind d m l).1 (Nat.sub_le _ _), (inside_behind d m l).2⟩
    exact gives_raise hskip hin

/-- A comment leads on behind it. -/
theorem gives_skipComment (hl : c :: l <:+ d.content)
    (hf : ∀ l', l' <:+ d.content → l'.length ≤ l.length → Gives d (f l') (k () (d.behind m l'))) :
    Gives d ((commentMark l).past f) ((skipComment >>= k) (d.behind m (c :: l))) := by
  have hl' : l <:+ d.content := (suffix_cons c l).trans hl
  unfold commentMark
  by_cases hshort : l.length < 2
  · have hcut := skipComment_cut (m := m) hl hshort
    rw [if_pos hshort]
    change ((skipComment >>= k) (d.behind m (c :: l))).1 = .fault
    rw [bind_fault (Prod.ext hcut rfl)]
  · have hcomment := skipComment_eq (m := m) hl hshort
    rw [if_neg hshort]
    by_cases hstart : l.take 2 = ascii "--"
    · rw [if_pos hstart] at hcomment ⊢
      rw [bind_congr_at hcomment]
      refine gives_skipToCommentEnd ((drop_suffix _ _).trans hl') ?_ hf
      rw [length_drop]
      omega
    · rw [if_neg hstart] at hcomment ⊢
      exact gives_raise hcomment (within_behind d m l)

/-- What is in front of a text is taken, up to a tag. -/
theorem gives_nextElement (fuel : Nat) (hl : l <:+ d.content) (hfuel : l.length < fuel) :
    Gives d (element fuel l) (nextElement fuel (d.behind none l)) := by
  induction fuel generalizing l with
  | zero => omega
  | succ fuel ih =>
    unfold element first nextElement
    cases hafter : afterBlanks l with
    | nil => exact gives_raise (skipBlanks_nil hl hafter) (within_behind d _ _)
    | cons c l₁ =>
      have hl₁ : c :: l₁ <:+ d.content := hafter ▸ (afterBlanks_suffix l).trans hl
      have hle₁ : (c :: l₁).length ≤ l.length := hafter ▸ (afterBlanks_suffix l).length_le
      rw [bind_ok (skipBlanks_cons hl hafter), bind_ok (peek_behind hl₁)]
      unfold behindOctet
      dsimp only
      by_cases hopen : c = 60
      · rw [if_pos hopen, if_pos hopen, bind_ok (skip_one hl₁)]
        have hl₁' : l₁ <:+ d.content := (suffix_cons c l₁).trans hl₁
        cases hafter₁ : afterBlanks l₁ with
        | nil => exact gives_raise (skipBlanks_nil hl₁' hafter₁) (within_behind d _ _)
        | cons c' l₂ =>
          have hl₂ : c' :: l₂ <:+ d.content := hafter₁ ▸ (afterBlanks_suffix l₁).trans hl₁'
          have hle₂ : (c' :: l₂).length ≤ l₁.length := hafter₁ ▸ (afterBlanks_suffix l₁).length_le
          have hl₂' : l₂ <:+ d.content := (suffix_cons c' l₂).trans hl₂
          rw [bind_ok (skipBlanks_cons hl₁' hafter₁), bind_ok (peek_behind hl₂)]
          dsimp only
          by_cases hslash : c' = 47
          · rw [if_pos hslash, if_pos hslash, bind_ok (skip_one hl₂)]
            rw [past_endTag]
            exact gives_endElement hl₂'
          · rw [if_neg hslash, if_neg hslash]
            by_cases hbang : c' = 33
            · rw [if_pos hbang, if_pos hbang]
              refine gives_skipComment hl₂ fun l' hl' hle' => ih hl' ?_
              simp only [length_cons] at hle₁ hle₂
              omega
            · rw [if_neg hbang, if_neg hbang, past_startTag]
              exact gives_startElement hl₂
      · rw [if_neg hopen, if_neg hopen]
        exact ⟨_, rfl, within_behind d _ _⟩

/-- What comes next is taken, up to a tag. -/
theorem gives_moveToNextElement (hin : d.Inside) : Gives d d.markup (moveToNextElement d) := by
  have hget : get d = (.ok d, d) := rfl
  unfold markup moveToNextElement
  rw [bind_ok hget]
  cases hempty : d.empty_el with
  | some start => exact gives_emptyElement (hin.2 start hempty)
  | none =>
    have hlength : d.ahead.length < d.theEnd + 1 := by
      unfold ahead theEnd
      rw [length_drop]
      omega
    have hgives := gives_nextElement (d.theEnd + 1) (drop_suffix d.pos d.content) hlength
    change Gives d _ (nextElement _ (d.behind none d.ahead)) at hgives
    rw [behind_ahead hin hempty] at hgives
    exact hgives

/-- It reads beyond the end, raises an exception inside, or has the next tag for a result. -/
theorem moveToNextElement_call (hin : d.Inside) :
    (d.markup = cut ∧ (moveToNextElement d).1 = .fault) ∨
      (d.markup = nothing ∧ ∃ e d', moveToNextElement d = (.raise e, d') ∧ d'.Within d.content) ∨
      ∃ el em l, d.markup = tag el em l ∧ moveToNextElement d = (.ok el, d.behind em l) := by
  have hgives := gives_moveToNextElement hin
  cases hmarkup : d.markup with
  | cut =>
    rw [hmarkup] at hgives
    exact .inl ⟨rfl, hgives⟩
  | nothing =>
    rw [hmarkup] at hgives
    obtain ⟨e, hraise, hafter⟩ := hgives
    exact .inr (.inl ⟨rfl, e, _, Prod.ext hraise rfl, hafter⟩)
  | comment l =>
    rw [hmarkup] at hgives
    exact hgives.elim
  | tag el em l =>
    rw [hmarkup] at hgives
    exact .inr (.inr ⟨el, em, l, rfl, hgives⟩)

/-- A result of `moveToNextElement` is the tag that comes next. -/
theorem tag_of_moveToNextElement {d' : XmlRpcDecoder} {el : XmlRpcElement}
    (hin : d.Inside) (h : moveToNextElement d = (.ok el, d')) :
    ∃ em l, d.markup = tag el em l ∧ d' = d.behind em l := by
  obtain ⟨-, hfault⟩ | ⟨-, e, d₁, hraise, -⟩ | ⟨el', em, l, hmarkup, hok⟩ :=
    moveToNextElement_call hin
  · rw [h] at hfault
    cases hfault
  · rw [h] at hraise
    cases hraise
  · rw [h] at hok
    cases hok
    exact ⟨em, l, hmarkup, rfl⟩

end XmlDecoding

namespace XmlRpcDecoder

/-- Behind a start tag there is less ahead. -/
theorem ahead_lt_of_start {d : XmlRpcDecoder} {el : XmlRpcElement} {m : Option Blob} {l : Blob}
    (h : d.markup = .tag el m l) (hstart : el.isEnd = false) :
    (d.behind m l).ahead.length < d.ahead.length := by
  unfold markup at h
  cases hempty : d.empty_el with
  | some start =>
    rw [hempty] at h
    have hend := XmlMarkup.isEnd_of_emptyTag h
    rw [hstart] at hend
    cases hend
  | none =>
    rw [hempty] at h
    have hshorter := XmlMarkup.shorter_element (d.theEnd + 1) d.ahead
    dsimp only at h
    rw [h] at hshorter
    have hlt : l.length < d.ahead.length := hshorter
    refine Nat.lt_of_le_of_lt ?_ hlt
    change (d.content.drop (d.content.length - l.length)).length ≤ l.length
    rw [length_drop]
    omega

end XmlRpcDecoder

end Drt
