import Drt.Net.Rpc.XmlRpcDecoder

/-!
# The markup in front of a text

What the tags and comments of XML-RPC look like, as functions of the text alone: what is in
front of a text is a comment, a tag, nothing of the kind, or the start of a comment that the
text ends in.
-/

namespace Drt

/-- What is in front of a text. -/
inductive XmlMarkup where
  /-- "<!" with less than two octets behind it. -/
  | cut
  | nothing
  | comment (behind : Blob)
  /-- A tag, the text from its name on if it is an empty one, and the text behind it. -/
  | tag (el : XmlRpcElement) (emptyName : Option Blob) (behind : Blob)
  deriving DecidableEq, Repr

namespace XmlMarkup

open XmlRpcDecoder

/-- A text behind its blanks. -/
def afterBlanks (l : Blob) : Blob := l.dropWhile isspace

/-- A text behind a name and its blanks. -/
def afterName (l : Blob) : Blob := afterBlanks (l.dropWhile isNameChar)

/-- What comes behind an octet. -/
def behindOctet (chr : UInt8) (f : Blob → XmlMarkup) : Blob → XmlMarkup
  | [] => nothing
  | c :: l => if c = chr then f l else nothing

/-- An end tag from behind its "/" on. -/
def endTag (l : Blob) : XmlMarkup :=
  behindOctet 62 (tag ⟨true, (afterBlanks l).takeWhile isNameChar⟩ none)
    (afterName (afterBlanks l))

/-- A start tag from its name on. -/
def startTag (l : Blob) : XmlMarkup :=
  match afterName l with
  | [] => nothing
  | c :: l' =>
    if c = 47 then behindOctet 62 (tag ⟨false, l.takeWhile isNameChar⟩ (some l)) (afterBlanks l')
    else behindOctet 62 (tag ⟨false, l.takeWhile isNameChar⟩ none) (c :: l')

/-- The end tag that an empty tag stands for, from its name on. -/
def emptyTag (l : Blob) : XmlMarkup :=
  behindOctet 47 (fun l' =>
    behindOctet 62 (tag ⟨true, l.takeWhile isNameChar⟩ none) (afterBlanks l')) (afterName l)

/-- The text of a comment, up to the end of it. -/
def commentText (l : Blob) : XmlMarkup :=
  match commentEnd l with
  | some n => comment (l.drop (n + 3))
  | none => nothing

/-- A comment from behind its "!" on. -/
def commentMark (l : Blob) : XmlMarkup :=
  if l.length < 2 then cut
  else if l.take 2 = ascii "--" then commentText (l.drop 2)
  else nothing

/-- What is in front of a text, behind the blanks. -/
def first (l : Blob) : XmlMarkup :=
  behindOctet 60 (fun l =>
    match afterBlanks l with
    | [] => nothing
    | c :: l' => if c = 47 then endTag l' else if c = 33 then commentMark l' else startTag (c :: l'))
    (afterBlanks l)

/-- Behind a comment there may be something. -/
def past (f : Blob → XmlMarkup) : XmlMarkup → XmlMarkup
  | comment behind => f behind
  | m => m

/-- What is in front of a text, behind the comments. -/
def element : Nat → Blob → XmlMarkup
  | 0, _ => nothing
  | fuel + 1, l => (first l).past (element fuel)

theorem afterBlanks_suffix (l : Blob) : afterBlanks l <:+ l := List.dropWhile_suffix _

theorem afterName_suffix (l : Blob) : afterName l <:+ l :=
  (afterBlanks_suffix _).trans (List.dropWhile_suffix _)

variable {l l' : Blob} {el : XmlRpcElement} {emptyName : Option Blob}

theorem le_of_commentEnd {n : Nat} (h : commentEnd l = some n) : n + 3 ≤ l.length := by
  fun_induction commentEnd l generalizing n with
  | case1 a b c rest hend =>
    cases h
    simp only [List.length_cons]
    omega
  | case2 a b c rest hend ih =>
    obtain ⟨k, hk, rfl⟩ := Option.map_eq_some_iff.mp h
    have hle := ih hk
    simp only [List.length_cons] at hle ⊢
    omega
  | case3 => cases h

/-- What is behind the markup has less than `n` octets. -/
def Shorter (n : Nat) : XmlMarkup → Prop
  | cut | nothing => True
  | comment behind | tag _ _ behind => behind.length < n

theorem Shorter.mono {n k : Nat} {m : XmlMarkup} (h : m.Shorter n) (hle : n ≤ k) :
    m.Shorter k := by
  cases m with
  | cut | nothing => trivial
  | comment l | tag _ _ l => exact Nat.lt_of_lt_of_le h hle

theorem shorter_behindOctet {chr : UInt8} {f : Blob → XmlMarkup} (l : Blob)
    (hf : ∀ l', (f l').Shorter (l'.length + 1)) : (behindOctet chr f l).Shorter l.length := by
  cases l with
  | nil => trivial
  | cons c l =>
    unfold behindOctet
    dsimp only
    split
    · exact hf l
    · trivial

theorem shorter_close (el : XmlRpcElement) (emptyName : Option Blob) (l : Blob) :
    (behindOctet 62 (tag el emptyName) l).Shorter l.length :=
  shorter_behindOctet l fun l' => Nat.lt_succ_self l'.length

theorem shorter_endTag (l : Blob) : (endTag l).Shorter l.length :=
  (shorter_close _ _ _).mono ((afterName_suffix _).trans (afterBlanks_suffix l)).length_le

theorem shorter_startTag (l : Blob) : (startTag l).Shorter l.length := by
  have hname := (afterName_suffix l).length_le
  unfold startTag
  cases hafter : afterName l with
  | nil => trivial
  | cons c l' =>
    rw [hafter] at hname
    dsimp only
    split
    · have hblanks := (afterBlanks_suffix l').length_le
      rw [List.length_cons] at hname
      exact (shorter_close _ _ _).mono (by omega)
    · exact (shorter_close _ _ _).mono hname

theorem shorter_commentMark (l : Blob) : (commentMark l).Shorter l.length := by
  unfold commentMark
  split
  · trivial
  · split
    · unfold commentText
      cases hend : commentEnd (l.drop 2) with
      | none => trivial
      | some n =>
        have hle := le_of_commentEnd hend
        rw [List.length_drop] at hle
        change ((l.drop 2).drop (n + 3)).length < l.length
        rw [List.length_drop, List.length_drop]
        omega
    · trivial

theorem shorter_first (l : Blob) : (first l).Shorter l.length := by
  refine (shorter_behindOctet _ ?_).mono (afterBlanks_suffix l).length_le
  intro l₀
  have hblanks := (afterBlanks_suffix l₀).length_le
  cases hafter : afterBlanks l₀ with
  | nil => trivial
  | cons c l' =>
    rw [hafter, List.length_cons] at hblanks
    dsimp only
    split
    · exact (shorter_endTag l').mono (by omega)
    · split
      · exact (shorter_commentMark l').mono (by omega)
      · exact (shorter_startTag (c :: l')).mono (by rw [List.length_cons]; omega)

theorem shorter_element (fuel : Nat) (l : Blob) : (element fuel l).Shorter l.length := by
  induction fuel generalizing l with
  | zero => trivial
  | succ fuel ih =>
    have hfirst := shorter_first l
    unfold element
    cases hm : first l with
    | comment l' =>
      rw [hm] at hfirst
      exact (ih l').mono (Nat.le_of_lt hfirst)
    | cut | nothing => trivial
    | tag _ _ l' =>
      rw [hm] at hfirst
      exact hfirst

theorem exists_of_behindOctet {chr : UInt8} {f : Blob → XmlMarkup}
    (h : behindOctet chr f l = tag el emptyName l') : ∃ l₀, f l₀ = tag el emptyName l' := by
  cases l with
  | nil => cases h
  | cons c l =>
    unfold behindOctet at h
    dsimp only at h
    split at h
    · exact ⟨l, h⟩
    · cases h

theorem isEnd_of_emptyTag (h : emptyTag l = tag el emptyName l') : el.isEnd = true := by
  obtain ⟨l₁, h₁⟩ := exists_of_behindOctet h
  obtain ⟨l₂, h₂⟩ := exists_of_behindOctet h₁
  cases h₂
  rfl

theorem shorter_emptyTag (l : Blob) : (emptyTag l).Shorter l.length := by
  refine (shorter_behindOctet _ fun l' => ?_).mono (afterName_suffix l).length_le
  exact (shorter_close _ _ _).mono (Nat.le_succ_of_le (afterBlanks_suffix l').length_le)

/-- An end tag is no empty tag. -/
theorem emptyName_of_first (h : first l = tag el emptyName l') (hend : el.isEnd = true) :
    emptyName = none := by
  obtain ⟨l₀, h⟩ := exists_of_behindOctet h
  cases hafter : afterBlanks l₀ with
  | nil =>
    rw [hafter] at h
    cases h
  | cons c l₁ =>
    rw [hafter] at h
    dsimp only at h
    split at h
    · obtain ⟨l₂, h⟩ := exists_of_behindOctet h
      cases h
      rfl
    · split at h
      · unfold commentMark commentText at h
        split at h
        · cases h
        · split at h
          · split at h <;> cases h
          · cases h
      · unfold startTag at h
        split at h
        · cases h
        · split at h
          · obtain ⟨l₂, h⟩ := exists_of_behindOctet h
            cases h
            cases hend
          · obtain ⟨l₂, h⟩ := exists_of_behindOctet h
            cases h
            cases hend

theorem emptyName_of_element {fuel : Nat} (h : element fuel l = tag el emptyName l')
    (hend : el.isEnd = true) : emptyName = none := by
  induction fuel generalizing l with
  | zero => cases h
  | succ fuel ih =>
    unfold element at h
    cases hfirst : first l with
    | comment l₁ =>
      rw [hfirst] at h
      exact ih h
    | cut | nothing =>
      rw [hfirst] at h
      cases h
    | tag =>
      rw [hfirst] at h
      exact emptyName_of_first (hfirst.trans h) hend

theorem past_behindOctet (f : Blob → XmlMarkup) (chr : UInt8) (el : XmlRpcElement)
    (emptyName : Option Blob) (l : Blob) :
    (behindOctet chr (tag el emptyName) l).past f = behindOctet chr (tag el emptyName) l := by
  cases l with
  | nil => rfl
  | cons c l =>
    unfold behindOctet
    dsimp only
    split <;> rfl

theorem past_endTag (f : Blob → XmlMarkup) (l : Blob) : (endTag l).past f = endTag l :=
  past_behindOctet f _ _ _ _

theorem past_startTag (f : Blob → XmlMarkup) (l : Blob) : (startTag l).past f = startTag l := by
  unfold startTag
  cases afterName l with
  | nil => rfl
  | cons c l' =>
    dsimp only
    split <;> exact past_behindOctet f _ _ _ _

end XmlMarkup

end Drt
