import Drt.Net.Rpc.XmlRpcSessions

/-!
# Looking ahead in XML-RPC

Where `XmlRpcDecoder` only looks at the next tag, it takes it and sets `pos` back, but `empty_el`
only in `readCheckType`. Beside each function that looks ahead stands the one that leaves the
decoder as it is. They do the same where no empty tag is looked at, nor the end of one, and
`checkStructNext` comes to no start tag that it passes.
-/

namespace Drt

namespace XmlRpcDecoder

/-- The next tag, if there is one, is as `p` says. -/
def thenTag (d : XmlRpcDecoder) (p : XmlRpcElement → XmlRpcDecoder → Bool) : Bool :=
  match d.markup with
  | .tag el emptyName l => p el (d.behind emptyName l)
  | _ => true

/-- No end of an empty tag is to come. -/
def unmarked (d : XmlRpcDecoder) : Bool := d.empty_el.isNone

/-- The next tag is the end of a parameter, or neither empty nor the end of an empty one. -/
def clearParamEnd (d : XmlRpcDecoder) : Bool := d.thenTag fun el d' =>
  el = ⟨true, ascii "param"⟩ || d.unmarked && d'.unmarked

/-- The same of the tag behind the end of a value. -/
def clearValueEnd (d : XmlRpcDecoder) : Bool := d.thenTag fun el d =>
  !el.isEnd || d.thenTag fun el d => el ≠ ⟨true, ascii "value"⟩ || d.clearParamEnd

/-- The next tag is the end of an array, and what is looked at behind it is clear, or it is neither
empty nor the end of an empty one. -/
def clearArrayNext (d : XmlRpcDecoder) : Bool := d.thenTag fun el d' =>
  if el = ⟨true, ascii "data"⟩ then d'.clearValueEnd else d.unmarked && d'.unmarked

/-- The next tag behind the ends of members is a start tag that is neither empty nor passed for its
six letters, or the end of a struct that was not empty and what is looked at behind it is
clear. -/
def clearMember : Nat → XmlRpcDecoder → Bool
  | 0, _ => true
  | fuel + 1, d => d.thenTag fun el d' =>
    if el.isEnd then
      if el.name = ascii "member" then clearMember fuel d'
      else if el.name = ascii "struct" then d.unmarked && d'.unmarked && d.clearValueEnd
      else true
    else (el.name.length ≠ 6 || el.name = ascii "member") && (d.unmarked && d'.unmarked)

/-- The same for `checkStructNext`. -/
def clearStructNext (d : XmlRpcDecoder) : Bool := clearMember (d.theEnd + 1) d

variable {d : XmlRpcDecoder} {p : XmlRpcElement → XmlRpcDecoder → Bool} {el : XmlRpcElement}
variable {em : Option Blob} {l : Blob}

theorem thenTag_of_markup (h : d.thenTag p = true) (hmarkup : d.markup = .tag el em l) :
    p el (d.behind em l) = true := by
  unfold thenTag at h
  rw [hmarkup] at h
  exact h

/-- Where no empty tag is concerned, `pos` is all there is to be set back. -/
theorem set_back (h : (d.unmarked && (d.behind em l).unmarked) = true) :
    { d.behind em l with pos := d.pos } = d := by
  obtain ⟨hbefore, hbehind⟩ := Bool.and_eq_true_iff.mp h
  have hempty : d.empty_el = none := Option.isNone_iff_eq_none.mp hbefore
  have hempty' : (d.behind em l).empty_el = none := Option.isNone_iff_eq_none.mp hbehind
  calc
    { d.behind em l with pos := d.pos } =
        ({ d with empty_el := (d.behind em l).empty_el } : XmlRpcDecoder) := rfl
    _ = { d with empty_el := d.empty_el } := congrArg _ (hempty'.trans hempty.symm)

end XmlRpcDecoder

namespace XmlLookahead

open Keeping XmlDecoding

/-- `skipParamEnd` that leaves what it does not take. -/
def skipParamEnd : XmlDecoding Unit := do
  let el ← look moveToNextElement
  if el = ⟨true, ascii "param"⟩ then
    let _ ← moveToNextElement
    pure ()
  else pure ()

/-- `skipValueEnd` with it. -/
def skipValueEnd : XmlDecoding Unit := do
  let el ← moveToNextElement
  if el.isEnd then
    moveToNextElementReqEnd "value"
    skipParamEnd
  else throw (.invalidFormatException "xmlrpc" "endvalue")

/-- `checkArrayNext` that leaves everything but the end of the array. -/
def checkArrayNext : XmlDecoding Bool := do
  let el ← look moveToNextElement
  if el = ⟨true, ascii "data"⟩ then
    let _ ← moveToNextElement
    skipValueEnd
    pure false
  else pure true

/-- `checkStructNext` that leaves a start tag, whatever its name; a pass takes the end of a
member. -/
def checkMember : Nat → XmlDecoding Bool
  | 0 => outOfFuel
  | fuel + 1 => do
    let el ← look moveToNextElement
    if el = ⟨true, ascii "struct"⟩ then
      skipValueEnd
      pure false
    else if el.isEnd then
      let el ← moveToNextElement
      if el.name = ascii "member" then checkMember fuel
      else throw (.invalidFormatException "rpc::struct::code" (latin el.name))
    else pure true

/-- `checkStructNext` with it. -/
def checkStructNext : XmlDecoding Bool := do
  let d ← get
  checkMember (d.theEnd + 1)

/-- The tags from the start of a value on that say its type. -/
def valueType : XmlDecoding (Call RpcType) := do
  let _ ← moveToNextElement
  let el ← moveToNextElement
  if el.isEnd then throw (.invalidFormatException "xmlrpc" "value")
  else if el.name = ascii "methodResponse" then
    let el ← moveToNextElement
    if el.isEnd then throw (.invalidFormatException "xmlrpc" "header")
    else pure (.ok (if el.name = ascii "fault" then .rtFaultResponse else .rtMethodResponse))
  else pure (XmlRpcDecoder.typeOfTag el.name)

/-- `readCheckType` that leaves a value; a pass takes a "param" tag. -/
def checkType : Nat → XmlDecoding RpcType
  | 0 => outOfFuel
  | fuel + 1 => do
    let d ← get
    if d.pos ≥ d.theEnd then pure .rtEnd
    else
      let el ← look moveToNextElement
      if el = ⟨false, ascii "value"⟩ then
        let type ← look valueType
        ofOutcome type
      else
        let el ← moveToNextElement
        if el = ⟨false, ascii "param"⟩ then checkType fuel
        else if el = ⟨true, ascii "params"⟩ ∨ el = ⟨true, ascii "fault"⟩ then pure .rtEnd
        else throw (.invalidFormatException "xmlrpc" "value")

/-- `readCheckType` with it. -/
def readCheckType : XmlDecoding RpcType := do
  let d ← get
  checkType (d.theEnd + 1)

variable {d d' : XmlRpcDecoder} {content : Blob} {el : XmlRpcElement}

theorem skipParamEnd_eq (hin : d.Inside) (h : d.clearParamEnd = true) :
    XmlDecoding.skipParamEnd d = skipParamEnd d := by
  have hsave : XmlDecoding.skipParamEnd d = (moveToNextElement >>= fun el =>
      if el = ⟨true, ascii "param"⟩ then pure ()
      else modify fun d' => { d' with pos := d.pos }) d :=
    bind_ok rfl
  rw [hsave]
  unfold skipParamEnd
  rw [look_bind]
  apply bind_congr_ok
  intro el d' hnext
  obtain ⟨em, l, hmarkup, rfl⟩ := tag_of_moveToNextElement hin hnext
  have hclear := XmlRpcDecoder.thenTag_of_markup h hmarkup
  by_cases hparam : el = ⟨true, ascii "param"⟩
  · rw [if_pos hparam, if_pos hparam, bind_ok hnext]
  · rw [if_neg hparam, if_neg hparam]
    rw [decide_eq_false hparam, Bool.false_or] at hclear
    exact congrArg (Prod.mk _) (XmlRpcDecoder.set_back hclear)

theorem skipValueEnd_eq (hin : d.Inside) (h : d.clearValueEnd = true) :
    XmlDecoding.skipValueEnd d = skipValueEnd d := by
  apply bind_congr_ok
  intro el d₁ hnext
  obtain ⟨em, l, hmarkup, rfl⟩ := tag_of_moveToNextElement hin hnext
  have hclear := XmlRpcDecoder.thenTag_of_markup h hmarkup
  by_cases hend : el.isEnd = true
  · rw [if_pos hend, if_pos hend]
    rw [hend, Bool.not_true, Bool.false_or] at hclear
    unfold moveToNextElementReqEnd requireElement
    rw [bind_bind, bind_bind]
    apply bind_congr_ok
    intro el' d₂ hnext'
    obtain ⟨em', l', hmarkup', rfl⟩ :=
      tag_of_moveToNextElement (XmlRpcDecoder.inside_behind d em l) hnext'
    have hclear' := XmlRpcDecoder.thenTag_of_markup hclear hmarkup'
    by_cases hvalue : el' = ⟨true, ascii "value"⟩
    · rw [if_pos hvalue]
      rw [decide_eq_false (not_not_intro hvalue), Bool.false_or] at hclear'
      exact skipParamEnd_eq (XmlRpcDecoder.inside_behind _ em' l') hclear'
    · rw [if_neg hvalue]
      rfl
  · rw [if_neg hend, if_neg hend]

theorem checkArrayNext_eq (hin : d.Inside) (h : d.clearArrayNext = true) :
    XmlDecoding.checkArrayNext d = checkArrayNext d := by
  have hsave : XmlDecoding.checkArrayNext d = (moveToNextElement >>= fun el =>
      if el = ⟨true, ascii "data"⟩ then XmlDecoding.skipValueEnd >>= fun _ => pure false
      else modify (fun d' => { d' with pos := d.pos }) >>= fun _ => pure true) d :=
    bind_ok rfl
  rw [hsave]
  unfold checkArrayNext
  rw [look_bind]
  apply bind_congr_ok
  intro el d' hnext
  obtain ⟨em, l, hmarkup, rfl⟩ := tag_of_moveToNextElement hin hnext
  have hclear := XmlRpcDecoder.thenTag_of_markup h hmarkup
  by_cases hdata : el = ⟨true, ascii "data"⟩
  · rw [if_pos hdata] at hclear
    rw [if_pos hdata, if_pos hdata, bind_ok hnext]
    exact bind_congr_at (skipValueEnd_eq (XmlRpcDecoder.inside_behind d em l) hclear)
  · rw [if_neg hdata] at hclear
    rw [if_neg hdata, if_neg hdata]
    exact congrArg (Prod.mk _) (XmlRpcDecoder.set_back hclear)

/-- A start tag of another name than those that are passed. -/
theorem structStart_eq {save_pos : Nat} (h : el.name.length ≠ 6 ∨ el.name = ascii "member") :
    structStart save_pos el d = (.ok true, { d with pos := save_pos }) := by
  have hpassed : ¬ (el.name.length = 6 ∧ el.name ≠ ascii "member") := by
    rintro ⟨hlength, hmember⟩
    exact h.elim (· hlength) hmember
  have hstruct : el.name ≠ ascii "struct" := by
    intro hstruct
    rw [hstruct] at h
    revert h
    decide
  unfold structStart
  dsimp only
  rw [if_neg hpassed, if_pos hstruct]
  rfl

theorem checkMember_eq {fuel : Nat} (hin : d.Inside) (h : XmlRpcDecoder.clearMember fuel d = true) :
    XmlDecoding.checkMember fuel d = checkMember fuel d := by
  induction fuel generalizing d with
  | zero => rfl
  | succ fuel ih =>
    have hsave : XmlDecoding.checkMember (fuel + 1) d = (moveToNextElement >>= fun el =>
        if el.isEnd then
          if el.name = ascii "member" then XmlDecoding.checkMember fuel
          else if el.name = ascii "struct" then
            modify (fun d' => { d' with pos := d.pos }) >>= fun _ =>
              XmlDecoding.skipValueEnd >>= fun _ => pure false
          else Keeping.throw (.invalidFormatException "rpc::struct::code" (latin el.name))
        else structStart d.pos el) d :=
      bind_ok rfl
    rw [hsave]
    unfold checkMember
    rw [look_bind]
    apply bind_congr_ok
    intro el d' hnext
    obtain ⟨em, l, hmarkup, rfl⟩ := tag_of_moveToNextElement hin hnext
    have hclear := XmlRpcDecoder.thenTag_of_markup h hmarkup
    have hstruct : el = ⟨true, ascii "struct"⟩ ↔ el.isEnd = true ∧ el.name = ascii "struct" := by
      cases el
      simp
    by_cases hend : el.isEnd = true
    · rw [if_pos hend] at hclear ⊢
      by_cases hmember : el.name = ascii "member"
      · have hne : el ≠ ⟨true, ascii "struct"⟩ := by
          intro h
          rw [h] at hmember
          revert hmember
          decide
        rw [if_pos hmember] at hclear ⊢
        rw [if_neg hne, if_pos hend, bind_ok hnext, if_pos hmember]
        exact ih (XmlRpcDecoder.inside_behind d em l) hclear
      · rw [if_neg hmember] at hclear ⊢
        by_cases hname : el.name = ascii "struct"
        · rw [if_pos hname] at hclear ⊢
          obtain ⟨hback, hvalue⟩ := Bool.and_eq_true_iff.mp hclear
          have hset : modify (fun d' => { d' with pos := d.pos }) (d.behind em l) = (.ok (), d) :=
            congrArg (Prod.mk _) (XmlRpcDecoder.set_back hback)
          rw [if_pos (hstruct.mpr ⟨hend, hname⟩), bind_ok hset]
          exact bind_congr_at (skipValueEnd_eq hin hvalue)
        · have hne : el ≠ ⟨true, ascii "struct"⟩ := fun h => hname (hstruct.mp h).2
          rw [if_neg hname, if_neg hne, if_pos hend, bind_ok hnext, if_neg hmember]
    · have hne : el ≠ ⟨true, ascii "struct"⟩ := fun h => hend (hstruct.mp h).1
      rw [if_neg hend] at hclear ⊢
      obtain ⟨hname, hback⟩ := Bool.and_eq_true_iff.mp hclear
      rw [if_neg hne, if_neg hend, structStart_eq (by simpa using hname),
        XmlRpcDecoder.set_back hback]
      rfl

theorem checkStructNext_eq (hin : d.Inside) (h : d.clearStructNext = true) :
    XmlDecoding.checkStructNext d = checkStructNext d :=
  checkMember_eq hin h

theorem unmarked_of_start (hin : d.Inside) (h : moveToNextElement d = (.ok el, d'))
    (hstart : el.isEnd = false) : d.empty_el = none := by
  obtain ⟨em, l, hmarkup, -⟩ := tag_of_moveToNextElement hin h
  cases hempty : d.empty_el with
  | none => rfl
  | some start =>
    unfold XmlRpcDecoder.markup at hmarkup
    rw [hempty] at hmarkup
    have hend := XmlMarkup.isEnd_of_emptyTag hmarkup
    rw [hstart] at hend
    cases hend

/-- A value is only looked at. -/
theorem readType_eq {d₁ : XmlRpcDecoder} (hempty : d.empty_el = none)
    (hnext : moveToNextElement d = (.ok ⟨false, ascii "value"⟩, d₁)) :
    (moveToNextElement >>= fun el =>
      if el.isEnd then Keeping.throw (.invalidFormatException "xmlrpc" "value")
      else if el.name = ascii "methodResponse" then
        moveToNextElement >>= fun el =>
          if el.isEnd then Keeping.throw (.invalidFormatException "xmlrpc" "header")
          else modify (fun _ => { d with empty_el := none }) >>= fun _ =>
            pure (if el.name = ascii "fault" then .rtFaultResponse else .rtMethodResponse)
      else modify (fun _ => { d with empty_el := none }) >>= fun _ =>
        ofOutcome (XmlRpcDecoder.typeOfTag el.name)) d₁ =
      (look valueType >>= fun type => (ofOutcome type : XmlDecoding RpcType)) d := by
  have hsame : ({ d with empty_el := none } : XmlRpcDecoder) = d := by
    obtain ⟨content, pos, empty_el⟩ := d
    cases hempty
    rfl
  rw [hsame, look_bind]
  refine Eq.trans ?_ (congrFun (bind_bind _ _ _) d).symm
  rw [bind_ok hnext]
  refine Eq.trans ?_ (congrFun (bind_bind _ _ _) d₁).symm
  apply bind_congr_ok
  intro el d₂ _
  by_cases hend : el.isEnd = true
  · rw [if_pos hend, if_pos hend]
    rfl
  · rw [if_neg hend, if_neg hend]
    by_cases hresponse : el.name = ascii "methodResponse"
    · rw [if_pos hresponse, if_pos hresponse]
      refine Eq.trans ?_ (congrFun (bind_bind _ _ _) d₂).symm
      apply bind_congr_ok
      intro el d₃ _
      split <;> rfl
    · rw [if_neg hresponse, if_neg hresponse]
      rfl

theorem checkType_eq {fuel : Nat} (hin : d.Inside) :
    XmlDecoding.checkType fuel d = checkType fuel d := by
  induction fuel generalizing d with
  | zero => rfl
  | succ fuel ih =>
    have hget : get d = (.ok d, d) := rfl
    unfold XmlDecoding.checkType checkType
    rw [bind_ok hget, bind_ok hget]
    by_cases hfar : d.pos ≥ d.theEnd
    · rw [if_pos hfar, if_pos hfar]
    · rw [if_neg hfar, if_neg hfar]
      rw [look_bind]
      apply bind_congr_ok
      intro el d' hnext
      obtain ⟨em, l, hmarkup, rfl⟩ := tag_of_moveToNextElement hin hnext
      obtain ⟨isEnd, name⟩ := el
      cases isEnd with
      | true =>
        have hvalue : (⟨true, name⟩ : XmlRpcElement) ≠ ⟨false, ascii "value"⟩ := by simp
        have hparam : (⟨true, name⟩ : XmlRpcElement) ≠ ⟨false, ascii "param"⟩ := by simp
        rw [if_pos rfl, if_neg hvalue, bind_ok hnext, if_neg hparam]
        simp only [XmlRpcElement.mk.injEq, true_and]
      | false =>
        rw [if_neg Bool.false_ne_true]
        by_cases hparam : name = ascii "param"
        · have hne : (⟨false, name⟩ : XmlRpcElement) ≠ ⟨false, ascii "value"⟩ := by
            rw [hparam]
            decide
          rw [if_pos hparam, if_neg hne, bind_ok hnext, if_pos (by rw [hparam])]
          exact ih (XmlRpcDecoder.inside_behind d em l)
        · rw [if_neg hparam]
          by_cases hvalue : name = ascii "value"
          · subst hvalue
            rw [if_pos rfl, if_pos rfl]
            exact readType_eq (unmarked_of_start hin hnext rfl) hnext
          · rw [if_neg hvalue, if_neg (by simpa using hvalue), bind_ok hnext,
              if_neg (by simpa using hparam), if_neg (by simp)]

theorem readCheckType_eq (hin : d.Inside) :
    XmlDecoding.readCheckType d = readCheckType d :=
  checkType_eq hin

end XmlLookahead

end Drt
