import Drt.Net.Rpc.XmlRpcLookahead

/-!
# Runs of functions that look ahead

Everything that `XmlRpcDecoder` reads is read by a sequence of the functions here. As long as each
of them finds what it looks at clear, the sequence gives the answers that it would give if looking
ahead left the decoder as it is.
-/

namespace Drt

open XmlRpcDecoder

namespace XmlRpcDecoder

variable {d : XmlRpcDecoder} {content : Blob} {el : XmlRpcElement} {em : Option Blob} {l : Blob}

/-- The octets that end tags may still be taken from. -/
def remaining (d : XmlRpcDecoder) : Nat :=
  match d.empty_el with
  | some _ => d.theEnd
  | none => d.ahead.length

theorem remaining_le (d : XmlRpcDecoder) : d.remaining ≤ d.theEnd := by
  unfold remaining
  split
  · exact Nat.le_refl _
  · exact (List.drop_suffix d.pos d.content).length_le

/-- Behind an end tag there remains less. -/
theorem remaining_lt_of_end (h : d.markup = .tag el em l) (hend : el.isEnd = true) :
    (d.behind em l).remaining < d.remaining := by
  have hbehind (hl : l.length < d.remaining) : (d.behind none l).remaining < d.remaining := by
    refine Nat.lt_of_le_of_lt ?_ hl
    change (d.content.drop (d.content.length - l.length)).length ≤ l.length
    rw [List.length_drop]
    omega
  unfold markup at h
  cases hempty : d.empty_el with
  | some start =>
    rw [hempty] at h
    obtain ⟨l₁, h₁⟩ := XmlMarkup.exists_of_behindOctet h
    obtain ⟨l₂, h₂⟩ := XmlMarkup.exists_of_behindOctet h₁
    cases h₂
    apply hbehind
    have hshorter := XmlMarkup.shorter_emptyTag (d.content.drop start)
    dsimp only at h
    rw [h] at hshorter
    have hlt : l.length < (d.content.drop start).length := hshorter
    unfold remaining
    rw [hempty]
    exact Nat.lt_of_lt_of_le hlt (List.drop_suffix start d.content).length_le
  | none =>
    rw [hempty] at h
    cases XmlMarkup.emptyName_of_element h hend
    apply hbehind
    have hshorter := XmlMarkup.shorter_element (d.theEnd + 1) d.ahead
    dsimp only at h
    rw [h] at hshorter
    unfold remaining
    rw [hempty]
    exact hshorter

theorem Within.setPos (hin : d.Within content) {pos : Nat} (hpos : pos ≤ content.length) :
    ({ d with pos := pos } : XmlRpcDecoder).Within content := by
  refine ⟨hin.1, ?_, hin.2.2⟩
  change pos ≤ d.content.length
  rw [hin.1]
  exact hpos

theorem typeOfTag_call (name : Blob) :
    (∃ type, typeOfTag name = .ok type) ∨ ∃ e, typeOfTag name = .raise e := by
  have hcase {c : Prop} [Decidable c] (type : RpcType) {rest : Call RpcType}
      (h : (∃ type, rest = .ok type) ∨ ∃ e, rest = .raise e) :
      (∃ type', (if c then .ok type else rest) = .ok type') ∨
        ∃ e, (if c then .ok type else rest) = .raise e := by
    by_cases hc : c
    · rw [if_pos hc]
      exact .inl ⟨type, rfl⟩
    · rw [if_neg hc]
      exact h
  unfold typeOfTag
  iterate 9 apply hcase
  exact .inr ⟨_, rfl⟩

theorem Within.pos_le (hin : d.Within content) : d.pos ≤ content.length := hin.1 ▸ hin.2.1

end XmlRpcDecoder

namespace XmlDecoding

open Keeping

variable {d : XmlRpcDecoder} {content : Blob}

theorem keeps_moveToNextElement (hin : d.Within content) :
    moveToNextElement.Keeps (XmlRpcDecoder.Within content) d := by
  obtain ⟨rfl, hin⟩ := hin
  obtain ⟨-, hfault⟩ | ⟨-, e, d', hraise, hafter⟩ | ⟨el, em, l, -, hok⟩ :=
    moveToNextElement_call hin
  · exact .inl hfault
  · exact .inr ⟨d', hafter, .inr ⟨e, hraise⟩⟩
  · exact .inr ⟨_, within_behind d em l, .inl ⟨el, hok⟩⟩

theorem keeps_requireElement (isEnd : Bool) (tag_name : String) (hin : d.Within content) :
    (requireElement isEnd tag_name).Keeps (XmlRpcDecoder.Within content) d := by
  apply (keeps_moveToNextElement hin).bind
  intro el d' _ hin'
  exact keeps_ite (fun _ => keeps_pure hin' ()) fun _ => keeps_throw hin' _

theorem keeps_nextValue {fuel : Nat} (hin : d.Within content) (hfuel : d.ahead.length < fuel) :
    (nextValue fuel).Keeps (XmlRpcDecoder.Within content) d := by
  induction fuel generalizing d with
  | zero => omega
  | succ fuel ih =>
    apply (keeps_moveToNextElement hin).bind
    intro el d' hnext hin'
    obtain ⟨em, l, hmarkup, rfl⟩ := tag_of_moveToNextElement hin.2 hnext
    apply keeps_ite
    · intro _
      exact keeps_throw hin' _
    · intro hstart
      apply keeps_ite
      · intro _
        apply (keeps_moveToNextElement hin').bind
        intro el d' _ hin'
        exact keeps_ite (fun _ => keeps_throw hin' _) fun _ => keeps_pure hin' _
      · intro _
        apply keeps_ite
        · intro _
          have hlt := ahead_lt_of_start hmarkup (Bool.eq_false_iff.mpr hstart)
          exact ih hin' (by omega)
        · intro _
          exact keeps_throw hin' _

theorem ahead_lt_fuel (d : XmlRpcDecoder) : d.ahead.length < d.theEnd + 1 :=
  Nat.lt_succ_of_le (List.drop_suffix d.pos d.content).length_le

section

variable (hin : d.Within content)
include hin

theorem keeps_skipParamEnd : skipParamEnd.Keeps (XmlRpcDecoder.Within content) d := by
  apply (keeps_bind_ok rfl).mpr
  apply (keeps_moveToNextElement hin).bind
  intro el d' _ hin'
  apply keeps_ite
  · intro _
    exact keeps_pure hin' ()
  · intro _
    exact .inr ⟨_, hin'.setPos hin.pos_le, .inl ⟨(), rfl⟩⟩

theorem keeps_skipValueEnd : skipValueEnd.Keeps (XmlRpcDecoder.Within content) d := by
  apply (keeps_moveToNextElement hin).bind
  intro el d' _ hin'
  apply keeps_ite
  · intro _
    apply (keeps_requireElement true "value" hin').bind
    intro _ d' _ hin'
    exact keeps_skipParamEnd hin'
  · intro _
    exact keeps_throw hin' _

theorem keeps_headerType : headerType.Keeps (XmlRpcDecoder.Within content) d := by
  apply (keeps_moveToNextElement hin).bind
  intro el d' _ hin'
  apply keeps_ite
  · intro _
    exact keeps_pure hin' 0
  · intro _
    apply keeps_ite
    · intro _
      apply (keeps_moveToNextElement hin').bind
      intro el d' _ hin'
      apply keeps_ite
      · intro _
        exact keeps_pure hin' 1
      · intro _
        exact keeps_ite (fun _ => keeps_pure hin' 2) fun _ => keeps_throw hin' _
    · intro _
      exact keeps_throw hin' _

theorem keeps_readHeader : readHeader.Keeps (XmlRpcDecoder.Within content) d := by
  unfold readHeader
  obtain ⟨d', -, hskip, hin'⟩ | ⟨-, e, d', hskip, hin'⟩ := skipDeclaration_call hin
  · have hget : get d' = (.ok d', d') := rfl
    rw [keeps_bind_ok hskip, keeps_bind_ok hget]
    apply (keeps_headerType hin').bind
    intro type d₁ _ hin₁
    exact .inr ⟨_, hin₁.setPos hin'.pos_le, .inl ⟨type, rfl⟩⟩
  · exact .inr ⟨d', hin', .inr ⟨e, bind_raise hskip⟩⟩

/-- The type of a value: `back` is where the decoder is set back to. -/
theorem keeps_valueType {back : XmlRpcDecoder} (hback : back.Within content) :
    (moveToNextElement >>= fun el =>
      if el.isEnd then Keeping.throw (.invalidFormatException "xmlrpc" "value")
      else if el.name = ascii "methodResponse" then
        moveToNextElement >>= fun el =>
          if el.isEnd then Keeping.throw (.invalidFormatException "xmlrpc" "header")
          else modify (fun _ => back) >>= fun _ =>
            pure (if el.name = ascii "fault" then .rtFaultResponse else .rtMethodResponse)
      else modify (fun _ => back) >>= fun _ =>
        ofOutcome (typeOfTag el.name)).Keeps (XmlRpcDecoder.Within content) d := by
  apply (keeps_moveToNextElement hin).bind
  intro el d' _ hin'
  apply keeps_ite
  · intro _
    exact keeps_throw hin' _
  · intro _
    apply keeps_ite
    · intro _
      apply (keeps_moveToNextElement hin').bind
      intro el d' _ hin'
      apply keeps_ite
      · intro _
        exact keeps_throw hin' _
      · intro _
        exact .inr ⟨back, hback, .inl ⟨_, rfl⟩⟩
    · intro _
      obtain ⟨type, htype⟩ | ⟨e, htype⟩ := typeOfTag_call el.name
      · rw [htype]
        exact .inr ⟨back, hback, .inl ⟨type, rfl⟩⟩
      · rw [htype]
        exact .inr ⟨back, hback, .inr ⟨e, rfl⟩⟩

theorem keeps_checkType {fuel : Nat} (hfuel : d.ahead.length < fuel) :
    (checkType fuel).Keeps (XmlRpcDecoder.Within content) d := by
  induction fuel generalizing d with
  | zero => omega
  | succ fuel ih =>
    have hback : ({ d with empty_el := none } : XmlRpcDecoder).Within content :=
      ⟨hin.1, hin.2.1, fun _ h => nomatch h⟩
    apply (keeps_bind_ok rfl).mpr
    apply keeps_ite
    · intro _
      exact keeps_pure hin _
    · intro _
      apply (keeps_moveToNextElement hin).bind
      intro el d' hnext hin'
      obtain ⟨em, l, hmarkup, rfl⟩ := tag_of_moveToNextElement hin.2 hnext
      apply keeps_ite
      · intro _
        exact keeps_ite (fun _ => keeps_pure hin' _) fun _ => keeps_throw hin' _
      · intro hstart
        apply keeps_ite
        · intro _
          have hlt := ahead_lt_of_start hmarkup (Bool.eq_false_iff.mpr hstart)
          exact ih hin' (by omega)
        · intro _
          apply keeps_ite
          · intro _
            exact keeps_valueType hin' hback
          · intro _
            exact keeps_throw hin' _

theorem keeps_checkArrayNext : checkArrayNext.Keeps (XmlRpcDecoder.Within content) d := by
  apply (keeps_bind_ok rfl).mpr
  apply (keeps_moveToNextElement hin).bind
  intro el d' _ hin'
  apply keeps_ite
  · intro _
    apply (keeps_skipValueEnd hin').bind
    intro _ d' _ hin'
    exact keeps_pure hin' false
  · intro _
    exact .inr ⟨_, hin'.setPos hin.pos_le, .inl ⟨true, rfl⟩⟩

end

theorem keeps_structStart {save_pos : Nat} (el : XmlRpcElement) (hin : d.Within content)
    (hpos : save_pos ≤ content.length) :
    (structStart save_pos el).Keeps (XmlRpcDecoder.Within content) d := by
  apply keeps_ite
  · intro _
    apply (keeps_bind_ok rfl).mpr
    apply (keeps_moveToNextElement hin).bind
    intro el d' _ hin'
    have hset : ({ d' with pos := d.pos } : XmlRpcDecoder).Within content := hin'.setPos hin.pos_le
    apply keeps_ite
    · intro _
      apply keeps_ite
      · intro _
        exact .inr ⟨_, hset, .inl ⟨true, rfl⟩⟩
      · intro _
        exact keeps_throw hin' _
    · intro _
      exact .inr ⟨_, hset, .inl ⟨true, rfl⟩⟩
  · intro _
    apply keeps_ite
    · intro _
      exact .inr ⟨_, hin.setPos hpos, .inl ⟨true, rfl⟩⟩
    · intro _
      exact keeps_throw hin _

theorem keeps_checkMember {fuel : Nat} (hin : d.Within content) (hfuel : d.remaining < fuel) :
    (checkMember fuel).Keeps (XmlRpcDecoder.Within content) d := by
  induction fuel generalizing d with
  | zero => omega
  | succ fuel ih =>
    apply (keeps_bind_ok rfl).mpr
    apply (keeps_moveToNextElement hin).bind
    intro el d' hnext hin'
    obtain ⟨em, l, hmarkup, rfl⟩ := tag_of_moveToNextElement hin.2 hnext
    apply keeps_ite
    · intro hend
      apply keeps_ite
      · intro _
        have hlt := remaining_lt_of_end hmarkup hend
        exact ih hin' (by omega)
      · intro _
        apply keeps_ite
        · intro _
          apply (keeps_bind_ok rfl).mpr
          apply (keeps_skipValueEnd (hin'.setPos hin.pos_le)).bind
          intro _ d₁ _ hin₁
          exact keeps_pure hin₁ false
        · intro _
          exact keeps_throw hin' _
    · intro _
      exact keeps_structStart el hin' hin.pos_le

end XmlDecoding

/-- The functions that look ahead. -/
structure XmlLookaheads where
  skipValueEnd : XmlDecoding Unit
  readCheckType : XmlDecoding RpcType
  checkArrayNext : XmlDecoding Bool
  checkStructNext : XmlDecoding Bool

/-- Those of `XmlRpcDecoder`. -/
def XmlLookaheads.code : XmlLookaheads where
  skipValueEnd := XmlDecoding.skipValueEnd
  readCheckType := XmlDecoding.readCheckType
  checkArrayNext := XmlDecoding.checkArrayNext
  checkStructNext := XmlDecoding.checkStructNext

/-- Those that leave the decoder as it is. -/
def XmlLookaheads.looking : XmlLookaheads where
  skipValueEnd := XmlLookahead.skipValueEnd
  readCheckType := XmlLookahead.readCheckType
  checkArrayNext := XmlLookahead.checkArrayNext
  checkStructNext := XmlLookahead.checkStructNext

/-- The functions that take tags and content, and those that check what comes next. -/
inductive XmlRpcRead where
  | tags (op : XmlRpcOp)
  | readCheckType
  | checkArrayNext
  | checkStructNext
  deriving DecidableEq, Repr

/-- What a function answers. -/
inductive XmlRpcAnswer where
  | done
  | header (type : Nat)
  | element (el : XmlRpcElement)
  | name (type : Blob)
  | content (cont : Blob × Nat)
  | type (type : RpcType)
  | more (next : Bool)
  | exception (e : Exception)
  deriving DecidableEq, Repr

/-- A function and its answer. -/
structure XmlRpcExchange where
  read : XmlRpcRead
  answer : XmlRpcAnswer
  deriving DecidableEq, Repr

namespace XmlRpcRead

open Keeping XmlLookaheads

/-- A function, for what it answers. -/
def perform (f : XmlLookaheads) : XmlRpcRead → XmlDecoding XmlRpcAnswer
  | tags .readHeader => XmlDecoding.readHeader >>= fun type => pure (.header type)
  | tags .moveToNextElement => XmlDecoding.moveToNextElement >>= fun el => pure (.element el)
  | tags (.moveToNextElementReqStart tag_name) =>
    XmlDecoding.moveToNextElementReqStart tag_name >>= fun _ => pure .done
  | tags (.moveToNextElementReqEnd tag_name) =>
    XmlDecoding.moveToNextElementReqEnd tag_name >>= fun _ => pure .done
  | tags .moveToNextValue => XmlDecoding.moveToNextValue >>= fun type => pure (.name type)
  | tags .skipValueEnd => f.skipValueEnd >>= fun _ => pure .done
  | tags .readContent => XmlDecoding.readContent >>= fun cont => pure (.content cont)
  | readCheckType => f.readCheckType >>= fun type => pure (.type type)
  | checkArrayNext => f.checkArrayNext >>= fun next => pure (.more next)
  | checkStructNext => f.checkStructNext >>= fun next => pure (.more next)

/-- It looks at no empty tag, nor at the end of one, and passes no start tag. -/
def clear (d : XmlRpcDecoder) : XmlRpcRead → Bool
  | tags .skipValueEnd => d.clearValueEnd
  | tags _ => true
  | readCheckType => true
  | checkArrayNext => d.clearArrayNext
  | checkStructNext => d.clearStructNext

/-- Where this is so, a function does as the one that leaves the decoder as it is. -/
theorem perform_eq {d : XmlRpcDecoder} (read : XmlRpcRead) (hin : d.Inside)
    (h : read.clear d = true) : read.perform code d = read.perform looking d := by
  cases read with
  | tags op =>
    cases op with
    | skipValueEnd => exact bind_congr_at (XmlLookahead.skipValueEnd_eq hin h)
    | _ => rfl
  | readCheckType => exact bind_congr_at (XmlLookahead.readCheckType_eq hin)
  | checkArrayNext => exact bind_congr_at (XmlLookahead.checkArrayNext_eq hin h)
  | checkStructNext => exact bind_congr_at (XmlLookahead.checkStructNext_eq hin h)

/-- A function comes to an end, inside the buffer unless it has read beyond it. -/
theorem keeps_perform {d : XmlRpcDecoder} {content : Blob} (read : XmlRpcRead)
    (hin : d.Within content) : (read.perform code).Keeps (XmlRpcDecoder.Within content) d := by
  have hpure {α : Type} {x : XmlDecoding α} (g : α → XmlRpcAnswer)
      (hx : x.Keeps (XmlRpcDecoder.Within content) d) :
      (x >>= fun a => pure (g a)).Keeps (XmlRpcDecoder.Within content) d := by
    apply hx.bind
    intro a d' _ hin'
    exact keeps_pure hin' (g a)
  cases read with
  | tags op =>
    cases op with
    | readHeader => exact hpure _ (XmlDecoding.keeps_readHeader hin)
    | moveToNextElement => exact hpure _ (XmlDecoding.keeps_moveToNextElement hin)
    | moveToNextElementReqStart tag_name =>
      exact hpure _ (XmlDecoding.keeps_requireElement false tag_name hin)
    | moveToNextElementReqEnd tag_name =>
      exact hpure _ (XmlDecoding.keeps_requireElement true tag_name hin)
    | moveToNextValue =>
      exact hpure _ (XmlDecoding.keeps_nextValue hin (XmlDecoding.ahead_lt_fuel d))
    | skipValueEnd => exact hpure _ (XmlDecoding.keeps_skipValueEnd hin)
    | readContent => exact hpure _ (.inr (XmlDecoding.stays_readContent hin))
  | readCheckType => exact hpure _ (XmlDecoding.keeps_checkType hin (XmlDecoding.ahead_lt_fuel d))
  | checkArrayNext => exact hpure _ (XmlDecoding.keeps_checkArrayNext hin)
  | checkStructNext =>
    exact hpure _ (XmlDecoding.keeps_checkMember hin (Nat.lt_succ_of_le d.remaining_le))

end XmlRpcRead

namespace XmlRpcExchange

open Keeping XmlLookaheads

/-- The decoder after a function, if that has given the answer. -/
def after (x : XmlRpcExchange) :
    Outcome Exception XmlRpcAnswer × XmlRpcDecoder → Option XmlRpcDecoder
  | (.ok answer, d) => if x.answer = answer then some d else none
  | (.raise e, d) => if x.answer = .exception e then some d else none
  | _ => none

/-- The functions on a buffer in any order, also after exceptions. A function that reads beyond
the buffer gives no answer. -/
def machine (f : XmlLookaheads) (content : Blob) : Machine XmlRpcDecoder XmlRpcExchange where
  init d := d = ⟨content, 0, none⟩
  step d x := x.after (x.read.perform f d)

/-- An answer is given inside the buffer. -/
theorem step_within {content : Blob} {d d' : XmlRpcDecoder} {x : XmlRpcExchange}
    (hin : d.Within content) (hstep : (machine code content).step d x = some d') :
    d'.Within content := by
  change x.after (x.read.perform code d) = some d' at hstep
  obtain hfault | ⟨d₁, hin₁, ⟨answer, hperform⟩ | ⟨e, hperform⟩⟩ := x.read.keeps_perform hin
  · have hperform : x.read.perform code d = (.fault, (x.read.perform code d).2) :=
      Prod.ext hfault rfl
    rw [hperform] at hstep
    cases hstep
  · rw [hperform] at hstep
    obtain ⟨-, hsome⟩ := Option.ite_none_right_eq_some.mp hstep
    cases hsome
    exact hin₁
  · rw [hperform] at hstep
    obtain ⟨-, hsome⟩ := Option.ite_none_right_eq_some.mp hstep
    cases hsome
    exact hin₁

/-- In every run of the decoder whose functions find clear what they look at, all decoders and
answers are those of the functions that leave the decoder as it is when they look ahead, and the
next function of the kind does as its counterpart, too. -/
theorem run_looking_of_clear (content : Blob) {as : List XmlRpcExchange} {d : XmlRpcDecoder}
    (h : (machine code content).Run (fun d x => x.read.clear d = true) ⟨content, 0, none⟩ as d) :
    (machine looking content).Run (fun _ _ => True) ⟨content, 0, none⟩ as d ∧
      ∀ read : XmlRpcRead, read.clear d = true → read.perform code d = read.perform looking d := by
  have hstart : (⟨content, 0, none⟩ : XmlRpcDecoder).Within content :=
    ⟨rfl, Nat.zero_le _, fun _ hstart => nomatch hstart⟩
  have hkeep (d : XmlRpcDecoder) (x : XmlRpcExchange) (d' : XmlRpcDecoder)
      (hin : d.Within content) (_ : x.read.clear d = true)
      (hstep : (machine code content).step d x = some d') : d'.Within content :=
    step_within hin hstep
  constructor
  · apply h.transfer (XmlRpcDecoder.Within content) hstart hkeep
    intro d x d' hin hclear hstep
    change x.after (x.read.perform looking d) = some d'
    rw [← x.read.perform_eq hin.2 hclear]
    exact hstep
  · intro read hclear
    have hin := h.invariant (XmlRpcDecoder.Within content) hstart hkeep
    exact read.perform_eq hin.2 hclear

/-- An array with an element that is not empty. -/
def filledArray : Blob := ascii "<data><x></x></data></array></value></param>"

/-- What is read of it, up to the end of the parameter. -/
def filledArrayRead : List XmlRpcExchange :=
  [⟨.tags (.moveToNextElementReqStart "data"), .done⟩, ⟨.checkArrayNext, .more true⟩,
    ⟨.tags (.moveToNextElementReqStart "x"), .done⟩,
    ⟨.tags (.moveToNextElementReqEnd "x"), .done⟩, ⟨.checkArrayNext, .more false⟩]

theorem run_looking_of_clear_array :
    (machine looking filledArray).Run (fun _ _ => True) ⟨filledArray, 0, none⟩ filledArrayRead
      ⟨filledArray, 44, none⟩ := by
  have hread : (machine code filledArray).executeWith (fun d x => x.read.clear d = true)
      ⟨filledArray, 0, none⟩ filledArrayRead = some ⟨filledArray, 44, none⟩ := by
    decide +kernel
  exact (run_looking_of_clear filledArray (Machine.run_of_executeWith hread)).1

/-- An array with an empty element. -/
def emptyElement : Blob := ascii "<data><x/></data>"

/-- A struct without members, and what comes of reading it. -/
def emptyStruct : Blob := ascii "<param><value><struct/></value></param>"

def emptyStructRead : List XmlRpcExchange :=
  [⟨.tags .moveToNextValue, .name (ascii "struct")⟩,
    ⟨.checkStructNext, .exception (.invalidFormatException "xmlrpc" "value")⟩]

/-- An empty tag that is looked at leaves its mark, and the mark of an empty struct is lost when
its end is looked at: the struct is refused. -/
theorem not_run_looking_empty :
    (∃ d, (machine code emptyElement).Reachable d ∧ d.empty_el = none ∧
      XmlDecoding.checkArrayNext d = (.ok true, { d with empty_el := some 7 })) ∧
      ¬ ∀ (content : Blob) (as : List XmlRpcExchange) (d : XmlRpcDecoder),
        (machine code content).Run (fun _ _ => True) ⟨content, 0, none⟩ as d →
          (machine looking content).Run (fun _ _ => True) ⟨content, 0, none⟩ as d := by
  constructor
  · have hdata : (machine code emptyElement).execute ⟨emptyElement, 0, none⟩
        [⟨.tags (.moveToNextElementReqStart "data"), .done⟩] = some ⟨emptyElement, 6, none⟩ := by
      decide +kernel
    have hcheck : XmlDecoding.checkArrayNext ⟨emptyElement, 6, none⟩ =
        (.ok true, ⟨emptyElement, 6, some 7⟩) := by
      decide +kernel
    exact ⟨_, ⟨_, _, rfl, Machine.run_of_execute hdata⟩, rfl, hcheck⟩
  · intro h
    have hread : (machine code emptyStruct).execute ⟨emptyStruct, 0, none⟩ emptyStructRead =
        some ⟨emptyStruct, 39, none⟩ := by
      decide +kernel
    have hlooking : (machine looking emptyStruct).execute ⟨emptyStruct, 0, none⟩ emptyStructRead =
        none := by
      decide +kernel
    have hrun := h emptyStruct emptyStructRead _ (Machine.run_of_execute hread)
    rw [Machine.execute_of_run hrun] at hlooking
    cases hlooking

end XmlRpcExchange

end Drt
