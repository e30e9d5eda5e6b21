import Drt.Lib.Machine
import Drt.Net.Rpc.XmlRpcTokenizer

/-!
# Sequences of XML-RPC tags

The functions of `XmlRpcDecoder` that take tags follow each other on one buffer in any order, also
after exceptions. Each of them ends inside the buffer if and only if it does not come to a "<!"
that is cut off.
-/

namespace Drt

namespace XmlRpcDecoder

/-- No "<!" that is cut off comes next, nor behind the next tag by what `p` says. -/
def uncutThen (d : XmlRpcDecoder) (p : XmlRpcElement → XmlRpcDecoder → Bool) : Bool :=
  match d.markup with
  | .cut => false
  | .tag el emptyName l => p el (d.behind emptyName l)
  | _ => true

/-- No "<!" that is cut off comes next. -/
def uncut (d : XmlRpcDecoder) : Bool := d.uncutThen fun _ _ => true

/-- Nor in front of a value, behind the start of a parameter. -/
def uncutValue : Nat → XmlRpcDecoder → Bool
  | 0, _ => true
  | fuel + 1, d => d.uncutThen fun el d =>
    if el.isEnd then true
    else if el.name = ascii "value" then d.uncut
    else if el.name = ascii "param" then uncutValue fuel d
    else true

/-- Nor at the end of a value. -/
def uncutValueEnd (d : XmlRpcDecoder) : Bool := d.uncutThen fun el d =>
  !el.isEnd || d.uncutThen fun el d => el ≠ ⟨true, ascii "value"⟩ || d.uncut

/-- The decoder behind an XML declaration. -/
def afterDeclaration (d : XmlRpcDecoder) : Option XmlRpcDecoder :=
  if d.pos + 5 < d.theEnd ∧ d.ahead.take 5 = ascii "<?xml" then
    match (d.ahead.drop 5).dropWhile (· ≠ 62) with
    | [] => none
    | _ :: l => some { d with pos := d.theEnd - l.length }
  else none

/-- Nor in the first tags of a message. -/
def uncutHeader (d : XmlRpcDecoder) : Bool :=
  match d.afterDeclaration with
  | none => true
  | some d => d.uncutThen fun el d => el ≠ ⟨false, ascii "methodResponse"⟩ || d.uncut

end XmlRpcDecoder

namespace XmlDecoding

open Keeping XmlRpcDecoder

variable {α : Type} {d : XmlRpcDecoder} {content : Blob}

/-- The next tag, and what comes behind it. -/
theorem stays_moveToNextElement {f : XmlRpcElement → XmlDecoding α}
    {p : XmlRpcElement → XmlRpcDecoder → Bool} (hin : d.Within content)
    (hf : ∀ el em l, d.markup = .tag el em l → (d.behind em l).Within content →
      ((f el).Stays (Within content) (d.behind em l) ↔ p el (d.behind em l) = true)) :
    (moveToNextElement >>= f).Stays (Within content) d ↔ d.uncutThen p = true := by
  obtain ⟨rfl, hin⟩ := hin
  unfold uncutThen
  obtain ⟨hmarkup, hfault⟩ | ⟨hmarkup, e, d', hraise, hafter⟩ | ⟨el, em, l, hmarkup, hok⟩ :=
    moveToNextElement_call hin
  · rw [hmarkup]
    refine iff_of_false (not_stays_of_fault ?_) Bool.false_ne_true
    rw [bind_fault (Prod.ext hfault rfl)]
  · rw [hmarkup]
    exact iff_of_true ⟨d', hafter, .inr ⟨e, bind_raise hraise⟩⟩ rfl
  · have htag := hf el em l hmarkup (within_behind d em l)
    rw [hmarkup]
    unfold Stays at htag ⊢
    rw [bind_ok hok]
    exact htag

theorem stays_uncut {f : XmlRpcElement → XmlDecoding α} (hin : d.Within content)
    (hf : ∀ el d', d'.Within content → (f el).Stays (Within content) d') :
    (moveToNextElement >>= f).Stays (Within content) d ↔ d.uncut = true :=
  stays_moveToNextElement hin fun el _ _ _ hin => iff_of_true (hf el _ hin) rfl

theorem stays_requireElement (isEnd : Bool) (tag_name : String) (hin : d.Within content) :
    (requireElement isEnd tag_name).Stays (Within content) d ↔ d.uncut = true := by
  refine stays_uncut hin fun el d' hin => ?_
  split
  · exact stays_pure hin ()
  · exact stays_throw hin _

section

variable (hin : d.Within content)
include hin

theorem stays_nextValue {fuel : Nat} (hfuel : d.ahead.length < fuel) :
    (nextValue fuel).Stays (Within content) d ↔ uncutValue fuel d = true := by
  induction fuel generalizing d with
  | zero => omega
  | succ fuel ih =>
    refine stays_moveToNextElement hin fun el em l hmarkup hin => ?_
    by_cases hend : el.isEnd = true
    · rw [if_pos hend, if_pos hend]
      exact iff_of_true (stays_throw hin _) rfl
    · rw [if_neg hend, if_neg hend]
      by_cases hvalue : el.name = ascii "value"
      · rw [if_pos hvalue, if_pos hvalue]
        refine stays_uncut hin fun el d' hin => ?_
        split
        · exact stays_throw hin _
        · exact stays_pure hin _
      · rw [if_neg hvalue, if_neg hvalue]
        by_cases hparam : el.name = ascii "param"
        · rw [if_pos hparam, if_pos hparam]
          have hlt := ahead_lt_of_start hmarkup (Bool.eq_false_iff.mpr hend)
          exact ih hin (by omega)
        · rw [if_neg hparam, if_neg hparam]
          exact iff_of_true (stays_throw hin _) rfl

theorem stays_skipParamEnd : skipParamEnd.Stays (Within content) d ↔ d.uncut = true := by
  have hget : get d = (.ok d, d) := rfl
  have hsave : skipParamEnd d = (moveToNextElement >>= fun el =>
      if el = ⟨true, ascii "param"⟩ then pure () else modify fun d' => { d' with pos := d.pos }) d :=
    bind_ok hget
  unfold Stays
  rw [hsave]
  refine stays_uncut hin fun el d' hin' => ?_
  split
  · exact stays_pure hin' ()
  · refine ⟨{ d' with pos := d.pos }, ⟨hin'.1, ?_, hin'.2.2⟩, .inl ⟨(), rfl⟩⟩
    change d.pos ≤ d'.content.length
    rw [hin'.1, ← hin.1]
    exact hin.2.1

/-- A required tag, and what comes behind it. -/
theorem stays_requireElement_bind {isEnd : Bool} {tag_name : String} {f : Unit → XmlDecoding α}
    {p : XmlRpcDecoder → Bool}
    (hf : ∀ d', d'.Within content → ((f ()).Stays (Within content) d' ↔ p d' = true)) :
    (requireElement isEnd tag_name >>= f).Stays (Within content) d ↔
      d.uncutThen (fun el d => el ≠ ⟨isEnd, ascii tag_name⟩ || p d) = true := by
  unfold requireElement
  rw [bind_bind]
  refine stays_moveToNextElement hin fun el em l _ hin => ?_
  by_cases hel : el = ⟨isEnd, ascii tag_name⟩
  · rw [if_pos hel, decide_eq_false (not_not_intro hel), Bool.false_or]
    exact hf _ hin
  · rw [if_neg hel, decide_eq_true hel, Bool.true_or]
    exact iff_of_true (stays_throw hin _) rfl

theorem stays_skipValueEnd : skipValueEnd.Stays (Within content) d ↔ d.uncutValueEnd = true := by
  refine stays_moveToNextElement hin fun el em l _ hin => ?_
  by_cases hend : el.isEnd = true
  · rw [if_pos hend, hend]
    exact stays_requireElement_bind hin fun _ hin => stays_skipParamEnd hin
  · rw [if_neg hend, Bool.eq_false_iff.mpr hend]
    exact iff_of_true (stays_throw hin _) rfl

/-- The end of `readHeader`: `pos` is set back whatever the first tags say. -/
theorem stays_headerType {pos : Nat} (hpos : pos ≤ content.length) :
    (headerType >>= fun type => modify (fun d => { d with pos := pos }) >>= fun _ =>
      (pure type : XmlDecoding Nat)).Stays (Within content) d ↔
      (d.uncutThen fun el d => el ≠ ⟨false, ascii "methodResponse"⟩ || d.uncut) = true := by
  have hback (type : Nat) {d' : XmlRpcDecoder} (hin : d'.Within content) :
      ((pure type : XmlDecoding Nat) >>= fun type => modify (fun d => { d with pos := pos }) >>=
        fun _ => (pure type : XmlDecoding Nat)).Stays (Within content) d' := by
    refine ⟨{ d' with pos := pos }, ⟨hin.1, ?_, hin.2.2⟩, .inl ⟨type, rfl⟩⟩
    change pos ≤ d'.content.length
    rw [hin.1]
    exact hpos
  have hrefused (e : Exception) {d' : XmlRpcDecoder} (hin : d'.Within content) :
      ((throw e : XmlDecoding Nat) >>= fun type => modify (fun d => { d with pos := pos }) >>=
        fun _ => (pure type : XmlDecoding Nat)).Stays (Within content) d' :=
    ⟨d', hin, .inr ⟨e, rfl⟩⟩
  unfold headerType
  rw [bind_bind]
  refine stays_moveToNextElement hin fun el em l _ hin => ?_
  by_cases hresponse : el = ⟨false, ascii "methodResponse"⟩
  · have hcall : el ≠ ⟨false, ascii "methodCall"⟩ := by
      rw [hresponse]
      decide
    rw [if_neg hcall, if_pos hresponse, decide_eq_false (not_not_intro hresponse), Bool.false_or,
      bind_bind]
    refine stays_uncut hin fun el d' hin => ?_
    split
    · exact hback 1 hin
    · split
      · exact hback 2 hin
      · exact hrefused _ hin
  · rw [if_neg hresponse, decide_eq_true hresponse, Bool.true_or]
    split
    · exact iff_of_true (hback 0 hin) rfl
    · exact iff_of_true (hrefused _ hin) rfl

/-- The XML declaration is found or refused. -/
theorem skipDeclaration_call :
    (∃ d', d.afterDeclaration = some d' ∧ skipDeclaration d = (.ok (), d') ∧ d'.Within content) ∨
      d.afterDeclaration = none ∧
        ∃ e d', skipDeclaration d = (.raise e, d') ∧ d'.Within content := by
  unfold afterDeclaration skipDeclaration
  by_cases hshort : d.pos + 5 ≥ d.theEnd
  · rw [if_pos hshort, if_neg fun h => Nat.not_lt.mpr hshort h.1]
    exact .inr ⟨rfl, _, d, rfl, hin⟩
  · rw [if_neg hshort]
    by_cases hstart : d.ahead.take 5 = ascii "<?xml"
    · rw [if_neg (not_not_intro hstart), if_pos ⟨Nat.lt_of_not_le hshort, hstart⟩]
      obtain ⟨rfl, hin⟩ := hin
      have hahead : (d.skip 5).ahead = d.ahead.drop 5 := List.drop_drop.symm
      have hlength : (d.ahead.drop 5).length = d.theEnd - (d.pos + 5) := by
        unfold ahead
        rw [List.drop_drop, List.length_drop]
        rfl
      have hsplit := congrArg List.length
        (List.takeWhile_append_dropWhile (p := (· ≠ 62)) (l := d.ahead.drop 5))
      rw [List.length_append, hlength] at hsplit
      dsimp only
      rw [hahead]
      generalize (d.ahead.drop 5).takeWhile (fun x => decide (x ≠ 62)) = passed at hsplit ⊢
      cases hrest : (d.ahead.drop 5).dropWhile (fun x => decide (x ≠ 62)) with
      | nil =>
        rw [hrest, List.length_nil] at hsplit
        have hend : ((d.skip 5).skip passed.length).pos ≥ ((d.skip 5).skip passed.length).theEnd := by
          change d.pos + 5 + passed.length ≥ d.theEnd
          omega
        rw [if_pos hend]
        refine .inr ⟨rfl, _, _, rfl, rfl, ?_, hin.2⟩
        change d.pos + 5 + passed.length ≤ d.theEnd
        omega
      | cons c l =>
        rw [hrest, List.length_cons] at hsplit
        have hend : ¬ ((d.skip 5).skip passed.length).pos ≥
            ((d.skip 5).skip passed.length).theEnd := by
          change ¬ d.pos + 5 + passed.length ≥ d.theEnd
          omega
        rw [if_neg hend]
        refine .inl ⟨_, rfl, ?_, rfl, Nat.sub_le _ _, hin.2⟩
        have hpos : d.pos + 5 + passed.length + 1 = d.theEnd - l.length := by omega
        change (Outcome.ok (), ({ d with pos := d.pos + 5 + passed.length + 1 } : XmlRpcDecoder)) = _
        rw [hpos]
    · rw [if_pos hstart, if_neg fun h => hstart h.2]
      exact .inr ⟨rfl, _, d, rfl, hin⟩

theorem stays_readHeader : readHeader.Stays (Within content) d ↔ d.uncutHeader = true := by
  unfold readHeader uncutHeader
  obtain ⟨d', hafter, hskip, hin'⟩ | ⟨hafter, e, d', hskip, hin'⟩ := skipDeclaration_call hin
  · rw [hafter]
    unfold Stays
    have hget : get d' = (.ok d', d') := rfl
    rw [bind_ok hskip, bind_ok hget]
    exact stays_headerType hin' (hin'.1 ▸ hin'.2.1)
  · rw [hafter]
    exact iff_of_true ⟨d', hin', .inr ⟨e, bind_raise hskip⟩⟩ rfl

theorem stays_readContent : readContent.Stays (Within content) d := by
  obtain ⟨rfl, hpos, hempty⟩ := hin
  refine ⟨d.readContent.2, ⟨rfl, ?_, hempty⟩, .inl ⟨d.readContent.1, rfl⟩⟩
  have hlength : d.ahead.length = d.theEnd - d.pos := List.length_drop
  have hpassed := (List.takeWhile_prefix (fun x => decide (x ≠ 60)) (l := d.ahead)).length_le
  change d.pos + (if d.empty_el = none then _ else 0) ≤ d.theEnd
  split
  · omega
  · exact hpos

end

end XmlDecoding

/-- The functions that take tags, and those that take content between them. -/
inductive XmlRpcOp where
  | readHeader
  | moveToNextElement
  | moveToNextElementReqStart (tag_name : String)
  | moveToNextElementReqEnd (tag_name : String)
  | moveToNextValue
  | skipValueEnd
  | readContent
  deriving DecidableEq, Repr

namespace XmlRpcOp

open XmlRpcDecoder Keeping

/-- A function, for what it does to the decoder. -/
def perform : XmlRpcOp → XmlDecoding Unit
  | readHeader => XmlDecoding.readHeader >>= fun _ => pure ()
  | moveToNextElement => XmlDecoding.moveToNextElement >>= fun _ => pure ()
  | moveToNextElementReqStart tag_name => XmlDecoding.moveToNextElementReqStart tag_name
  | moveToNextElementReqEnd tag_name => XmlDecoding.moveToNextElementReqEnd tag_name
  | moveToNextValue => XmlDecoding.moveToNextValue >>= fun _ => pure ()
  | skipValueEnd => XmlDecoding.skipValueEnd
  | readContent => XmlDecoding.readContent >>= fun _ => pure ()

/-- It does not come to a "<!" that is cut off. -/
def uncut (d : XmlRpcDecoder) : XmlRpcOp → Bool
  | readHeader => d.uncutHeader
  | moveToNextElement | moveToNextElementReqStart _ | moveToNextElementReqEnd _ => d.uncut
  | moveToNextValue => uncutValue (d.theEnd + 1) d
  | skipValueEnd => d.uncutValueEnd
  | readContent => true

/-- One function. -/
theorem stays_perform {d : XmlRpcDecoder} {content : Blob} (op : XmlRpcOp)
    (hin : d.Within content) : op.perform.Stays (Within content) d ↔ op.uncut d = true := by
  cases op with
  | readHeader => exact (stays_map _).trans (XmlDecoding.stays_readHeader hin)
  | moveToNextElement => exact XmlDecoding.stays_uncut hin fun _ _ hin => stays_pure hin ()
  | moveToNextElementReqStart tag_name =>
    exact XmlDecoding.stays_requireElement false tag_name hin
  | moveToNextElementReqEnd tag_name => exact XmlDecoding.stays_requireElement true tag_name hin
  | moveToNextValue =>
    have hlength : d.ahead.length < d.theEnd + 1 := by
      unfold ahead theEnd
      rw [List.length_drop]
      omega
    exact (stays_map _).trans (XmlDecoding.stays_nextValue hin hlength)
  | skipValueEnd => exact XmlDecoding.stays_skipValueEnd hin
  | readContent => exact iff_of_true ((XmlDecoding.stays_readContent hin).map _) rfl

end XmlRpcOp

/-- A decoder at work, and whether a function has read outside the buffer or done something else
that is undefined. -/
structure XmlRpcSession where
  decoder : XmlRpcDecoder
  outside : Bool

namespace XmlRpcSession

open Keeping XmlRpcDecoder

/-- The session after a function. -/
def after (s : XmlRpcSession) : Outcome Exception Unit × XmlRpcDecoder → XmlRpcSession
  | (.ok _, d) | (.raise _, d) => { s with decoder := d }
  | (_, d) => { decoder := d, outside := true }

/-- The functions on a buffer in any order. Nothing follows what is undefined. -/
def machine (content : Blob) : Machine XmlRpcSession XmlRpcOp where
  init s := s = { decoder := ⟨content, 0, none⟩, outside := false }
  step s op := if s.outside = false then some (s.after (op.perform s.decoder)) else none

/-- Inside so far. -/
def Safe (content : Blob) (s : XmlRpcSession) : Prop :=
  s.outside = false ∧ s.decoder.Within content

/-- One function that does not come to a "<!" that is cut off. -/
theorem Safe.step {content : Blob} {s s' : XmlRpcSession} {op : XmlRpcOp} (h : s.Safe content)
    (huncut : op.uncut s.decoder = true) (hstep : (machine content).step s op = some s') :
    s'.Safe content := by
  obtain ⟨hinside, hin⟩ := h
  change (if _ then _ else _) = _ at hstep
  rw [if_pos hinside] at hstep
  cases hstep
  obtain ⟨d', hin', ⟨u, hperform⟩ | ⟨e, hperform⟩⟩ := (op.stays_perform hin).mpr huncut
  · rw [hperform]
    exact ⟨hinside, hin'⟩
  · rw [hperform]
    exact ⟨hinside, hin'⟩

/-- In every run whose functions come to no "<!" that is cut off, each of them ends with a result
or an exception inside the buffer, and so does the next one if and only if it comes to none. -/
theorem safe_of_uncut (content : Blob) {s : XmlRpcSession}
    (h : (machine content).ReachableWith (fun s op => op.uncut s.decoder = true) s) :
    s.Safe content ∧ ∀ op : XmlRpcOp,
      op.perform.Stays (Within content) s.decoder ↔ op.uncut s.decoder = true := by
  have hsafe : s.Safe content := by
    refine h.invariant (Safe content) ?_ ?_
    · rintro s rfl
      refine ⟨rfl, rfl, Nat.zero_le _, ?_⟩
      intro start hstart
      cases hstart
    · intro s op s' hsafe huncut hstep
      exact hsafe.step huncut hstep
  exact ⟨hsafe, fun op => op.stays_perform hsafe.2⟩

/-- The start of a message with a comment in it. -/
def message : Blob := ascii "<?xml?><!-- - --><methodCall ><methodName/>"

theorem safe_of_uncut_message :
    ∃ s : XmlRpcSession, s.decoder.pos = 43 ∧ s.decoder.empty_el ≠ none ∧ s.Safe message := by
  obtain ⟨s, hs⟩ : ∃ s, (machine message).executeWith (fun s op => op.uncut s.decoder = true)
      { decoder := ⟨message, 0, none⟩, outside := false }
      [.readHeader, .moveToNextElementReqStart "methodCall",
        .moveToNextElementReqStart "methodName"] = some s :=
    ⟨_, rfl⟩
  have hsafe := (safe_of_uncut message ⟨_, _, rfl, Machine.run_of_executeWith hs⟩).1
  refine ⟨s, ?_, ?_, hsafe⟩
  · cases hs
    rfl
  · cases hs
    decide

/-- Not every run stays inside: behind a "<!" at the end two octets are compared. -/
theorem not_safe_cut : ¬ ∀ (content : Blob) (s : XmlRpcSession),
    (machine content).Reachable s → s.outside = false := by
  intro h
  have hrun : ∃ s, s.outside = true ∧ (machine (ascii "<!")).execute
      { decoder := ⟨ascii "<!", 0, none⟩, outside := false } [.moveToNextElement] = some s :=
    ⟨_, rfl, rfl⟩
  obtain ⟨s, houtside, hs⟩ := hrun
  rw [h _ s ⟨_, _, rfl, Machine.run_of_execute hs⟩] at houtside
  cases houtside

end XmlRpcSession

end Drt
