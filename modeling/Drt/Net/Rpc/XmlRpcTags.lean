import Drt.Net.Rpc.XmlRpcDecoder

/-!
# Tags and the reads between them

What `XmlRpcDecoder` does at a tag of the plain form, without blanks, wherever it
stands in the content. Behind a value the decoder looks one tag further, and takes the
end of a parameter; so the octets behind a value decide where a read stops.
-/

open List

namespace Drt

open Outcome

/-- A start tag. -/
def openTag (name : String) : Blob := 60 :: (ascii name ++ [62])

/-- An end tag. -/
def closeTag (name : String) : Blob := 60 :: 47 :: (ascii name ++ [62])

/-- The tags of a member, up to its value. -/
def memberTags (name : Blob) : Blob :=
  openTag "member" ++ (openTag "name" ++ (name ++ closeTag "name"))

/-! ### The texts of the encoder as tags -/

theorem ascii_append (s t : String) : ascii (s ++ t) = ascii s ++ ascii t := by
  simp [ascii]

theorem openTag_eq_ascii (name : String) : openTag name = ascii ("<" ++ name ++ ">") := by
  simp [openTag, ascii]

theorem closeTag_eq_ascii (name : String) : closeTag name = ascii ("</" ++ name ++ ">") := by
  simp [closeTag, ascii]

theorem ascii_startParam : ascii "<param>" = openTag "param" := by
  simp only [openTag_eq_ascii, String.reduceAppend]

theorem ascii_endParam : ascii "</param>" = closeTag "param" := by
  simp only [closeTag_eq_ascii, String.reduceAppend]

theorem ascii_startMember : ascii "<member><name>" = openTag "member" ++ openTag "name" := by
  simp only [openTag_eq_ascii, ← ascii_append, String.reduceAppend]

theorem ascii_endName : ascii "</name>" = closeTag "name" := by
  simp only [closeTag_eq_ascii, String.reduceAppend]

theorem ascii_endMember : ascii "</member>" = closeTag "member" := by
  simp only [closeTag_eq_ascii, String.reduceAppend]

theorem ascii_startArray :
    ascii "<value><array><data>" = openTag "value" ++ (openTag "array" ++ openTag "data") := by
  simp only [openTag_eq_ascii, ← ascii_append, String.reduceAppend]

theorem ascii_endArray : ascii "</data></array></value>" =
    closeTag "data" ++ (closeTag "array" ++ closeTag "value") := by
  simp only [closeTag_eq_ascii, ← ascii_append, String.reduceAppend]

theorem ascii_startStruct : ascii "<value><struct>" = openTag "value" ++ openTag "struct" := by
  simp only [openTag_eq_ascii, ← ascii_append, String.reduceAppend]

theorem ascii_endStruct : ascii "</struct></value>" = closeTag "struct" ++ closeTag "value" := by
  simp only [closeTag_eq_ascii, ← ascii_append, String.reduceAppend]

theorem ascii_startCall :
    ascii "<methodCall><methodName>" = openTag "methodCall" ++ openTag "methodName" := by
  simp only [openTag_eq_ascii, ← ascii_append, String.reduceAppend]

theorem ascii_endMethodName :
    ascii "</methodName><params>" = closeTag "methodName" ++ openTag "params" := by
  simp only [openTag_eq_ascii, closeTag_eq_ascii, ← ascii_append, String.reduceAppend]

theorem ascii_endCall : ascii "</params></methodCall>" =
    closeTag "params" ++ closeTag "methodCall" := by
  simp only [closeTag_eq_ascii, ← ascii_append, String.reduceAppend]

theorem ascii_startResponse : ascii "<methodResponse><params>" =
    openTag "methodResponse" ++ openTag "params" := by
  simp only [openTag_eq_ascii, ← ascii_append, String.reduceAppend]

theorem ascii_endResponse : ascii "</params></methodResponse>" =
    closeTag "params" ++ closeTag "methodResponse" := by
  simp only [closeTag_eq_ascii, ← ascii_append, String.reduceAppend]

theorem ascii_startFault :
    ascii "<methodResponse><fault><value><struct><member><name>faultCode</name><value><int>" =
      openTag "methodResponse" ++ (openTag "fault" ++ (openTag "value" ++ (openTag "struct" ++
        (memberTags (ascii "faultCode") ++ (openTag "value" ++ openTag "int"))))) := by
  simp only [memberTags, openTag_eq_ascii, closeTag_eq_ascii, ← ascii_append, String.reduceAppend]

theorem ascii_endFaultCode :
    ascii "</int></value></member><member><name>faultString</name><value><string>" =
      closeTag "int" ++ (closeTag "value" ++ (closeTag "member" ++
        (memberTags (ascii "faultString") ++ (openTag "value" ++ openTag "string")))) := by
  simp only [memberTags, openTag_eq_ascii, closeTag_eq_ascii, ← ascii_append, String.reduceAppend]

theorem ascii_endFault :
    ascii "</string></value></member></struct></value></fault></methodResponse>" =
      closeTag "string" ++ (closeTag "value" ++ (closeTag "member" ++ (closeTag "struct" ++
        (closeTag "value" ++ (closeTag "fault" ++ closeTag "methodResponse"))))) := by
  simp only [closeTag_eq_ascii, ← ascii_append, String.reduceAppend]

namespace XmlRpcDecoder

/-- A decoder between the octets behind and the octets ahead. -/
def between (behind ahead : Blob) : XmlRpcDecoder := ⟨behind ++ ahead, behind.length, none⟩

/-- The characters of a name. -/
def IsName (name : String) : Prop := ∀ c ∈ ascii name, isNameChar c = true

instance (name : String) : Decidable (IsName name) :=
  inferInstanceAs (Decidable (∀ c ∈ ascii name, isNameChar c = true))

section Primitives

variable (behind ahead : Blob)

@[simp] theorem ahead_between : (between behind ahead).ahead = ahead := by
  simp [between, XmlRpcDecoder.ahead]

@[simp] theorem theEnd_between : (between behind ahead).theEnd = behind.length + ahead.length := by
  simp [between, theEnd]

@[simp] theorem pos_between : (between behind ahead).pos = behind.length := rfl

@[simp] theorem empty_el_between : (between behind ahead).empty_el = none := rfl

@[simp] theorem peek_between (c : UInt8) : (between behind (c :: ahead)).peek = .ok c := by
  simp [between, peek]

theorem skip_between (octets : Blob) :
    (between behind (octets ++ ahead)).skip octets.length = between (behind ++ octets) ahead := by
  simp [between, skip]

@[simp] theorem skip_one_between (c : UInt8) :
    (between behind (c :: ahead)).skip 1 = between (behind ++ [c]) ahead :=
  skip_between behind ahead [c]

theorem back_between (octets : Blob) :
    { between (behind ++ octets) ahead with pos := behind.length } =
      between behind (octets ++ ahead) := by
  simp [between]

theorem skipWhile_between {p : UInt8 → Bool} {run : Blob} {c : UInt8} (value_name : String)
    (hrun : ∀ x ∈ run, p x = true) (hc : p c = false) :
    (between behind (run ++ c :: ahead)).skipWhile p value_name =
      .ok (between (behind ++ run) (c :: ahead)) := by
  have htake : (run ++ c :: ahead).takeWhile p = run := by
    rw [takeWhile_append_of_pos hrun, takeWhile_cons, hc]
    simp
  rw [skipWhile, if_neg (by simp [pos_between]), ahead_between, htake]
  simp only [skip_between]
  rw [if_neg (by simp)]

theorem skipBlanks_between {c : UInt8} (hc : isspace c = false) :
    (between behind (c :: ahead)).skipBlanks = .ok (between behind (c :: ahead)) := by
  have hnone : ∀ x ∈ ([] : Blob), isspace x = true := by simp
  have h := skipWhile_between behind ahead "element" hnone hc
  rwa [nil_append, append_nil] at h

theorem not_blank_of_nameChar {c : UInt8} (h : isNameChar c = true) : isspace c = false := by
  simp only [isNameChar, isalnum, isdigit, isspace, Bool.decide_or, Bool.decide_and] at h ⊢
  simp only [UInt8.le_iff_toNat_le, ← UInt8.toNat_inj] at h ⊢
  simp only [Bool.or_eq_true, Bool.and_eq_true, decide_eq_true_eq, Bool.or_eq_false_iff,
    Bool.and_eq_false_iff, decide_eq_false_iff_not] at h ⊢
  simp at h ⊢
  omega

end Primitives

section Tags

variable {name : String} (hname : IsName name) (behind ahead : Blob)
include hname

theorem takeName_between {c : UInt8} (hc : isNameChar c = false) (hblank : isspace c = false) :
    (between behind (ascii name ++ c :: ahead)).takeName =
      .ok (ascii name, between (behind ++ ascii name) (c :: ahead)) := by
  have htake : (ascii name ++ c :: ahead).takeWhile isNameChar = ascii name := by
    rw [takeWhile_append_of_pos hname, takeWhile_cons, hc]
    simp
  rw [takeName, skipWhile_between behind ahead "element name" hname hc, ahead_between, htake,
    ok_bind, skipBlanks_between _ _ hblank]
  rfl

theorem nameEnd_between (isEnd : Bool) :
    ((between behind (ascii name ++ 62 :: ahead)).takeName >>= fun r =>
        r.2.takeEnd 62 ">" >>= fun d => .ok (XmlRpcElement.mk isEnd r.1, d)) =
      .ok (⟨isEnd, ascii name⟩, between (behind ++ ascii name ++ [62]) ahead) := by
  rw [takeName_between hname behind ahead (by decide) (by decide), ok_bind]
  simp [takeEnd]

theorem head_name :
    ∃ c rest, ascii name ++ 62 :: ahead = c :: rest ∧ isspace c = false ∧ c ≠ 47 ∧ c ≠ 33 := by
  cases htext : ascii name with
  | nil => exact ⟨62, ahead, rfl, by decide, by decide, by decide⟩
  | cons c rest =>
    have hc : isNameChar c = true := hname c (by rw [htext]; exact mem_cons_self)
    refine ⟨c, rest ++ 62 :: ahead, rfl, not_blank_of_nameChar hc, ?_, ?_⟩ <;>
      · rintro rfl
        exact absurd hc (by decide)

/-- A start tag is taken. -/
theorem moveToNextElement_open :
    (between behind (openTag name ++ ahead)).moveToNextElement =
      .ok (⟨false, ascii name⟩, between (behind ++ openTag name) ahead) := by
  obtain ⟨c, rest, htext, hblank, hslash, hbang⟩ := head_name hname ahead
  have hstart : openTag name ++ ahead = 60 :: (ascii name ++ 62 :: ahead) := by simp [openTag]
  have hend : behind ++ openTag name = behind ++ [60] ++ ascii name ++ [62] := by simp [openTag]
  rw [moveToNextElement, empty_el_between]
  simp only [nextElement, hstart]
  rw [skipBlanks_between _ _ (by decide), ok_bind, peek_between, ok_bind, if_pos rfl,
    skip_one_between, htext, skipBlanks_between _ _ hblank, ok_bind, peek_between, ok_bind,
    ← htext]
  have hstep : startElement (between (behind ++ [60]) (ascii name ++ 62 :: ahead)) =
      .ok (⟨false, ascii name⟩, between (behind ++ openTag name) ahead) := by
    rw [startElement, takeName_between hname _ _ (by decide) (by decide), hend]
    simp [takeEnd]
  split
  · exact absurd rfl hslash
  · exact absurd rfl hbang
  · exact hstep

/-- An end tag is taken. -/
theorem moveToNextElement_close :
    (between behind (closeTag name ++ ahead)).moveToNextElement =
      .ok (⟨true, ascii name⟩, between (behind ++ closeTag name) ahead) := by
  obtain ⟨c, rest, htext, hblank, -, -⟩ := head_name hname ahead
  have hstart : closeTag name ++ ahead = 60 :: 47 :: (ascii name ++ 62 :: ahead) := by
    simp [closeTag]
  have hend : behind ++ closeTag name = behind ++ [60] ++ [47] ++ ascii name ++ [62] := by
    simp [closeTag]
  rw [moveToNextElement, empty_el_between]
  simp only [nextElement, hstart]
  rw [skipBlanks_between _ _ (by decide), ok_bind, peek_between, ok_bind, if_pos rfl,
    skip_one_between, skipBlanks_between _ _ (by decide), ok_bind, peek_between, ok_bind]
  simp only [endElement, skip_one_between]
  rw [htext, skipBlanks_between _ _ hblank, ok_bind, ← htext, nameEnd_between hname, hend]

theorem moveToNextElementReqStart_open :
    (between behind (openTag name ++ ahead)).moveToNextElementReqStart name =
      .ok (between (behind ++ openTag name) ahead) := by
  rw [moveToNextElementReqStart, moveToNextElement_open hname]
  simp

theorem moveToNextElementReqEnd_close :
    (between behind (closeTag name ++ ahead)).moveToNextElementReqEnd name =
      .ok (between (behind ++ closeTag name) ahead) := by
  rw [moveToNextElementReqEnd, moveToNextElement_close hname]
  simp

theorem nextValue_between (fuel : Nat) :
    nextValue (fuel + 1) (between behind (openTag "value" ++ (openTag name ++ ahead))) =
      .ok (ascii name, between (behind ++ openTag "value" ++ openTag name) ahead) := by
  rw [nextValue, moveToNextElement_open (by decide), ok_bind]
  simp [moveToNextElement_open hname]

theorem moveToNextValue_between :
    (between behind (openTag "value" ++ (openTag name ++ ahead))).moveToNextValue =
      .ok (ascii name, between (behind ++ openTag "value" ++ openTag name) ahead) :=
  nextValue_between hname behind ahead _

/-- The tag of a parameter is passed before them. -/
theorem moveToNextValue_param :
    (between behind (openTag "param" ++ (openTag "value" ++ (openTag name ++ ahead)))).moveToNextValue =
      .ok (ascii name,
        between (behind ++ openTag "param" ++ openTag "value" ++ openTag name) ahead) := by
  obtain ⟨n, hn⟩ : ∃ n, (between behind
      (openTag "param" ++ (openTag "value" ++ (openTag name ++ ahead)))).theEnd = n + 1 :=
    Nat.exists_eq_succ_of_ne_zero (by simp [openTag])
  have hvalue : ascii "param" ≠ ascii "value" := by decide
  rw [moveToNextValue, hn, nextValue, moveToNextElement_open (by decide), ok_bind]
  simp only [Bool.false_eq_true, if_false, hvalue, if_true]
  exact nextValue_between hname (behind ++ openTag "param") ahead n

theorem checkType_between {type : RpcType} (htype : typeOfTag (ascii name) = .ok type)
    (hresponse : ascii name ≠ ascii "methodResponse") (fuel : Nat) :
    checkType (fuel + 1) (between behind (openTag "value" ++ (openTag name ++ ahead))) =
      .ok (type, between behind (openTag "value" ++ (openTag name ++ ahead))) := by
  have hvalue : ascii "value" ≠ ascii "param" := by decide
  rw [checkType, if_neg (by simp [openTag]), moveToNextElement_open (by decide), ok_bind]
  simp [moveToNextElement_open hname, hvalue, hresponse, htype]
  rfl

theorem readCheckType_between {type : RpcType} (htype : typeOfTag (ascii name) = .ok type)
    (hresponse : ascii name ≠ ascii "methodResponse") :
    (between behind (openTag "value" ++ (openTag name ++ ahead))).readCheckType =
      .ok (type, between behind (openTag "value" ++ (openTag name ++ ahead))) :=
  checkType_between hname behind ahead htype hresponse _

/-- The type of a parameter is looked at; the decoder stops behind the tag of the parameter. -/
theorem readCheckType_param {type : RpcType} (htype : typeOfTag (ascii name) = .ok type)
    (hresponse : ascii name ≠ ascii "methodResponse") :
    (between behind (openTag "param" ++ (openTag "value" ++ (openTag name ++ ahead)))).readCheckType =
      .ok (type, between (behind ++ openTag "param")
        (openTag "value" ++ (openTag name ++ ahead))) := by
  obtain ⟨n, hn⟩ : ∃ n, (between behind
      (openTag "param" ++ (openTag "value" ++ (openTag name ++ ahead)))).theEnd = n + 1 :=
    Nat.exists_eq_succ_of_ne_zero (by simp [openTag])
  rw [readCheckType, hn, checkType, if_neg (by simp [openTag]),
    moveToNextElement_open (by decide), ok_bind]
  exact checkType_between hname (behind ++ openTag "param") ahead htype hresponse n

end Tags

/-- What is taken of the octets behind a value: the end of a parameter, or nothing. -/
structure Follows (ahead taken rest : Blob) : Prop where
  split : ahead = taken ++ rest
  skip : ∀ behind, (between behind ahead).skipParamEnd = .ok (between (behind ++ taken) rest)

theorem follows_param (rest : Blob) : Follows (closeTag "param" ++ rest) (closeTag "param") rest where
  split := rfl
  skip behind := by
    rw [skipParamEnd, moveToNextElement_close (by decide)]
    simp

theorem follows_open {name : String} (hname : IsName name) (rest : Blob) :
    Follows (openTag name ++ rest) [] (openTag name ++ rest) where
  split := rfl
  skip behind := by
    rw [skipParamEnd, moveToNextElement_open hname, append_nil]
    exact congrArg Outcome.ok (back_between behind rest (openTag name))

theorem follows_close {name : String} (hname : IsName name) (hparam : ascii name ≠ ascii "param")
    (rest : Blob) : Follows (closeTag name ++ rest) [] (closeTag name ++ rest) where
  split := rfl
  skip behind := by
    rw [skipParamEnd, moveToNextElement_close hname, append_nil]
    simp only [ok_bind, XmlRpcElement.mk.injEq, hparam, and_false, if_false]
    exact congrArg Outcome.ok (back_between behind rest (closeTag name))

section Values

variable {name : String} (hname : IsName name) (behind : Blob) {ahead taken rest : Blob}
  (hahead : Follows ahead taken rest)
include hname hahead

theorem skipValueEnd_between :
    (between behind (closeTag name ++ (closeTag "value" ++ ahead))).skipValueEnd =
      .ok (between (behind ++ closeTag name ++ closeTag "value" ++ taken) rest) := by
  rw [skipValueEnd, moveToNextElement_close hname]
  simp only [ok_bind, if_true]
  rw [moveToNextElementReqEnd_close (by decide), ok_bind, hahead.skip]

/-- The content of an element, and its end, are taken. -/
theorem readLeaf_between {types : List String} (htypes : name ∈ types) (format_type : String)
    {text : Blob} (htext : ∀ c ∈ text, c ≠ 60) :
    (between behind (openTag "value" ++ (openTag name ++ (text ++
        (closeTag name ++ (closeTag "value" ++ ahead)))))).readLeaf types format_type =
      .ok ((text ++ (closeTag name ++ (closeTag "value" ++ ahead)), text.length),
        between (behind ++ openTag "value" ++ openTag name ++ text ++ closeTag name ++
          closeTag "value" ++ taken) rest) := by
  have hmem : ascii name ∈ types.map ascii := mem_map_of_mem htypes
  have htake : (text ++ (closeTag name ++ (closeTag "value" ++ ahead))).takeWhile (· ≠ 60) = text := by
    have htext : ∀ c ∈ text, decide (c ≠ 60) = true := fun c hc => decide_eq_true (htext c hc)
    rw [takeWhile_append_of_pos htext]
    simp [closeTag]
  rw [readLeaf, moveToNextValue_between hname, ok_bind]
  simp only [hmem, if_true, readContent, empty_el_between, ahead_between, htake, skip_between]
  rw [skipValueEnd_between hname _ hahead]
  rfl

end Values

section Containers

variable (behind : Blob)

theorem checkArrayNext_open (ahead : Blob) :
    (between behind (openTag "value" ++ ahead)).checkArrayNext =
      .ok (true, between behind (openTag "value" ++ ahead)) := by
  rw [checkArrayNext, moveToNextElement_open (by decide)]
  simp only [ok_bind, XmlRpcElement.mk.injEq, Bool.false_eq_true, false_and, if_false]
  exact congrArg (fun d => Outcome.ok (true, d)) (back_between behind ahead (openTag "value"))

theorem checkMember_open (fuel : Nat) (ahead : Blob) :
    checkMember (fuel + 1) (between behind (openTag "member" ++ ahead)) =
      .ok (true, between behind (openTag "member" ++ ahead)) := by
  have hstruct : ascii "member" ≠ ascii "struct" := by decide
  rw [checkMember, moveToNextElement_open (by decide)]
  simp only [ok_bind, Bool.false_eq_true, if_false, structStart, ne_eq, not_true_eq_false,
    and_false, hstruct, not_false_eq_true, if_true]
  exact congrArg (fun d => Outcome.ok (true, d)) (back_between behind ahead (openTag "member"))

theorem checkMember_close (fuel : Nat) (ahead : Blob) :
    checkMember (fuel + 1) (between behind (closeTag "member" ++ ahead)) =
      checkMember fuel (between (behind ++ closeTag "member") ahead) := by
  rw [checkMember, moveToNextElement_close (by decide)]
  rfl

/-- `checkStructNext` at a member, or behind one at its end tag. -/
theorem checkStructNext_between {member ahead : Blob} {r : Call (Bool × XmlRpcDecoder)}
    (hmember : member = [] ∨ member = closeTag "member")
    (h : ∀ fuel, checkMember (fuel + 1) (between (behind ++ member) ahead) = r) :
    (between behind (member ++ ahead)).checkStructNext = r := by
  rcases hmember with rfl | rfl
  · rw [append_nil] at h
    exact h _
  · obtain ⟨n, hn⟩ : ∃ n, (between behind (closeTag "member" ++ ahead)).theEnd = n + 1 :=
      Nat.exists_eq_succ_of_ne_zero (by simp [closeTag])
    rw [checkStructNext, hn, checkMember_close, h]

/-- `checkStructNext` in front of a member, behind the one before. -/
theorem checkStructNext_member {member : Blob} (hmember : member = [] ∨ member = closeTag "member")
    (name ahead : Blob) :
    (between behind (member ++ (memberTags name ++ ahead))).checkStructNext =
      .ok (true, between (behind ++ member) (memberTags name ++ ahead)) := by
  refine checkStructNext_between behind hmember fun fuel => ?_
  simp only [memberTags, append_assoc]
  exact checkMember_open _ fuel _

variable {ahead taken rest : Blob} (hahead : Follows ahead taken rest)
include hahead

theorem checkArrayNext_close :
    (between behind (closeTag "data" ++ (closeTag "array" ++ (closeTag "value" ++ ahead)))).checkArrayNext =
      .ok (false, between (behind ++ closeTag "data" ++ closeTag "array" ++ closeTag "value" ++ taken)
        rest) := by
  rw [checkArrayNext, moveToNextElement_close (by decide)]
  simp only [ok_bind, if_true]
  rw [skipValueEnd_between (by decide) _ hahead]
  rfl

theorem checkMember_struct (fuel : Nat) :
    checkMember (fuel + 1) (between behind (closeTag "struct" ++ (closeTag "value" ++ ahead))) =
      .ok (false, between (behind ++ closeTag "struct" ++ closeTag "value" ++ taken) rest) := by
  have hmember : ascii "struct" ≠ ascii "member" := by decide
  rw [checkMember, moveToNextElement_close (by decide)]
  simp only [ok_bind, if_true, hmember, if_false, pos_between]
  rw [back_between behind _ (closeTag "struct"), skipValueEnd_between (by decide) _ hahead]
  rfl

end Containers

/-- The name of a member is read. -/
theorem readMemberName_between (behind ahead : Blob) {name : Blob} (hname : ∀ c ∈ name, c ≠ 60) :
    (between behind (memberTags name ++ ahead)).readMemberName =
      .ok (.bytes name, between (behind ++ memberTags name) ahead) := by
  have htake : (name ++ (closeTag "name" ++ ahead)).takeWhile (· ≠ 60) = name := by
    have hname : ∀ c ∈ name, decide (c ≠ 60) = true := fun c hc => decide_eq_true (hname c hc)
    rw [takeWhile_append_of_pos hname]
    simp [closeTag]
  simp only [memberTags, append_assoc]
  rw [readMemberName, moveToNextElementReqStart_open (by decide), ok_bind,
    moveToNextElementReqStart_open (by decide), ok_bind]
  simp only [readContent, empty_el_between, if_true, ahead_between, htake, skip_between]
  rw [moveToNextElementReqEnd_close (by decide)]
  simp

end XmlRpcDecoder

end Drt
