import Drt.Net.Rpc.XmlRpcLeaves
import Drt.Net.Rpc.XmlRpcReferences

/-!
# Names and faults in XML-RPC

The name of a method, the names of members and the message of a fault go into the document as
they are; only a string that is a value is escaped. What comes back of them is taken up to the
next tag, and a method name and a message are converted as a string is.
-/

open List

namespace Drt

open XmlRpcEncoder

open Outcome

/-- Every tag begins with this octet. -/
def tagStarts (octets : Blob) : Nat := octets.count 60

/-- The texts that are written besides the values. The code of a fault has another value before it
is read. -/
inductive XmlRpcLabel where
  | methodName
  | memberName
  | faultMessage (code : Int64) (faultCode : Int32)
  deriving DecidableEq, Repr

namespace XmlRpcLabel

/-- The call that writes a text. -/
def write (e : XmlRpcEncoder) (text : DrString) : XmlRpcLabel → XmlRpcEncoder
  | methodName => e.writeMethodName text
  | memberName => e.writeMemberName text
  | faultMessage code _ => e.writeFaultResponse code text

/-- The call that reads it. -/
def read (d : XmlRpcDecoder) : XmlRpcLabel → Call (DrString × XmlRpcDecoder)
  | methodName => d.readMethodName
  | memberName => d.readMemberName
  | faultMessage _ faultCode => do
    let ((_, message), d) ← d.readFaultResponse faultCode
    .ok (message, d)

/-- What is behind the decoder then. `checkStructNext` takes the end of the member before. -/
def before (e : XmlRpcEncoder) : XmlRpcLabel → Blob
  | memberName => e.endMember.content
  | _ => e.content

/-- The text is read back where it was written, whatever comes behind, with the decoder behind what
was written for it, and it begins no tag. -/
def ReadsBack (label : XmlRpcLabel) (text : DrString) (e : XmlRpcEncoder) (ahead : Blob) : Prop :=
  (∃ back, label.read
      ⟨(label.write e text).content ++ ahead, (label.before e).length, none⟩ =
    .ok (back, ⟨(label.write e text).content ++ ahead, (label.write e text).content.length, none⟩) ∧
    back.text = text.text) ∧
  tagStarts (label.write e text).content = tagStarts (label.write e (.bytes [])).content

/-- No character is lost in UTF-8, none begins a tag, and none begins a reference where references
are read. -/
def Unmarked (label : XmlRpcLabel) (text : DrString) : Prop :=
  text.Plain ∧ 60 ∉ text.utf8 ∧ (label ≠ memberName → 38 ∉ text.utf8)

/-- The tags in front of a text. -/
def start : XmlRpcLabel → Blob
  | methodName => openTag "methodCall" ++ openTag "methodName"
  | memberName => openTag "member" ++ openTag "name"
  | faultMessage code _ =>
    openTag "methodResponse" ++ (openTag "fault" ++ (openTag "value" ++ (openTag "struct" ++
      (memberTags (ascii "faultCode") ++ (openTag "value" ++ (openTag "int" ++ (intText 10 code.toInt ++
        (closeTag "int" ++ (closeTag "value" ++ (closeTag "member" ++
          (memberTags (ascii "faultString") ++ (openTag "value" ++ openTag "string"))))))))))))

/-- The tags behind it. -/
def stop : XmlRpcLabel → Blob
  | methodName => closeTag "methodName" ++ openTag "params"
  | memberName => closeTag "name"
  | faultMessage _ _ =>
    closeTag "string" ++ (closeTag "value" ++ (closeTag "member" ++ (closeTag "struct" ++
      (closeTag "value" ++ (closeTag "fault" ++ closeTag "methodResponse")))))

/-- A text is written as it is. -/
theorem content_write (label : XmlRpcLabel) (e : XmlRpcEncoder) (text : DrString) :
    (label.write e text).content =
      label.before e ++ (label.start ++ (text.utf8 ++ label.stop)) := by
  cases label with
  | methodName =>
    simp only [write, writeMethodName, appendAscii,
      append, before, start, stop, ascii_startCall, ascii_endMethodName,
      append_assoc]
  | memberName =>
    simp only [write, writeMemberName, appendAscii,
      append, before, start, stop, ascii_startMember, ascii_endName,
      append_assoc]
  | faultMessage code faultCode =>
    simp only [write, writeFaultResponse, appendAscii,
      append, before, start, stop, ascii_startFault, ascii_endFaultCode,
      ascii_endFault, append_assoc]

/-- So it begins no tag of its own exactly if none of its characters does. -/
theorem tagStarts_write_iff (label : XmlRpcLabel) (e : XmlRpcEncoder) (text : DrString) :
    tagStarts (label.write e text).content = tagStarts (label.write e (.bytes [])).content ↔
      60 ∉ text.utf8 := by
  have hnil : (DrString.bytes []).utf8 = [] := rfl
  rw [content_write, content_write, hnil]
  simp only [tagStarts, count_append, count_nil]
  rw [← count_eq_zero]
  omega

end XmlRpcLabel

namespace XmlRpcDecoder

section Conversion

/-- A reference takes two octets at least, and does not begin with a tag. -/
theorem reference_takes {str : Blob} {o : UInt8} {n : Nat} (h : reference str = .ok (o, n)) :
    2 ≤ n ∧ str.head? ≠ some 60 := by
  by_cases hshort : str.length < 3
  · rw [reference_of_short hshort] at h
    cases h
  · have hnames : ∀ name ∈ [ascii "lt;", ascii "gt;", ascii "quo", ascii "amp"],
        name.head? ≠ some 60 := by decide
    have hhead {name : Blob} (hname : name ∈ [ascii "lt;", ascii "gt;", ascii "quo", ascii "amp"])
        (htake : str.take 3 = name) : str.head? ≠ some 60 := by
      have hstart := hnames name hname
      rwa [← htake, List.head?_take, if_neg (by decide)] at hstart
    rw [reference_of_long (by omega)] at h
    split_ifs at h with hlt hgt hquo hamp hnumber hstop
    · cases h
      exact ⟨by decide, hhead (by simp) hlt⟩
    · cases h
      exact ⟨by decide, hhead (by simp) hgt⟩
    · cases h
      exact ⟨by decide, hhead (by simp) hquo⟩
    · cases h
      exact ⟨by decide, hhead (by simp) hamp⟩
    · cases h
      rw [hnumber]
      exact ⟨by omega, by decide⟩

theorem converted_unmarked {text : Blob} (h : 38 ∉ text) (rest : Blob) :
    converted text rest = .ok text := by
  induction text with
  | nil => rfl
  | cons c text ih =>
    rw [mem_cons, not_or] at h
    obtain ⟨hc, h⟩ := h
    rw [converted_char (Ne.symm hc), ih h, ok_bind]

/-- In front of a tag, a text with references becomes shorter. -/
theorem length_converted {text rest out : Blob} (hstop : rest.head? = some 60)
    (h : converted text rest = .ok out) :
    out.length ≤ text.length ∧ (38 ∈ text → out.length < text.length) := by
  induction hn : text.length using Nat.strong_induction_on generalizing text out with
  | h len ih =>
    cases text with
    | nil =>
      cases h
      exact ⟨Nat.zero_le _, fun hmem => absurd hmem not_mem_nil⟩
    | cons c str =>
      rw [length_cons] at hn
      by_cases hc : c = 38
      · subst hc
        have hshort : out.length < len := by
          rw [converted_reference] at h
          obtain ⟨⟨o, n⟩, href, h⟩ := bind_eq_ok.mp h
          obtain ⟨htwo, hhead⟩ := reference_takes href
          have hwhole : converted (38 :: str) rest = .ok out := by
            rw [converted_reference, href]
            exact h
          by_cases hin : n ≤ str.length
          · rw [converted_taken href hin] at hwhole
            obtain ⟨out', hout', heq⟩ := bind_eq_ok.mp hwhole
            cases heq
            have hdrop : (str.drop n).length = str.length - n := length_drop
            have hle := (ih _ (by omega) hout' rfl).1
            rw [length_cons]
            omega
          · -- the text cannot end with "&": a reference does not begin with the tag behind
            have hne : str ≠ [] := by
              rintro rfl
              exact hhead hstop
            rw [converted_beyond href (by omega)] at hwhole
            cases hwhole
            have hpos := length_pos_iff.mpr hne
            rw [length_singleton]
            omega
        exact ⟨Nat.le_of_lt hshort, fun _ => hshort⟩
      · rw [converted_char hc] at h
        obtain ⟨out', hout', heq⟩ := bind_eq_ok.mp h
        cases heq
        obtain ⟨hle, hlt⟩ := ih _ (by omega) hout' rfl
        rw [length_cons]
        refine ⟨by omega, fun hmem => ?_⟩
        have hmem : 38 ∈ str := (mem_cons.mp hmem).resolve_left (Ne.symm hc)
        have := hlt hmem
        omega

end Conversion

section Reads

variable (behind : Blob) {text : Blob} (htext : 60 ∉ text) (ahead : Blob)
include htext

/-- The content of an element is the text up to the next tag. -/
theorem readContent_between (name : String) :
    (between behind (text ++ (closeTag name ++ ahead))).readContent =
      ((text ++ (closeTag name ++ ahead), text.length),
        between (behind ++ text) (closeTag name ++ ahead)) := by
  have htake : (text ++ (closeTag name ++ ahead)).takeWhile (· ≠ 60) = text := by
    have hall : ∀ c ∈ text, decide (c ≠ 60) = true := by
      intro c hc
      exact decide_eq_true fun heq => htext (heq ▸ hc)
    rw [takeWhile_append_of_pos hall]
    simp [closeTag]
  simp only [readContent, empty_el_between, if_true, ahead_between, htake, skip_between]

/-- A method name is read. -/
theorem readMethodName_between :
    (between behind (XmlRpcLabel.methodName.start ++
        (text ++ (XmlRpcLabel.methodName.stop ++ ahead)))).readMethodName =
      converted text (XmlRpcLabel.methodName.stop ++ ahead) >>= fun out =>
        .ok (.bytes out, between (behind ++
          (XmlRpcLabel.methodName.start ++ (text ++ XmlRpcLabel.methodName.stop))) ahead) := by
  simp only [XmlRpcLabel.start, XmlRpcLabel.stop, append_assoc]
  rw [readMethodName, moveToNextElementReqStart_open (by decide), ok_bind,
    moveToNextElementReqStart_open (by decide), ok_bind, readContent_between _ htext]
  simp only
  rw [moveToNextElementReqEnd_close (by decide), ok_bind,
    moveToNextElementReqStart_open (by decide), ok_bind, convertToString_eq]
  simp only [bind_assoc, ok_bind, append_assoc]

end Reads

section Structs

variable {α : Type} (mapper : StructMapper α) (behind : Blob)

/-- A pass of `readStruct` over a member, behind the one before. -/
theorem readStructMembers_member {member name : Blob}
    (hmember : member = [] ∨ member = closeTag "member") (hname : ∀ c ∈ name, c ≠ 60)
    {reader : α → XmlRpcDecoder → Call (α × XmlRpcDecoder)}
    (hreader : mapper.lookup (.bytes name) = some reader) (fuel : Nat) (struc : α) (ahead : Blob) :
    readStructMembers mapper (fuel + 1) struc
        (between behind (member ++ (memberTags name ++ ahead))) =
      readMapped reader (.bytes name) struc
          (between (behind ++ member ++ memberTags name) ahead) >>=
        fun r => readStructMembers mapper fuel r.1 r.2 := by
  rw [readStructMembers, checkStructNext_member behind hmember, ok_bind]
  simp only [if_true]
  rw [readMemberName_between _ _ hname, ok_bind]
  simp only [hreader]

/-- The last pass of `readStruct`, at the end of the struct. -/
theorem readStructMembers_end {member ahead taken rest : Blob}
    (hmember : member = [] ∨ member = closeTag "member") (hahead : Follows ahead taken rest)
    (fuel : Nat) (struc : α) :
    readStructMembers mapper (fuel + 1) struc
        (between behind (member ++ (closeTag "struct" ++ (closeTag "value" ++ ahead)))) =
      .ok (struc, between (behind ++ member ++ closeTag "struct" ++ closeTag "value" ++ taken)
        rest) := by
  rw [readStructMembers,
    checkStructNext_between behind hmember fun fuel => checkMember_struct _ hahead fuel, ok_bind]
  rfl

end Structs

section Faults

variable (behind : Blob) {text : Blob} (htext : 60 ∉ text) (name : DrString) (fault : FaultRpc)
  (ahead : Blob)
include htext

/-- The code of a fault is read, whatever it is. -/
theorem readMapped_code :
    ∃ code, readMapped FaultRpc.readCode name fault
        (between behind (openTag "value" ++ (openTag "int" ++ (text ++
          (closeTag "int" ++ (closeTag "value" ++ (closeTag "member" ++ ahead))))))) =
      .ok (⟨code, fault.faultString⟩, between (behind ++ openTag "value" ++ openTag "int" ++
        text ++ closeTag "int" ++ closeTag "value") (closeTag "member" ++ ahead)) := by
  have hint : IsName "int" := by decide
  have hmem : "int" ∈ ["i4", "i8", "int"] := by decide
  have hname : IsName "member" := by decide
  have hread := readLeaf_between hint behind (follows_close hname (by decide) ahead) hmem
    "rpc::int::code" (fun c hc heq => htext (heq ▸ hc))
  rw [append_nil] at hread
  refine ⟨int32Of (text ++ (closeTag "int" ++ (closeTag "value" ++ (closeTag "member" ++ ahead))))
    text.length, ?_⟩
  unfold readMapped
  rw [FaultRpc.readCode, readInt32, hread]
  rfl

/-- The message of a fault is read if it can be converted. -/
theorem readMapped_message {r : FaultRpc × XmlRpcDecoder} :
    readMapped FaultRpc.readMessage name fault
        (between behind (openTag "value" ++ (openTag "string" ++ (text ++
          (closeTag "string" ++ (closeTag "value" ++ (closeTag "member" ++ ahead))))))) = .ok r ↔
      ∃ out, converted text
          (closeTag "string" ++ (closeTag "value" ++ (closeTag "member" ++ ahead))) = .ok out ∧
        r = (⟨fault.faultCode, .bytes out⟩, between (behind ++ openTag "value" ++
          openTag "string" ++ text ++ closeTag "string" ++ closeTag "value")
          (closeTag "member" ++ ahead)) := by
  have hstring : IsName "string" := by decide
  have hmem : "string" ∈ ["string"] := by decide
  have hname : IsName "member" := by decide
  have hread := readLeaf_between hstring behind (follows_close hname (by decide) ahead) hmem
    "rpc::string::code" (fun c hc heq => htext (heq ▸ hc))
  rw [append_nil] at hread
  unfold readMapped
  rw [FaultRpc.readMessage, readString, hread, ok_bind]
  simp only
  rw [convertToString_eq]
  cases converted text
      (closeTag "string" ++ (closeTag "value" ++ (closeTag "member" ++ ahead))) with
  | ok out => simp [eq_comm]
  | raise ex => simp
  | fault => simp
  | outOfFuel => simp

end Faults

section Responses

variable (code : Int64) (faultCode : Int32) (behind ahead : Blob)

/-- The first tags of a fault, up to the value of its message. -/
theorem readFaultResponse_between :
    ∃ fault tail n,
      behind ++ (XmlRpcLabel.faultMessage code faultCode).start =
          tail ++ openTag "value" ++ openTag "string" ∧
        readFaultResponse faultCode
            (between behind ((XmlRpcLabel.faultMessage code faultCode).start ++ ahead)) =
          readMapped FaultRpc.readMessage (.bytes (ascii "faultString")) fault
              (between tail (openTag "value" ++ (openTag "string" ++ ahead))) >>= fun r =>
            readStructMembers FaultRpc.rpcMap (n + 2) r.1 r.2 >>= fun r =>
              r.2.moveToNextElementReqEnd "fault" >>= fun d =>
                d.moveToNextElementReqEnd "methodResponse" >>= fun d =>
                  .ok ((r.1.faultCode.toInt64, r.1.faultString), d) := by
  have hcode : 60 ∉ intText 10 code.toInt := fun hmem => ne_of_isPlain (isPlain_of_intText hmem) rfl
  have hnames : (∀ c ∈ ascii "faultCode", c ≠ 60) ∧ ∀ c ∈ ascii "faultString", c ≠ 60 := by decide
  have hlookup : FaultRpc.rpcMap.lookup (.bytes (ascii "faultCode")) = some FaultRpc.readCode ∧
      FaultRpc.rpcMap.lookup (.bytes (ascii "faultString")) = some FaultRpc.readMessage :=
    ⟨rfl, rfl⟩
  generalize hfault : behind ++ openTag "methodResponse" ++ openTag "fault" ++ openTag "value" ++
    openTag "struct" = front
  generalize hmessage : memberTags (ascii "faultString") ++ (openTag "value" ++ (openTag "string" ++
    ahead)) = message
  -- a pass for each member
  obtain ⟨n, hn⟩ : ∃ n, (between front (memberTags (ascii "faultCode") ++ (openTag "value" ++
      (openTag "int" ++ (intText 10 code.toInt ++ (closeTag "int" ++ (closeTag "value" ++
        (closeTag "member" ++ message)))))))).theEnd = n + 3 := by
    refine Nat.exists_eq_add_of_le' ?_
    rw [theEnd_between, length_append]
    have : 3 ≤ (memberTags (ascii "faultCode")).length := by
      simp only [memberTags, openTag, length_append, length_cons]
      omega
    omega
  have hfirst :=
    readStructMembers_member FaultRpc.rpcMap front (.inl rfl) hnames.1 hlookup.1 (n + 3)
    ⟨faultCode, .bytes []⟩ (openTag "value" ++ (openTag "int" ++ (intText 10 code.toInt ++
      (closeTag "int" ++ (closeTag "value" ++ (closeTag "member" ++ message))))))
  rw [nil_append, append_nil] at hfirst
  obtain ⟨value, hvalue⟩ := readMapped_code (front ++ memberTags (ascii "faultCode")) hcode
    (.bytes (ascii "faultCode")) ⟨faultCode, .bytes []⟩ message
  refine ⟨⟨value, .bytes []⟩, front ++ memberTags (ascii "faultCode") ++ openTag "value" ++
    openTag "int" ++ intText 10 code.toInt ++ closeTag "int" ++ closeTag "value" ++ closeTag "member" ++
      memberTags (ascii "faultString"), n, ?_, ?_⟩
  · rw [← hfault]
    simp only [XmlRpcLabel.start, append_assoc]
  · simp only [XmlRpcLabel.start, append_assoc, hmessage]
    rw [readFaultResponse, moveToNextElementReqStart_open (by decide), ok_bind,
      moveToNextElementReqStart_open (by decide), ok_bind, readStruct, readStructLength,
      moveToNextValue_between (by decide), ok_bind, hfault]
    simp only [if_true, ok_bind]
    rw [hn, hfirst, hvalue, ok_bind]
    simp only
    rw [← hmessage, readStructMembers_member FaultRpc.rpcMap _ (.inr rfl) hnames.2 hlookup.2]
    simp only [bind_assoc, append_assoc]

/-- The tags behind the message are taken. -/
theorem readFaultResponse_end (fault : FaultRpc) (fuel : Nat) :
    (readStructMembers FaultRpc.rpcMap (fuel + 1) fault
          (between behind (closeTag "member" ++ (closeTag "struct" ++ (closeTag "value" ++
            (closeTag "fault" ++ (closeTag "methodResponse" ++ ahead)))))) >>= fun r =>
        r.2.moveToNextElementReqEnd "fault" >>= fun d =>
          d.moveToNextElementReqEnd "methodResponse" >>= fun d =>
            .ok ((r.1.faultCode.toInt64, r.1.faultString), d)) =
      .ok ((fault.faultCode.toInt64, fault.faultString), between (behind ++ (closeTag "member" ++
        (closeTag "struct" ++ (closeTag "value" ++ (closeTag "fault" ++ closeTag "methodResponse")))))
        ahead) := by
  have hname : IsName "fault" := by decide
  have hfollows := follows_close hname (by decide) (closeTag "methodResponse" ++ ahead)
  rw [readStructMembers_end FaultRpc.rpcMap behind (.inr rfl) hfollows, ok_bind,
    moveToNextElementReqEnd_close hname, ok_bind, moveToNextElementReqEnd_close (by decide),
    ok_bind]
  simp only [append_assoc, nil_append]

end Responses

end XmlRpcDecoder

namespace XmlRpcLabel

open XmlRpcDecoder

/-- What a text is read as, in front of other octets. -/
def decoded (text rest : Blob) : XmlRpcLabel → Call Blob
  | memberName => .ok text
  | _ => converted text rest

/-- A text that begins no tag is read as far as it can be converted. -/
theorem read_iff (label : XmlRpcLabel) {text : Blob} (htext : 60 ∉ text) (behind ahead : Blob)
    {back : DrString} {d : XmlRpcDecoder} :
    label.read (between behind (label.start ++ (text ++ (label.stop ++ ahead)))) = .ok (back, d) ↔
      ∃ out, label.decoded text (label.stop ++ ahead) = .ok out ∧ back = .bytes out ∧
        d = between (behind ++ (label.start ++ (text ++ label.stop))) ahead := by
  cases label with
  | methodName =>
    simp only [read, decoded]
    rw [readMethodName_between behind htext ahead, bind_eq_ok]
    simp only [ok.injEq, Prod.mk.injEq, eq_comm]
  | memberName =>
    have hname : ∀ c ∈ text, c ≠ 60 := fun c hc heq => htext (heq ▸ hc)
    have hread := readMemberName_between behind ahead hname
    simp only [memberTags, append_assoc] at hread
    simp only [read, decoded, start, stop, append_assoc, hread]
    simp [eq_comm]
  | faultMessage code faultCode =>
    obtain ⟨fault, tail, n, htail, hread⟩ := readFaultResponse_between code faultCode behind
      (text ++ ((faultMessage code faultCode).stop ++ ahead))
    have hplace : behind ++ ((faultMessage code faultCode).start ++
        (text ++ (faultMessage code faultCode).stop)) =
          tail ++ openTag "value" ++ openTag "string" ++
            (text ++ (faultMessage code faultCode).stop) := by
      rw [← append_assoc, htail]
    have hmessage {r : FaultRpc × XmlRpcDecoder} := readMapped_message tail htext
      (.bytes (ascii "faultString")) fault (closeTag "struct" ++ (closeTag "value" ++
        (closeTag "fault" ++ (closeTag "methodResponse" ++ ahead)))) (r := r)
    have hrest (out : Blob) := readFaultResponse_end (tail ++ openTag "value" ++ openTag "string" ++
      text ++ closeTag "string" ++ closeTag "value") ahead ⟨fault.faultCode, .bytes out⟩ (n + 1)
    rw [hplace]
    simp only [read, decoded]
    rw [hread]
    simp only [stop, append_assoc] at hmessage hrest ⊢
    constructor
    · intro h
      obtain ⟨r, hr, hlast⟩ := bind_eq_ok.mp h
      obtain ⟨r', hr', hr⟩ := bind_eq_ok.mp hr
      obtain ⟨out, hout, rfl⟩ := hmessage.mp hr'
      cases hr.symm.trans (hrest out)
      cases hlast
      exact ⟨out, hout, rfl, rfl⟩
    · rintro ⟨out, hout, rfl, rfl⟩
      rw [hmessage.mpr ⟨out, hout, rfl⟩, ok_bind, hrest out, ok_bind]

/-- A text is read as it is without references, or where they are not read. -/
theorem decoded_unmarked {label : XmlRpcLabel} {text : Blob} (h : label ≠ memberName → 38 ∉ text)
    (rest : Blob) : label.decoded text rest = .ok text := by
  cases label with
  | methodName | faultMessage code faultCode => exact converted_unmarked (h (by simp)) rest
  | memberName => rfl

/-- In front of a tag, it becomes shorter with references where they are read. -/
theorem unmarked_of_decoded {label : XmlRpcLabel} {text rest out : Blob}
    (hstop : rest.head? = some 60) (hout : label.decoded text rest = .ok out)
    (hlength : out.length = text.length) : label ≠ memberName → 38 ∉ text := by
  have hshort (h : converted text rest = .ok out) : 38 ∉ text := by
    intro hmem
    exact absurd hlength (Nat.ne_of_lt ((length_converted hstop h).2 hmem))
  cases label with
  | methodName | faultMessage code faultCode => exact fun _ => hshort hout
  | memberName => exact fun hne => absurd rfl hne

/-- A text is read back, with nothing introduced by it, exactly if none of its characters is lost or
taken for markup. -/
theorem readsBack_iff (label : XmlRpcLabel) (text : DrString) (e : XmlRpcEncoder) (ahead : Blob) :
    label.ReadsBack text e ahead ↔ label.Unmarked text := by
  have hlength (s : DrString) : s.text.length = s.utf8.length := by
    cases s with
    | bytes b => exact length_map _
    | wide w => exact (length_map _).symm
  have hbefore : (⟨(label.write e text).content ++ ahead, (label.before e).length, none⟩ :
      XmlRpcDecoder) =
        between (label.before e) (label.start ++ (text.utf8 ++ (label.stop ++ ahead))) := by
    rw [content_write]
    simp [between]
  have hbehind :
      (⟨(label.write e text).content ++ ahead, (label.write e text).content.length, none⟩ :
      XmlRpcDecoder) =
        between (label.before e ++ (label.start ++ (text.utf8 ++ label.stop))) ahead := by
    rw [content_write]
    rfl
  have hstop : (label.stop ++ ahead).head? = some 60 := by
    cases label with
    | methodName => rfl
    | memberName => rfl
    | faultMessage code faultCode => rfl
  unfold ReadsBack Unmarked
  rw [tagStarts_write_iff, and_comm, and_left_comm]
  refine and_congr_right fun htext => ?_
  rw [hbefore, hbehind]
  simp only [label.read_iff htext]
  constructor
  · rintro ⟨back, ⟨out, hout, rfl, -⟩, hback⟩
    have hsame := congrArg List.length hback
    rw [hlength, hlength] at hsame
    have hunmarked := unmarked_of_decoded hstop hout hsame
    rw [decoded_unmarked hunmarked, ok.injEq] at hout
    subst hout
    exact ⟨(DrString.text_setUtf8_utf8 text).mp hback, hunmarked⟩
  · rintro ⟨hplain, hunmarked⟩
    exact ⟨_, ⟨_, decoded_unmarked hunmarked _, rfl, trivial⟩,
      (DrString.text_setUtf8_utf8 text).mpr hplain⟩

/-- A message that ends its value and begins another one: the second one is read. -/
theorem read_second (code : Int64) (faultCode : Int32) {first second : Blob} (behind ahead : Blob)
    (hfirst : 60 ∉ first ∧ 38 ∉ first) (hsecond : 60 ∉ second ∧ 38 ∉ second) :
    let text := first ++ (closeTag "string" ++ (closeTag "value" ++ (closeTag "member" ++
      (memberTags (ascii "faultString") ++ (openTag "value" ++ (openTag "string" ++ second))))))
    (faultMessage code faultCode).read (between behind ((faultMessage code faultCode).start ++
        (text ++ ((faultMessage code faultCode).stop ++ ahead)))) =
      .ok (.bytes second, between (behind ++ ((faultMessage code faultCode).start ++
        (text ++ (faultMessage code faultCode).stop))) ahead) := by
  intro text
  have hname : ∀ c ∈ ascii "faultString", c ≠ 60 := by decide
  have hlookup : FaultRpc.rpcMap.lookup (.bytes (ascii "faultString")) = some FaultRpc.readMessage :=
    rfl
  obtain ⟨fault, tail, n, htail, hread⟩ := readFaultResponse_between code faultCode behind
    (text ++ ((faultMessage code faultCode).stop ++ ahead))
  have hplace : behind ++ ((faultMessage code faultCode).start ++
      (text ++ (faultMessage code faultCode).stop)) =
        tail ++ openTag "value" ++ openTag "string" ++
          (text ++ (faultMessage code faultCode).stop) := by
    rw [← append_assoc, htail]
  have hone := fun rest => (readMapped_message tail hfirst.1 (.bytes (ascii "faultString")) fault
    rest).mpr ⟨first, converted_unmarked hfirst.2 _, rfl⟩
  have htwo := fun tail rest => (readMapped_message tail hsecond.1 (.bytes (ascii "faultString"))
    ⟨fault.faultCode, .bytes first⟩ rest).mpr ⟨second, converted_unmarked hsecond.2 _, rfl⟩
  rw [hplace, read, hread]
  simp only [text, stop, append_assoc]
  rw [hone, ok_bind]
  simp only
  rw [readStructMembers_member FaultRpc.rpcMap _ (.inr rfl) hname hlookup, htwo, ok_bind]
  simp only
  rw [readFaultResponse_end, ok_bind]
  simp only [append_assoc]

/-- A message that ends its value and begins another member is not read back, and its tags are those
of the document. -/
theorem readFaultResponse_markup :
    let message : DrString := .bytes
      (ascii "a</string></value></member><member><name>faultString</name><value><string>b")
    let e := new false
    (faultMessage 1 0).read ⟨((faultMessage 1 0).write e message).content, 0, none⟩ =
        .ok (.bytes (ascii "b"), ⟨((faultMessage 1 0).write e message).content,
          ((faultMessage 1 0).write e message).content.length, none⟩) ∧
      ¬ (faultMessage 1 0).ReadsBack message e [] := by
  intro message e
  have htext : message.utf8 = ascii "a" ++ (closeTag "string" ++ (closeTag "value" ++
      (closeTag "member" ++ (memberTags (ascii "faultString") ++ (openTag "value" ++
        (openTag "string" ++ ascii "b")))))) := by
    simp only [message, DrString.utf8, memberTags, openTag_eq_ascii, closeTag_eq_ascii,
      ← ascii_append, String.reduceAppend]
  have hcontent := content_write (faultMessage 1 0) e message
  have hbefore : (faultMessage 1 0).before e = [] := rfl
  rw [htext, hbefore, nil_append] at hcontent
  have hread : (faultMessage 1 0).read ⟨((faultMessage 1 0).write e message).content, 0, none⟩ =
      .ok (.bytes (ascii "b"), ⟨((faultMessage 1 0).write e message).content,
        ((faultMessage 1 0).write e message).content.length, none⟩) := by
    have hsecond := @read_second 1 0 (ascii "a") (ascii "b") [] [] (by decide)
      (by decide)
    simp only [between, nil_append, append_nil, length_nil] at hsecond
    rw [hcontent]
    exact hsecond
  refine ⟨hread, ?_⟩
  rintro ⟨⟨back, hback, htext⟩, -⟩
  rw [append_nil] at hback
  obtain ⟨rfl, -⟩ := Prod.mk.inj (ok.inj (hread.symm.trans hback))
  exact absurd htext (by decide)

end XmlRpcLabel

end Drt
