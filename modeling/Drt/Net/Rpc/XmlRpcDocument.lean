import Drt.Lib.XmlGrammar
import Drt.Net.Rpc.XmlRpcWrite

/-!
# Calls of the XML-RPC encoder

Calls of `XmlRpcEncoder` one after the other, and which of them are well bracketed: each start
of an array or a struct has its end, a member is a name and one value, and values stand between
the start and the end of a message.
-/

open List

namespace Drt

/-- The write calls of `XmlRpcEncoder`. -/
inductive XmlRpcCall where
  | writeHeader
  | writeMethodName (name : DrString)
  | writeMethodEnd
  | writeMethodResponse
  | writeResponseEnd
  | writeFaultResponse (code : Int64) (message : DrString)
  | writeBool (value : Bool)
  | writeInt32 (value : Int32)
  | writeInt64 (value : Int64)
  | writeDouble (value : UInt64)
  | writeString (value : DrString)
  | writeBinary (value : Blob)
  | writeTime (time : Int64)
  | writeStructLength (count : UInt64)
  | writeArrayLength (count : UInt64)
  | writeMemberName (name : DrString)
  | writeArrayEnd
  | writeStructEnd
  deriving DecidableEq, Repr

namespace XmlRpcEncoder

/-- One call. -/
def call (format : RpcFormat) (e : XmlRpcEncoder) : XmlRpcCall → XmlRpcEncoder
  | .writeHeader => e.writeHeader
  | .writeMethodName name => e.writeMethodName name
  | .writeMethodEnd => e.writeMethodEnd
  | .writeMethodResponse => e.writeMethodResponse
  | .writeResponseEnd => e.writeResponseEnd
  | .writeFaultResponse code message => e.writeFaultResponse code message
  | .writeBool value => e.writeBool value
  | .writeInt32 value => e.writeInt32 value
  | .writeInt64 value => e.writeInt64 value
  | .writeDouble value => e.writeDouble format value
  | .writeString value => e.writeString value
  | .writeBinary value => e.writeBinary value
  | .writeTime time => e.writeTime format time
  | .writeStructLength count => e.writeStructLength count
  | .writeArrayLength count => e.writeArrayLength count
  | .writeMemberName name => e.writeMemberName name
  | .writeArrayEnd => e.writeArrayEnd
  | .writeStructEnd => e.writeStructEnd

/-- One call after the other. -/
def run (format : RpcFormat) (e : XmlRpcEncoder) (calls : List XmlRpcCall) : XmlRpcEncoder :=
  calls.foldl (call format) e

/-- Whether what `sprintf` writes in `writeTime` has room: for 28 octets, one of them behind the
text. -/
def hasRoom (format : RpcFormat) : XmlRpcCall → Bool
  | .writeTime time => (timeText (format.timeToUtcCalendar time)).length < 28
  | _ => true

/-- One call, as far as it is defined. -/
def callChecked (format : RpcFormat) (e : XmlRpcEncoder) (c : XmlRpcCall) : Call XmlRpcEncoder :=
  if hasRoom format c then .ok (e.call format c) else .fault

/-- One call after the other. -/
def runChecked (format : RpcFormat) (e : XmlRpcEncoder) : List XmlRpcCall → Call XmlRpcEncoder
  | [] => .ok e
  | c :: calls => callChecked format e c >>= fun e => e.runChecked format calls

variable {format : RpcFormat} {e : XmlRpcEncoder}

@[simp] theorem run_nil : e.run format [] = e := rfl

@[simp] theorem run_cons (c : XmlRpcCall) (calls : List XmlRpcCall) :
    e.run format (c :: calls) = (e.call format c).run format calls := rfl

@[simp] theorem run_append (calls calls' : List XmlRpcCall) :
    e.run format (calls ++ calls') = (e.run format calls).run format calls' := foldl_append

/-- Calls are defined as long as all of them have room. -/
theorem runChecked_eq (calls : List XmlRpcCall) : e.runChecked format calls =
    if calls.all (hasRoom format) then .ok (e.run format calls) else .fault := by
  induction calls generalizing e with
  | nil => rfl
  | cons c calls ih =>
    rw [runChecked, callChecked, all_cons]
    cases hasRoom format c with
    | true =>
      rw [if_pos rfl, Outcome.ok_bind, ih, Bool.true_and]
      rfl
    | false => rfl

end XmlRpcEncoder

namespace XmlRpcCall

/-- A value without others in it. -/
def IsLeaf : XmlRpcCall → Prop
  | writeBool _ | writeInt32 _ | writeInt64 _ | writeDouble _ | writeString _ | writeBinary _
  | writeTime _ => True
  | _ => False

/-- A name or message without a character of markup. -/
def MarkupFree (s : DrString) : Prop := ∀ c ∈ s.utf8, c ≠ 60 ∧ c ≠ 62 ∧ c ≠ 38

instance (s : DrString) : Decidable (MarkupFree s) := inferInstanceAs (Decidable (∀ c ∈ s.utf8, _))

/-- What the calls between the start and the end of a message are for. -/
inductive Part where
  | value
  | values
  | members
  deriving DecidableEq, Repr

/-- Calls that are well bracketed, for so many values or members. The lengths that the starts of
arrays and structs are given may be any. -/
inductive Bracketed : Part → Nat → List XmlRpcCall → Prop where
  | leaf {c : XmlRpcCall} (leaf : c.IsLeaf) : Bracketed .value 1 [c]
  | array {n : Nat} {calls : List XmlRpcCall} (count : UInt64) (elements : Bracketed .values n calls) :
      Bracketed .value 1 (writeArrayLength count :: (calls ++ [writeArrayEnd]))
  | struct {n : Nat} {calls : List XmlRpcCall} (count : UInt64) (members : Bracketed .members n calls) :
      Bracketed .value 1 (writeStructLength count :: (calls ++ [writeStructEnd]))
  | noValues : Bracketed .values 0 []
  | values {n : Nat} {calls calls' : List XmlRpcCall} (first : Bracketed .value 1 calls)
      (others : Bracketed .values n calls') : Bracketed .values (n + 1) (calls ++ calls')
  | noMembers : Bracketed .members 0 []
  | members {n : Nat} {calls calls' : List XmlRpcCall} {name : DrString} (free : MarkupFree name)
      (first : Bracketed .value 1 calls) (others : Bracketed .members n calls') :
      Bracketed .members (n + 1) (writeMemberName name :: (calls ++ calls'))

/-- The calls for a message with so many values, but for the header. -/
inductive Message : Nat → List XmlRpcCall → Prop where
  | call {n : Nat} {calls : List XmlRpcCall} {name : DrString} (free : MarkupFree name)
      (values : Bracketed .values n calls) :
      Message n (writeMethodName name :: (calls ++ [writeMethodEnd]))
  | response {n : Nat} {calls : List XmlRpcCall} (values : Bracketed .values n calls) :
      Message n (writeMethodResponse :: (calls ++ [writeResponseEnd]))
  | fault {message : DrString} (code : Int64) (free : MarkupFree message) :
      Message 0 [writeFaultResponse code message]

end XmlRpcCall

end Drt

/-!
## Documents of XML-RPC

What well bracketed calls append: text in which each value is in its element, each member holds
a name and a value, and each value of a message stands in a parameter of its own. Such text is a
well-formed document.
-/

namespace Drt

open XmlGrammar (CharData Content isPlain)
open XmlRpcCall

/-- An element with some content. -/
def xmlElement (name : String) (body : Blob) : Blob := XmlGrammar.element (ascii name) body

theorem xmlElement_eq (name : String) (body : Blob) :
    xmlElement name body = openTag name ++ (body ++ closeTag name) := rfl

/-- The types of the values without others in them. -/
def leafTypes : List String :=
  ["int", "i8", "boolean", "double", "string", "base64", "dateTime.iso8601"]

/-- The text of a value, of so many values, or of so many members. -/
inductive XmlRpcText : Part → Nat → Blob → Prop where
  | leaf {type : String} {text : Blob} (known : type ∈ leafTypes) (data : CharData text) :
      XmlRpcText .value 1 (xmlElement "value" (xmlElement type text))
  | array {n : Nat} {body : Blob} (elements : XmlRpcText .values n body) :
      XmlRpcText .value 1 (xmlElement "value" (xmlElement "array" (xmlElement "data" body)))
  | struct {n : Nat} {body : Blob} (members : XmlRpcText .members n body) :
      XmlRpcText .value 1 (xmlElement "value" (xmlElement "struct" body))
  | noValues : XmlRpcText .values 0 []
  | values {n : Nat} {text rest : Blob} (first : XmlRpcText .value 1 text)
      (others : XmlRpcText .values n rest) : XmlRpcText .values (n + 1) (text ++ rest)
  | noMembers : XmlRpcText .members 0 []
  | members {n : Nat} {name text rest : Blob} (data : CharData name)
      (first : XmlRpcText .value 1 text) (others : XmlRpcText .members n rest) :
      XmlRpcText .members (n + 1) (xmlElement "member" (xmlElement "name" name ++ text) ++ rest)

/-- Each value in a parameter of its own. -/
def paramsText (values : List Blob) : Blob :=
  xmlElement "params" (values.flatMap (xmlElement "param"))

/-- The text of a message with so many values, but for the header. -/
inductive XmlRpcMessageText : Nat → Blob → Prop where
  | call {name : Blob} {values : List Blob} (data : CharData name)
      (each : ∀ value ∈ values, XmlRpcText .value 1 value) :
      XmlRpcMessageText values.length
        (xmlElement "methodCall" (xmlElement "methodName" name ++ paramsText values))
  | response {values : List Blob} (each : ∀ value ∈ values, XmlRpcText .value 1 value) :
      XmlRpcMessageText values.length (xmlElement "methodResponse" (paramsText values))
  | fault {value : Blob} (text : XmlRpcText .value 1 value) :
      XmlRpcMessageText 0 (xmlElement "methodResponse" (xmlElement "fault" value))

theorem content_xmlElement {name : String} {body : Blob} (named : XmlGrammar.isName (ascii name))
    (inner : Content body) : Content (xmlElement name body) :=
  .of_element named inner

/-- The text of values and members is content. -/
theorem XmlRpcText.content {part : Part} {n : Nat} {text : Blob} (h : XmlRpcText part n text) :
    Content text := by
  induction h with
  | @leaf type text known data =>
    have hnamed : ∀ type ∈ leafTypes, XmlGrammar.isName (ascii type) := by decide
    exact content_xmlElement (by decide) (content_xmlElement (hnamed type known) data.content)
  | array _ ih =>
    exact content_xmlElement (by decide)
      (content_xmlElement (by decide) (content_xmlElement (by decide) ih))
  | struct _ ih => exact content_xmlElement (by decide) (content_xmlElement (by decide) ih)
  | noValues => exact .nil
  | values _ _ ih ih' => exact ih.append ih'
  | noMembers => exact .nil
  | members data _ _ ih ih' =>
    have hname : Content (xmlElement "name" _) := content_xmlElement (by decide) data.content
    exact (content_xmlElement (by decide) (hname.append ih)).append ih'

theorem content_params {values : List Blob} (each : ∀ value ∈ values, XmlRpcText .value 1 value) :
    Content (paramsText values) := by
  refine content_xmlElement (by decide) ?_
  induction values with
  | nil => exact .nil
  | cons value values ih =>
    obtain ⟨hvalue, each⟩ := forall_mem_cons.mp each
    rw [flatMap_cons]
    exact (content_xmlElement (by decide) hvalue.content).append (ih each)

/-- The text of a message is one element. -/
theorem XmlRpcMessageText.document {n : Nat} {text prolog : Blob} (h : XmlRpcMessageText n text)
    (hprolog : XmlGrammar.IsProlog prolog) : XmlGrammar.Document (prolog ++ text) := by
  cases h with
  | call data each =>
    have hname : Content (xmlElement "methodName" _) :=
      content_xmlElement (by decide) data.content
    exact ⟨prolog, _, _, rfl, hprolog, by decide, hname.append (content_params each)⟩
  | response each => exact ⟨prolog, _, _, rfl, hprolog, by decide, content_params each⟩
  | fault value =>
    exact ⟨prolog, _, _, rfl, hprolog, by decide, content_xmlElement (by decide) value.content⟩

variable {c : UInt8}

theorem isPlain_of_digit (h : digitValue c < 10) : isPlain c = true := by
  have hdigit (d : Nat) (hd : d < 10) : isPlain (digitChar d) = true := by
    revert d
    decide
  rw [eq_digitChar h]
  exact hdigit _ h

theorem isPlain_of_numberText {number : Nat} (h : c ∈ numberText 10 number) : isPlain c = true :=
  isPlain_of_digit (digitValue_lt_of_mem (by decide) (by decide) h)

theorem isPlain_of_intText {number : Int} (h : c ∈ intText 10 number) : isPlain c = true := by
  unfold intText at h
  split at h
  · obtain rfl | h := mem_cons.mp h
    · decide
    · exact isPlain_of_numberText h
  · exact isPlain_of_numberText h

theorem isPlain_of_padded {width : Nat} {number : Int32}
    (h : c ∈ XmlRpcEncoder.padded width number) :
    isPlain c = true := by
  have hdigits (n : Nat) {c : UInt8}
      (h : c ∈ List.replicate n 48 ++ numberText 10 number.toInt.natAbs) : isPlain c = true := by
    obtain h | h := mem_append.mp h
    · rw [eq_of_mem_replicate h]
      decide
    · exact isPlain_of_numberText h
  unfold XmlRpcEncoder.padded at h
  dsimp only at h
  split at h
  · obtain rfl | h := mem_cons.mp h
    · decide
    · exact hdigits _ h
  · exact hdigits _ h

theorem isPlain_of_timeText {cal : Calendar} (h : c ∈ XmlRpcEncoder.timeText cal) :
    isPlain c = true := by
  have hmarks : ∀ c ∈ ascii "T" ++ ascii ":" ++ ascii "+0000", isPlain c = true := by decide
  unfold XmlRpcEncoder.timeText at h
  simp only [mem_append] at h hmarks
  rcases h with ((((((((h | h) | h) | h) | h) | h) | h) | h) | h) | h
  all_goals first
    | exact isPlain_of_padded h
    | exact hmarks c (by simp [h])

theorem isPlain_cb64 (v : UInt8) : isPlain (MemBase64.cb64 v) = true := by
  have hall : ∀ n < 256, isPlain (MemBase64.cb64 (UInt8.ofNat n)) = true := by decide +kernel
  have hv := hall v.toNat v.toNat_lt
  rwa [UInt8.ofNat_toNat] at hv

theorem isPlain_of_block {a b o : UInt8} {len : Int32}
    (h : o ∈ MemBase64.encodeB64Block a b c len) :
    isPlain o = true := by
  have hpad : isPlain 61 = true := by decide
  unfold MemBase64.encodeB64Block at h
  simp only [mem_cons, not_mem_nil, or_false] at h
  rcases h with rfl | rfl | rfl | rfl
  · exact isPlain_cb64 _
  · exact isPlain_cb64 _
  · split
    · exact isPlain_cb64 _
    · exact hpad
  · split
    · exact isPlain_cb64 _
    · exact hpad

theorem isPlain_of_base64 {data : Blob} (h : c ∈ MemBase64.encodeBase64 data) :
    isPlain c = true := by
  induction data using MemBase64.encodeBase64.induct with
  | case1 => cases h
  | case2 a | case3 a b => exact isPlain_of_block h
  | case4 a b c data ih =>
    rw [MemBase64.encodeBase64] at h
    obtain h | h := mem_append.mp h
    · exact isPlain_of_block h
    · exact ih h

/-- What stands for a character is it itself, or a reference. -/
theorem charData_escape (c : UInt8) : CharData (XmlRpcEncoder.escape c) := by
  have hreference (name : Blob) (h : name ∈ XmlGrammar.predefined) :
      CharData (38 :: (name ++ [59])) := .reference h .nil
  unfold XmlRpcEncoder.escape
  split_ifs with hamp hlt hgt
  · exact hreference [97, 109, 112] (by decide)
  · exact hreference [108, 116] (by decide)
  · exact hreference [103, 116] (by decide)
  · refine .char ?_ .nil
    simp [isPlain, hamp, hlt, hgt]

theorem charData_escaped (s : DrString) : CharData (XmlRpcEncoder.escaped s).utf8 := by
  rw [XmlRpcEncoder.utf8_escaped]
  exact CharData.flatMap charData_escape

theorem charData_of_markupFree {s : DrString} (h : MarkupFree s) : CharData s.utf8 := by
  refine CharData.of_plain fun c hc => ?_
  obtain ⟨hlt, hgt, hamp⟩ := h c hc
  simp [isPlain, hlt, hgt, hamp]

namespace XmlRpcEncoder

variable {format : RpcFormat}

theorem leafText_eq (type : String) (text : Blob) :
    leafText type text = xmlElement "value" (xmlElement type text) := by
  simp only [leafText, xmlElement_eq, append_assoc]

/-- The calls for leaves write values. -/
theorem writes_of_isLeaf (hformat : ∀ bits, CharData (format.sprintf bits)) {c : XmlRpcCall}
    (hleaf : c.IsLeaf) :
    ∃ text, XmlRpcText .value 1 text ∧ ∀ e : XmlRpcEncoder, e.Writes (e.call format c) text := by
  have hwrites (type : String) {start stop : String} {text : Blob} (known : type ∈ leafTypes)
      (data : CharData text) (hstart : ascii start = openTag "value" ++ openTag type)
      (hstop : ascii stop = closeTag type ++ closeTag "value") :
      ∃ octets, XmlRpcText .value 1 octets ∧
        ∀ e : XmlRpcEncoder, e.Writes (e.writeLeaf start text stop) octets := by
    refine ⟨leafText type text, ?_, fun e => writes_leaf e text hstart hstop⟩
    rw [leafText_eq]
    exact .leaf known data
  cases c with
  | writeBool value =>
    refine hwrites "boolean" (by decide) (.of_plain ?_) (by decide) (by decide)
    cases value <;> decide
  | writeInt32 value =>
    exact hwrites "int" (by decide) (.of_plain fun _ => isPlain_of_intText) (by decide)
      (by decide)
  | writeInt64 value =>
    change ∃ text, _ ∧ ∀ e : XmlRpcEncoder, e.Writes (e.writeInt64 value) text
    unfold writeInt64
    split_ifs
    · exact hwrites "int" (by decide) (.of_plain fun _ => isPlain_of_intText) (by decide)
        (by decide)
    · exact hwrites "i8" (by decide) (.of_plain fun _ => isPlain_of_intText) (by decide)
        (by decide)
  | writeDouble value =>
    exact hwrites "double" (by decide) (hformat value) (by decide) (by decide)
  | writeString value =>
    exact hwrites "string" (by decide) (charData_escaped value) (by decide) (by decide)
  | writeBinary value =>
    exact hwrites "base64" (by decide) (.of_plain fun _ => isPlain_of_base64) (by decide)
      (by decide)
  | writeTime time =>
    exact hwrites "dateTime.iso8601" (by decide) (.of_plain fun _ => isPlain_of_timeText)
      (by decide) (by decide)
  | _ => exact hleaf.elim

/-- What well bracketed calls write, wherever they stand. -/
def Written (format : RpcFormat) : Part → Nat → List XmlRpcCall → Prop
  | .value, _, calls =>
    ∃ text, XmlRpcText .value 1 text ∧ ∀ e : XmlRpcEncoder, e.Writes (e.run format calls) text
  | .values, n, calls =>
    ∃ texts : List Blob, texts.length = n ∧ (∀ text ∈ texts, XmlRpcText .value 1 text) ∧
      ∀ e : XmlRpcEncoder, (e.run format calls).content = e.content ++
          (if e.value_level = 0 then texts.flatMap (xmlElement "param") else texts.flatten) ∧
        (e.run format calls).value_level = e.value_level ∧
        (e.struct_clean = false → (e.run format calls).struct_clean = false)
  | .members, n, calls =>
    ∃ text, XmlRpcText .members n text ∧ ∀ e : XmlRpcEncoder, e.value_level ≠ 0 →
      (e.run format calls).settled = e.settled ++ text ∧
        (e.run format calls).value_level = e.value_level

theorem text_flatten {texts : List Blob} (h : ∀ text ∈ texts, XmlRpcText .value 1 text) :
    XmlRpcText .values texts.length texts.flatten := by
  induction texts with
  | nil => exact .noValues
  | cons text texts ih =>
    obtain ⟨htext, h⟩ := forall_mem_cons.mp h
    rw [flatten_cons, length_cons]
    exact .values htext (ih h)

variable {n : Nat} {calls calls' : List XmlRpcCall}

/-- An array of values that are written. -/
theorem written_array (count : UInt64) (h : Written format .values n calls) :
    Written format .value 1 (.writeArrayLength count :: (calls ++ [.writeArrayEnd])) := by
  obtain ⟨texts, rfl, htexts, hwrites⟩ := h
  refine ⟨_, .array (text_flatten htexts), fun e => ?_⟩
  have hbody : ∀ e : XmlRpcEncoder, e.value_level ≠ 0 →
      (e.run format calls).content = e.content ++ texts.flatten ∧
        (e.run format calls).value_level = e.value_level ∧
        (e.struct_clean = false → (e.run format calls).struct_clean = false) := by
    intro e hlevel
    have hcalls := hwrites e
    rwa [if_neg hlevel] at hcalls
  have harray := writes_array_of (fun e => e.run format calls) count hbody e
  simp only [xmlElement_eq, append_assoc]
  rw [run_cons, run_append]
  exact harray

theorem written_struct (count : UInt64) (h : Written format .members n calls) :
    Written format .value 1 (.writeStructLength count :: (calls ++ [.writeStructEnd])) := by
  obtain ⟨text, htext, hwrites⟩ := h
  refine ⟨_, .struct htext, fun e => ?_⟩
  have hstruct := writes_struct_of (fun e => e.run format calls) count hwrites e
  simp only [xmlElement_eq, append_assoc]
  rw [run_cons, run_append]
  exact hstruct

/-- A value in front of others. -/
theorem written_values (h : Written format .value 1 calls) (h' : Written format .values n calls') :
    Written format .values (n + 1) (calls ++ calls') := by
  obtain ⟨text, htext, hwrites⟩ := h
  obtain ⟨texts, rfl, htexts, hwrites'⟩ := h'
  refine ⟨text :: texts, rfl, forall_mem_cons.mpr ⟨htext, htexts⟩, fun e => ?_⟩
  obtain ⟨hcontent, hlevel, hclean⟩ := hwrites e
  obtain ⟨hcontent', hlevel', hclean'⟩ := hwrites' (e.run format calls)
  rw [run_append]
  refine ⟨?_, hlevel'.trans hlevel, fun h => hclean' (hclean h)⟩
  rw [hcontent', hcontent, hlevel, append_assoc]
  by_cases hzero : e.value_level = 0
  · simp only [if_pos hzero, flatMap_cons]
    rfl
  · simp only [if_neg hzero, flatten_cons]

/-- A member in front of others. -/
theorem written_members {name : DrString} (free : MarkupFree name)
    (h : Written format .value 1 calls) (h' : Written format .members n calls') :
    Written format .members (n + 1) (.writeMemberName name :: (calls ++ calls')) := by
  obtain ⟨text, htext, hwrites⟩ := h
  obtain ⟨rest, hrest, hwrites'⟩ := h'
  refine ⟨_, .members (charData_of_markupFree free) htext hrest, fun e hlevel => ?_⟩
  obtain ⟨hsettled, hlevel₁⟩ :=
    writeMember_settled_of (fun e => e.run format calls) name hwrites hlevel
  rw [run_cons, run_append]
  obtain ⟨hsettled', hlevel₂⟩ := hwrites' ((e.writeMemberName name).run format calls)
    (by rwa [hlevel₁])
  refine ⟨?_, hlevel₂.trans hlevel₁⟩
  refine hsettled'.trans ?_
  rw [hsettled]
  simp only [xmlElement_eq, memberTags, append_assoc]

section

variable (hformat : ∀ bits, CharData (format.sprintf bits))
include hformat

/-- Well bracketed calls are written. The induction is on how they are bracketed. -/
theorem written_of_bracketed {part : Part} (h : Bracketed part n calls) :
    Written format part n calls := by
  induction h with
  | leaf leaf => exact writes_of_isLeaf hformat leaf
  | array count _ ih => exact written_array count ih
  | struct count _ ih => exact written_struct count ih
  | noValues =>
    refine ⟨[], rfl, fun _ h => absurd h not_mem_nil, fun e => ⟨?_, rfl, id⟩⟩
    rw [run_nil]
    split <;> exact (append_nil _).symm
  | values _ _ ih ih' => exact written_values ih ih'
  | noMembers => exact ⟨[], .noMembers, fun e _ => ⟨(append_nil _).symm, rfl⟩⟩
  | members free _ _ ih ih' => exact written_members free ih ih'

/-- The calls for a message write its text. -/
theorem text_of_message (h : XmlRpcCall.Message n calls) {e : XmlRpcEncoder}
    (hlevel : e.value_level = 0) :
    ∃ text, XmlRpcMessageText n text ∧ (e.run format calls).content = e.content ++ text := by
  cases h with
  | @call n calls name free values =>
    obtain ⟨texts, rfl, htexts, hwrites⟩ := written_of_bracketed hformat values
    refine ⟨_, .call (charData_of_markupFree free) htexts, ?_⟩
    obtain ⟨hcontent, -, -⟩ := hwrites (e.writeMethodName name)
    have hzero : (e.writeMethodName name).value_level = 0 := hlevel
    rw [if_pos hzero] at hcontent
    rw [run_cons, run_append]
    change ((e.writeMethodName name).run format calls).content ++ _ = _
    rw [hcontent]
    change (((e.content ++ ascii _) ++ name.utf8) ++ ascii _) ++ _ ++ ascii _ = _
    rw [ascii_startCall, ascii_endMethodName, ascii_endCall]
    simp only [paramsText, xmlElement_eq, append_assoc]
  | @response n calls values =>
    obtain ⟨texts, rfl, htexts, hwrites⟩ := written_of_bracketed hformat values
    refine ⟨_, .response htexts, ?_⟩
    obtain ⟨hcontent, -, -⟩ := hwrites e.writeMethodResponse
    have hzero : e.writeMethodResponse.value_level = 0 := hlevel
    rw [if_pos hzero] at hcontent
    rw [run_cons, run_append]
    change (e.writeMethodResponse.run format calls).content ++ _ = _
    rw [hcontent]
    change (e.content ++ ascii _) ++ _ ++ ascii _ = _
    rw [ascii_startResponse, ascii_endResponse]
    simp only [paramsText, xmlElement_eq, append_assoc]
  | @fault message code free =>
    have hcode : XmlRpcText .value 1
        (xmlElement "value" (xmlElement "int" (intText 10 code.toInt))) :=
      .leaf (by decide) (.of_plain fun _ => isPlain_of_intText)
    have hmessage : XmlRpcText .value 1
        (xmlElement "value" (xmlElement "string" message.utf8)) :=
      .leaf (by decide) (charData_of_markupFree free)
    have hplain (name : String) (h : ∀ c ∈ ascii name, isPlain c = true) : CharData (ascii name) :=
      .of_plain h
    refine ⟨_, .fault (.struct (.members (hplain "faultCode" (by decide)) hcode
      (.members (hplain "faultString" (by decide)) hmessage .noMembers))), ?_⟩
    rw [run_cons, run_nil]
    change ((((e.content ++ ascii _) ++ _) ++ ascii _) ++ _) ++ ascii _ = _
    rw [ascii_startFault, ascii_endFaultCode, ascii_endFault]
    simp only [memberTags, xmlElement_eq, append_assoc, append_nil]

/-- The text of a message is written, with the header in front or without it. -/
theorem text_of_header (struct_clean : Bool) {header : List XmlRpcCall}
    (hheader : header = [] ∨ header = [.writeHeader]) (h : XmlRpcCall.Message n calls) :
    ∃ prolog text, ((new struct_clean).run format (header ++ calls)).content = prolog ++ text ∧
      XmlGrammar.IsProlog prolog ∧ XmlRpcMessageText n text := by
  obtain ⟨prolog, hprolog, hcontent, hlevel⟩ : ∃ prolog, XmlGrammar.IsProlog prolog ∧
      ((new struct_clean).run format header).content = prolog ∧
      ((new struct_clean).run format header).value_level = 0 := by
    obtain rfl | rfl := hheader
    · exact ⟨[], ⟨[], [], rfl, .inl rfl, by decide⟩, rfl, rfl⟩
    · refine ⟨_, ⟨XmlGrammar.declaration, [10], rfl, .inr rfl, by decide⟩, ?_, rfl⟩
      change [] ++ ascii "<?xml version=\"1.0\"?>\n" = _
      decide
  obtain ⟨text, htext, hrun⟩ := text_of_message hformat h hlevel
  rw [hcontent] at hrun
  rw [run_append]
  exact ⟨prolog, text, hrun, hprolog, htext⟩

end

theorem length_padded_two {number : Int32} (hpos : 0 ≤ number.toInt) (hlt : number.toInt < 100) :
    (padded 2 number).length = 2 := by
  have hnumber : ¬ number < 0 := by
    rw [Int32.lt_iff_toInt_lt]
    exact not_lt.mpr hpos
  have hdigits : (numberText 10 number.toInt.natAbs).length ≤ 1 + 1 :=
    (length_numberText_le_iff (by decide) (by omega)).mpr (by omega)
  unfold padded
  dsimp only
  rw [if_neg hnumber, length_append, length_replicate]
  omega

/-- How long a year is: the one that is too long is below zero. -/
theorem length_padded_year {year : Int32} (hlt : year.toInt < 1000000000) :
    (padded 4 year).length ≤ 9 ↔ -100000000 < year.toInt := by
  have hbounds : -2 ^ 31 ≤ year.toInt := year.le_toInt
  by_cases hneg : year.toInt < 0
  · have hdigits : (numberText 10 year.toInt.natAbs).length ≤ 7 + 1 ↔ _ :=
      length_numberText_le_iff (by decide) (by omega)
    have hyear : year < 0 := by
      rw [Int32.lt_iff_toInt_lt]
      exact hneg
    unfold padded
    dsimp only
    rw [if_pos hyear, length_cons, length_append, length_replicate]
    omega
  · have hdigits : (numberText 10 year.toInt.natAbs).length ≤ 8 + 1 ↔ _ :=
      length_numberText_le_iff (by decide) (by omega)
    have hyear : ¬ year < 0 := by
      rw [Int32.lt_iff_toInt_lt]
      exact hneg
    unfold padded
    dsimp only
    rw [if_neg hyear, length_append, length_replicate]
    omega

end XmlRpcEncoder

/-- The fields are those of a day and a time of it, and the year is one of a time in 64 bits. -/
structure Calendar.InRange (cal : Calendar) : Prop where
  year : cal.year.toInt < 1000000000
  mon : 0 ≤ cal.mon.toInt ∧ cal.mon.toInt ≤ 11
  mday : 0 ≤ cal.mday.toInt ∧ cal.mday.toInt ≤ 30
  hour : 0 ≤ cal.hour.toInt ∧ cal.hour.toInt ≤ 23
  min : 0 ≤ cal.min.toInt ∧ cal.min.toInt ≤ 59
  sec : 0 ≤ cal.sec.toInt ∧ cal.sec.toInt ≤ 60

namespace XmlRpcEncoder

variable {format : RpcFormat}

theorem toInt_add_one {number : Int32} (hpos : 0 ≤ number.toInt) (hlt : number.toInt < 100) :
    (number + 1).toInt = number.toInt + 1 := by
  rw [Int32.toInt_add]
  exact Int.bmod_eq_of_le_mul_two (by change _ ≤ (number.toInt + 1) * 2; omega)
    (by change (number.toInt + 1) * 2 < _; omega)

/-- The text of a time has room unless the year is far below zero. -/
theorem length_timeText_lt_iff {cal : Calendar} (h : cal.InRange) :
    (timeText cal).length < 28 ↔ -100000000 < cal.year.toInt := by
  have hmon := toInt_add_one h.mon.1 (by have := h.mon.2; omega)
  have hmday := toInt_add_one h.mday.1 (by have := h.mday.2; omega)
  have hmonText : (padded 2 (cal.mon + 1)).length = 2 :=
    length_padded_two (by have := h.mon; omega) (by have := h.mon; omega)
  have hmdayText : (padded 2 (cal.mday + 1)).length = 2 :=
    length_padded_two (by have := h.mday; omega) (by have := h.mday; omega)
  rw [← length_padded_year h.year]
  unfold timeText
  simp only [length_append]
  rw [hmonText, hmdayText, length_padded_two h.hour.1 (by have := h.hour; omega),
    length_padded_two h.min.1 (by have := h.min; omega),
    length_padded_two h.sec.1 (by have := h.sec; omega)]
  change _ + 2 + 2 + 1 + 2 + 1 + 2 + 1 + 2 + 5 < 28 ↔ _
  omega

theorem hasRoom_writeTime_iff (hcalendar : ∀ time, (format.timeToUtcCalendar time).InRange)
    (time : Int64) : hasRoom format (.writeTime time) = true ↔
      -100000000 < (format.timeToUtcCalendar time).year.toInt := by
  rw [← length_timeText_lt_iff (hcalendar time), hasRoom, decide_eq_true_eq]

theorem all_hasRoom_iff (hcalendar : ∀ time, (format.timeToUtcCalendar time).InRange)
    (calls : List XmlRpcCall) : calls.all (hasRoom format) = true ↔
      ∀ time, .writeTime time ∈ calls →
        -100000000 < (format.timeToUtcCalendar time).year.toInt := by
  rw [all_eq_true]
  constructor
  · intro hall time hmem
    exact (hasRoom_writeTime_iff hcalendar time).mp (hall _ hmem)
  · intro htimes c hmem
    cases c with
    | writeTime time => exact (hasRoom_writeTime_iff hcalendar time).mpr (htimes time hmem)
    | _ => rfl

/-- Well bracketed calls of a new encoder, with the header in front or without it, give a
well-formed document, text with as many parameters as values and each value in one of them, if
and only if no time is written of a year with more than nine characters. -/
theorem document_iff (format : RpcFormat) (struct_clean : Bool)
    (hformat : ∀ bits, CharData (format.sprintf bits))
    (hcalendar : ∀ time, (format.timeToUtcCalendar time).InRange) {header : List XmlRpcCall}
    (hheader : header = [] ∨ header = [.writeHeader]) {n : Nat} {calls : List XmlRpcCall}
    (h : XmlRpcCall.Message n calls) :
    (∃ e, (new struct_clean).runChecked format (header ++ calls) = .ok e ∧
        XmlGrammar.Document e.content ∧
        ∃ prolog text, e.content = prolog ++ text ∧ XmlGrammar.IsProlog prolog ∧
          XmlRpcMessageText n text) ↔
      ∀ time, .writeTime time ∈ calls → -100000000 < (format.timeToUtcCalendar time).year.toInt := by
  have hheaderRoom : header.all (hasRoom format) = true := by
    obtain rfl | rfl := hheader
    · rfl
    · rfl
  have hroom := all_hasRoom_iff hcalendar calls
  rw [runChecked_eq, ← hroom, all_append, hheaderRoom, Bool.true_and]
  constructor
  · rintro ⟨e, hrun, -⟩
    by_contra hfull
    rw [if_neg hfull] at hrun
    cases hrun
  · intro hall
    obtain ⟨prolog, text, hcontent, hprolog, htext⟩ := text_of_header hformat struct_clean hheader h
    refine ⟨_, if_pos hall, ?_, prolog, text, hcontent, hprolog, htext⟩
    rw [hcontent]
    exact htext.document hprolog

/-- A format that writes one number and one day. -/
def plainFormat (year : Int32) : RpcFormat where
  timeToUtcCalendar _ := ⟨year, 4, 15, 16, 47, 5⟩
  toSeconds t := t
  sprintf _ := ascii "1.5"

theorem charData_plainFormat (year : Int32) (bits : UInt64) :
    CharData ((plainFormat year).sprintf bits) := by
  have hplain : ∀ c ∈ ascii "1.5", isPlain c = true := by decide
  exact CharData.of_plain hplain

theorem inRange_plainFormat {year : Int32} (h : year.toInt < 1000000000) (time : Int64) :
    ((plainFormat year).timeToUtcCalendar time).InRange := by
  have hmon : 0 ≤ (4 : Int32).toInt ∧ (4 : Int32).toInt ≤ 11 := by decide
  have hmday : 0 ≤ (15 : Int32).toInt ∧ (15 : Int32).toInt ≤ 30 := by decide
  have hhour : 0 ≤ (16 : Int32).toInt ∧ (16 : Int32).toInt ≤ 23 := by decide
  have hmin : 0 ≤ (47 : Int32).toInt ∧ (47 : Int32).toInt ≤ 59 := by decide
  have hsec : 0 ≤ (5 : Int32).toInt ∧ (5 : Int32).toInt ≤ 60 := by decide
  exact ⟨h, hmon, hmday, hhour, hmin, hsec⟩

/-- A call with a struct: an array with an empty struct in it, and a time. -/
def structCalls : List XmlRpcCall :=
  .writeMethodName (.bytes (ascii "f")) :: (((.writeStructLength 2 ::
    ((.writeMemberName (.bytes (ascii "a")) :: ([.writeArrayLength 1, .writeStructLength 0,
      .writeStructEnd, .writeArrayEnd] ++ (.writeMemberName (.bytes (ascii "b")) ::
        ([.writeTime 0] ++ [])))) ++ [.writeStructEnd])) ++ []) ++ [.writeMethodEnd])

theorem message_structCalls : XmlRpcCall.Message 1 structCalls :=
  .call (by decide) (.values (.struct 2 (.members (by decide)
    (.array 1 (.values (.struct 0 .noMembers) .noValues))
    (.members (by decide) (.leaf trivial) .noMembers))) .noValues)

theorem document_iff_structCalls :
    ∃ e, (new true).runChecked (plainFormat 1970) ([.writeHeader] ++ structCalls) = .ok e ∧
      XmlGrammar.Document e.content := by
  have hyear : -100000000 < (1970 : Int32).toInt := by decide
  obtain ⟨e, hrun, hdocument, -⟩ := (document_iff (plainFormat 1970) true
    (charData_plainFormat 1970) (inRange_plainFormat (by decide)) (.inr rfl)
    message_structCalls).mpr fun _ _ => hyear
  exact ⟨e, hrun, hdocument⟩

/-- Not all calls give a document: the year of the first times there are has ten characters. -/
theorem not_document : ¬ ∀ (format : RpcFormat) (struct_clean : Bool) (n : Nat)
    (calls : List XmlRpcCall), (∀ bits, CharData (format.sprintf bits)) →
      (∀ time, (format.timeToUtcCalendar time).InRange) → XmlRpcCall.Message n calls →
        ∃ e, (new struct_clean).runChecked format calls = .ok e ∧
          XmlGrammar.Document e.content := by
  intro h
  have hmessage : XmlRpcCall.Message 1 (.writeMethodResponse ::
      ((([.writeTime (-9223372036854775807)] ++ [])) ++ [.writeResponseEnd])) :=
    .response (.values (.leaf trivial) .noValues)
  obtain ⟨e, hrun, -⟩ := h (plainFormat (-292275055)) false 1 _ (charData_plainFormat _)
    (inRange_plainFormat (by decide)) hmessage
  have hfault : (new false).runChecked (plainFormat (-292275055)) (.writeMethodResponse ::
      ((([.writeTime (-9223372036854775807)] ++ [])) ++ [.writeResponseEnd])) = .fault := by
    decide
  rw [hfault] at hrun
  cases hrun

end XmlRpcEncoder

end Drt
