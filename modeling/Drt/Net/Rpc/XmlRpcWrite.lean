import Drt.Net.Rpc.XmlRpcContent
import Drt.Net.Rpc.XmlRpcTags
import Drt.Net.Rpc.FastRpcRoundTrip

/-!
# The text of a tree

What the nested write calls append for a tree. The tags of a parameter are written
around the outermost value only. The end tag of a member is written later than the
member; `settled` is the content with the tag that is still to come.
-/

namespace Drt

open XmlRpcEncoder

/-- An element with its content, as a value. -/
def leafText (name : String) (text : Blob) : Blob :=
  openTag "value" ++ (openTag name ++ (text ++ (closeTag name ++ closeTag "value")))

mutual

/-- The text of a value. -/
def RpcValue.xml : RpcValue → Blob
  | .int32 v => leafText "int" (intText 10 v.toInt)
  | .int64 v =>
    if v ≥ -0x7fffffff - 1 ∧ v ≤ 0x7fffffff then leafText "int" (intText 10 v.toInt32.toInt)
    else leafText "i8" (intText 10 v.toInt)
  | .bool v => leafText "boolean" (ascii (if v then "true" else "false"))
  | .string s => leafText "string" (XmlRpcEncoder.escaped s).utf8
  | .binary b => leafText "base64" (MemBase64.encodeBase64 b)
  | .array elements =>
    openTag "value" ++ (openTag "array" ++ (openTag "data" ++ (elementsXml elements ++
      (closeTag "data" ++ (closeTag "array" ++ closeTag "value")))))
  | .struct members =>
    openTag "value" ++ (openTag "struct" ++ (membersXml members ++
      (closeTag "struct" ++ closeTag "value")))

/-- The text of the elements of an array. -/
def elementsXml : List RpcValue → Blob
  | [] => []
  | element :: elements => element.xml ++ elementsXml elements

/-- The text of the members of a struct. -/
def membersXml : List (DrString × RpcValue) → Blob
  | [] => []
  | (name, value) :: members =>
    memberTags name.utf8 ++ (value.xml ++ (closeTag "member" ++ membersXml members))

end

namespace XmlRpcEncoder

/-- A value is written as these octets, with the tags of a parameter if it is outermost. -/
structure Writes (e e' : XmlRpcEncoder) (octets : Blob) : Prop where
  content : e'.content = e.content ++
    if e.value_level = 0 then openTag "param" ++ (octets ++ closeTag "param") else octets
  value_level : e'.value_level = e.value_level
  struct_clean : e.struct_clean = false → e'.struct_clean = false

/-- The content with the end tag of the member that was written last. -/
def settled (e : XmlRpcEncoder) : Blob :=
  e.content ++ if e.struct_clean then [] else closeTag "member"

variable {e e' : XmlRpcEncoder}

theorem writes_leaf (e : XmlRpcEncoder) {start stop name : String} (text : Blob)
    (hstart : ascii start = openTag "value" ++ openTag name)
    (hstop : ascii stop = closeTag name ++ closeTag "value") :
    e.Writes (e.writeLeaf start text stop) (leafText name text) := by
  by_cases hlevel : e.value_level = 0 <;>
    constructor <;>
      simp [writeLeaf, appendOutside, appendAscii, append, hlevel, leafText, hstart, hstop,
        ascii_startParam, ascii_endParam]

theorem content_start (e : XmlRpcEncoder) (literal : String) :
    ((e.appendOutside "<param>").appendAscii literal).content =
      e.content ++ ((if e.value_level = 0 then openTag "param" else []) ++ ascii literal) := by
  by_cases hlevel : e.value_level = 0 <;>
    simp [appendOutside, appendAscii, append, hlevel, ascii_startParam]

theorem level_start (e : XmlRpcEncoder) (literal : String) :
    ((e.appendOutside "<param>").appendAscii literal).value_level = e.value_level ∧
      ((e.appendOutside "<param>").appendAscii literal).struct_clean = e.struct_clean := by
  by_cases hlevel : e.value_level = 0 <;>
    simp [appendOutside, appendAscii, append, hlevel]

theorem closeValue_of_level {level : Nat} (h : e.value_level = level + 1) :
    e.closeValue.content = e.content ++ (if level = 0 then closeTag "param" else []) ∧
      e.closeValue.value_level = level ∧ e.closeValue.struct_clean = e.struct_clean := by
  by_cases hlevel : level = 0 <;>
    simp [closeValue, appendOutside, appendAscii, append, h, hlevel, ascii_endParam]

/-- Parts that are written one after the other while a container is open, each with its own text. -/
theorem writes_parts {α : Type} (view : XmlRpcEncoder → Blob) (kept : XmlRpcEncoder → Prop)
    (write : XmlRpcEncoder → α → XmlRpcEncoder) (text : α → Blob)
    {writeAll : XmlRpcEncoder → List α → XmlRpcEncoder} {textAll : List α → Blob}
    (hnil : ∀ e, writeAll e [] = e ∧ textAll [] = [])
    (hcons : ∀ e a l, writeAll e (a :: l) = writeAll (write e a) l ∧
      textAll (a :: l) = text a ++ textAll l) {parts : List α}
    (hall : ∀ a ∈ parts, ∀ e : XmlRpcEncoder, e.value_level ≠ 0 →
      view (write e a) = view e ++ text a ∧ (write e a).value_level = e.value_level ∧
        (kept e → kept (write e a)))
    (hlevel : e.value_level ≠ 0) :
    view (writeAll e parts) = view e ++ textAll parts ∧
      (writeAll e parts).value_level = e.value_level ∧ (kept e → kept (writeAll e parts)) := by
  induction parts generalizing e with
  | nil =>
    rw [(hnil e).1, (hnil e).2, List.append_nil]
    exact ⟨rfl, rfl, id⟩
  | cons a parts ih =>
    obtain ⟨ha, hall⟩ := List.forall_mem_cons.mp hall
    obtain ⟨hview, hvalue, hkept⟩ := ha e hlevel
    obtain ⟨hview', hvalue', hkept'⟩ := ih hall (by rwa [hvalue])
    rw [(hcons e a parts).1, (hcons e a parts).2]
    refine ⟨?_, hvalue'.trans hvalue, fun h => hkept' (hkept h)⟩
    rw [hview', hview, List.append_assoc]

theorem Writes.inside {octets : Blob} (h : e.Writes e' octets) (hlevel : e.value_level ≠ 0) :
    e'.content = e.content ++ octets ∧ e'.value_level = e.value_level ∧
      (e.struct_clean = false → e'.struct_clean = false) := by
  refine ⟨?_, h.value_level, h.struct_clean⟩
  rw [h.content, if_neg hlevel]

variable {elements : List RpcValue} {members : List (DrString × RpcValue)}

/-- The elements of an array that is open. -/
theorem writeElements_xml
    (hall : ∀ element ∈ elements, ∀ e : XmlRpcEncoder, e.Writes (e.write element) element.xml)
    (hlevel : e.value_level ≠ 0) :
    (e.writeElements elements).content = e.content ++ elementsXml elements ∧
      (e.writeElements elements).value_level = e.value_level ∧
      (e.struct_clean = false → (e.writeElements elements).struct_clean = false) := by
  apply writes_parts content (fun e => e.struct_clean = false) (fun e => e.write)
    RpcValue.xml
  · intro e
    rw [writeElements, elementsXml]
    exact ⟨rfl, rfl⟩
  · intro e element elements
    rw [writeElements, elementsXml]
    exact ⟨rfl, rfl⟩
  · exact fun element helement e hlevel => (hall element helement e).inside hlevel
  · exact hlevel

theorem endMember_settled (e : XmlRpcEncoder) :
    e.endMember.content = e.settled ∧ e.endMember.value_level = e.value_level ∧
      e.endMember.struct_clean = false := by
  cases hclean : e.struct_clean <;>
    simp [endMember, settled, appendAscii, append, hclean, ascii_endMember]

/-- A member of a struct that is open, if this is written for its value. -/
theorem writeMember_settled_of (inner : XmlRpcEncoder → XmlRpcEncoder) {text : Blob}
    (name : DrString) (hinner : ∀ e : XmlRpcEncoder, e.Writes (inner e) text)
    (hlevel : e.value_level ≠ 0) :
    (inner (e.writeMemberName name)).settled =
        e.settled ++ (memberTags name.utf8 ++ (text ++ closeTag "member")) ∧
      (inner (e.writeMemberName name)).value_level = e.value_level := by
  obtain ⟨hend, hlevel', hclean⟩ := endMember_settled e
  have hname : (e.writeMemberName name).content = e.settled ++ memberTags name.utf8 ∧
      (e.writeMemberName name).value_level = e.value_level ∧
      (e.writeMemberName name).struct_clean = false := by
    simp [writeMemberName, appendAscii, append, hend, hlevel', hclean, memberTags,
      ascii_startMember, ascii_endName]
  obtain ⟨hcontent, hvalue_level, hstruct_clean⟩ := hinner (e.writeMemberName name)
  rw [hname.2.1] at hcontent hvalue_level
  refine ⟨?_, hvalue_level⟩
  rw [settled, hstruct_clean hname.2.2, hcontent, if_neg hlevel, hname.1]
  simp

/-- The members of a struct that is open. -/
theorem writeMembers_settled
    (hall : ∀ m ∈ members, ∀ e : XmlRpcEncoder, e.Writes (e.write m.2) m.2.xml)
    (hlevel : e.value_level ≠ 0) :
    (e.writeMembers members).settled = e.settled ++ membersXml members ∧
      (e.writeMembers members).value_level = e.value_level := by
  have hparts : (e.writeMembers members).settled = e.settled ++ membersXml members ∧
      (e.writeMembers members).value_level = e.value_level ∧ (True → True) := by
    apply writes_parts settled (fun _ => True) (fun e m => (e.writeMemberName m.1).write m.2)
      (fun m => memberTags m.1.utf8 ++ (m.2.xml ++ closeTag "member"))
    · intro e
      rw [writeMembers, membersXml]
      exact ⟨rfl, rfl⟩
    · rintro e ⟨name, value⟩ members
      rw [writeMembers, membersXml]
      simp only [List.append_assoc, and_self]
    · intro m hm e hlevel
      obtain ⟨hsettled, hvalue⟩ :=
        writeMember_settled_of (fun e => e.write m.2) m.1 (hall m hm) hlevel
      exact ⟨hsettled, hvalue, id⟩
    · exact hlevel
  exact ⟨hparts.1, hparts.2.1⟩

/-- An array, if this is written for its elements. -/
theorem writes_array_of (inner : XmlRpcEncoder → XmlRpcEncoder) {body : Blob} (count : UInt64)
    (hinner : ∀ e : XmlRpcEncoder, e.value_level ≠ 0 → (inner e).content = e.content ++ body ∧
      (inner e).value_level = e.value_level ∧
      (e.struct_clean = false → (inner e).struct_clean = false)) (e : XmlRpcEncoder) :
    e.Writes (inner (e.writeArrayLength count)).writeArrayEnd
      (openTag "value" ++ (openTag "array" ++ (openTag "data" ++ (body ++
        (closeTag "data" ++ (closeTag "array" ++ closeTag "value")))))) := by
  let e₁ := e.writeArrayLength count
  have hcontent₁ : e₁.content = e.content ++ ((if e.value_level = 0 then openTag "param" else []) ++
      (openTag "value" ++ (openTag "array" ++ openTag "data"))) := by
    rw [← ascii_startArray]
    exact content_start e "<value><array><data>"
  have hlevel₁ : e₁.value_level = e.value_level + 1 :=
    congrArg (· + 1) (level_start e "<value><array><data>").1
  have hclean₁ : e₁.struct_clean = e.struct_clean := (level_start e "<value><array><data>").2
  obtain ⟨hcontent₂, hlevel₂, hclean₂⟩ := hinner e₁ (by omega)
  let e₃ := (inner e₁).appendAscii "</data></array></value>"
  have hlevel₃ : e₃.value_level = e.value_level + 1 := hlevel₂.trans hlevel₁
  obtain ⟨hcontent₄, hlevel₄, hclean₄⟩ := closeValue_of_level hlevel₃
  have hcontent₃ : e₃.content = (inner e₁).content ++
      (closeTag "data" ++ (closeTag "array" ++ closeTag "value")) := by
    rw [← ascii_endArray]
    rfl
  change e.Writes e₃.closeValue _
  refine ⟨?_, hlevel₄, fun hclean => ?_⟩
  · rw [hcontent₄, hcontent₃, hcontent₂, hcontent₁]
    by_cases hlevel : e.value_level = 0 <;> simp [hlevel]
  · rw [hclean₄]
    exact hclean₂ (hclean₁.trans hclean)

theorem writes_array
    (hall : ∀ element ∈ elements, ∀ e : XmlRpcEncoder, e.Writes (e.write element) element.xml)
    (e : XmlRpcEncoder) : e.Writes (e.write (.array elements)) (RpcValue.array elements).xml := by
  rw [write, RpcValue.xml]
  exact writes_array_of (fun e => e.writeElements elements) _
    (fun _ hlevel => writeElements_xml hall hlevel) e

/-- A struct, if this is written for its members. -/
theorem writes_struct_of (inner : XmlRpcEncoder → XmlRpcEncoder) {body : Blob} (count : UInt64)
    (hinner : ∀ e : XmlRpcEncoder, e.value_level ≠ 0 → (inner e).settled = e.settled ++ body ∧
      (inner e).value_level = e.value_level) (e : XmlRpcEncoder) :
    e.Writes (inner (e.writeStructLength count)).writeStructEnd
      (openTag "value" ++ (openTag "struct" ++ (body ++
        (closeTag "struct" ++ closeTag "value")))) := by
  let e₁ := e.writeStructLength count
  have hsettled₁ : e₁.settled = e.content ++ ((if e.value_level = 0 then openTag "param" else []) ++
      (openTag "value" ++ openTag "struct")) := by
    have hcontent₁ := content_start e "<value><struct>"
    rw [ascii_startStruct] at hcontent₁
    exact (List.append_nil _).trans hcontent₁
  have hlevel₁ : e₁.value_level = e.value_level + 1 :=
    congrArg (· + 1) (level_start e "<value><struct>").1
  obtain ⟨hsettled₂, hlevel₂⟩ := hinner e₁ (by omega)
  obtain ⟨hcontent₃, hlevel₃, hclean₃⟩ := endMember_settled (inner e₁)
  let e₄ := (inner e₁).endMember.appendAscii "</struct></value>"
  have hlevel₄ : e₄.value_level = e.value_level + 1 := hlevel₃.trans (hlevel₂.trans hlevel₁)
  obtain ⟨hcontent₅, hlevel₅, hclean₅⟩ := closeValue_of_level hlevel₄
  have hcontent₄ : e₄.content = (inner e₁).endMember.content ++
      (closeTag "struct" ++ closeTag "value") := by
    rw [← ascii_endStruct]
    rfl
  change e.Writes e₄.closeValue _
  refine ⟨?_, hlevel₅, fun _ => hclean₅.trans hclean₃⟩
  rw [hcontent₅, hcontent₄, hcontent₃, hsettled₂, hsettled₁]
  by_cases hlevel : e.value_level = 0 <;> simp [hlevel]

theorem writes_struct (hall : ∀ m ∈ members, ∀ e : XmlRpcEncoder, e.Writes (e.write m.2) m.2.xml)
    (e : XmlRpcEncoder) : e.Writes (e.write (.struct members)) (RpcValue.struct members).xml := by
  rw [write, RpcValue.xml]
  exact writes_struct_of (fun e => e.writeMembers members) _
    (fun _ hlevel => writeMembers_settled hall hlevel) e

theorem writes_xml (t : RpcValue) : ∀ e : XmlRpcEncoder, e.Writes (e.write t) t.xml := by
  induction t using RpcValue.induct with
  | int32 v | bool v | string s | binary b => exact fun e => writes_leaf e _ (by decide) (by decide)
  | int64 v =>
    intro e
    rw [write, RpcValue.xml, writeInt64]
    split_ifs
    · exact writes_leaf e _ (by decide) (by decide)
    · exact writes_leaf e _ (by decide) (by decide)
  | array elements ih => exact writes_array ih
  | struct members ih => exact writes_struct ih

end XmlRpcEncoder

end Drt
