import Drt.Net.Rpc.XmlRpcLeaves
import Drt.Net.Rpc.XmlRpcRoundTrip

/-!
# Skipping values in XML-RPC

`readSkip` goes over a value with a recursion of its own. Where it reads a leaf it is the read that
`readVariant` calls, and it has the same loops over members; but for an array it takes the
length of a struct, which is no more than its tags.
-/

open List

namespace Drt

open Outcome XmlRpcDecoder

/-- The values of every type, as they are written. -/
inductive XmlRpcTree where
  | leaf (call : XmlRpcCall) (isLeaf : call.IsLeaf)
  | array (elements : List XmlRpcTree)
  | struct (members : List (DrString × XmlRpcTree))

mutual

/-- The nested write calls for a value. -/
def XmlRpcEncoder.writeTree (format : RpcFormat) (e : XmlRpcEncoder) : XmlRpcTree → XmlRpcEncoder
  | .leaf call _ => e.call format call
  | .array elements =>
    ((e.writeArrayLength (.ofNat elements.length)).writeTrees format elements).writeArrayEnd
  | .struct members =>
    ((e.writeStructLength (.ofNat members.length)).writeNamed format members).writeStructEnd

/-- The write calls for the elements of an array. -/
def XmlRpcEncoder.writeTrees (format : RpcFormat) (e : XmlRpcEncoder) :
    List XmlRpcTree → XmlRpcEncoder
  | [] => e
  | element :: elements => (e.writeTree format element).writeTrees format elements

/-- The write calls for the members of a struct. -/
def XmlRpcEncoder.writeNamed (format : RpcFormat) (e : XmlRpcEncoder) :
    List (DrString × XmlRpcTree) → XmlRpcEncoder
  | [] => e
  | (name, value) :: members =>
    ((e.writeMemberName name).writeTree format value).writeNamed format members

end

namespace XmlRpcTree

/-- Induction over a tree: what holds for the parts of a container holds for the container. -/
theorem induct {P : XmlRpcTree → Prop} (leaf : ∀ call isLeaf, P (.leaf call isLeaf))
    (array : ∀ elements, (∀ t ∈ elements, P t) → P (.array elements))
    (struct : ∀ members : List (DrString × XmlRpcTree),
      (∀ m ∈ members, P m.2) → P (.struct members))
    (t : XmlRpcTree) : P t :=
  @XmlRpcTree.rec P (fun elements => ∀ t ∈ elements, P t) (fun members => ∀ m ∈ members, P m.2)
    (fun m => P m.2) leaf array struct
    (fun _ ht => absurd ht not_mem_nil)
    (fun _ _ hhead htail => forall_mem_cons.mpr ⟨hhead, htail⟩)
    (fun _ hm => absurd hm not_mem_nil)
    (fun _ _ hhead htail => forall_mem_cons.mpr ⟨hhead, htail⟩)
    (fun _ _ hvalue => hvalue) t

/-- No array is in the tree. -/
inductive ArrayFree : XmlRpcTree → Prop where
  | leaf (call : XmlRpcCall) (isLeaf : call.IsLeaf) : ArrayFree (.leaf call isLeaf)
  | struct {members : List (DrString × XmlRpcTree)} (hall : ∀ m ∈ members, ArrayFree m.2) :
      ArrayFree (.struct members)

/-- No name of a member has a tag in it. -/
inductive Tagless : XmlRpcTree → Prop where
  | leaf (call : XmlRpcCall) (isLeaf : call.IsLeaf) : Tagless (.leaf call isLeaf)
  | array {elements : List XmlRpcTree} (hall : ∀ t ∈ elements, Tagless t) :
      Tagless (.array elements)
  | struct {members : List (DrString × XmlRpcTree)} (hnames : ∀ m ∈ members, 60 ∉ m.1.utf8)
      (hall : ∀ m ∈ members, Tagless m.2) : Tagless (.struct members)

/-- The type of what is read for a leaf. -/
def LeafReadAs : XmlRpcCall → Variant → Prop
  | .writeInt32 _, .int _ | .writeInt64 _, .int _ | .writeBool _, .bool _
  | .writeDouble _, .double _
  | .writeString _, .string _ | .writeBinary _, .binary _ | .writeTime _, .time _ => True
  | _, _ => False

/-- What is read is the value that was written, as far as its types, its sizes and its names go. -/
inductive ReadAs : XmlRpcTree → Variant → Prop where
  | leaf {call : XmlRpcCall} {isLeaf : call.IsLeaf} {v : Variant} (htype : LeafReadAs call v) :
      ReadAs (.leaf call isLeaf) v
  | array {elements : List XmlRpcTree} {list : List Variant}
      (hall : List.Forall₂ ReadAs elements list) : ReadAs (.array elements) (.array list)
  | struct {members : List (DrString × XmlRpcTree)} {struc : List (DrString × Variant)}
      (hnames : List.Forall₂ (fun m m' => m'.1.text = m.1.text) members struc)
      (hall : List.Forall₂ (fun m m' => ReadAs m.2 m'.2) members struc) :
      ReadAs (.struct members) (.struct struc)

end XmlRpcTree

/-- What a leaf is written as, inside of another value. -/
def leafXml (format : RpcFormat) (call : XmlRpcCall) : Blob :=
  ((⟨[], 1, false⟩ : XmlRpcEncoder).call format call).content

mutual

/-- The text of a value. -/
def XmlRpcTree.xml (format : RpcFormat) : XmlRpcTree → Blob
  | .leaf call _ => leafXml format call
  | .array elements =>
    openTag "value" ++ (openTag "array" ++ (openTag "data" ++ (XmlRpcTree.xmls format elements ++
      (closeTag "data" ++ (closeTag "array" ++ closeTag "value")))))
  | .struct members =>
    openTag "value" ++ (openTag "struct" ++ (XmlRpcTree.namedXmls format members ++
      (closeTag "struct" ++ closeTag "value")))

/-- The text of the elements of an array. -/
def XmlRpcTree.xmls (format : RpcFormat) : List XmlRpcTree → Blob
  | [] => []
  | element :: elements => element.xml format ++ XmlRpcTree.xmls format elements

/-- The text of the members of a struct. -/
def XmlRpcTree.namedXmls (format : RpcFormat) : List (DrString × XmlRpcTree) → Blob
  | [] => []
  | (name, value) :: members => memberTags name.utf8 ++
      (value.xml format ++ (closeTag "member" ++ XmlRpcTree.namedXmls format members))

end

/-- The elements of the leaves of a type. -/
def RpcType.elements : RpcType → List String
  | .rtInt => ["i4", "i8", "int"]
  | .rtBool => ["boolean"]
  | .rtDouble => ["double"]
  | .rtString => ["string"]
  | .rtTime => ["dateTime.iso8601"]
  | .rtBinary => ["base64"]
  | _ => []

theorem RpcType.of_mem_elements {type : RpcType} {name : String} (h : name ∈ type.elements) :
    IsName name ∧ typeOfTag (ascii name) = .ok type ∧ ascii name ≠ ascii "methodResponse" := by
  have hall : ∀ name ∈ type.elements, IsName name ∧ typeOfTag (ascii name) = .ok type ∧
      ascii name ≠ ascii "methodResponse" := by
    cases type <;> decide
  exact hall name h

namespace XmlRpcEncoder

variable {format : RpcFormat} (hprint : ∀ bits, 60 ∉ format.sprintf bits)

include hprint in
/-- A leaf is written as an element with a text without tags. -/
theorem leafXml_element {call : XmlRpcCall} (isLeaf : call.IsLeaf) :
    ∃ type name text, name ∈ RpcType.elements type ∧ (∀ c ∈ text, c ≠ 60) ∧
      leafXml format call = leafText name text ∧
      ∀ e : XmlRpcEncoder, e.Writes (e.call format call) (leafXml format call) := by
  have hwrites (type : RpcType) (name : String) {start stop : String} {text : Blob}
      (hname : name ∈ type.elements) (htext : ∀ c ∈ text, c ≠ 60)
      (hstart : ascii start = openTag "value" ++ openTag name)
      (hstop : ascii stop = closeTag name ++ closeTag "value")
      (hcall : ∀ e : XmlRpcEncoder, e.call format call = e.writeLeaf start text stop) :
      ∃ type name text, name ∈ RpcType.elements type ∧ (∀ c ∈ text, c ≠ 60) ∧
        leafXml format call = leafText name text ∧
        ∀ e : XmlRpcEncoder, e.Writes (e.call format call) (leafXml format call) := by
    have hxml : leafXml format call = leafText name text := by
      rw [leafXml, hcall, (writes_leaf _ text hstart hstop).content]
      exact nil_append _
    refine ⟨type, name, text, hname, htext, hxml, fun e => ?_⟩
    rw [hcall, hxml]
    exact writes_leaf e text hstart hstop
  have hint (number : Int) : ∀ c ∈ intText 10 number, c ≠ 60 := fun _ hc =>
    ne_of_isPlain (isPlain_of_intText hc)
  cases call with
  | writeBool value =>
    refine hwrites .rtBool "boolean" List.mem_cons_self ?_ (by decide) (by decide) fun _ => rfl
    cases value <;> decide
  | writeInt32 value =>
    exact hwrites .rtInt "int" (by decide) (hint _) (by decide) (by decide) fun _ => rfl
  | writeInt64 value =>
    by_cases hsmall : value ≥ -0x7fffffff - 1 ∧ value ≤ 0x7fffffff
    · exact hwrites .rtInt "int" (by decide) (hint _) (by decide) (by decide) fun _ => if_pos hsmall
    · exact hwrites .rtInt "i8" (by decide) (hint _) (by decide) (by decide) fun _ => if_neg hsmall
  | writeDouble value =>
    have htext : ∀ c ∈ format.sprintf value, c ≠ 60 := fun c hc heq => hprint value (heq ▸ hc)
    exact hwrites .rtDouble "double" List.mem_cons_self htext (by decide) (by decide) fun _ => rfl
  | writeString value =>
    have htext : ∀ c ∈ (escaped value).utf8, c ≠ 60 := by
      intro c hc
      rw [utf8_escaped, mem_flatMap] at hc
      obtain ⟨_, _, hc⟩ := hc
      exact escape_ne hc
    exact hwrites .rtString "string" List.mem_cons_self htext (by decide) (by decide) fun _ => rfl
  | writeBinary value =>
    have htext : ∀ c ∈ MemBase64.encodeBase64 value, c ≠ 60 := fun c hc =>
      ne_of_isPlain (isPlain_of_base64 hc)
    exact hwrites .rtBinary "base64" List.mem_cons_self htext (by decide) (by decide) fun _ => rfl
  | writeTime time =>
    have htext : ∀ c ∈ timeText (format.timeToUtcCalendar time), c ≠ 60 := fun c hc =>
      ne_of_isPlain (isPlain_of_timeText hc)
    exact hwrites .rtTime "dateTime.iso8601" List.mem_cons_self htext (by decide) (by decide)
      fun _ => rfl
  | _ => exact isLeaf.elim

/-- The elements of an array that is open. -/
theorem writeTrees_xmls {elements : List XmlRpcTree}
    (hall : ∀ t ∈ elements, ∀ e : XmlRpcEncoder, e.Writes (e.writeTree format t) (t.xml format))
    (e : XmlRpcEncoder) (hlevel : e.value_level ≠ 0) :
    (e.writeTrees format elements).content = e.content ++ XmlRpcTree.xmls format elements ∧
      (e.writeTrees format elements).value_level = e.value_level ∧
      (e.struct_clean = false → (e.writeTrees format elements).struct_clean = false) := by
  apply writes_parts XmlRpcEncoder.content (fun e => e.struct_clean = false)
    (fun e => e.writeTree format) (XmlRpcTree.xml format)
  · intro e
    rw [writeTrees, XmlRpcTree.xmls]
    exact ⟨rfl, rfl⟩
  · intro e element elements
    rw [writeTrees, XmlRpcTree.xmls]
    exact ⟨rfl, rfl⟩
  · exact fun element helement e hlevel => (hall element helement e).inside hlevel
  · exact hlevel

/-- The members of a struct that is open. -/
theorem writeNamed_settled {members : List (DrString × XmlRpcTree)}
    (hall : ∀ m ∈ members, ∀ e : XmlRpcEncoder, e.Writes (e.writeTree format m.2) (m.2.xml format))
    (e : XmlRpcEncoder) (hlevel : e.value_level ≠ 0) :
    (e.writeNamed format members).settled = e.settled ++ XmlRpcTree.namedXmls format members ∧
      (e.writeNamed format members).value_level = e.value_level := by
  have hparts : (e.writeNamed format members).settled =
        e.settled ++ XmlRpcTree.namedXmls format members ∧
      (e.writeNamed format members).value_level = e.value_level ∧ (True → True) := by
    apply writes_parts settled (fun _ => True)
      (fun e m => (e.writeMemberName m.1).writeTree format m.2)
      (fun m => memberTags m.1.utf8 ++ (m.2.xml format ++ closeTag "member"))
    · intro e
      rw [writeNamed, XmlRpcTree.namedXmls]
      exact ⟨rfl, rfl⟩
    · rintro e ⟨name, value⟩ members
      rw [writeNamed, XmlRpcTree.namedXmls]
      simp only [append_assoc, and_self]
    · intro m hm e hlevel
      obtain ⟨hsettled, hvalue⟩ :=
        writeMember_settled_of (fun e => e.writeTree format m.2) m.1 (hall m hm) hlevel
      exact ⟨hsettled, hvalue, id⟩
    · exact hlevel
  exact ⟨hparts.1, hparts.2.1⟩

include hprint

/-- The text of a tree is written for it. -/
theorem writes_tree (t : XmlRpcTree) :
    ∀ e : XmlRpcEncoder, e.Writes (e.writeTree format t) (t.xml format) := by
  induction t using XmlRpcTree.induct with
  | leaf call isLeaf =>
    obtain ⟨_, _, _, _, _, _, hwrites⟩ := leafXml_element hprint isLeaf
    intro e
    rw [writeTree, XmlRpcTree.xml]
    exact hwrites e
  | array elements ih =>
    intro e
    rw [writeTree, XmlRpcTree.xml]
    exact writes_array_of (fun e => e.writeTrees format elements) _ (writeTrees_xmls ih) e
  | struct members ih =>
    intro e
    rw [writeTree, XmlRpcTree.xml]
    exact writes_struct_of (fun e => e.writeNamed format members) _ (writeNamed_settled ih) e

end XmlRpcEncoder

namespace XmlRpcDecoder

variable {lib : XmlRpcLibrary}

/-- The read and the skip of the value at these octets come back alike, and stop behind them. -/
def TakenAlike (lib : XmlRpcLibrary) (octets : Blob) : Prop :=
  ∀ (behind : Blob) {ahead taken rest : Blob}, Follows ahead taken rest →
    ∃ value : Call Variant, ∀ fuel,
      readVariant lib (fuel + 1) (between behind (octets ++ ahead)) =
          (value >>= fun v => .ok (v, between (behind ++ octets ++ taken) rest)) ∧
        readSkip lib (fuel + 1) (between behind (octets ++ ahead)) =
          value >>= fun _ => .ok (between (behind ++ octets ++ taken) rest)

/-- Both call the same read of a leaf. -/
theorem takenAlike_leaf {type : RpcType} {name : String} (hname : name ∈ type.elements)
    {text : Blob} (htext : ∀ c ∈ text, c ≠ 60) : TakenAlike lib (leafText name text) := by
  obtain ⟨isName, htype, hresponse⟩ := RpcType.of_mem_elements hname
  intro behind ahead taken rest hahead
  have hcheck := readCheckType_between isName behind
    (text ++ (closeTag name ++ (closeTag "value" ++ ahead))) htype hresponse
  have hleaf (format_type : String) :=
    readLeaf_between isName behind hahead hname format_type htext
  simp only [leafText, append_assoc] at hcheck hleaf ⊢
  generalize between behind _ = start at hcheck hleaf ⊢
  generalize between (behind ++ _) rest = stop at hleaf ⊢
  have htaken {α : Type} (read : XmlRpcDecoder → Call (α × XmlRpcDecoder)) (format_type : String)
      (get : Blob × Nat → Call α) (wrap : α → Variant)
      (hread : ∀ d, read d = d.readLeaf type.elements format_type >>= fun r =>
        get r.1 >>= fun value => .ok (value, r.2))
      (hvariant : ∀ fuel, readVariant lib (fuel + 1) start =
        read start >>= fun r => .ok (wrap r.1, r.2))
      (hskip : ∀ fuel, readSkip lib (fuel + 1) start = read start >>= fun r => .ok r.2) :
      ∃ value : Call Variant, ∀ fuel,
        readVariant lib (fuel + 1) start = (value >>= fun v => .ok (v, stop)) ∧
          readSkip lib (fuel + 1) start = value >>= fun _ => .ok stop := by
    refine ⟨get (text ++ (closeTag name ++ (closeTag "value" ++ ahead)), text.length) >>=
      fun value => .ok (wrap value), fun fuel => ⟨?_, ?_⟩⟩
    · rw [hvariant, hread, hleaf]
      simp only [bind_assoc, ok_bind]
    · rw [hskip, hread, hleaf]
      simp only [bind_assoc, ok_bind]
  cases type with
  | rtInt =>
    exact htaken readInt64 "rpc::int::code" (fun cont => .ok (int64Of cont.1 cont.2)) .int
      (fun _ => rfl) (fun _ => by rw [readVariant, hcheck]; rfl)
      fun _ => by rw [readSkip, hcheck]; rfl
  | rtBool =>
    exact htaken readBool "rpc::bool::code" (fun cont => boolOf (cont.1.take cont.2)) .bool
      (fun _ => rfl) (fun _ => by rw [readVariant, hcheck]; rfl)
      fun _ => by rw [readSkip, hcheck]; rfl
  | rtDouble =>
    exact htaken (readDouble lib) "rpc::double::code" (fun cont => .ok (lib.strtod cont.1)) .double
      (fun _ => rfl) (fun _ => by rw [readVariant, hcheck]; rfl)
      fun _ => by rw [readSkip, hcheck]; rfl
  | rtString =>
    exact htaken readString "rpc::string::code" (fun cont => convertToString cont.1 cont.2) .string
      (fun _ => rfl) (fun _ => by rw [readVariant, hcheck]; rfl)
      fun _ => by rw [readSkip, hcheck]; rfl
  | rtTime =>
    exact htaken (readTime lib) "rpc::bool::code" (fun cont => timeOf lib.time (cont.1.take cont.2))
      .time (fun _ => rfl) (fun _ => by rw [readVariant, hcheck]; rfl)
      fun _ => by rw [readSkip, hcheck]; rfl
  | rtBinary =>
    exact htaken readBinary "rpc::base64::code"
      (fun cont => MemBase64.decodeBase64 (cont.2 * 2 / 3 + 2) cont.1 cont.2) .binary
      (fun _ => rfl) (fun _ => by rw [readVariant, hcheck]; rfl)
      fun _ => by rw [readSkip, hcheck]; rfl
  | rtEnd | rtStruct | rtArray | rtMethodName | rtMethodResponse | rtFaultResponse =>
    exact absurd hname not_mem_nil

theorem skipMembers_member (fuel : Nat) {name : Blob} (hname : ∀ c ∈ name, c ≠ 60) {member : Blob}
    (hmember : member = [] ∨ member = closeTag "member") (behind tail : Blob) :
    skipMembers lib (fuel + 1) (between behind (member ++ (memberTags name ++ tail))) =
      readSkip lib fuel (between (behind ++ member ++ memberTags name) tail) >>=
        fun d => skipMembers lib fuel d := by
  rw [skipMembers, checkStructNext_member behind hmember, ok_bind]
  simp only [if_true]
  rw [readMemberName_between _ _ hname, ok_bind]

theorem skipMembers_end (fuel : Nat) {member : Blob}
    (hmember : member = [] ∨ member = closeTag "member") (behind : Blob) {ahead taken rest : Blob}
    (hahead : Follows ahead taken rest) :
    skipMembers lib (fuel + 1)
        (between behind (member ++ (closeTag "struct" ++ (closeTag "value" ++ ahead)))) =
      .ok (between (behind ++ member ++ closeTag "struct" ++ closeTag "value" ++ taken) rest) := by
  rw [skipMembers,
    checkStructNext_between behind hmember fun fuel => checkMember_struct _ hahead fuel, ok_bind]
  rfl

/-- A struct is skipped by way of its members, and read so. -/
theorem struct_between (fuel : Nat) (behind ahead : Blob) :
    readSkip lib (fuel + 1) (between behind (openTag "value" ++ (openTag "struct" ++ ahead))) =
        skipMembers lib fuel (between (behind ++ openTag "value" ++ openTag "struct") ahead) ∧
      readVariant lib (fuel + 1) (between behind (openTag "value" ++ (openTag "struct" ++ ahead))) =
        readMembers lib fuel [] (between (behind ++ openTag "value" ++ openTag "struct") ahead) >>=
          fun r => .ok (.struct r.1, r.2) := by
  have hname : IsName "struct" := by decide
  have hcheck := readCheckType_between hname behind ahead RpcValue.type_struct (by decide)
  constructor
  · rw [readSkip, hcheck, ok_bind]
    simp only
    rw [RpcValue.readStructLength_between, ok_bind]
  · exact RpcValue.readVariant_start fuel behind ahead

/-- An array is not skipped: its start is refused as that of a struct. -/
theorem readSkip_array (fuel : Nat) (behind ahead : Blob) :
    readSkip lib (fuel + 1) (between behind (openTag "value" ++ (openTag "array" ++ ahead))) =
      .raise (.invalidFormatException "rpc::struct::code" "array") := by
  have hname : IsName "array" := by decide
  have hcheck := readCheckType_between hname behind ahead RpcValue.type_array (by decide)
  rw [readSkip, hcheck, ok_bind]
  simp only
  rw [readStructLength, moveToNextValue_between (by decide), ok_bind]
  rfl

section Trees

variable {format : RpcFormat} (hprint : ∀ bits, 60 ∉ format.sprintf bits)

/-- The skip, if it comes back from a tree, stops behind it, and the tree has no array in it. -/
def SkippedBehind (lib : XmlRpcLibrary) (format : RpcFormat) (t : XmlRpcTree) : Prop :=
  ∀ (fuel : Nat) (behind : Blob) {ahead taken rest : Blob} {d : XmlRpcDecoder},
    Follows ahead taken rest →
    readSkip lib fuel (between behind (t.xml format ++ ahead)) = .ok d →
      t.ArrayFree ∧ d = between (behind ++ t.xml format ++ taken) rest

/-- The skip goes where the read goes. -/
def SkippedAsRead (lib : XmlRpcLibrary) (format : RpcFormat) (t : XmlRpcTree) : Prop :=
  ∀ (fuel : Nat) (behind : Blob) {ahead taken rest : Blob} {v : Variant} {d : XmlRpcDecoder},
    Follows ahead taken rest →
    readVariant lib fuel (between behind (t.xml format ++ ahead)) = .ok (v, d) →
      readSkip lib fuel (between behind (t.xml format ++ ahead)) = .ok d

include hprint in
/-- A leaf is skipped by its read. -/
theorem skipped_leaf {call : XmlRpcCall} (isLeaf : call.IsLeaf) :
    SkippedBehind lib format (.leaf call isLeaf) ∧
      SkippedAsRead lib format (.leaf call isLeaf) := by
  obtain ⟨type, name, text, hname, htext, hxml, -⟩ := XmlRpcEncoder.leafXml_element hprint isLeaf
  have halike : TakenAlike lib (leafText name text) := takenAlike_leaf hname htext
  rw [← hxml] at halike
  constructor
  · intro fuel behind ahead taken rest d hahead hskip
    obtain ⟨value, hvalue⟩ := halike behind hahead
    rw [XmlRpcTree.xml] at hskip ⊢
    cases fuel with
    | zero =>
      rw [readSkip] at hskip
      cases hskip
    | succ fuel =>
      rw [(hvalue fuel).2] at hskip
      obtain ⟨v, -, hstop⟩ := bind_eq_ok.mp hskip
      exact ⟨.leaf call isLeaf, (ok.inj hstop).symm⟩
  · intro fuel behind ahead taken rest v d hahead hread
    obtain ⟨value, hvalue⟩ := halike behind hahead
    rw [XmlRpcTree.xml] at hread ⊢
    cases fuel with
    | zero =>
      rw [readVariant] at hread
      cases hread
    | succ fuel =>
      rw [(hvalue fuel).1] at hread
      obtain ⟨v', hv', hstop⟩ := bind_eq_ok.mp hread
      cases hstop
      rw [(hvalue fuel).2, hv', ok_bind]

section Members

variable {members : List (DrString × XmlRpcTree)} (hnames : ∀ m ∈ members, 60 ∉ m.1.utf8)
  {member ahead taken rest : Blob} (hmember : member = [] ∨ member = closeTag "member")
  (hahead : Follows ahead taken rest)
include hnames hmember hahead

/-- The members of a struct, one after another. -/
theorem skipMembers_behind (hall : ∀ m ∈ members, SkippedBehind lib format m.2) (fuel : Nat)
    (behind : Blob) {d : XmlRpcDecoder}
    (hskip : skipMembers lib fuel (between behind (member ++ (XmlRpcTree.namedXmls format members ++
      (closeTag "struct" ++ (closeTag "value" ++ ahead))))) = .ok d) :
    (∀ m ∈ members, m.2.ArrayFree) ∧ d = between (behind ++ member ++
      XmlRpcTree.namedXmls format members ++ closeTag "struct" ++ closeTag "value" ++ taken) rest := by
  induction members generalizing fuel behind member with
  | nil =>
    cases fuel with
    | zero =>
      rw [skipMembers] at hskip
      cases hskip
    | succ fuel =>
      rw [XmlRpcTree.namedXmls, nil_append,
        skipMembers_end fuel hmember behind hahead] at hskip
      cases hskip
      rw [XmlRpcTree.namedXmls, append_nil]
      exact ⟨fun m hm => absurd hm not_mem_nil, rfl⟩
  | cons m members ih =>
    obtain ⟨name, value⟩ := m
    obtain ⟨hname, hnames⟩ := forall_mem_cons.mp hnames
    obtain ⟨hvalue, hall⟩ := forall_mem_cons.mp hall
    have hname : ∀ c ∈ name.utf8, c ≠ 60 := fun c hc heq => hname (heq ▸ hc)
    have hend : IsName "member" := by decide
    cases fuel with
    | zero =>
      rw [skipMembers] at hskip
      cases hskip
    | succ fuel =>
      simp only [XmlRpcTree.namedXmls, append_assoc] at hskip
      rw [skipMembers_member fuel hname hmember] at hskip
      obtain ⟨d', hfirst, hothers⟩ := bind_eq_ok.mp hskip
      obtain ⟨hfree, rfl⟩ := hvalue fuel _ (follows_close hend (by decide) _) hfirst
      rw [append_nil] at hothers
      obtain ⟨hfrees, rfl⟩ := ih hnames (.inr rfl) hall fuel _ hothers
      refine ⟨forall_mem_cons.mpr ⟨hfree, hfrees⟩, ?_⟩
      simp only [XmlRpcTree.namedXmls, append_assoc]

/-- The skip of members goes where the read goes. -/
theorem skipMembers_of_readMembers
    (hall : ∀ m ∈ members, SkippedBehind lib format m.2 ∧ SkippedAsRead lib format m.2) (fuel : Nat)
    (struc : List (DrString × Variant)) (behind : Blob)
    {r : List (DrString × Variant) × XmlRpcDecoder}
    (hread : readMembers lib fuel struc (between behind (member ++
      (XmlRpcTree.namedXmls format members ++ (closeTag "struct" ++ (closeTag "value" ++ ahead))))) =
        .ok r) :
    skipMembers lib fuel (between behind (member ++ (XmlRpcTree.namedXmls format members ++
      (closeTag "struct" ++ (closeTag "value" ++ ahead))))) = .ok r.2 := by
  induction members generalizing fuel struc behind member with
  | nil =>
    cases fuel with
    | zero =>
      rw [readMembers] at hread
      cases hread
    | succ fuel =>
      rw [XmlRpcTree.namedXmls, nil_append,
        RpcValue.readMembers_end fuel struc hmember behind hahead]
        at hread
      cases hread
      rw [XmlRpcTree.namedXmls, nil_append, skipMembers_end fuel hmember behind hahead]
  | cons m members ih =>
    obtain ⟨name, value⟩ := m
    obtain ⟨hname, hnames⟩ := forall_mem_cons.mp hnames
    obtain ⟨⟨hbehind, hsame⟩, hall⟩ := forall_mem_cons.mp hall
    have hname : ∀ c ∈ name.utf8, c ≠ 60 := fun c hc heq => hname (heq ▸ hc)
    have hend : IsName "member" := by decide
    cases fuel with
    | zero =>
      rw [readMembers] at hread
      cases hread
    | succ fuel =>
      have hfollows := follows_close hend (by decide) (XmlRpcTree.namedXmls format members ++
        (closeTag "struct" ++ (closeTag "value" ++ ahead)))
      simp only [XmlRpcTree.namedXmls, append_assoc] at hread ⊢
      rw [RpcValue.readMembers_succ fuel struc hname hmember] at hread
      obtain ⟨⟨v, d'⟩, hfirst, hothers⟩ := bind_eq_ok.mp hread
      obtain ⟨struc', -, hothers⟩ := bind_eq_ok.mp hothers
      have hskip := hsame fuel _ hfollows hfirst
      obtain ⟨-, rfl⟩ := hbehind fuel _ hfollows hskip
      rw [append_nil] at hothers hskip
      rw [skipMembers_member fuel hname hmember, hskip, ok_bind]
      exact ih hnames (.inr rfl) hall fuel struc' _ hothers

end Members

include hprint

/-- The skip comes back from no tree with an array in it. -/
theorem skippedBehind (t : XmlRpcTree) (hnames : t.Tagless) : SkippedBehind lib format t := by
  induction t using XmlRpcTree.induct with
  | leaf call isLeaf => exact (skipped_leaf hprint isLeaf).1
  | array elements ih =>
    intro fuel behind ahead taken rest d hahead hskip
    simp only [XmlRpcTree.xml, append_assoc] at hskip
    cases fuel with
    | zero =>
      rw [readSkip] at hskip
      cases hskip
    | succ fuel =>
      rw [readSkip_array] at hskip
      cases hskip
  | struct members ih =>
    intro fuel behind ahead taken rest d hahead hskip
    cases hnames with
    | struct hnames hall =>
      simp only [XmlRpcTree.xml, append_assoc] at hskip ⊢
      cases fuel with
      | zero =>
        rw [readSkip] at hskip
        cases hskip
      | succ fuel =>
        rw [(struct_between fuel _ _).1] at hskip
        obtain ⟨hfree, rfl⟩ := skipMembers_behind hnames (.inl rfl) hahead
          (fun m hm => ih m hm (hall m hm)) fuel _ hskip
        refine ⟨.struct hfree, ?_⟩
        simp only [append_assoc, nil_append]

/-- From a tree without arrays it comes back where the read does. -/
theorem skippedAsRead (t : XmlRpcTree) (hnames : t.Tagless) (hfree : t.ArrayFree) :
    SkippedAsRead lib format t := by
  induction t using XmlRpcTree.induct with
  | leaf call isLeaf => exact (skipped_leaf hprint isLeaf).2
  | array elements ih => cases hfree
  | struct members ih =>
    intro fuel behind ahead taken rest v d hahead hread
    cases hnames with
    | struct hnames htagless =>
      cases hfree with
      | struct hfree =>
        simp only [XmlRpcTree.xml, append_assoc] at hread ⊢
        cases fuel with
        | zero =>
          rw [readVariant] at hread
          cases hread
        | succ fuel =>
          rw [(struct_between fuel _ _).2] at hread
          obtain ⟨r, hmembers, hr⟩ := bind_eq_ok.mp hread
          cases hr
          rw [(struct_between fuel _ _).1]
          exact skipMembers_of_readMembers hnames (.inl rfl) hahead (fun m hm =>
            ⟨skippedBehind hprint m.2 (htagless m hm), ih m hm (htagless m hm) (hfree m hm)⟩)
            fuel [] _
              hmembers

end Trees

section Names

/-- What is written as this value has no name with a tag in it. -/
def NamesTagless (v : Variant) : Prop := ∀ t : XmlRpcTree, t.ReadAs v → t.Tagless

/-- The octet of a tag is the character of one. -/
theorem tag_mem_utf8_iff (s : DrString) : 60 ∈ s.utf8 ↔ 60 ∈ s.text := by
  cases s with
  | bytes b =>
    change 60 ∈ b ↔ 60 ∈ b.map UInt8.toUInt32
    rw [mem_map]
    constructor
    · exact fun h => ⟨60, h, rfl⟩
    · rintro ⟨c, hc, heq⟩
      have hsame : c = 60 := by
        apply UInt8.toNat_inj.mp
        rw [← UInt8.toNat_toUInt32, heq]
        rfl
      exact hsame ▸ hc
  | wide w =>
    change 60 ∈ w.map _ ↔ 60 ∈ w
    rw [mem_map]
    constructor
    · rintro ⟨c, hc, heq⟩
      have hsame : c = 60 := by
        split_ifs at heq with hlarge
        · cases heq
        · rw [gt_iff_lt, UInt32.lt_iff_toNat_lt, Nat.not_lt] at hlarge
          change c.toNat ≤ 127 at hlarge
          apply UInt32.toNat_inj.mp
          have hlow := congrArg UInt8.toNat heq
          rw [UInt32.toNat_toUInt8] at hlow
          change c.toNat % 256 = 60 at hlow
          change c.toNat = 60
          omega
      exact hsame ▸ hc
    · exact fun h => ⟨60, h, rfl⟩

theorem exists_beside {α β : Type} {R : α → β → Prop} {l : List α} {l' : List β}
    (h : List.Forall₂ R l l') : ∀ a ∈ l, ∃ b ∈ l', R a b := by
  induction h with
  | nil => exact fun a ha => absurd ha not_mem_nil
  | cons hab _ ih =>
    refine forall_mem_cons.mpr ⟨⟨_, mem_cons_self, hab⟩, fun a ha => ?_⟩
    obtain ⟨b, hb, hab⟩ := ih a ha
    exact ⟨b, mem_cons_of_mem _ hb, hab⟩

theorem namesTagless_leaf {v : Variant} (harray : ∀ list, v ≠ .array list)
    (hstruct : ∀ struc, v ≠ .struct struc) : NamesTagless v := by
  intro t ht
  cases ht with
  | leaf htype => exact .leaf _ _
  | array hall => exact absurd rfl (harray _)
  | struct hnames hall => exact absurd rfl (hstruct _)

theorem namesTagless_struct {struc : List (DrString × Variant)}
    (hall : ∀ m ∈ struc, 60 ∉ m.1.utf8 ∧ NamesTagless m.2) : NamesTagless (.struct struc) := by
  intro t ht
  cases ht with
  | leaf htype => exact .leaf _ _
  | struct hnames hvalues =>
    constructor
    · intro m hm htag
      obtain ⟨m', hm', htext⟩ := exists_beside hnames m hm
      rw [tag_mem_utf8_iff, ← htext, ← tag_mem_utf8_iff] at htag
      exact (hall m' hm').1 htag
    · intro m hm
      obtain ⟨m', hm', hread⟩ := exists_beside hvalues m hm
      exact (hall m' hm').2 m.2 hread

theorem namesTagless_array {list : List Variant} (hall : ∀ v ∈ list, NamesTagless v) :
    NamesTagless (.array list) := by
  intro t ht
  cases ht with
  | leaf htype => exact .leaf _ _
  | array helements =>
    constructor
    intro element helement
    obtain ⟨v, hv, hread⟩ := exists_beside helements element helement
    exact hall v hv element hread

/-- The name of a member is read up to the next tag. -/
theorem tagless_readMemberName {d d' : XmlRpcDecoder} {name : DrString}
    (h : d.readMemberName = .ok (name, d')) : 60 ∉ name.utf8 := by
  unfold readMemberName at h
  obtain ⟨d₁, -, h⟩ := bind_eq_ok.mp h
  obtain ⟨d₂, -, h⟩ := bind_eq_ok.mp h
  obtain ⟨d₃, -, h⟩ := bind_eq_ok.mp h
  cases h
  change 60 ∉ d₂.ahead.take (d₂.readContent).1.2
  unfold readContent
  split_ifs
  · have htake : d₂.ahead.takeWhile (· ≠ 60) =
        d₂.ahead.take (d₂.ahead.takeWhile (· ≠ 60)).length :=
      prefix_iff_eq_take.mp (List.takeWhile_prefix _)
    intro hmem
    rw [← htake] at hmem
    exact absurd (mem_takeWhile_imp hmem) (by decide)
  · exact not_mem_nil

theorem mem_of_createMember {struc struc' : List (DrString × Variant)} {name : DrString}
    {value : Variant} (h : createMember struc name value = .ok struc') {m : DrString × Variant}
    (hm : m ∈ struc') : m ∈ struc ∨ m = (name, value) := by
  unfold createMember at h
  split_ifs at h with hname hroom
  · cases h
    obtain ⟨m', hm', heq⟩ := mem_map.mp hm
    split_ifs at heq
    · exact .inr heq.symm
    · exact .inl (heq ▸ hm')
  · cases h
    exact (mem_append.mp hm).imp_right mem_singleton.mp

theorem mem_of_append {list : List Variant} {value v : Variant} (h : v ∈ RArray.append list value) :
    v ∈ list ∨ v = value := by
  unfold RArray.append RArray.resizeInit at h
  split_ifs at h
  · exact .inl (mem_of_mem_take h)
  · obtain h | h := mem_append.mp h
    · exact .inl (mem_of_mem_take h)
    · exact .inr (eq_of_mem_replicate h)

/-- Whatever is read, no name of a member has a tag in it. -/
theorem namesTagless_read (lib : XmlRpcLibrary) (fuel : Nat) :
    (∀ d r, readVariant lib fuel d = .ok r → NamesTagless r.1) ∧
      (∀ struc d r, (∀ m ∈ struc, 60 ∉ m.1.utf8 ∧ NamesTagless m.2) →
        readMembers lib fuel struc d = .ok r → ∀ m ∈ r.1, 60 ∉ m.1.utf8 ∧ NamesTagless m.2) ∧
      (∀ list d r, (∀ v ∈ list, NamesTagless v) →
        readElements lib fuel list d = .ok r → ∀ v ∈ r.1, NamesTagless v) := by
  induction fuel with
  | zero =>
    refine ⟨fun d r h => ?_, fun struc d r _ h => ?_, fun list d r _ h => ?_⟩
    · rw [readVariant] at h
      cases h
    · rw [readMembers] at h
      cases h
    · rw [readElements] at h
      cases h
  | succ fuel ih =>
    obtain ⟨ihvariant, ihmembers, ihelements⟩ := ih
    refine ⟨fun d r h => ?_, fun struc d r hstruc h => ?_, fun list d r hlist h => ?_⟩
    · rw [readVariant] at h
      obtain ⟨⟨type, d₁⟩, -, h⟩ := bind_eq_ok.mp h
      cases type with
      | rtEnd => cases h
      | rtStruct =>
        obtain ⟨d₂, -, h⟩ := bind_eq_ok.mp h
        obtain ⟨⟨struc, d₃⟩, hmembers, h⟩ := bind_eq_ok.mp h
        cases h
        exact namesTagless_struct
          (ihmembers [] d₂ _ (fun _ hm => absurd hm not_mem_nil) hmembers)
      | rtArray =>
        obtain ⟨d₂, -, h⟩ := bind_eq_ok.mp h
        obtain ⟨⟨list, d₃⟩, helements, h⟩ := bind_eq_ok.mp h
        cases h
        exact namesTagless_array
          (ihelements [] d₂ _ (fun _ hv => absurd hv not_mem_nil) helements)
      | rtMethodName | rtMethodResponse | rtFaultResponse =>
        cases h
        exact namesTagless_leaf (fun _ h => by cases h) fun _ h => by cases h
      | rtInt | rtBool | rtDouble | rtString | rtTime | rtBinary =>
        obtain ⟨_, -, h⟩ := bind_eq_ok.mp h
        cases h
        exact namesTagless_leaf (fun _ h => by cases h) fun _ h => by cases h
    · rw [readMembers] at h
      obtain ⟨⟨more, d₁⟩, -, h⟩ := bind_eq_ok.mp h
      cases more with
      | true =>
        obtain ⟨⟨name, d₂⟩, hname, h⟩ := bind_eq_ok.mp h
        obtain ⟨⟨value, d₃⟩, hvalue, h⟩ := bind_eq_ok.mp h
        obtain ⟨struc', hcreate, h⟩ := bind_eq_ok.mp h
        refine ihmembers struc' d₃ r (fun m hm => ?_) h
        obtain hm | rfl := mem_of_createMember hcreate hm
        · exact hstruc m hm
        · exact ⟨tagless_readMemberName hname, ihvariant d₂ _ hvalue⟩
      | false =>
        cases h
        exact hstruc
    · rw [readElements] at h
      obtain ⟨⟨more, d₁⟩, -, h⟩ := bind_eq_ok.mp h
      cases more with
      | true =>
        obtain ⟨⟨value, d₂⟩, hvalue, h⟩ := bind_eq_ok.mp h
        refine ihelements _ d₂ r (fun v hv => ?_) h
        obtain hv | rfl := mem_of_append hv
        · exact hlist v hv
        · exact ihvariant d₁ _ hvalue
      | false =>
        cases h
        exact hlist

end Names

/-- The tag of a parameter is passed before a tree. -/
theorem taken_param {format : RpcFormat} (hprint : ∀ bits, 60 ∉ format.sprintf bits)
    (t : XmlRpcTree) (fuel : Nat) (behind ahead : Blob) :
    readSkip lib (fuel + 1) (between behind (openTag "param" ++ (t.xml format ++ ahead))) =
        readSkip lib (fuel + 1) (between (behind ++ openTag "param") (t.xml format ++ ahead)) ∧
      readVariant lib (fuel + 1) (between behind (openTag "param" ++ (t.xml format ++ ahead))) =
        readVariant lib (fuel + 1)
          (between (behind ++ openTag "param") (t.xml format ++ ahead)) := by
  obtain ⟨name, tail, type, hname, htype, hresponse, hstart⟩ : ∃ name tail type, IsName name ∧
      typeOfTag (ascii name) = .ok type ∧ ascii name ≠ ascii "methodResponse" ∧
      t.xml format = openTag "value" ++ (openTag name ++ tail) := by
    cases t with
    | leaf call isLeaf =>
      obtain ⟨type, name, text, hmem, -, hxml, -⟩ := XmlRpcEncoder.leafXml_element hprint isLeaf
      obtain ⟨hname, htype, hresponse⟩ := RpcType.of_mem_elements hmem
      rw [XmlRpcTree.xml, hxml]
      exact ⟨name, _, type, hname, htype, hresponse, rfl⟩
    | array elements =>
      rw [XmlRpcTree.xml]
      exact ⟨"array", _, .rtArray, by decide, by decide, by decide, rfl⟩
    | struct members =>
      rw [XmlRpcTree.xml]
      exact ⟨"struct", _, .rtStruct, by decide, by decide, by decide, rfl⟩
  simp only [hstart, append_assoc]
  constructor
  · rw [readSkip, readSkip, readCheckType_param hname _ _ htype hresponse,
      readCheckType_between hname _ _ htype hresponse]
  · rw [readVariant, readVariant, readCheckType_param hname _ _ htype hresponse,
      readCheckType_between hname _ _ htype hresponse]

end XmlRpcDecoder

/-- Where the read of a value that was written leaves the decoder, the skip leaves it exactly if the
value has no array in it. -/
theorem readSkip_iff_arrayFree {format : RpcFormat} (hprint : ∀ bits, 60 ∉ format.sprintf bits)
    (lib : XmlRpcLibrary) (t : XmlRpcTree) (e : XmlRpcEncoder) (ahead : Blob)
    (hahead : e.value_level = 0 ∨ Follows ahead [] ahead) {v : Variant} {d : XmlRpcDecoder}
    (hsame : t.ReadAs v)
    (hread : Returns (fun fuel => readVariant lib fuel
      ⟨(e.writeTree format t).content ++ ahead, e.content.length, none⟩) (v, d)) :
    Returns (fun fuel => readSkip lib fuel
      ⟨(e.writeTree format t).content ++ ahead, e.content.length, none⟩) d ↔ t.ArrayFree := by
  obtain ⟨least, hread⟩ := hread
  have htagless : t.Tagless :=
    (namesTagless_read lib least).1 _ _ (hread least (Nat.le_refl least)) t hsame
  have hcontent := (XmlRpcEncoder.writes_tree hprint t e).content
  -- the decoder stands in front of the text of the tree, or of the tag of a parameter
  obtain ⟨behind, ahead', taken, rest, hfollows, hstart⟩ : ∃ behind ahead' taken rest,
      Follows ahead' taken rest ∧ ∀ fuel,
        readSkip lib (fuel + 1)
            ⟨(e.writeTree format t).content ++ ahead, e.content.length, none⟩ =
          readSkip lib (fuel + 1) (between behind (t.xml format ++ ahead')) ∧
        readVariant lib (fuel + 1)
            ⟨(e.writeTree format t).content ++ ahead, e.content.length, none⟩ =
          readVariant lib (fuel + 1) (between behind (t.xml format ++ ahead')) := by
    by_cases hlevel : e.value_level = 0
    · refine ⟨e.content ++ openTag "param", closeTag "param" ++ ahead, _, _, follows_param ahead,
        fun fuel => ?_⟩
      have hstart : (⟨(e.writeTree format t).content ++ ahead, e.content.length, none⟩ :
          XmlRpcDecoder) = between e.content
            (openTag "param" ++ (t.xml format ++ (closeTag "param" ++ ahead))) := by
        rw [hcontent, if_pos hlevel]
        simp [between]
      rw [hstart]
      exact taken_param hprint t fuel e.content _
    · refine ⟨e.content, ahead, _, _, hahead.resolve_left hlevel, fun fuel => ?_⟩
      have hstart : (⟨(e.writeTree format t).content ++ ahead, e.content.length, none⟩ :
          XmlRpcDecoder) = between e.content (t.xml format ++ ahead) := by
        rw [hcontent, if_neg hlevel]
        simp [between]
      rw [hstart]
      exact ⟨rfl, rfl⟩
  constructor
  · rintro ⟨least', hskip⟩
    have htaken := (hstart least').1.symm.trans (hskip (least' + 1) (Nat.le_succ least'))
    exact (skippedBehind hprint t htagless _ behind hfollows htaken).1
  · intro hfree
    refine ⟨least + 1, fun fuel hfuel => ?_⟩
    obtain ⟨fuel, rfl⟩ : ∃ n, fuel = n + 1 := ⟨fuel - 1, by omega⟩
    have htaken := (hstart fuel).2.symm.trans (hread (fuel + 1) (by omega))
    exact (hstart fuel).1.trans (skippedAsRead hprint t htagless hfree _ behind hfollows htaken)

/-- A struct with a number and an empty struct in it. -/
theorem readSkip_iff_arrayFree_struct :
    let format : RpcFormat := ⟨fun _ => ⟨0, 0, 0, 0, 0, 0⟩, id, fun _ => []⟩
    let lib : XmlRpcLibrary := ⟨⟨fun _ _ _ _ _ _ _ => 0, id⟩, fun _ => 0⟩
    let t : XmlRpcTree := .struct [(.bytes (ascii "a"), .leaf (.writeInt32 5) trivial),
      (.bytes (ascii "b"), .struct [])]
    let content := ((XmlRpcEncoder.new false).writeTree format t).content ++ []
    Returns (fun fuel => readSkip lib fuel ⟨content, 0, none⟩) ⟨content, content.length, none⟩ ↔
      t.ArrayFree := by
  intro format lib t content
  let t' : RpcValue := .struct [(.bytes (ascii "a"), .int32 5), (.bytes (ascii "b"), .struct [])]
  have hwf : t'.XmlWellFormed := by
    refine .struct ?_ (by decide) ?_
    · simp only [forall_mem_cons, not_mem_nil, false_implies, implies_true, and_true]
      exact ⟨⟨trivial, by decide⟩, ⟨trivial, by decide⟩⟩
    · simp only [forall_mem_cons, not_mem_nil, false_implies, implies_true, and_true]
      exact ⟨.int32 (by decide), .struct (by simp) .nil (by simp)⟩
  have hfits : t'.Fits := by
    refine .struct (by decide) ?_
    simp only [forall_mem_cons, not_mem_nil, false_implies, implies_true, and_true]
    exact ⟨.int32 5, .struct (by decide) (by simp)⟩
  obtain ⟨v, hread, hsame⟩ :=
    (RpcValue.xmlCarried lib t' hwf).roundTrips_iff.mpr hfits (XmlRpcEncoder.new false) [] rfl
  have hcontent : ((XmlRpcEncoder.new false).write t').content =
      ((XmlRpcEncoder.new false).writeTree format t).content := by
    decide +kernel
  rw [hcontent] at hread
  have hint {v : Variant} (h : RpcValue.Same (.int32 5) v) :
      (XmlRpcTree.leaf (.writeInt32 5) trivial).ReadAs v := by
    cases h
    exact .leaf trivial
  have hempty {v : Variant} (h : RpcValue.Same (.struct []) v) :
      (XmlRpcTree.struct []).ReadAs v := by
    cases h with
    | struct hnames hall =>
      cases hall
      exact .struct .nil .nil
  have hreadAs {v : Variant} (h : RpcValue.Same (.struct [(.bytes (ascii "a"), .int32 5),
      (.bytes (ascii "b"), .struct [])]) v) : t.ReadAs v := by
    cases h with
    | struct hnames hall =>
      cases hnames with
      | cons hna hnames =>
        cases hnames with
        | cons hnb hnames =>
          cases hnames
          obtain ⟨ha, hb⟩ := List.forall₂_cons.mp hall
          exact .struct (.cons hna (.cons hnb .nil))
            (.cons (hint ha) (.cons (hempty (List.forall₂_cons.mp hb).1) .nil))
  have hlength : content.length =
      ((XmlRpcEncoder.new false).writeTree format t).content.length :=
    congrArg List.length (append_nil _)
  rw [hlength]
  exact readSkip_iff_arrayFree (fun _ => not_mem_nil) lib t (XmlRpcEncoder.new false) []
    (.inl rfl) (hreadAs hsame) hread

/-- An empty array is read, and the skip refuses it. -/
theorem readSkip_array_empty :
    let format : RpcFormat := ⟨fun _ => ⟨0, 0, 0, 0, 0, 0⟩, id, fun _ => []⟩
    let lib : XmlRpcLibrary := ⟨⟨fun _ _ _ _ _ _ _ => 0, id⟩, fun _ => 0⟩
    let content := ((XmlRpcEncoder.new false).writeTree format (.array [])).content
    (∃ v, (XmlRpcTree.array []).ReadAs v ∧ Returns (fun fuel => readVariant lib fuel
        ⟨content, 0, none⟩) (v, ⟨content, content.length, none⟩)) ∧
      ∀ fuel, readSkip lib (fuel + 1) ⟨content, 0, none⟩ =
        .raise (.invalidFormatException "rpc::struct::code" "array") := by
  intro format lib content
  constructor
  · have hwf : (RpcValue.array []).XmlWellFormed := .array (by simp)
    have hfits : (RpcValue.array []).Fits := .array (by decide) (by simp)
    obtain ⟨v, hread, hsame⟩ :=
      (RpcValue.xmlCarried lib _ hwf).roundTrips_iff.mpr hfits (XmlRpcEncoder.new false) [] rfl
    have hcontent : ((XmlRpcEncoder.new false).write (.array [])).content = content := by
      decide
    rw [hcontent, append_nil] at hread
    refine ⟨v, ?_, hread⟩
    cases hsame with
    | array hall =>
      cases hall
      exact .array .nil
  · intro fuel
    have hstart : (⟨content, 0, none⟩ : XmlRpcDecoder) =
        between [] (openTag "param" ++ ((XmlRpcTree.array []).xml format ++ closeTag "param")) := by
      decide
    have hprint : ∀ bits, 60 ∉ format.sprintf bits := fun _ => not_mem_nil
    rw [hstart, (taken_param hprint (.array []) fuel [] (closeTag "param")).1]
    simp only [XmlRpcTree.xml, append_assoc]
    exact readSkip_array fuel _ _

end Drt
