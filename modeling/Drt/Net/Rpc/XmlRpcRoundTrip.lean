import Drt.Net.Rpc.XmlRpcWrite

/-!
# What is written in XML-RPC is read back

The tree of a parameter is read back, and the decoder stops behind the parameter, as
long as the containers are not too large for `RArray` and `RHash`. The proof goes by
the shape of the tree: behind a value stands the next one, the end of its container,
or the end of the parameter.
-/

open List

namespace Drt

open Outcome XmlRpcEncoder XmlRpcDecoder
open FastRpcDecoder (createMember_of_lt createMember_of_le createMember_cases)

namespace RpcValue

/-- The trees of the XML-RPC format: integers that are not negative, plain strings, and structs with
different names that have no tag in them. -/
inductive XmlWellFormed : RpcValue → Prop where
  | int32 {v : Int32} (hv : 0 ≤ v.toInt) : XmlWellFormed (.int32 v)
  | int64 {v : Int64} (hv : 0 ≤ v.toInt) : XmlWellFormed (.int64 v)
  | bool (v : Bool) : XmlWellFormed (.bool v)
  | string {s : DrString} (hs : s.Plain) : XmlWellFormed (.string s)
  | array {elements : List RpcValue} (hall : ∀ e ∈ elements, XmlWellFormed e) :
      XmlWellFormed (.array elements)
  | struct {members : List (DrString × RpcValue)}
      (hnames : ∀ m ∈ members, m.1.Plain ∧ ∀ c ∈ m.1.utf8, c ≠ 60)
      (hnodup : (members.map fun m => m.1.text).Nodup)
      (hall : ∀ m ∈ members, XmlWellFormed m.2) : XmlWellFormed (.struct members)

/-- The containers are not too large. -/
inductive Fits : RpcValue → Prop where
  | int32 (v : Int32) : Fits (.int32 v)
  | int64 (v : Int64) : Fits (.int64 v)
  | bool (v : Bool) : Fits (.bool v)
  | string (s : DrString) : Fits (.string s)
  | binary (b : Blob) : Fits (.binary b)
  | array {elements : List RpcValue} (hlen : elements.length < 2 ^ 29)
      (hall : ∀ e ∈ elements, Fits e) : Fits (.array elements)
  | struct {members : List (DrString × RpcValue)} (hlen : members.length ≤ Hash.nodeLimit)
      (hall : ∀ m ∈ members, Fits m.2) : Fits (.struct members)

end RpcValue

/-- These octets are read as a value, wherever they stand, whatever comes behind them. -/
def ReadsXml (lib : XmlRpcLibrary) (octets : Blob) (v : Variant) : Prop :=
  ∀ (behind : Blob) {ahead taken rest : Blob}, Follows ahead taken rest →
    Returns (fun fuel => readVariant lib fuel (between behind (octets ++ ahead)))
      (v, between (behind ++ octets ++ taken) rest)

/-- The decoder does not come back from these octets. -/
def RefusesXml (lib : XmlRpcLibrary) (octets : Blob) : Prop :=
  ∀ (behind : Blob) {ahead taken rest : Blob}, Follows ahead taken rest →
    Diverges fun fuel => readVariant lib fuel (between behind (octets ++ ahead))

namespace RpcValue

variable {lib : XmlRpcLibrary}

/-- The text of a tree is read, if the decoder comes back, and what it gives is the tree exactly for
one that fits. -/
def XmlCarried (lib : XmlRpcLibrary) (t : RpcValue) : Prop :=
  (∃ v, ReadsXml lib t.xml v ∧ (t.Same v ↔ t.Fits)) ∨ (RefusesXml lib t.xml ∧ ¬ t.Fits)

/-- The text of a tree starts with the tags of a value. -/
theorem xml_start (t : RpcValue) : ∃ name tail type, IsName name ∧
    typeOfTag (ascii name) = .ok type ∧ ascii name ≠ ascii "methodResponse" ∧
    t.xml = openTag "value" ++ (openTag name ++ tail) := by
  cases t with
  | int32 v => exact ⟨"int", _, .rtInt, by decide, by decide, by decide, rfl⟩
  | int64 v =>
    rw [xml]
    split_ifs
    · exact ⟨"int", _, .rtInt, by decide, by decide, by decide, rfl⟩
    · exact ⟨"i8", _, .rtInt, by decide, by decide, by decide, rfl⟩
  | bool v => exact ⟨"boolean", _, .rtBool, by decide, by decide, by decide, rfl⟩
  | string s => exact ⟨"string", _, .rtString, by decide, by decide, by decide, rfl⟩
  | binary b => exact ⟨"base64", _, .rtBinary, by decide, by decide, by decide, rfl⟩
  | array elements => exact ⟨"array", _, .rtArray, by decide, by decide, by decide, rfl⟩
  | struct members => exact ⟨"struct", _, .rtStruct, by decide, by decide, by decide, rfl⟩

/-- An element with the text of a number is read as that number. -/
theorem reads_int {name : String} (hname : IsName name) (hmem : name ∈ ["i4", "i8", "int"])
    (htype : typeOfTag (ascii name) = .ok .rtInt) (hresponse : ascii name ≠ ascii "methodResponse")
    {number : Nat} (hnumber : number < 2 ^ 64) :
    ReadsXml lib (leafText name (numberText 10 number)) (.int (.ofNat number)) := by
  intro behind ahead taken rest hahead
  have htext : ∀ c ∈ numberText 10 number, c ≠ 60 := by
    rintro c hc rfl
    have hdigit : digitValue 60 < 10 := digitValue_lt_of_mem (by decide) (by decide) hc
    exact absurd hdigit (by decide)
  refine .of_succ_ok fun fuel => ?_
  simp only [leafText, append_assoc]
  rw [readVariant, readCheckType_between hname _ _ htype hresponse, ok_bind]
  simp only
  rw [readInt64, readLeaf_between hname _ hahead hmem _ htext, ok_bind]
  simp only
  rw [int64Of_numberText hnumber]
  simp

theorem xmlCarried_int32 {v : Int32} (hv : 0 ≤ v.toInt) : (int32 v).XmlCarried lib := by
  obtain ⟨n, hn⟩ := Int.eq_ofNat_of_zero_le hv
  have hlt : n < 2 ^ 31 := by
    have hle := v.toInt_lt
    omega
  have htext : (int32 v).xml = leafText "int" (numberText 10 n) := by
    rw [xml, hn, intText, if_neg (by omega)]
    rfl
  refine Or.inl ⟨.int (.ofNat n), ?_, iff_of_true (.int32 ?_) (.int32 v)⟩
  · rw [htext]
    exact reads_int (by decide) (by decide) (by decide) (by decide) (by omega)
  · rw [Int64.toInt_ofNat_of_lt (by omega), hn]

/-- A `Sint64`. -/
theorem xmlCarried_int64 {v : Int64} (hv : 0 ≤ v.toInt) : (int64 v).XmlCarried lib := by
  obtain ⟨n, hn⟩ := Int.eq_ofNat_of_zero_le hv
  have hlt : n < 2 ^ 63 := by
    have hle := v.toInt_lt
    omega
  have hvalue : Int64.ofNat n = v := by
    rw [← Int64.toInt_inj, Int64.toInt_ofNat_of_lt hlt, hn]
  have hnumber (name : String) : leafText name (intText 10 n) = leafText name (numberText 10 n) := by
    rw [intText, if_neg (by omega)]
    rfl
  refine Or.inl ⟨.int v, ?_, iff_of_true (.int64 v) (.int64 v)⟩
  rw [← hvalue, xml]
  split_ifs with hsmall
  · have hint : (Int64.ofNat n).toInt32.toInt = n := by
      have hle := Int64.le_iff_toInt_le.mp hsmall.2
      rw [Int64.toInt_ofNat_of_lt hlt] at hle
      change (n : Int) ≤ 0x7fffffff at hle
      rw [Int64.toInt_toInt32, Int64.toInt_ofNat_of_lt hlt, Int.bmod_eq_of_le (by omega) (by omega)]
    rw [hint, hnumber]
    exact reads_int (by decide) (by decide) (by decide) (by decide) (by omega)
  · rw [Int64.toInt_ofNat_of_lt hlt, hnumber]
    exact reads_int (by decide) (by decide) (by decide) (by decide) (by omega)

theorem type_boolean : typeOfTag (ascii "boolean") = .ok .rtBool := by decide

theorem type_string : typeOfTag (ascii "string") = .ok .rtString := by decide

theorem type_array : typeOfTag (ascii "array") = .ok .rtArray := by decide

theorem type_struct : typeOfTag (ascii "struct") = .ok .rtStruct := by decide

/-- A boolean. -/
theorem xmlCarried_bool (v : Bool) : (bool v).XmlCarried lib := by
  refine Or.inl ⟨.bool v, ?_, iff_of_true (.bool v) (.bool v)⟩
  intro behind ahead taken rest hahead
  have htext : ∀ c ∈ ascii (if v then "true" else "false"), c ≠ 60 := by
    cases v <;> decide
  have hvalue : boolOf (ascii (if v then "true" else "false")) = .ok v := by
    cases v <;> decide
  refine .of_succ_ok fun fuel => ?_
  simp only [xml, leafText, append_assoc]
  rw [readVariant, readCheckType_between (by decide) _ _ type_boolean (by decide),
    ok_bind]
  simp only
  rw [readBool, readLeaf_between (by decide) _ hahead (by decide) _ htext, ok_bind]
  simp only [take_left]
  rw [hvalue]
  simp

/-- A string. -/
theorem xmlCarried_string {s : DrString} (hs : s.Plain) : (string s).XmlCarried lib := by
  refine Or.inl ⟨.string (.bytes s.utf8), ?_, iff_of_true (.string ?_) (.string s)⟩
  · intro behind ahead taken rest hahead
    have htext : ∀ c ∈ (escaped s).utf8, c ≠ 60 := by
      intro c hc
      rw [utf8_escaped, mem_flatMap] at hc
      obtain ⟨_, _, hc⟩ := hc
      exact escape_ne hc
    refine .of_succ_ok fun fuel => ?_
    simp only [xml, leafText, append_assoc]
    rw [readVariant, readCheckType_between (by decide) _ _ type_string (by decide),
      ok_bind]
    simp only
    rw [readString, readLeaf_between (by decide) _ hahead (by decide) _ htext, ok_bind]
    simp only
    rw [convertToString_escaped]
    simp
  · exact (DrString.text_setUtf8_utf8 s).mpr hs

/-- The tags at the end of an array. -/
def arrayEnd : Blob := closeTag "data" ++ (closeTag "array" ++ closeTag "value")

/-- Behind an element stands the next one, or the end of the array. -/
theorem follows_elements (elements : List RpcValue) (ahead : Blob) :
    Follows (elementsXml elements ++ (arrayEnd ++ ahead)) []
      (elementsXml elements ++ (arrayEnd ++ ahead)) := by
  cases elements with
  | nil =>
    simp only [elementsXml, arrayEnd, nil_append, append_assoc]
    exact follows_close (by decide) (by decide) _
  | cons element elements =>
    obtain ⟨name, tail, type, -, -, -, hstart⟩ := xml_start element
    simp only [elementsXml, hstart, append_assoc]
    exact follows_open (by decide) _

/-- The elements of an array are read behind any others. -/
def ElementsRead (lib : XmlRpcLibrary) (elements : List RpcValue) : Prop :=
  (∃ vs, vs.length = elements.length ∧
      (∀ list (behind : Blob) {ahead taken rest : Blob}, Follows ahead taken rest →
        Returns (fun fuel => readElements lib fuel list
            (between behind (elementsXml elements ++ (arrayEnd ++ ahead))))
          (RArray.appendAll list vs, between (behind ++ elementsXml elements ++ arrayEnd ++ taken) rest)) ∧
      (List.Forall₂ Same elements vs ↔ ∀ e ∈ elements, e.Fits)) ∨
    ((∀ list (behind : Blob) {ahead taken rest : Blob}, Follows ahead taken rest →
        Diverges fun fuel => readElements lib fuel list
          (between behind (elementsXml elements ++ (arrayEnd ++ ahead)))) ∧
      ¬ ∀ e ∈ elements, e.Fits)

theorem xmlElements_nil : ElementsRead lib [] := by
  refine Or.inl ⟨[], rfl, fun list behind ahead taken rest hahead => ?_, iff_of_true .nil (by simp)⟩
  refine .of_succ_ok fun fuel => ?_
  simp only [elementsXml, arrayEnd, nil_append, append_assoc]
  rw [readElements, checkArrayNext_close behind hahead, ok_bind]
  simp [RArray.appendAll]

theorem readElements_succ (fuel : Nat) (list : List Variant) (element : RpcValue)
    (behind tail : Blob) :
    readElements lib (fuel + 1) list (between behind (element.xml ++ tail)) =
      (readVariant lib fuel (between behind (element.xml ++ tail)) >>= fun r =>
        readElements lib fuel (RArray.append list r.1) r.2) := by
  obtain ⟨name, rest, type, -, -, -, hstart⟩ := xml_start element
  simp only [hstart, append_assoc]
  rw [readElements, checkArrayNext_open, ok_bind]
  simp

variable {elements : List RpcValue} {members : List (DrString × RpcValue)}

/-- One more element in front. -/
theorem xmlElements_cons {element : RpcValue} (helement : element.XmlCarried lib)
    (hrest : ElementsRead lib elements) : ElementsRead lib (element :: elements) := by
  have hpass (list : List Variant) (fuel : Nat) (behind ahead : Blob) :
      readElements lib (fuel + 1) list (between behind (element.xml ++ (elementsXml elements ++
          (arrayEnd ++ ahead)))) = _ :=
    readElements_succ fuel list element behind _
  rcases helement with ⟨v, hv, hsame⟩ | ⟨hv, hsame⟩
  · rcases hrest with ⟨vs, hcount, hvs, hall⟩ | ⟨hvs, hall⟩
    · refine Or.inl ⟨v :: vs, by simp [hcount], fun list behind ahead taken rest hahead => ?_, ?_⟩
      · have hread := hv behind (follows_elements elements ahead)
        have hnext := hvs (RArray.append list v) (behind ++ element.xml) hahead
        simp only [append_nil] at hread
        simp only [elementsXml, append_assoc] at hnext ⊢
        exact .pass (fun fuel => hpass list fuel behind ahead) hread hnext
      · rw [List.forall₂_cons, forall_mem_cons, hsame, hall]
    · refine Or.inr ⟨fun list behind ahead taken rest hahead => ?_,
        fun h => hall (forall_mem_cons.mp h).2⟩
      have hread := hv behind (follows_elements elements ahead)
      have hnext := hvs (RArray.append list v) (behind ++ element.xml) hahead
      simp only [append_nil] at hread
      simp only [elementsXml, append_assoc] at hnext ⊢
      exact (Diverges.after hread hnext).of_succ fun fuel => hpass list fuel behind ahead
  · refine Or.inr ⟨fun list behind ahead taken rest hahead => ?_,
      fun h => hsame (forall_mem_cons.mp h).1⟩
    have hread := hv behind (follows_elements elements ahead)
    simp only [elementsXml, append_assoc]
    exact (hread.bind _).of_succ fun fuel => hpass list fuel behind ahead

theorem xmlElements (hall : ∀ e ∈ elements, e.XmlCarried lib) : ElementsRead lib elements := by
  induction elements with
  | nil => exact xmlElements_nil
  | cons element elements ih =>
    obtain ⟨helement, hall⟩ := forall_mem_cons.mp hall
    exact xmlElements_cons helement (ih hall)

/-- An array is read by way of its elements. -/
theorem readVariant_array (fuel : Nat) (elements : List RpcValue) (behind ahead : Blob) :
    readVariant lib (fuel + 1) (between behind ((array elements).xml ++ ahead)) =
      (readElements lib fuel [] (between (behind ++ openTag "value" ++ openTag "array" ++ openTag "data")
          (elementsXml elements ++ (arrayEnd ++ ahead))) >>= fun r => .ok (.array r.1, r.2)) := by
  simp only [xml, arrayEnd, append_assoc]
  rw [readVariant, readCheckType_between (by decide) _ _ type_array (by decide),
    ok_bind]
  simp only
  rw [readArrayLength, moveToNextValue_between (by decide), ok_bind]
  simp only [if_true]
  rw [moveToNextElementReqStart_open (by decide), ok_bind]
  simp only [append_assoc]

/-- An array. -/
theorem xmlCarried_array (hall : ∀ e ∈ elements, e.XmlCarried lib) :
    (array elements).XmlCarried lib := by
  rcases xmlElements hall with ⟨vs, hcount, hvs, hsame⟩ | ⟨hvs, hnot⟩
  · refine Or.inl ⟨.array (RArray.appendAll [] vs), ?_, ?_⟩
    · intro behind ahead taken rest hahead
      have hread := hvs [] (behind ++ openTag "value" ++ openTag "array" ++ openTag "data")
        hahead
      have hwhole : Returns (fun fuel => readVariant lib fuel
          (between behind ((array elements).xml ++ ahead))) (Variant.array (RArray.appendAll [] vs), _) :=
        .of_succ (hread.bind (.ok _)) fun fuel => readVariant_array fuel elements behind ahead
      simpa only [xml, arrayEnd, append_assoc] using hwhole
    · rw [same_array_iff hcount, hsame]
      constructor
      · rintro ⟨hlen, hfits⟩
        exact .array hlen hfits
      · intro hfits
        cases hfits with
        | array hlen hfits => exact ⟨hlen, hfits⟩
  · refine Or.inr ⟨fun behind _ _ _ hahead => ?_, fun hfits => ?_⟩
    · exact ((hvs [] _ hahead).bind _).of_succ fun fuel => readVariant_array fuel elements _ _
    · cases hfits with
      | array _ hfits => exact hnot hfits

/-- The tags at the end of a struct. -/
def structEnd : Blob := closeTag "struct" ++ closeTag "value"

/-- The members of a struct are read behind others with different names, if there are few enough of
them altogether. Before the next member stands the end tag of the one before. -/
def MembersRead (lib : XmlRpcLibrary) (members : List (DrString × RpcValue)) : Prop :=
  (∃ vs : List (DrString × Variant), vs.map Prod.fst = members.map nameRead ∧
      (∀ struc : List (DrString × Variant), (∀ m ∈ members, nameRead m ∉ struc.map Prod.fst) →
        ∀ (behind : Blob) {member ahead taken rest : Blob}, (member = [] ∨ member = closeTag "member") →
        Follows ahead taken rest →
        (struc.length + members.length ≤ Hash.nodeLimit →
          Returns (fun fuel => readMembers lib fuel struc
              (between behind (member ++ (membersXml members ++ (structEnd ++ ahead)))))
            (struc ++ vs,
              between (behind ++ member ++ membersXml members ++ structEnd ++ taken) rest)) ∧
        (struc.length ≤ Hash.nodeLimit → Hash.nodeLimit < struc.length + members.length →
          Diverges fun fuel => readMembers lib fuel struc
            (between behind (member ++ (membersXml members ++ (structEnd ++ ahead)))))) ∧
      (List.Forall₂ (fun m m' => m.2.Same m'.2) members vs ↔ ∀ m ∈ members, m.2.Fits)) ∨
    ((∀ struc (behind : Blob) {member ahead taken rest : Blob}, (member = [] ∨ member = closeTag "member") →
        Follows ahead taken rest →
        Diverges fun fuel => readMembers lib fuel struc
          (between behind (member ++ (membersXml members ++ (structEnd ++ ahead))))) ∧
      ¬ ∀ m ∈ members, m.2.Fits)

theorem readMembers_end (fuel : Nat) (struc : List (DrString × Variant)) {member : Blob}
    (hmember : member = [] ∨ member = closeTag "member") (behind : Blob) {ahead taken rest : Blob}
    (hahead : Follows ahead taken rest) :
    readMembers lib (fuel + 1) struc
        (between behind (member ++ (closeTag "struct" ++ (closeTag "value" ++ ahead)))) =
      .ok (struc,
        between (behind ++ member ++ closeTag "struct" ++ closeTag "value" ++ taken) rest) := by
  rw [readMembers,
    checkStructNext_between behind hmember fun fuel => checkMember_struct _ hahead fuel, ok_bind]
  rfl

theorem xmlMembers_nil : MembersRead lib [] := by
  refine Or.inl ⟨[], rfl, ?_, iff_of_true .nil (by simp)⟩
  intro struc _ behind member ahead taken rest hmember hahead
  refine ⟨fun _ => .of_succ_ok fun fuel => ?_, fun hle hlt => absurd hlt (Nat.not_lt.mpr hle)⟩
  simpa only [membersXml, structEnd, nil_append, append_assoc, append_nil] using
    readMembers_end fuel struc hmember behind hahead

/-- A pass of the loop over the members. -/
theorem readMembers_succ (fuel : Nat) (struc : List (DrString × Variant)) {name : Blob}
    (hname : ∀ c ∈ name, c ≠ 60) {member : Blob} (hmember : member = [] ∨ member = closeTag "member")
    (behind tail : Blob) :
    readMembers lib (fuel + 1) struc (between behind (member ++ (memberTags name ++ tail))) =
      (readVariant lib fuel (between (behind ++ member ++ memberTags name) tail) >>=
        fun r => createMember struc (.bytes name) r.1 >>= fun struc =>
          readMembers lib fuel struc r.2) := by
  rw [readMembers, checkStructNext_member behind hmember, ok_bind]
  simp only [if_true]
  rw [readMemberName_between _ _ hname, ok_bind]

/-- One more member in front. -/
theorem xmlMembers_cons {m : DrString × RpcValue} (hname : ∀ c ∈ m.1.utf8, c ≠ 60)
    (hnew : nameRead m ∉ members.map nameRead) (hm : m.2.XmlCarried lib)
    (hrest : MembersRead lib members) : MembersRead lib (m :: members) := by
  let create (struc : List (DrString × Variant)) (fuel : Nat) (r : Variant × XmlRpcDecoder) :=
    createMember struc (nameRead m) r.1 >>= fun struc => readMembers lib fuel struc r.2
  have hpass (struc : List (DrString × Variant)) {member : Blob}
      (hmember : member = [] ∨ member = closeTag "member") (fuel : Nat) (behind ahead : Blob) :
      readMembers lib (fuel + 1) struc
          (between behind (member ++ (membersXml (m :: members) ++ (structEnd ++ ahead)))) =
        (readVariant lib fuel (between (behind ++ member ++ memberTags m.1.utf8)
            (m.2.xml ++ (closeTag "member" ++ (membersXml members ++ (structEnd ++ ahead))))) >>=
          create struc fuel) := by
    have hxml : membersXml (m :: members) ++ (structEnd ++ ahead) = memberTags m.1.utf8 ++
        (m.2.xml ++ (closeTag "member" ++ (membersXml members ++ (structEnd ++ ahead)))) := by
      obtain ⟨name, value⟩ := m
      simp only [membersXml, append_assoc]
    rw [hxml]
    exact readMembers_succ fuel struc hname hmember behind _
  have hfollows (ahead : Blob) :
      Follows (closeTag "member" ++ (membersXml members ++ (structEnd ++ ahead))) []
        (closeTag "member" ++ (membersXml members ++ (structEnd ++ ahead))) :=
    follows_close (by decide) (by decide) _
  rcases hm with ⟨v, hv, hsame⟩ | ⟨hv, hsame⟩
  · rcases hrest with ⟨vs, hnames, hvs, hall⟩ | ⟨hvs, hall⟩
    · refine Or.inl ⟨(nameRead m, v) :: vs, by simp [hnames], ?_, ?_⟩
      · intro struc hstruc behind member ahead taken rest hmember hahead
        obtain ⟨hfresh, hstruc⟩ := forall_mem_cons.mp hstruc
        have hnext : ∀ m' ∈ members, nameRead m' ∉ (struc ++ [(nameRead m, v)]).map Prod.fst := by
          intro m' hm' hmem
          rw [map_append, mem_append] at hmem
          rcases hmem with hmem | hmem
          · exact hstruc m' hm' hmem
          · have hsame : nameRead m' = nameRead m := mem_singleton.mp hmem
            exact hnew (hsame ▸ mem_map_of_mem hm')
        have hread := hv (behind ++ member ++ memberTags m.1.utf8) (hfollows ahead)
        obtain ⟨hreads, hrefuses⟩ := hvs _ hnext
          (behind ++ member ++ memberTags m.1.utf8 ++ m.2.xml) (Or.inr rfl) hahead
        rw [length_append, length_singleton] at hreads hrefuses
        rw [length_cons]
        simp only [append_nil] at hread
        refine ⟨fun hroom => ?_, fun hsmall hover => ?_⟩
        · have hbody : Returns (fun fuel => create struc fuel (v, between
              (behind ++ member ++ memberTags m.1.utf8 ++ m.2.xml)
              (closeTag "member" ++ (membersXml members ++ (structEnd ++ ahead)))))
              (struc ++ [(nameRead m, v)] ++ vs, between (behind ++ member ++ memberTags m.1.utf8 ++
                m.2.xml ++ closeTag "member" ++ membersXml members ++ structEnd ++ taken) rest) := by
            have hreads := hreads (by omega)
            simp only [create, createMember_of_lt v hfresh (by omega), ok_bind]
            exact hreads
          have hstop : behind ++ member ++ memberTags m.1.utf8 ++ m.2.xml ++ closeTag "member" ++
              membersXml members ++ structEnd ++ taken =
              behind ++ member ++ membersXml (m :: members) ++ structEnd ++ taken := by
            obtain ⟨name, value⟩ := m
            simp only [membersXml, append_assoc]
          rw [hstop, append_assoc struc] at hbody
          exact .pass (fun fuel => hpass struc hmember fuel behind ahead) hread hbody
        · refine (Diverges.after hread ?_).of_succ fun fuel => hpass struc hmember fuel behind ahead
          by_cases hfull : struc.length < Hash.nodeLimit
          · refine (hrefuses (by omega) (by omega)).congr fun fuel => ?_
            simp only [create, createMember_of_lt v hfresh hfull, ok_bind]
          · refine .of_ne fun fuel r => ?_
            simp only [create, createMember_of_le v hfresh (Nat.not_lt.mp hfull)]
            simp
      · rw [List.forall₂_cons, forall_mem_cons, hsame, hall]
    · refine Or.inr ⟨?_, fun h => hall (forall_mem_cons.mp h).2⟩
      intro struc behind member ahead taken rest hmember hahead
      have hread := hv (behind ++ member ++ memberTags m.1.utf8) (hfollows ahead)
      simp only [append_nil] at hread
      refine (Diverges.after hread ?_).of_succ fun fuel => hpass struc hmember fuel behind ahead
      rcases createMember_cases struc (nameRead m) v with ⟨struc', hcreate⟩ | hcreate
      · have hnext := hvs struc'
          (behind ++ member ++ memberTags m.1.utf8 ++ m.2.xml) (Or.inr rfl) hahead
        refine hnext.congr fun fuel => ?_
        simp only [create, hcreate, ok_bind]
      · refine .of_ne fun fuel r => ?_
        simp only [create, hcreate]
        simp
  · refine Or.inr ⟨?_, fun h => hsame (forall_mem_cons.mp h).1⟩
    intro struc behind member ahead taken rest hmember hahead
    have hread := hv (behind ++ member ++ memberTags m.1.utf8) (hfollows ahead)
    exact (hread.bind _).of_succ fun fuel => hpass struc hmember fuel behind ahead

theorem xmlMembers (hnames : ∀ m ∈ members, ∀ c ∈ m.1.utf8, c ≠ 60)
    (hnodup : (members.map nameRead).Nodup) (hall : ∀ m ∈ members, m.2.XmlCarried lib) :
    MembersRead lib members := by
  induction members with
  | nil => exact xmlMembers_nil
  | cons m members ih =>
    rw [map_cons, nodup_cons] at hnodup
    obtain ⟨hm, hall⟩ := forall_mem_cons.mp hall
    obtain ⟨hname, hnames⟩ := forall_mem_cons.mp hnames
    exact xmlMembers_cons hname hnodup.1 hm (ih hnames hnodup.2 hall)

theorem readStructLength_between (behind ahead : Blob) :
    (between behind (openTag "value" ++ (openTag "struct" ++ ahead))).readStructLength =
      .ok (between (behind ++ openTag "value" ++ openTag "struct") ahead) := by
  rw [readStructLength, moveToNextValue_between (by decide), ok_bind]
  rfl

theorem readVariant_start (fuel : Nat) (behind ahead : Blob) :
    readVariant lib (fuel + 1) (between behind (openTag "value" ++ (openTag "struct" ++ ahead))) =
      readMembers lib fuel [] (between (behind ++ openTag "value" ++ openTag "struct") ahead) >>=
        fun r => .ok (.struct r.1, r.2) := by
  rw [readVariant, readCheckType_between (by decide) _ _ type_struct (by decide), ok_bind]
  simp only
  rw [readStructLength_between, ok_bind]

theorem readVariant_struct (fuel : Nat) (members : List (DrString × RpcValue))
    (behind ahead : Blob) :
    readVariant lib (fuel + 1) (between behind ((struct members).xml ++ ahead)) =
      (readMembers lib fuel [] (between (behind ++ openTag "value" ++ openTag "struct")
          ([] ++ (membersXml members ++ (structEnd ++ ahead)))) >>= fun r => .ok (.struct r.1, r.2)) := by
  simp only [xml, structEnd, append_assoc, nil_append]
  rw [readVariant_start]
  simp only [append_assoc]

/-- A struct. -/
theorem xmlCarried_struct (hnames : ∀ m ∈ members, m.1.Plain ∧ ∀ c ∈ m.1.utf8, c ≠ 60)
    (hnodup : (members.map fun m => m.1.text).Nodup) (hall : ∀ m ∈ members, m.2.XmlCarried lib) :
    (struct members).XmlCarried lib := by
  have hplain : ∀ m ∈ members, m.1.Plain := fun m hm => (hnames m hm).1
  rcases xmlMembers (fun m hm => (hnames m hm).2) (nodup_nameRead hplain hnodup) hall with
    ⟨vs, hvsnames, hvs, hsame⟩ | ⟨hvs, hnot⟩
  · have hread (behind : Blob) {ahead taken rest : Blob} (hahead : Follows ahead taken rest) :=
      hvs [] (fun _ _ => List.not_mem_nil) (behind ++ openTag "value" ++ openTag "struct")
        (Or.inl rfl) hahead
    simp only [length_nil, Nat.zero_add] at hread
    by_cases hroom : members.length ≤ Hash.nodeLimit
    · refine Or.inl ⟨.struct vs, ?_, ?_⟩
      · intro behind ahead taken rest hahead
        have hwhole : Returns (fun fuel => readVariant lib fuel
            (between behind ((struct members).xml ++ ahead))) (Variant.struct vs, _) :=
          .of_succ (((hread behind hahead).1 hroom).bind (.ok _)) fun fuel =>
            readVariant_struct fuel members behind ahead
        simpa only [xml, structEnd, append_assoc, nil_append] using hwhole
      · constructor
        · intro h
          cases h with
          | struct _ h => exact .struct hroom (hsame.mp h)
        · intro h
          cases h with
          | struct _ h => exact .struct (names_text hplain hvsnames) (hsame.mpr h)
    · refine Or.inr ⟨fun behind _ _ _ hahead => ?_, fun h => ?_⟩
      · have hdiverges := (hread behind hahead).2 (Nat.zero_le _) (Nat.not_le.mp hroom)
        exact (hdiverges.bind _).of_succ fun fuel => readVariant_struct fuel members _ _
      · cases h with
        | struct h => exact hroom h
  · refine Or.inr ⟨fun behind _ _ _ hahead => ?_, fun h => ?_⟩
    · exact ((hvs [] _ (Or.inl rfl) hahead).bind _).of_succ fun fuel =>
        readVariant_struct fuel members _ _
    · cases h with
      | struct _ h => exact hnot h

/-- The text of every tree of the format is read, or refused for its size. -/
theorem xmlCarried (lib : XmlRpcLibrary) (t : RpcValue) : t.XmlWellFormed → t.XmlCarried lib := by
  induction t using RpcValue.induct with
  | int32 v =>
    intro hwf
    cases hwf with
    | int32 hv => exact xmlCarried_int32 hv
  | int64 v =>
    intro hwf
    cases hwf with
    | int64 hv => exact xmlCarried_int64 hv
  | bool v => exact fun _ => xmlCarried_bool v
  | string s =>
    intro hwf
    cases hwf with
    | string hs => exact xmlCarried_string hs
  | binary b =>
    intro hwf
    cases hwf
  | array elements ih =>
    intro hwf
    cases hwf with
    | array hall => exact xmlCarried_array fun e he => ih e he (hall e he)
  | struct members ih =>
    intro hwf
    cases hwf with
    | struct hnames hnodup hall =>
      exact xmlCarried_struct hnames hnodup fun m hm => ih m hm (hall m hm)

theorem readVariant_param (fuel : Nat) (t : RpcValue) (behind ahead : Blob) :
    readVariant lib (fuel + 1) (between behind (openTag "param" ++ (t.xml ++ ahead))) =
      readVariant lib (fuel + 1) (between (behind ++ openTag "param") (t.xml ++ ahead)) := by
  obtain ⟨name, tail, type, hname, htype, hresponse, hstart⟩ := xml_start t
  simp only [hstart, append_assoc]
  rw [readVariant, readVariant, readCheckType_param hname _ _ htype hresponse,
    readCheckType_between hname _ _ htype hresponse]

/-- The tree is written as a parameter behind any content. Whatever comes behind, the read from the
start of the parameter gives the tree back and stops at its end. -/
def XmlRoundTrips (lib : XmlRpcLibrary) (t : RpcValue) : Prop :=
  ∀ (e : XmlRpcEncoder) (ahead : Blob), e.value_level = 0 →
    ∃ v, Returns
      (fun fuel => readVariant lib fuel ⟨(e.write t).content ++ ahead, e.content.length, none⟩)
      (v, ⟨(e.write t).content ++ ahead, (e.write t).content.length, none⟩) ∧
      t.Same v

theorem content_param (t : RpcValue) {e : XmlRpcEncoder} (hlevel : e.value_level = 0) :
    (e.write t).content = e.content ++ (openTag "param" ++ (t.xml ++ closeTag "param")) := by
  rw [(writes_xml t e).content, if_pos hlevel]

/-- How the text of a tree is read determines whether it is read back as a parameter. -/
theorem XmlCarried.roundTrips_iff {t : RpcValue} (h : t.XmlCarried lib) :
    t.XmlRoundTrips lib ↔ t.Fits := by
  have hstart (e : XmlRpcEncoder) (ahead : Blob) (hlevel : e.value_level = 0) :
      (⟨(e.write t).content ++ ahead, e.content.length, none⟩ : XmlRpcDecoder) =
        between e.content (openTag "param" ++ (t.xml ++ (closeTag "param" ++ ahead))) := by
    rw [content_param t hlevel]
    simp [between]
  have hstop (e : XmlRpcEncoder) (ahead : Blob) (hlevel : e.value_level = 0) :
      (⟨(e.write t).content ++ ahead, (e.write t).content.length, none⟩ : XmlRpcDecoder) =
        between (e.content ++ openTag "param" ++ t.xml ++ closeTag "param") ahead := by
    rw [content_param t hlevel]
    simp [between]
  have hlevel : (XmlRpcEncoder.new false).value_level = 0 := rfl
  rcases h with ⟨v, hv, hsame⟩ | ⟨hv, hnot⟩
  · have hread (e : XmlRpcEncoder) (ahead : Blob) (hlevel : e.value_level = 0) :
        Returns (fun fuel => readVariant lib fuel
            ⟨(e.write t).content ++ ahead, e.content.length, none⟩)
          (v, ⟨(e.write t).content ++ ahead, (e.write t).content.length, none⟩) := by
      rw [hstart e ahead hlevel, hstop e ahead hlevel]
      exact (hv (e.content ++ openTag "param") (follows_param ahead)).congr_succ fun fuel =>
        readVariant_param fuel t e.content _
    constructor
    · intro hround
      obtain ⟨v', hread', hsame'⟩ := hround _ [] hlevel
      obtain ⟨rfl, -⟩ := Prod.mk.inj ((hread _ [] hlevel).unique hread')
      exact hsame.mp hsame'
    · intro hfits e ahead hlevel
      exact ⟨v, hread e ahead hlevel, hsame.mpr hfits⟩
  · have hrefuses (e : XmlRpcEncoder) (ahead : Blob) (hlevel : e.value_level = 0) :
        Diverges fun fuel => readVariant lib fuel
          ⟨(e.write t).content ++ ahead, e.content.length, none⟩ := by
      rw [hstart e ahead hlevel]
      exact (hv (e.content ++ openTag "param") (follows_param ahead)).congr_succ fun fuel =>
        readVariant_param fuel t e.content _
    refine iff_of_false (fun hround => ?_) hnot
    obtain ⟨v', hread', -⟩ := hround _ [] hlevel
    exact (hrefuses _ [] hlevel).not_returns hread'

/-- A tree is written as a parameter and read back exactly when its containers are not too large. -/
theorem xmlRoundTrips_iff_fits (lib : XmlRpcLibrary) {t : RpcValue} (hwf : t.XmlWellFormed) :
    t.XmlRoundTrips lib ↔ t.Fits :=
  (xmlCarried lib t hwf).roundTrips_iff

/-- A struct with an array that holds an empty struct, a string of markup and an empty string. -/
theorem xmlRoundTrips_iff_fits_struct :
    let t := struct [(.bytes (ascii "a1"), array [struct [], string (.bytes (ascii "<&>")),
      string (.wide [])]), (.bytes (ascii "b"), int64 5000000000)]
    XmlRoundTrips ⟨⟨fun _ _ _ _ _ _ _ => 0, id⟩, fun _ => 0⟩ t ↔ t.Fits := by
  refine xmlRoundTrips_iff_fits _ (.struct ?_ (by decide) ?_)
  · simp only [forall_mem_cons, not_mem_nil, false_implies, implies_true, and_true]
    exact ⟨⟨trivial, by decide⟩, ⟨trivial, by decide⟩⟩
  · simp only [forall_mem_cons, not_mem_nil, false_implies, implies_true, and_true]
    refine ⟨.array ?_, .int64 (by decide)⟩
    simp only [forall_mem_cons, not_mem_nil, false_implies, implies_true, and_true]
    refine ⟨.struct ?_ .nil ?_, .string trivial, .string fun c hc => absurd hc not_mem_nil⟩ <;>
      simp

theorem xmlWellFormed_replicate (n : Nat) : (array (List.replicate n (bool true))).XmlWellFormed := by
  refine .array fun e he => ?_
  rw [eq_of_mem_replicate he]
  exact .bool true

theorem not_fits_replicate {n : Nat} (hn : 2 ^ 29 ≤ n) :
    ¬ (array (List.replicate n (bool true))).Fits := by
  intro hfits
  cases hfits with
  | array hlen _ =>
    rw [length_replicate] at hlen
    omega

/-- An array of `2 ^ 29` booleans is not read back. -/
theorem not_xmlRoundTrips_array :
    (array (List.replicate (2 ^ 29) (bool true))).XmlWellFormed ∧
      ∀ lib, ¬ XmlRoundTrips lib (array (List.replicate (2 ^ 29) (bool true))) := by
  refine ⟨xmlWellFormed_replicate _, fun lib hround => ?_⟩
  have hcarried := xmlCarried lib _ (xmlWellFormed_replicate (2 ^ 29))
  exact not_fits_replicate (Nat.le_refl _) (hcarried.roundTrips_iff.mp hround)

end RpcValue

end Drt
