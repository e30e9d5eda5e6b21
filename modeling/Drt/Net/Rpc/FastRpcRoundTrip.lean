import Drt.Net.Rpc.FastRpcWalk
import Mathlib.Data.List.Forall2

/-!
# What is written in FastRPC is read back

`readVariant` and `readSkip` take exactly the octets of one written tree, and
`readVariant` gives the tree back, with three exceptions: a wide character above 127
comes back as a question mark, the least `int` comes back as zero, and a container
can be too large for `RArray` or `RHash`. The proof goes by the shape of the tree.
-/

open List

namespace Drt

open Bytes FastRpc FastRpcEncoder FastRpcDecoder Outcome

namespace RpcValue

/-- The trees there is a format for: the integers have an absolute value of 63 bits, the lengths
are below `2 ^ 32`, and the names of members are ASCII, different, and at most 255 octets long. -/
inductive WellFormed : RpcValue → Prop where
  | int32 (v : Int32) : WellFormed (.int32 v)
  | int64 {v : Int64} (hv : v ≠ Int64.minValue) : WellFormed (.int64 v)
  | bool (v : Bool) : WellFormed (.bool v)
  | string {s : DrString} (hlen : s.utf8.length < 2 ^ 32) : WellFormed (.string s)
  | binary {b : Blob} (hlen : b.length < 2 ^ 32) : WellFormed (.binary b)
  | array {elements : List RpcValue} (hlen : elements.length < 2 ^ 32)
      (hall : ∀ e ∈ elements, WellFormed e) : WellFormed (.array elements)
  | struct {members : List (DrString × RpcValue)} (hlen : members.length < 2 ^ 32)
      (hnames : ∀ m ∈ members, m.1.Ascii ∧ m.1.utf8.length ≤ 255)
      (hnodup : (members.map fun m => m.1.text).Nodup)
      (hall : ∀ m ∈ members, WellFormed m.2) : WellFormed (.struct members)

/-- What is read is the tree that was written. Strings are compared by their text. -/
inductive Same : RpcValue → Variant → Prop where
  | int32 {v : Int32} {v' : Int64} (h : v'.toInt = v.toInt) : Same (.int32 v) (.int v')
  | int64 (v : Int64) : Same (.int64 v) (.int v)
  | bool (v : Bool) : Same (.bool v) (.bool v)
  | string {s s' : DrString} (htext : s'.text = s.text) : Same (.string s) (.string s')
  | binary (b : Blob) : Same (.binary b) (.binary b)
  | array {elements : List RpcValue} {list : List Variant}
      (hall : List.Forall₂ Same elements list) : Same (.array elements) (.array list)
  | struct {members : List (DrString × RpcValue)} {struc : List (DrString × Variant)}
      (hnames : List.Forall₂ (fun m m' => m'.1.text = m.1.text) members struc)
      (hall : List.Forall₂ (fun m m' => Same m.2 m'.2) members struc) :
      Same (.struct members) (.struct struc)

/-- The trees that are read back as they are. -/
inductive Faithful : RpcValue → Prop where
  | int32 {v : Int32} (hv : v ≠ Int32.minValue) : Faithful (.int32 v)
  | int64 (v : Int64) : Faithful (.int64 v)
  | bool (v : Bool) : Faithful (.bool v)
  | string {s : DrString} (hplain : s.Plain) : Faithful (.string s)
  | binary (b : Blob) : Faithful (.binary b)
  | array {elements : List RpcValue} (hlen : elements.length < 2 ^ 29)
      (hall : ∀ e ∈ elements, Faithful e) : Faithful (.array elements)
  | struct {members : List (DrString × RpcValue)} (hlen : members.length ≤ Hash.nodeLimit)
      (hall : ∀ m ∈ members, Faithful m.2) : Faithful (.struct members)

/-- Induction over a tree: what holds for the parts of a container holds for the container. -/
theorem induct {P : RpcValue → Prop} (int32 : ∀ v, P (.int32 v)) (int64 : ∀ v, P (.int64 v))
    (bool : ∀ v, P (.bool v)) (string : ∀ s, P (.string s)) (binary : ∀ b, P (.binary b))
    (array : ∀ elements, (∀ e ∈ elements, P e) → P (.array elements))
    (struct : ∀ members : List (DrString × RpcValue), (∀ m ∈ members, P m.2) → P (.struct members))
    (t : RpcValue) : P t :=
  @RpcValue.rec P (fun elements => ∀ e ∈ elements, P e) (fun members => ∀ m ∈ members, P m.2)
    (fun m => P m.2) int32 int64 bool string binary array struct
    (fun _ he => absurd he not_mem_nil)
    (fun _ _ hhead htail => forall_mem_cons.mpr ⟨hhead, htail⟩)
    (fun _ hm => absurd hm not_mem_nil)
    (fun _ _ hhead htail => forall_mem_cons.mpr ⟨hhead, htail⟩)
    (fun _ _ hvalue => hvalue) t

end RpcValue

/-- A tree is written as these octets. The skip takes them, and so does the read, if it comes
back; what it gives is the tree exactly for a faithful one. -/
structure RpcValue.CarriedBy (time : RpcTime) (t : RpcValue) (octets : Blob) : Prop where
  write : ∀ content, (v2 content).write t = .ok (v2 (content ++ octets))
  skip : Skips (readSkip time) octets
  read : (∃ v, Consumes (readVariant time) octets v ∧ (t.Same v ↔ t.Faithful)) ∨
    (Refuses (readVariant time) octets ∧ ¬ t.Faithful)

/-- The elements of an array are written as these octets, and read after any others. -/
structure RpcValue.ElementsCarriedBy (time : RpcTime) (elements : List RpcValue) (octets : Blob) :
    Prop where
  write : ∀ content, (v2 content).writeElements elements = .ok (v2 (content ++ octets))
  skip : Skips (fun fuel => skipElements time fuel (.ofNat elements.length)) octets
  read : (∃ vs, vs.length = elements.length ∧
      (∀ list, Consumes (fun fuel => readElements time fuel (.ofNat elements.length) list) octets
        (RArray.appendAll list vs)) ∧
      (List.Forall₂ RpcValue.Same elements vs ↔ ∀ e ∈ elements, e.Faithful)) ∨
    ((∀ list, Refuses (fun fuel => readElements time fuel (.ofNat elements.length) list) octets) ∧
      ¬ ∀ e ∈ elements, e.Faithful)

namespace RpcValue

variable {time : RpcTime}

variable {t : RpcValue} {octets rest : Blob} {elements : List RpcValue}
  {members : List (DrString × RpcValue)}

/-- A value that is one item, taken by both walkers in the same way. -/
theorem CarriedBy.of_item {v : Variant}
    (hwrite : ∀ content, (v2 content).write t = .ok (v2 (content ++ octets)))
    (hwalk : ∀ fuel behind ahead,
      readVariant time (fuel + 1) (between behind (octets ++ ahead)) =
        .ok (v, between (behind ++ octets) ahead) ∧
      readSkip time (fuel + 1) (between behind (octets ++ ahead)) =
        .ok (between (behind ++ octets) ahead)) (hsame : t.Same v ↔ t.Faithful) :
    t.CarriedBy time octets where
  write := hwrite
  skip behind ahead := .of_succ_ok fun fuel => (hwalk fuel behind ahead).2
  read := Or.inl ⟨v, fun behind ahead => .of_succ_ok fun fuel => (hwalk fuel behind ahead).1, hsame⟩

theorem CarriedBy.of_nonneg {n : Nat} (hn : n < 2 ^ 63)
    (hwrite : ∀ content, (v2 content).write t = .ok (v2 (content ++ typed 0x38 n)))
    (hsame : t.Same (.int (.ofNat n)) ↔ t.Faithful) : t.CarriedBy time (typed 0x38 n) :=
  .of_item hwrite (fun fuel _ _ => walk_int time fuel (Or.inl (atType_typed _ _ _ (by omega)))
    (readInt64_38 _ _ (by omega))) hsame

theorem CarriedBy.of_neg {n : Nat} (hn : n < 2 ^ 63)
    (hwrite : ∀ content, (v2 content).write t = .ok (v2 (content ++ typed 0x40 n)))
    (hsame : t.Same (.int (-.ofNat n)) ↔ t.Faithful) : t.CarriedBy time (typed 0x40 n) :=
  .of_item hwrite (fun fuel _ _ => walk_int time fuel (Or.inr (atType_typed _ _ _ (by omega)))
    (readInt64_40 _ _ (by omega))) hsame

theorem carried_int64 {v : Int64} (hv : v ≠ Int64.minValue) :
    ∃ octets, (int64 v).CarriedBy time octets := by
  have hsame : (int64 v).Same (.int v) ↔ (int64 v).Faithful := iff_of_true (.int64 v) (.int64 v)
  obtain ⟨n, hn, rfl | ⟨hpos, rfl⟩⟩ := int64_cases hv
  · refine ⟨_, .of_nonneg hn (fun content => ?_) hsame⟩
    rw [write, writeInt64_ofNat content hn]
  · refine ⟨_, .of_neg hn (fun content => ?_) hsame⟩
    rw [write, writeInt64_neg content hn hpos]

/-- An `int` other than the least one is read back when the number is the same. -/
theorem same_int32 {v : Int32} {v' : Int64} (hv : v ≠ Int32.minValue) (h : v'.toInt = v.toInt) :
    (int32 v).Same (.int v') ↔ (int32 v).Faithful :=
  iff_of_true (.int32 h) (.int32 hv)

/-- An `int`. -/
theorem carried_int32 (v : Int32) : ∃ octets, (int32 v).CarriedBy time octets := by
  by_cases hv : v = Int32.minValue
  · subst hv
    refine ⟨_, .of_neg (n := 0) (by omega) (fun content => ?_) (iff_of_false ?_ ?_)⟩
    · rw [write, writeInt32_minValue]
    · rintro ⟨h⟩
      exact absurd h (by decide)
    · rintro ⟨hv⟩
      exact hv rfl
  · obtain ⟨n, hn, rfl | ⟨hpos, rfl⟩⟩ := int32_cases hv
    · refine ⟨_, .of_nonneg (n := n) (by omega) (fun content => ?_) (same_int32 hv ?_)⟩
      · rw [write, writeInt32_ofNat content hn]
      · rw [Int64.toInt_ofNat_of_lt (by omega), Int32.toInt_ofNat_of_lt hn]
    · refine ⟨_, .of_neg (n := n) (by omega) (fun content => ?_) (same_int32 hv ?_)⟩
      · rw [write, writeInt32_neg content hn hpos]
      · rw [Int64.toInt_neg_ofNat_of_le (by omega), toInt_neg_ofNat32 hn]

theorem carried_bool (v : Bool) : ∃ octets, (bool v).CarriedBy time octets := by
  have htype (behind ahead : Blob) :
      (between behind ([0x10 ||| v.toUInt8] ++ ahead)).AtType 2 :=
    ⟨⟨_, peek_between _ _ _, by cases v <;> rfl⟩, not_at_end _ _ _⟩
  exact ⟨[0x10 ||| v.toUInt8], .of_item (fun _ => rfl)
    (fun fuel _ _ => walk_bool time fuel (htype _ _) (readBool_between _ _ v))
    (iff_of_true (.bool v) (.bool v))⟩

/-- A string. -/
theorem carried_string {s : DrString} (hlen : s.utf8.length < 2 ^ 32) :
    ∃ octets, (string s).CarriedBy time octets := by
  have h64 : s.utf8.length < 2 ^ 64 := by omega
  refine ⟨typed 0x20 s.utf8.length ++ s.utf8, .of_item (v := .string (.setUtf8 s.utf8))
    (fun content => ?_) (fun fuel behind ahead => ?_) ⟨?_, ?_⟩⟩
  · rw [write, writeString, writeGenLength_v2 content rfl hlen, append_v2,
      append_assoc]
  · refine walk_string time fuel ?_ ?_
    · rw [append_assoc]
      exact atType_typed _ _ 0x20 h64
    · rw [readString, readOctets_between _ _ rfl rfl h64]
      rfl
  · intro hsame
    cases hsame with
    | string htext => exact .string ((DrString.text_setUtf8_utf8 s).mp htext)
  · intro hfaithful
    cases hfaithful with
    | string hplain => exact .string ((DrString.text_setUtf8_utf8 s).mpr hplain)

theorem carried_binary {b : Blob} (hlen : b.length < 2 ^ 32) :
    ∃ octets, (binary b).CarriedBy time octets := by
  have h64 : b.length < 2 ^ 64 := by omega
  refine ⟨typed 0x30 b.length ++ b, .of_item (v := .binary b)
    (fun content => ?_) (fun fuel behind ahead => ?_) (iff_of_true (.binary b) (.binary b))⟩
  · rw [write, writeBinary, writeGenLength_v2 content rfl hlen, append_v2,
      append_assoc]
  · refine walk_binary time fuel ?_ ?_
    · rw [append_assoc]
      exact atType_typed _ _ 0x30 h64
    · rw [readBinary, readOctets_between _ _ rfl rfl h64]

theorem elementsCarried_nil : ElementsCarriedBy time [] [] where
  write content := by rw [writeElements, append_nil]
  skip := .of_nil fun fuel d => by simp [skipElements]
  read := by
    refine Or.inl ⟨[], rfl, fun list => .of_nil fun fuel d => ?_, iff_of_true .nil (by simp)⟩
    rw [readElements, if_neg (by decide)]
    rfl

/-- One more element in front. -/
theorem elementsCarried_cons {e : RpcValue} (hlen : elements.length + 1 < 2 ^ 32)
    (he : e.CarriedBy time octets) (hrest : ElementsCarriedBy time elements rest) :
    ElementsCarriedBy time (e :: elements) (octets ++ rest) where
  write content := by
    rw [writeElements, he.write, ok_bind, hrest.write, append_assoc]
  skip := (he.skip.seq hrest.skip).of_succ fun fuel d => skipElements_succ fuel (by omega) d
  read := by
    let next (list : List Variant) (fuel : Nat) (v : Variant) :=
      readElements time fuel (.ofNat elements.length) (RArray.append list v)
    have hpass (list : List Variant) (fuel : Nat) (d : FastRpcDecoder) :
        readElements time (fuel + 1) (.ofNat (elements.length + 1)) list d =
          (readVariant time fuel d >>= fun r => next list fuel r.1 r.2) :=
      readElements_succ fuel (by omega) list d
    rcases he.read with ⟨v, hv, hsame⟩ | ⟨hv, hsame⟩
    · rcases hrest.read with ⟨vs, hcount, hvs, hall⟩ | ⟨hvs, hall⟩
      · refine Or.inl ⟨v :: vs, by simp [hcount], fun list => ?_, ?_⟩
        · exact (Consumes.seq (next list) hv (hvs _)).of_succ (hpass list)
        · rw [List.forall₂_cons, forall_mem_cons, hsame, hall]
      · refine Or.inr ⟨fun list => ?_, fun h => hall (forall_mem_cons.mp h).2⟩
        exact (Refuses.second (next list) hv (hvs _)).of_succ (hpass list)
    · refine Or.inr ⟨fun list => ?_, fun h => hsame (forall_mem_cons.mp h).1⟩
      exact (Refuses.first (next list) hv rest).of_succ (hpass list)

theorem elementsCarried (hlen : elements.length < 2 ^ 32)
    (hall : ∀ e ∈ elements, ∃ octets, e.CarriedBy time octets) :
    ∃ octets, ElementsCarriedBy time elements octets := by
  induction elements with
  | nil => exact ⟨[], elementsCarried_nil⟩
  | cons e elements ih =>
    rw [length_cons] at hlen
    obtain ⟨⟨octets, he⟩, hall⟩ := forall_mem_cons.mp hall
    obtain ⟨rest, hrest⟩ := ih (by omega) hall
    exact ⟨octets ++ rest, elementsCarried_cons hlen he hrest⟩

/-- What is read for an array is the array exactly when its elements are read back and there are
few enough of them. -/
theorem same_array_iff {vs : List Variant} (hcount : vs.length = elements.length) :
    (array elements).Same (.array (RArray.appendAll [] vs)) ↔
      elements.length < 2 ^ 29 ∧ List.Forall₂ Same elements vs := by
  have hall (hlen : elements.length < 2 ^ 29) : RArray.appendAll [] vs = vs := by
    rw [RArray.appendAll_of_lt (by rw [length_nil, hcount]; omega), nil_append]
  constructor
  · intro hsame
    cases hsame with
    | array hsame =>
      have hlen : elements.length < 2 ^ 29 := by
        have hempty : ([] : List Variant).length < 2 ^ 29 := Nat.two_pow_pos 29
        rw [hsame.length_eq]
        exact RArray.length_appendAll_lt hempty vs
      rw [hall hlen] at hsame
      exact ⟨hlen, hsame⟩
  · rintro ⟨hlen, hsame⟩
    rw [hall hlen]
    exact .array hsame

/-- An array is faithful exactly when its elements are and there are few enough of them. -/
theorem same_array {vs : List Variant} (hcount : vs.length = elements.length)
    (hall : List.Forall₂ Same elements vs ↔ ∀ e ∈ elements, e.Faithful) :
    (array elements).Same (.array (RArray.appendAll [] vs)) ↔ (array elements).Faithful := by
  rw [same_array_iff hcount, hall]
  constructor
  · rintro ⟨hlen, hfaithful⟩
    exact .array hlen hfaithful
  · intro hfaithful
    cases hfaithful with
    | array hlen hfaithful => exact ⟨hlen, hfaithful⟩

/-- An array. -/
theorem carried_array (hlen : elements.length < 2 ^ 32)
    (hall : ∀ e ∈ elements, ∃ octets, e.CarriedBy time octets) :
    ∃ octets, (array elements).CarriedBy time octets := by
  obtain ⟨octets, helements⟩ := elementsCarried hlen hall
  have hwalk (fuel : Nat) (behind ahead : Blob) :=
    walk_array time fuel (atType_typed behind ahead 0x58 (n := elements.length) (by omega))
      (readCount_between behind ahead rfl rfl "rpc::array::code" (by omega))
  refine ⟨typed 0x58 elements.length ++ octets, ?_, ?_, ?_⟩
  · intro content
    rw [write, writeArrayLength, writeGenLength_v2 content rfl hlen,
      helements.write, append_assoc]
    rfl
  · exact helements.skip.of_head fun fuel behind ahead => (hwalk fuel behind ahead).2
  · rcases helements.read with ⟨vs, hcount, hvs, hsame⟩ | ⟨hvs, hnot⟩
    · exact Or.inl ⟨_, ((hvs []).map Variant.array).of_head fun fuel behind ahead =>
        (hwalk fuel behind ahead).1, same_array hcount hsame⟩
    · refine Or.inr ⟨((hvs []).map Variant.array).of_head fun fuel behind ahead =>
        (hwalk fuel behind ahead).1, fun hfaithful => ?_⟩
      cases hfaithful with
      | array _ hfaithful => exact hnot hfaithful

/-- The name of a member as it is read. -/
def nameRead (m : DrString × RpcValue) : DrString := .bytes m.1.utf8

/-- The members of a struct are written as these octets. They are read behind others with different
names, if there are few enough of them altogether. -/
structure MembersCarriedBy (time : RpcTime) (members : List (DrString × RpcValue))
    (octets : Blob) : Prop where
  write : ∀ content, (v2 content).writeMembers members = .ok (v2 (content ++ octets))
  skip : Skips (fun fuel => skipMembers time fuel (.ofNat members.length)) octets
  read : (∃ vs : List (DrString × Variant), vs.map Prod.fst = members.map nameRead ∧
      (∀ struc : List (DrString × Variant), (∀ m ∈ members, nameRead m ∉ struc.map Prod.fst) →
        (struc.length + members.length ≤ Hash.nodeLimit →
          Consumes (fun fuel => readMembers time fuel (.ofNat members.length) struc) octets
            (struc ++ vs)) ∧
        (struc.length ≤ Hash.nodeLimit → Hash.nodeLimit < struc.length + members.length →
          Refuses (fun fuel => readMembers time fuel (.ofNat members.length) struc) octets)) ∧
      (List.Forall₂ (fun m m' => m.2.Same m'.2) members vs ↔ ∀ m ∈ members, m.2.Faithful)) ∨
    ((∀ struc, Refuses (fun fuel => readMembers time fuel (.ofNat members.length) struc) octets) ∧
      ¬ ∀ m ∈ members, m.2.Faithful)

theorem membersCarried_nil : MembersCarriedBy time [] [] where
  write content := by rw [writeMembers, append_nil]
  skip := .of_nil fun fuel d => by simp [skipMembers]
  read := by
    refine Or.inl ⟨[], rfl, fun struc _ => ⟨fun _ => .of_nil fun fuel d => ?_, ?_⟩,
      iff_of_true .nil (by simp)⟩
    · rw [readMembers, if_neg (by decide), append_nil]
    · intro hle hlt
      exact absurd hlt (Nat.not_lt.mpr hle)

/-- One more member in front. -/
theorem membersCarried_cons {m : DrString × RpcValue} (hlen : members.length + 1 < 2 ^ 32)
    (hname : m.1.utf8.length ≤ 255) (hnew : nameRead m ∉ members.map nameRead)
    (hm : m.2.CarriedBy time octets) (hrest : MembersCarriedBy time members rest) :
    MembersCarriedBy time (m :: members) (nameOctets m.1 ++ (octets ++ rest)) where
  write content := by
    rw [writeMembers, writeMemberName, if_neg (Nat.not_lt.mpr hname),
      ok_bind, append_v2, append_v2, hm.write, ok_bind, hrest.write]
    simp [nameOctets]
  skip := (hm.skip.seq hrest.skip).of_head fun fuel behind ahead =>
    skipMembers_succ fuel (by omega) hname behind ahead
  read := by
    let create (struc : List (DrString × Variant)) (fuel : Nat) (v : Variant) (d : FastRpcDecoder) :=
      createMember struc (nameRead m) v >>= fun struc =>
        readMembers time fuel (.ofNat members.length) struc d
    have hpass (struc : List (DrString × Variant)) (fuel : Nat) (behind ahead : Blob) :
        readMembers time (fuel + 1) (.ofNat (members.length + 1)) struc
            (between behind (nameOctets m.1 ++ ahead)) =
          (readVariant time fuel (between (behind ++ nameOctets m.1) ahead) >>= fun r =>
            create struc fuel r.1 r.2) :=
      readMembers_succ fuel (by omega) struc hname behind ahead
    rcases hm.read with ⟨v, hv, hsame⟩ | ⟨hv, hsame⟩
    · rcases hrest.read with ⟨vs, hnames, hvs, hall⟩ | ⟨hvs, hall⟩
      · refine Or.inl ⟨(nameRead m, v) :: vs, by simp [hnames], fun struc hstruc => ?_, ?_⟩
        · obtain ⟨hfresh, hstruc⟩ := forall_mem_cons.mp hstruc
          have hnext : ∀ m' ∈ members, nameRead m' ∉ (struc ++ [(nameRead m, v)]).map Prod.fst := by
            intro m' hm' hmem
            rw [map_append, mem_append] at hmem
            rcases hmem with hmem | hmem
            · exact hstruc m' hm' hmem
            · have hsame : nameRead m' = nameRead m := mem_singleton.mp hmem
              exact hnew (hsame ▸ mem_map_of_mem hm')
          obtain ⟨hreads, hrefuses⟩ := hvs _ hnext
          rw [length_append, length_singleton] at hreads hrefuses
          rw [length_cons]
          refine ⟨fun hroom => ?_, fun hsmall hover => ?_⟩
          · have hcreate : create struc = fun fuel v' d =>
                createMember struc (nameRead m) v' >>= fun struc =>
                  readMembers time fuel (.ofNat members.length) struc d := rfl
            have hbody : Consumes (fun fuel => create struc fuel v) rest
                (struc ++ (nameRead m, v) :: vs) := by
              have hreads := hreads (by omega)
              rw [append_assoc] at hreads
              simp only [hcreate, createMember_of_lt v hfresh (by omega), ok_bind]
              exact hreads
            exact (Consumes.seq (create struc) hv hbody).of_head (hpass struc)
          · refine (Refuses.second (create struc) hv ?_).of_head (hpass struc)
            by_cases hfull : struc.length < Hash.nodeLimit
            · have hrefuses := hrefuses (by omega) (by omega)
              intro behind ahead
              refine (hrefuses behind ahead).congr fun fuel => ?_
              simp only [create, createMember_of_lt v hfresh hfull, ok_bind]
            · intro behind ahead
              refine .of_ne fun fuel r => ?_
              simp only [create, createMember_of_le v hfresh (Nat.not_lt.mp hfull)]
              simp
        · rw [List.forall₂_cons, forall_mem_cons, hsame, hall]
      · refine Or.inr ⟨fun struc => ?_, fun h => hall (forall_mem_cons.mp h).2⟩
        refine (Refuses.second (create struc) hv ?_).of_head (hpass struc)
        intro behind ahead
        rcases createMember_cases struc (nameRead m) v with ⟨struc', hcreate⟩ | hcreate
        · refine (hvs struc' behind ahead).congr fun fuel => ?_
          simp only [create, hcreate, ok_bind]
        · refine .of_ne fun fuel r => ?_
          simp only [create, hcreate]
          simp
    · refine Or.inr ⟨fun struc => ?_, fun h => hsame (forall_mem_cons.mp h).1⟩
      exact (Refuses.first (create struc) hv rest).of_head (hpass struc)

/-- The members of a struct, one after another. -/
theorem membersCarried (hlen : members.length < 2 ^ 32)
    (hnames : ∀ m ∈ members, m.1.utf8.length ≤ 255) (hnodup : (members.map nameRead).Nodup)
    (hall : ∀ m ∈ members, ∃ octets, m.2.CarriedBy time octets) :
    ∃ octets, MembersCarriedBy time members octets := by
  induction members with
  | nil => exact ⟨[], membersCarried_nil⟩
  | cons m members ih =>
    rw [length_cons] at hlen
    rw [map_cons, nodup_cons] at hnodup
    obtain ⟨⟨octets, hm⟩, hall⟩ := forall_mem_cons.mp hall
    obtain ⟨hname, hnames⟩ := forall_mem_cons.mp hnames
    obtain ⟨rest, hrest⟩ := ih (by omega) hnames hnodup.2 hall
    exact ⟨_, membersCarried_cons hlen hname hnodup.1 hm hrest⟩

theorem nodup_nameRead (hplain : ∀ m ∈ members, m.1.Plain)
    (hnodup : (members.map fun m => m.1.text).Nodup) : (members.map nameRead).Nodup := by
  rw [List.Nodup, pairwise_map] at hnodup ⊢
  refine hnodup.imp_of_mem fun {m m'} hm hm' htext hname => htext ?_
  exact DrString.text_eq_of_utf8_eq (hplain m hm) (hplain m' hm') (DrString.bytes.inj hname)

theorem names_text {vs : List (DrString × Variant)} (hplain : ∀ m ∈ members, m.1.Plain)
    (hnames : vs.map Prod.fst = members.map nameRead) :
    List.Forall₂ (fun m m' => m'.1.text = m.1.text) members vs := by
  induction members generalizing vs with
  | nil =>
    obtain rfl := map_eq_nil_iff.mp hnames
    exact .nil
  | cons m members ih =>
    obtain ⟨hm, hplain⟩ := forall_mem_cons.mp hplain
    obtain ⟨m', vs', rfl, hm', hrest⟩ := map_eq_cons_iff.mp hnames
    refine .cons ?_ (ih hplain hrest)
    rw [hm']
    exact (DrString.text_setUtf8_utf8 m.1).mpr hm

/-- A struct. -/
theorem carried_struct (hlen : members.length < 2 ^ 32)
    (hnames : ∀ m ∈ members, m.1.Ascii ∧ m.1.utf8.length ≤ 255)
    (hnodup : (members.map fun m => m.1.text).Nodup)
    (hall : ∀ m ∈ members, ∃ octets, m.2.CarriedBy time octets) :
    ∃ octets, (struct members).CarriedBy time octets := by
  have hplain : ∀ m ∈ members, m.1.Plain := fun m hm => (hnames m hm).1.plain
  obtain ⟨octets, hmembers⟩ :=
    membersCarried hlen (fun m hm => (hnames m hm).2) (nodup_nameRead hplain hnodup) hall
  have hwalk (fuel : Nat) (behind ahead : Blob) :=
    walk_struct time fuel (atType_typed behind ahead 0x50 (n := members.length) (by omega))
      (readCount_between behind ahead rfl rfl "rpc::struct::code" (by omega))
  refine ⟨typed 0x50 members.length ++ octets, ?_, ?_, ?_⟩
  · intro content
    rw [write, writeStructLength, writeGenLength_v2 content rfl hlen,
      hmembers.write, append_assoc]
    rfl
  · exact hmembers.skip.of_head fun fuel behind ahead => (hwalk fuel behind ahead).2
  · rcases hmembers.read with ⟨vs, hvsnames, hvs, hsame⟩ | ⟨hvs, hnot⟩
    · obtain ⟨hreads, hrefuses⟩ := hvs [] fun _ _ => not_mem_nil
      rw [length_nil, Nat.zero_add] at hreads hrefuses
      by_cases hroom : members.length ≤ Hash.nodeLimit
      · refine Or.inl ⟨_, ((hreads hroom).map Variant.struct).of_head fun fuel behind ahead =>
          (hwalk fuel behind ahead).1, fun h => ?_, fun h => ?_⟩
        · cases h with
          | struct _ h => exact .struct hroom (hsame.mp h)
        · cases h with
          | struct _ h => exact .struct (names_text hplain hvsnames) (hsame.mpr h)
      · have hrefuses := hrefuses (Nat.zero_le _) (Nat.not_le.mp hroom)
        refine Or.inr ⟨(hrefuses.map Variant.struct).of_head fun fuel behind ahead =>
          (hwalk fuel behind ahead).1, fun h => ?_⟩
        cases h with
        | struct h => exact hroom h
    · refine Or.inr ⟨((hvs []).map Variant.struct).of_head fun fuel behind ahead =>
        (hwalk fuel behind ahead).1, fun h => ?_⟩
      cases h with
      | struct _ h => exact hnot h

/-- Every tree there is a format for is carried by some octets. -/
theorem carried (time : RpcTime) (t : RpcValue) :
    t.WellFormed → ∃ octets, t.CarriedBy time octets := by
  induction t using RpcValue.induct with
  | int32 v => exact fun _ => carried_int32 v
  | int64 v =>
    intro hwf
    cases hwf with
    | int64 hv => exact carried_int64 hv
  | bool v => exact fun _ => carried_bool v
  | string s =>
    intro hwf
    cases hwf with
    | string hlen => exact carried_string hlen
  | binary b =>
    intro hwf
    cases hwf with
    | binary hlen => exact carried_binary hlen
  | array elements ih =>
    intro hwf
    cases hwf with
    | array hlen hall => exact carried_array hlen fun e he => ih e he (hall e he)
  | struct members ih =>
    intro hwf
    cases hwf with
    | struct hlen hnames hnodup hall =>
      exact carried_struct hlen hnames hnodup fun m hm => ih m hm (hall m hm)

/-- The tree is written behind any octets. With any octets ahead, the read gives the tree back and
stands behind what was written, and so does the skip. -/
def RoundTrips (time : RpcTime) (t : RpcValue) : Prop :=
  ∀ behind ahead : Blob, ∃ octets v,
    (v2 behind).write t = .ok (v2 (behind ++ octets)) ∧
    Returns (fun fuel => readVariant time fuel (between behind (octets ++ ahead)))
      (v, between (behind ++ octets) ahead) ∧
    t.Same v ∧
    Returns (fun fuel => readSkip time fuel (between behind (octets ++ ahead)))
      (between (behind ++ octets) ahead)

/-- The octets determine whether a tree is read back. -/
theorem CarriedBy.roundTrips_iff (h : t.CarriedBy time octets) :
    t.RoundTrips time ↔ t.Faithful := by
  constructor
  · intro hround
    obtain ⟨octets', v, hwrite, hread, hsame, -⟩ := hround [] []
    rw [h.write] at hwrite
    have hoctets : octets = octets' := by
      have hcontent := congrArg FastRpcEncoder.content (Outcome.ok.inj hwrite)
      exact append_cancel_left hcontent
    subst hoctets
    rcases h.read with ⟨v', hv', hiff⟩ | ⟨hnot, -⟩
    · have heq : v = v' := congrArg Prod.fst (hread.unique (hv' [] []))
      exact hiff.mp (heq ▸ hsame)
    · exact absurd hread (hnot [] []).not_returns
  · intro hfaithful behind ahead
    rcases h.read with ⟨v, hv, hiff⟩ | ⟨-, hnot⟩
    · exact ⟨octets, v, h.write behind, hv behind ahead, hiff.mpr hfaithful, h.skip behind ahead⟩
    · exact absurd hfaithful hnot

/-- A tree is written, read back and skipped as it should be exactly when it is faithful. -/
theorem roundTrips_iff_faithful (time : RpcTime) {t : RpcValue} (hwf : t.WellFormed) :
    t.RoundTrips time ↔ t.Faithful := by
  obtain ⟨octets, h⟩ := carried time t hwf
  exact h.roundTrips_iff

/-- A struct with an array that holds a negative integer and an empty string. -/
theorem roundTrips_iff_faithful_struct :
    RoundTrips ⟨fun _ _ _ _ _ _ _ => 0, id⟩
      (struct [(.bytes [97], array [int32 (-300), string (.wide [])]), (.wide [98], bool true)]) ↔
    Faithful
      (struct [(.bytes [97], array [int32 (-300), string (.wide [])]), (.wide [98], bool true)]) := by
  refine roundTrips_iff_faithful _ (.struct (by decide) (by decide) (by decide) ?_)
  simp only [forall_mem_cons, not_mem_nil, false_implies, implies_true, and_true]
  refine ⟨.array (by decide) ?_, .bool true⟩
  simp only [forall_mem_cons, not_mem_nil, false_implies, implies_true, and_true]
  exact ⟨.int32 (-300), .string (by decide)⟩

/-- The small s with a caron comes back as a question mark. -/
theorem not_roundTrips_wide :
    (string (.wide [0x161])).WellFormed ∧ ∀ time, ¬ RoundTrips time (string (.wide [0x161])) := by
  refine ⟨.string (by decide), fun time hround => ?_⟩
  obtain ⟨octets, h⟩ : ∃ octets, (string (.wide [0x161])).CarriedBy time octets :=
    carried_string (by decide)
  have hfaithful := h.roundTrips_iff.mp hround
  cases hfaithful with
  | string hplain => exact absurd (hplain 0x161 (mem_singleton.mpr rfl)) (by decide)

end RpcValue

end Drt
