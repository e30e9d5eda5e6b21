import Drt.Net.Rpc.FastRpcItems

/-!
# Walking over FastRPC

How `readVariant` and `readSkip` go over octets, one after the other and under any
bound. Both go by the type octet; the loops for the parts of a container count down,
one in a `Sint64` and one in a `size_t`.
-/

namespace Drt

open Bytes FastRpc Outcome

namespace FastRpcDecoder

variable {α : Type}

/-- A read takes exactly these octets, wherever they stand, and gives `a`. -/
def Consumes (read : Nat → FastRpcDecoder → Call (α × FastRpcDecoder)) (octets : Blob) (a : α) :
    Prop :=
  ∀ behind ahead, Returns (fun fuel => read fuel (between behind (octets ++ ahead)))
    (a, between (behind ++ octets) ahead)

/-- A skip takes exactly these octets, wherever they stand. -/
def Skips (skip : Nat → FastRpcDecoder → Call FastRpcDecoder) (octets : Blob) : Prop :=
  ∀ behind ahead, Returns (fun fuel => skip fuel (between behind (octets ++ ahead)))
    (between (behind ++ octets) ahead)

/-- A read does not come back from these octets, wherever they stand. -/
def Refuses (read : Nat → FastRpcDecoder → Call (α × FastRpcDecoder)) (octets : Blob) : Prop :=
  ∀ behind ahead, Diverges fun fuel => read fuel (between behind (octets ++ ahead))

section Composition

variable {β : Type} {read read' : Nat → FastRpcDecoder → Call (α × FastRpcDecoder)}
  {skip skip' : Nat → FastRpcDecoder → Call FastRpcDecoder} {octets rest head : Blob} {a : α}
  {b : β}

theorem Consumes.of_succ (h : Consumes read' octets a)
    (hpass : ∀ fuel d, read (fuel + 1) d = read' fuel d) : Consumes read octets a :=
  fun behind ahead => (h behind ahead).of_succ fun fuel => hpass fuel _

theorem Consumes.seq (next : Nat → α → FastRpcDecoder → Call (β × FastRpcDecoder))
    (h : Consumes read octets a) (hnext : Consumes (fun fuel => next fuel a) rest b) :
    Consumes (fun fuel d => read fuel d >>= fun r => next fuel r.1 r.2) (octets ++ rest) b := by
  intro behind ahead
  have hrest := hnext (behind ++ octets) ahead
  rw [List.append_assoc] at hrest ⊢
  exact (h behind (rest ++ ahead)).bind hrest

theorem Consumes.of_nil (hpass : ∀ fuel d, read (fuel + 1) d = .ok (a, d)) :
    Consumes read [] a := by
  intro behind ahead
  rw [List.append_nil]
  exact .of_succ_ok fun fuel => hpass fuel _

theorem Skips.of_succ (h : Skips skip' octets)
    (hpass : ∀ fuel d, skip (fuel + 1) d = skip' fuel d) : Skips skip octets :=
  fun behind ahead => (h behind ahead).of_succ fun fuel => hpass fuel _

theorem Skips.seq (h : Skips skip octets) (hnext : Skips skip' rest) :
    Skips (fun fuel d => skip fuel d >>= skip' fuel) (octets ++ rest) := by
  intro behind ahead
  have hrest := hnext (behind ++ octets) ahead
  rw [List.append_assoc] at hrest ⊢
  exact (h behind (rest ++ ahead)).bind hrest

theorem Skips.of_nil (hpass : ∀ fuel d, skip (fuel + 1) d = .ok d) : Skips skip [] := by
  intro behind ahead
  rw [List.append_nil]
  exact .of_succ_ok fun fuel => hpass fuel _

theorem Refuses.of_succ (h : Refuses read' octets)
    (hpass : ∀ fuel d, read (fuel + 1) d = read' fuel d) : Refuses read octets :=
  fun behind ahead => (h behind ahead).of_succ fun fuel => hpass fuel _

theorem Refuses.first (next : Nat → α → FastRpcDecoder → Call (β × FastRpcDecoder))
    (h : Refuses read octets) (rest : Blob) :
    Refuses (fun fuel d => read fuel d >>= fun r => next fuel r.1 r.2) (octets ++ rest) := by
  intro behind ahead
  rw [List.append_assoc]
  exact (h behind (rest ++ ahead)).bind _

theorem Refuses.second (next : Nat → α → FastRpcDecoder → Call (β × FastRpcDecoder))
    (h : Consumes read octets a) (hnext : Refuses (fun fuel => next fuel a) rest) :
    Refuses (fun fuel d => read fuel d >>= fun r => next fuel r.1 r.2) (octets ++ rest) := by
  intro behind ahead
  have hrest := hnext (behind ++ octets) ahead
  rw [List.append_assoc]
  exact .after (h behind (rest ++ ahead)) hrest

theorem Consumes.map (h : Consumes read octets a) (f : α → β) :
    Consumes (fun fuel d => read fuel d >>= fun r => .ok (f r.1, r.2)) octets (f a) :=
  fun behind ahead => (h behind ahead).bind (.ok _)

theorem Refuses.map (h : Refuses read octets) (f : α → β) :
    Refuses (fun fuel d => read fuel d >>= fun r => .ok (f r.1, r.2)) octets :=
  fun behind ahead => (h behind ahead).bind _

theorem Consumes.of_head (h : Consumes read' octets a)
    (hhead : ∀ fuel behind ahead,
      read (fuel + 1) (between behind (head ++ ahead)) = read' fuel (between (behind ++ head) ahead)) :
    Consumes read (head ++ octets) a := by
  intro behind ahead
  have hbody := h (behind ++ head) ahead
  rw [List.append_assoc] at hbody ⊢
  exact hbody.of_succ fun fuel => hhead fuel behind (octets ++ ahead)

theorem Skips.of_head (h : Skips skip' octets)
    (hhead : ∀ fuel behind ahead,
      skip (fuel + 1) (between behind (head ++ ahead)) = skip' fuel (between (behind ++ head) ahead)) :
    Skips skip (head ++ octets) := by
  intro behind ahead
  have hbody := h (behind ++ head) ahead
  rw [List.append_assoc] at hbody ⊢
  exact hbody.of_succ fun fuel => hhead fuel behind (octets ++ ahead)

theorem Refuses.of_head (h : Refuses read' octets)
    (hhead : ∀ fuel behind ahead,
      read (fuel + 1) (between behind (head ++ ahead)) = read' fuel (between (behind ++ head) ahead)) :
    Refuses read (head ++ octets) := by
  intro behind ahead
  rw [List.append_assoc]
  exact (h (behind ++ head) ahead).of_succ fun fuel => hhead fuel behind (octets ++ ahead)

end Composition

theorem left_sub_one (n : Nat) : Int64.ofNat (n + 1) - 1 = Int64.ofNat n := by
  rw [Int64.ofNat_add]
  exact Int64.add_sub_cancel _ _

theorem left_nonneg {n : Nat} (h : n < 2 ^ 63) : Int64.ofNat n ≥ 0 := by
  rw [ge_iff_le, Int64.le_iff_toInt_le, Int64.toInt_ofNat_of_lt h]
  exact Int.natCast_nonneg n

theorem count_sub_one (n : Nat) : UInt64.ofNat (n + 1) - 1 = UInt64.ofNat n := by
  rw [UInt64.ofNat_add]
  exact UInt64.add_sub_cancel _ _

theorem count_ne_zero {n : Nat} (h : n + 1 < 2 ^ 64) : UInt64.ofNat (n + 1) ≠ 0 := by
  rw [ne_eq, ← UInt64.toNat_inj, UInt64.toNat_ofNat_of_lt' h]
  exact Nat.succ_ne_zero n

/-- The decoder stands at a type octet with these high bits. -/
structure AtType (d : FastRpcDecoder) (type : UInt8) : Prop where
  peek : ∃ c, d.peek = .ok c ∧ c >>> 3 = type
  notEnd : ¬ d.pos ≥ d.theEnd

theorem atType_typed (behind ahead : Blob) (type : UInt8) {n : Nat} (h : n < 2 ^ 64) :
    (between behind (typed type n ++ ahead)).AtType (type >>> 3) where
  peek := ⟨type ||| UInt8.ofNat (width n - 1), peek_between _ _ _, typed_shift h⟩
  notEnd := not_at_end _ _ _

section Walk

variable (time : RpcTime) (fuel : Nat) {d d' : FastRpcDecoder}

theorem walk_int {v : Int64} (hd : d.AtType 7 ∨ d.AtType 8) (hread : d.readInt64 = .ok (v, d')) :
    readVariant time (fuel + 1) d = .ok (.int v, d') ∧ readSkip time (fuel + 1) d = .ok d' := by
  rcases hd with ⟨⟨c, hpeek, hc⟩, hend⟩ | ⟨⟨c, hpeek, hc⟩, hend⟩ <;>
    simp [readVariant, readSkip, readCheckType, hpeek, hc, hend, hread]

theorem walk_bool {v : Bool} (hd : d.AtType 2) (hread : d.readBool = .ok (v, d')) :
    readVariant time (fuel + 1) d = .ok (.bool v, d') ∧ readSkip time (fuel + 1) d = .ok d' := by
  obtain ⟨⟨c, hpeek, hc⟩, hend⟩ := hd
  simp [readVariant, readSkip, readCheckType, hpeek, hc, hend, hread]

theorem walk_string {s : DrString} (hd : d.AtType 4) (hread : d.readString = .ok (s, d')) :
    readVariant time (fuel + 1) d = .ok (.string s, d') ∧
      readSkip time (fuel + 1) d = .ok d' := by
  obtain ⟨⟨c, hpeek, hc⟩, hend⟩ := hd
  simp [readVariant, readSkip, readCheckType, hpeek, hc, hend, hread]

theorem walk_binary {b : Blob} (hd : d.AtType 6) (hread : d.readBinary = .ok (b, d')) :
    readVariant time (fuel + 1) d = .ok (.binary b, d') ∧
      readSkip time (fuel + 1) d = .ok d' := by
  obtain ⟨⟨c, hpeek, hc⟩, hend⟩ := hd
  simp [readVariant, readSkip, readCheckType, hpeek, hc, hend, hread]

/-- Both walkers take the length of a struct, and then its members. -/
theorem walk_struct {n : Int64} (hd : d.AtType 10) (hread : d.readStructLength = .ok (n, d')) :
    readVariant time (fuel + 1) d =
      (readMembers time fuel n [] d' >>= fun r => .ok (.struct r.1, r.2)) ∧
      readSkip time (fuel + 1) d = skipMembers time fuel n.toUInt64 d' := by
  obtain ⟨⟨c, hpeek, hc⟩, hend⟩ := hd
  simp [readVariant, readSkip, readCheckType, hpeek, hc, hend, hread]

/-- Both walkers take the length of an array, and then its elements. -/
theorem walk_array {n : Int64} (hd : d.AtType 11) (hread : d.readArrayLength = .ok (n, d')) :
    readVariant time (fuel + 1) d =
      (readElements time fuel n [] d' >>= fun r => .ok (.array r.1, r.2)) ∧
      readSkip time (fuel + 1) d = skipElements time fuel n.toUInt64 d' := by
  obtain ⟨⟨c, hpeek, hc⟩, hend⟩ := hd
  simp [readVariant, readSkip, readCheckType, hpeek, hc, hend, hread]

end Walk

section Passes

variable {time : RpcTime}

variable {n : Nat} {name : DrString} {struc : List (DrString × Variant)}

theorem skipElements_succ (fuel : Nat) (h : n + 1 < 2 ^ 64) (d : FastRpcDecoder) :
    skipElements time (fuel + 1) (.ofNat (n + 1)) d =
      (readSkip time fuel d >>= skipElements time fuel (.ofNat n)) := by
  rw [skipElements, if_pos (count_ne_zero h), count_sub_one]

theorem readElements_succ (fuel : Nat) (h : n < 2 ^ 63) (list : List Variant) (d : FastRpcDecoder) :
    readElements time (fuel + 1) (.ofNat (n + 1)) list d =
      (readVariant time fuel d >>= fun r =>
        readElements time fuel (.ofNat n) (RArray.append list r.1) r.2) := by
  rw [readElements, left_sub_one, if_pos (left_nonneg h)]

/-- The octets of a name. -/
def nameOctets (name : DrString) : Blob := UInt8.ofNat name.utf8.length :: name.utf8

theorem skipMembers_succ (fuel : Nat) (h : n + 1 < 2 ^ 64) (hname : name.utf8.length ≤ 255)
    (behind ahead : Blob) :
    skipMembers time (fuel + 1) (.ofNat (n + 1)) (between behind (nameOctets name ++ ahead)) =
      (readSkip time fuel (between (behind ++ nameOctets name) ahead) >>=
        skipMembers time fuel (.ofNat n)) := by
  rw [skipMembers, if_pos (count_ne_zero h), count_sub_one, nameOctets,
    readMemberName_between _ _ hname, Outcome.ok_bind]

theorem readMembers_succ (fuel : Nat) (h : n < 2 ^ 63) (struc : List (DrString × Variant))
    (hname : name.utf8.length ≤ 255) (behind ahead : Blob) :
    readMembers time (fuel + 1) (.ofNat (n + 1)) struc
        (between behind (nameOctets name ++ ahead)) =
      (readVariant time fuel (between (behind ++ nameOctets name) ahead) >>= fun r =>
        createMember struc (.bytes name.utf8) r.1 >>= fun struc =>
          readMembers time fuel (.ofNat n) struc r.2) := by
  rw [readMembers, left_sub_one, if_pos (left_nonneg h), nameOctets,
    readMemberName_between _ _ hname, Outcome.ok_bind]

theorem createMember_cases (struc : List (DrString × Variant)) (name : DrString) (v : Variant) :
    (∃ struc', createMember struc name v = .ok struc') ∨ createMember struc name v = .outOfFuel := by
  unfold createMember
  split_ifs <;> simp

theorem createMember_of_lt (v : Variant) (hnew : name ∉ struc.map Prod.fst)
    (hlt : struc.length < Hash.nodeLimit) :
    createMember struc name v = .ok (struc ++ [(name, v)]) := by
  rw [createMember, if_neg hnew, if_pos hlt]

theorem createMember_of_le (v : Variant) (hnew : name ∉ struc.map Prod.fst)
    (hle : Hash.nodeLimit ≤ struc.length) : createMember struc name v = .outOfFuel := by
  rw [createMember, if_neg hnew, if_neg (Nat.not_lt.mpr hle)]

end Passes

end FastRpcDecoder

end Drt
