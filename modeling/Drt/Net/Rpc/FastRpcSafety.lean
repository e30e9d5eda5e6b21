import Drt.Net.Rpc.FastRpcExtents

/-!
# FastRPC operations inside the buffer

Each operation reads inside the buffer if the octets that its extent asks for are there: one
lemma for each, by the rules of `Runs`, and an induction over the octets left for `readSkip`.
-/

namespace Drt

namespace Decoding

open FastRpcDecoder Extent Keeping

variable {d : FastRpcDecoder}

theorem runs_readBool (hin : d.Inside) (hfits : (bool d.rest).Fits d.rest.length) :
    readBool.Runs (bool d.rest) (fun _ => True) d :=
  runs_checked _ _ hin hfits fun _ _ _ _ _ => Runs.pure trivial

theorem runs_readDouble (hin : d.Inside) (hfits : (double d.rest).Fits d.rest.length) :
    readDouble.Runs (double d.rest) (fun _ => True) d :=
  runs_unchecked _ _ _ hin hfits fun _ _ _ hin hfits =>
    (runs_take hin hfits).map fun _ _ => trivial

variable {c code type : UInt8}

theorem runs_readOctets (hin : d.Inside)
    (hfits : (octets code d.length_add d.rest).Fits d.rest.length) :
    (readOctets code).Runs (octets code d.length_add d.rest) (fun _ => True) d := by
  refine runs_checked _ _ hin hfits fun type _ _ hin hfits => ?_
  refine (runs_readGenLength hin hfits.first).bind hfits ?_
  intro str_len n _ hle hvalue hfits
  have hin := hin.moved hle
  change str_len.toNat = Bytes.leValue ((d.moved 1).rest.take ((type &&& 7).toNat + d.length_add))
    at hvalue
  rw [← hvalue] at hfits ⊢
  exact runs_unlessFarBeyond _ _ hin ((runs_take hin hfits).imp fun _ _ => trivial)

theorem runs_readString (hin : d.Inside)
    (hfits : (octets 0x20 d.length_add d.rest).Fits d.rest.length) :
    readString.Runs (octets 0x20 d.length_add d.rest) (fun _ => True) d :=
  (runs_readOctets hin hfits).map fun _ _ => trivial

theorem runs_readTime (time : RpcTime) (hin : d.Inside)
    (hfits : (Extent.time d.rest).Fits d.rest.length) :
    (readTime time).Runs (Extent.time d.rest) (fun _ => True) d :=
  runs_checked _ _ hin hfits fun _ _ _ hin hfits =>
    runs_unlessFarBeyond _ _ hin ((runs_take hin hfits).map fun _ _ => trivial)

theorem runs_readCount (format_type : String) (hin : d.Inside)
    (hfits : (count code d.length_add d.rest).Fits d.rest.length) :
    (readCount code format_type).Runs (count code d.length_add d.rest)
      (fun length => length.toUInt64.toNat = countValue d.length_add d.rest) d := by
  refine runs_checked _ _ hin hfits fun type _ hrest hin hfits => ?_
  refine (runs_readGenLength hin hfits).map ?_
  intro length hvalue
  rw [hrest]
  exact hvalue

theorem runs_readName (hin : d.Inside) (hfits : (name d.rest).Fits d.rest.length) :
    readName.Runs (name d.rest) (fun _ => True) d := by
  cases hrest : d.rest with
  | nil =>
    rw [hrest] at hfits
    exact absurd (show 1 ≤ 0 from hfits) (by decide)
  | cons len l =>
    have hextent : name d.rest = (go 1).andThen d.rest fun _ => go len.toNat := by
      rw [hrest]
      rfl
    rw [hextent] at hfits
    rw [← hrest, hextent]
    refine (runs_next hrest).bind hfits ?_
    rintro c n _ hle rfl hfits
    have hin := hin.moved hle
    exact runs_unlessFarBeyond _ _ hin ((runs_take hin hfits).map fun _ _ => trivial)

theorem runs_readMemberName (hin : d.Inside) (hfits : (memberName d.rest).Fits d.rest.length) :
    readMemberName.Runs (memberName d.rest) (fun _ => True) d := by
  refine runs_unlessAtEnd _ fun hne => ?_
  have hextent : memberName d.rest = name d.rest := by
    cases hrest : d.rest with
    | nil => exact absurd hrest hne
    | cons len l => rfl
  rw [hextent] at hfits ⊢
  exact runs_readName hin hfits

theorem runs_readMethodName (hin : d.Inside) (hfits : (methodName d.rest).Fits d.rest.length) :
    readMethodName.Runs (methodName d.rest) (fun _ => True) d :=
  runs_unchecked _ _ _ hin hfits fun _ _ _ hin hfits => runs_readName hin hfits

theorem runs_readMethodResponse (hin : d.Inside)
    (hfits : (methodResponse d.rest).Fits d.rest.length) :
    readMethodResponse.Runs (methodResponse d.rest) (fun _ => True) d :=
  runs_unchecked _ _ _ hin hfits fun _ _ _ _ _ => Runs.pure trivial

/-- The octets of an integer that are there, or are found missing. -/
theorem runs_intOctets {n : Nat} (type : String) (hin : d.Inside) :
    (intOctets n type).Runs (if n > d.rest.length then stop 0 else go n) (fun _ => True) d := by
  have hlength := d.length_rest
  unfold Inside at hin
  by_cases hn : n > d.rest.length
  · have hend : d.pos + n > d.theEnd := by omega
    refine .inr ⟨.endOfDataException "char" type, 0, ?_, Nat.zero_le _⟩
    unfold intOctets unlessBeyond
    rw [if_pos hend]
    rfl
  · have hend : ¬ d.pos + n > d.theEnd := by omega
    rw [if_neg hn]
    obtain ⟨a, k, he, htake, -⟩ | ⟨ex, k, htake, hk⟩ := runs_take hin (Nat.le_of_not_gt hn)
    · refine .inl ⟨a, k, he, ?_, trivial⟩
      unfold intOctets unlessBeyond
      rw [if_neg hend, htake]
    · refine .inr ⟨ex, k, ?_, hk⟩
      unfold intOctets unlessBeyond
      rw [if_neg hend, htake]

/-- A type octet of an integer, and what is read behind it. -/
theorem runs_int {bits32 : Bool} {α : Type} {read : UInt8 → Decoding α} (ex : Exception)
    (hin : d.Inside) (hfits : (int bits32 d.length_add d.rest).Fits d.rest.length)
    (hread : ∀ type : UInt8, (d.moved 1).Inside →
      (Extent.intOctets bits32 d.length_add type (d.moved 1).rest).Fits (d.moved 1).rest.length →
      (read type).Runs (Extent.intOctets bits32 d.length_add type (d.moved 1).rest)
        (fun _ => True) (d.moved 1))
    (hrefused : ∀ type : UInt8, ¬ (type >>> 3 = 1 ∨ type >>> 3 = 7 ∨ type >>> 3 = 8) →
      ∃ ex, read type = throw ex) :
    (unlessAtEnd ex (next >>= read)).Runs (int bits32 d.length_add d.rest) (fun _ => True) d := by
  refine runs_unlessAtEnd ex fun hne => ?_
  obtain ⟨c, l, hrest⟩ := List.exists_cons_of_ne_nil hne
  by_cases haccepted : c >>> 3 = 1 ∨ c >>> 3 = 7 ∨ c >>> 3 = 8
  · have hextent : int bits32 d.length_add d.rest =
        (go 1).andThen d.rest (Extent.intOctets bits32 d.length_add c) := by
      rw [hrest]
      exact if_pos (decide_eq_true haccepted)
    rw [hextent] at hfits ⊢
    refine (runs_next hrest).bind hfits ?_
    rintro a n hn hle rfl hfits
    cases hn
    exact hread a (hin.moved hle) hfits
  · obtain ⟨ex', hthrow⟩ := hrefused c haccepted
    refine .inr ⟨ex', 1, ?_, ?_⟩
    · rw [bind_ok (next_eq hrest), hthrow]
      rfl
    · rw [hrest, List.length_cons]
      omega

theorem runs_readMagnitude64 (htype : type >>> 3 ≠ 1) (hin : d.Inside) :
    (readMagnitude64 type).Runs (Extent.intOctets false d.length_add type d.rest)
      (fun _ => True) d := by
  rw [intOctets_other htype]
  simp only [Bool.false_eq_true, false_and, false_or]
  exact ((runs_intOctets "int64" hin).map fun _ _ => trivial).congr (bind_ok rfl)

theorem runs_readMagnitude32 (htype : type >>> 3 ≠ 1) (hin : d.Inside) :
    (readMagnitude32 type).Runs (Extent.intOctets true d.length_add type d.rest)
      (fun _ => True) d := by
  rw [intOctets_other htype]
  simp only [true_and]
  refine Runs.congr ?_ (bind_ok rfl)
  split
  · rename_i hlong
    rw [if_pos (.inl hlong)]
    exact Runs.throw _ _
  · rename_i hlong
    simp only [hlong, false_or]
    exact (runs_intOctets "int32" hin).map fun _ _ => trivial

/-- The first case of both. -/
theorem runs_first {bits32 : Bool} {α : Type} {bound : Nat} {ex : Exception} {name : String}
    {value : Blob → α} (htype : type >>> 3 = 1) (hin : d.Inside)
    (hbound : (type &&& 7).toNat > bound ↔ bits32 ∧ (type &&& 7).toNat > 4)
    (hfits : (Extent.intOctets bits32 d.length_add type d.rest).Fits d.rest.length) :
    Runs (if (type &&& 7).toNat > bound then throw ex
      else intOctets (type &&& 7).toNat name >>= fun data =>
        if (type &&& 7).toNat = 0 then fault else pure (value data))
      (Extent.intOctets bits32 d.length_add type d.rest) (fun _ => True) d := by
  rw [intOctets_first htype] at hfits ⊢
  by_cases hlong : (type &&& 7).toNat > bound
  · rw [if_pos hlong, if_pos (.inl (hbound.mp hlong))]
    exact Runs.throw _ _
  · have hshort : ¬ (bits32 ∧ (type &&& 7).toNat > 4) := fun h => hlong (hbound.mpr h)
    simp only [if_neg hlong, hshort, false_or] at hfits ⊢
    have hoctets := runs_intOctets name hin (n := (type &&& 7).toNat)
    by_cases hzero : (type &&& 7).toNat = 0
    · have hnone : ¬ (type &&& 7).toNat > d.rest.length := by omega
      rw [if_neg hnone, if_pos hzero] at hfits
      exact hfits.elim
    · simp only [if_neg hzero]
      exact hoctets.map fun _ _ => trivial

theorem runs_readInt64 (hin : d.Inside)
    (hfits : (int false d.length_add d.rest).Fits d.rest.length) :
    readInt64.Runs (int false d.length_add d.rest) (fun _ => True) d := by
  refine runs_int _ hin hfits ?_ ?_
  · intro type hin hfits
    split
    · rename_i htype
      refine runs_first htype hin ?_ hfits
      have hle : (type &&& 7).toNat ≤ 7 := UInt8.toNat_and type 7 ▸ Nat.and_le_right
      simp only [Bool.false_eq_true, false_and, iff_false]
      omega
    · rename_i htype
      exact runs_readMagnitude64 (by rw [htype]; decide) hin
    · rename_i htype
      exact (runs_readMagnitude64 (by rw [htype]; decide) hin).map fun _ _ => trivial
    · exact Runs.throw _ _
  · intro type htype
    split
    · rename_i h
      exact absurd (.inl h) htype
    · rename_i h
      exact absurd (.inr (.inl h)) htype
    · rename_i h
      exact absurd (.inr (.inr h)) htype
    · exact ⟨_, rfl⟩

theorem runs_readInt32 (hin : d.Inside)
    (hfits : (int true d.length_add d.rest).Fits d.rest.length) :
    readInt32.Runs (int true d.length_add d.rest) (fun _ => True) d := by
  refine runs_int _ hin hfits ?_ ?_
  · intro type hin hfits
    split
    · rename_i htype
      exact runs_first htype hin (by simp only [true_and]) hfits
    · rename_i htype
      exact runs_readMagnitude32 (by rw [htype]; decide) hin
    · rename_i htype
      exact (runs_readMagnitude32 (by rw [htype]; decide) hin).map fun _ _ => trivial
    · exact Runs.throw _ _
  · intro type htype
    split
    · rename_i h
      exact absurd (.inl h) htype
    · rename_i h
      exact absurd (.inr (.inl h)) htype
    · rename_i h
      exact absurd (.inr (.inr h)) htype
    · exact ⟨_, rfl⟩

theorem runs_readFaultResponse (hin : d.Inside)
    (hfits : (faultResponse d.length_add d.rest).Fits d.rest.length) :
    readFaultResponse.Runs (faultResponse d.length_add d.rest) (fun _ => True) d := by
  refine runs_unchecked _ _ _ hin hfits fun _ _ _ hin hfits => ?_
  refine (runs_readInt64 hin hfits.first).bind hfits ?_
  intro result n _ hle _ hfits
  exact (runs_readString (hin.moved hle) hfits).map fun _ _ => trivial

theorem peek_eq {l : Blob} (h : d.rest = c :: l) : peek d = (.ok c, d) := by
  unfold peek lift
  dsimp only
  rw [peek_call h]
  rfl

theorem length_rest_moved (d : FastRpcDecoder) (n : Nat) :
    (d.moved n).rest.length = d.rest.length - n := by
  rw [d.rest_moved, List.length_drop]

theorem exists_pred {c : UInt64} (h : c ≠ 0) : ∃ n, c.toNat = n + 1 ∧ (c - 1).toNat = n := by
  have hne : c.toNat ≠ 0 := fun hzero => h (UInt64.toNat_inj.mp hzero)
  have hle : (1 : UInt64) ≤ c := by
    rw [UInt64.le_iff_toNat_le]
    change 1 ≤ c.toNat
    omega
  refine ⟨c.toNat - 1, by omega, ?_⟩
  rw [UInt64.toNat_sub_of_le _ _ hle]
  rfl

theorem skip_cons {l : Blob} {add depth : Nat} (h : d.rest = c :: l) :
    skip add (depth + 1) d.rest =
      byType add (members add depth) (elements add depth) c d.rest := by
  rw [h, skip]

/-- `readSkip` and the loops in it, under any large enough bound. The induction is on the bound;
each level and each pass of a loop takes an octet at least. -/
theorem runs_skip (time : RpcTime) (fuel : Nat) :
    (∀ depth d, d.Inside → 2 * d.rest.length + 1 ≤ fuel →
      (skip d.length_add depth d.rest).Fits d.rest.length →
      (readSkip time fuel).Runs (skip d.length_add depth d.rest) (fun _ => True) d) ∧
    (∀ depth sc d, d.Inside → 2 * d.rest.length + 2 ≤ fuel →
      (members d.length_add depth sc.toNat d.rest).Fits d.rest.length →
      (skipMembers time fuel sc).Runs (members d.length_add depth sc.toNat d.rest)
        (fun _ => True) d) ∧
    ∀ depth ac d, d.Inside → 2 * d.rest.length + 2 ≤ fuel →
      (elements d.length_add depth ac.toNat d.rest).Fits d.rest.length →
      (skipElements time fuel ac).Runs (elements d.length_add depth ac.toNat d.rest)
        (fun _ => True) d := by
  induction fuel with
  | zero => exact ⟨fun _ _ _ h => by omega, fun _ _ _ _ h => by omega, fun _ _ _ _ h => by omega⟩
  | succ fuel ih =>
    obtain ⟨ihskip, ihmembers, ihelements⟩ := ih
    refine ⟨?_, ?_, ?_⟩
    · intro depth d hin hfuel hfits
      cases depth with
      | zero => exact hfits.elim
      | succ depth =>
        cases hrest : d.rest with
        | nil =>
          rw [hrest] at hfits
          exact absurd (show 1 ≤ 0 from hfits) (by decide)
        | cons c l =>
          unfold readSkip
          refine Runs.congr ?_ (bind_ok (peek_eq hrest))
          rw [← hrest]
          have hlength : 1 ≤ d.rest.length := by
            rw [hrest, List.length_cons]
            omega
          rw [skip_cons hrest] at hfits ⊢
          unfold byType at hfits ⊢
          generalize c >>> 3 = code at hfits ⊢
          split
          · exact (runs_readInt64 hin hfits).map fun _ _ => trivial
          · exact (runs_readInt64 hin hfits).map fun _ _ => trivial
          · exact (runs_readInt64 hin hfits).map fun _ _ => trivial
          · exact (runs_readBool hin hfits).map fun _ _ => trivial
          · exact (runs_readDouble hin hfits).map fun _ _ => trivial
          · exact (runs_readString hin hfits).map fun _ _ => trivial
          · exact (runs_readTime time hin hfits).map fun _ _ => trivial
          · exact (runs_readOctets hin hfits).map fun _ _ => trivial
          · refine (runs_readCount _ hin hfits.first).bind hfits ?_
            intro sc n hn hle hvalue hfits
            have hpos := one_le_of_typed hn
            rw [← hvalue] at hfits ⊢
            refine ihmembers depth sc.toUInt64 (d.moved n) (hin.moved hle) ?_ hfits
            rw [length_rest_moved]
            omega
          · refine (runs_readCount _ hin hfits.first).bind hfits ?_
            intro ac n hn hle hvalue hfits
            have hpos := one_le_of_typed hn
            rw [← hvalue] at hfits ⊢
            refine ihelements depth ac.toUInt64 (d.moved n) (hin.moved hle) ?_ hfits
            rw [length_rest_moved]
            omega
          · exact (runs_readMethodName hin hfits).map fun _ _ => trivial
          · exact runs_readMethodResponse hin hfits
          · exact (runs_readFaultResponse hin hfits).map fun _ _ => trivial
          · exact Runs.throw _ _
    · intro depth sc d hin hfuel hfits
      cases depth with
      | zero => exact hfits.elim
      | succ depth =>
        unfold skipMembers
        by_cases hzero : sc = 0
        · rw [if_neg (not_not_intro hzero), hzero]
          exact Runs.pure trivial
        · rw [if_pos hzero]
          obtain ⟨n, hn, hn'⟩ := exists_pred hzero
          rw [hn] at hfits ⊢
          refine (runs_readMemberName hin hfits.first).bind hfits ?_
          intro _ j hj hle _ hfits
          have hpos := one_le_of_memberName hj
          have hin := hin.moved hle
          refine (ihskip depth (d.moved j) hin ?_ hfits.first).bind hfits ?_
          · rw [length_rest_moved]
            omega
          · intro _ k hk hle _ hfits
            have hpos := one_le_of_skip hk
            rw [← hn'] at hfits ⊢
            refine ihmembers depth (sc - 1) ((d.moved j).moved k) (hin.moved hle) ?_ hfits
            rw [length_rest_moved, length_rest_moved]
            omega
    · intro depth ac d hin hfuel hfits
      cases depth with
      | zero => exact hfits.elim
      | succ depth =>
        unfold skipElements
        by_cases hzero : ac = 0
        · rw [if_neg (not_not_intro hzero), hzero]
          exact Runs.pure trivial
        · rw [if_pos hzero]
          obtain ⟨n, hn, hn'⟩ := exists_pred hzero
          rw [hn] at hfits ⊢
          refine (ihskip depth d hin (by omega) hfits.first).bind hfits ?_
          intro _ k hk hle _ hfits
          have hpos := one_le_of_skip hk
          rw [← hn'] at hfits ⊢
          refine ihelements depth (ac - 1) (d.moved k) (hin.moved hle) ?_ hfits
          rw [length_rest_moved]
          omega

theorem Runs.stays {α : Type} {x : Decoding α} {e : Extent} {post : α → Prop} (hin : d.Inside)
    (hfits : e.Fits d.rest.length) (h : x.Runs e post d) : x.Stays Inside d := by
  obtain ⟨a, n, rfl, hx, -⟩ | ⟨ex, n, hx, hn⟩ := h
  · exact ⟨d.moved n, hin.moved hfits, .inl ⟨a, hx⟩⟩
  · exact ⟨d.moved n, hin.moved hn, .inr ⟨ex, hx⟩⟩

/-- The octets that `readHeader` reads: two, and three more if these are those of the protocol. -/
def headerNeed (l : Blob) : Nat := if l.take 2 = [0xca, 0x11] then 5 else 2

theorem readFirst_call (first : UInt8) :
    (∃ kind, readFirst first = pure kind) ∨ ∃ ex, readFirst first = throw ex := by
  unfold readFirst
  split <;> first
    | exact .inl ⟨_, rfl⟩
    | exact .inr ⟨_, rfl⟩

/-- The start of `readHeader` takes the code behind it. -/
theorem stays_readHeader (hin : d.Inside) (hfits : headerNeed d.rest ≤ d.rest.length) :
    readHeader.Stays Inside d := by
  have hlength := d.length_rest
  have htwo : d.pos + 2 ≤ d.theEnd := by
    unfold headerNeed at hfits
    unfold Inside at hin
    split at hfits <;> omega
  have hend : ¬ d.pos > d.theEnd + 5 := by omega
  have hmagic : (lift fun d => d.take 2 >>= fun r => .ok (r.1, d)) d =
      (.ok (d.rest.take 2), d) := by
    unfold lift FastRpcDecoder.take
    dsimp only
    rw [if_pos htwo]
    rfl
  unfold Stays readHeader unlessFarBeyond
  rw [if_neg hend, bind_ok hmagic]
  unfold headerNeed at hfits
  by_cases hfirst : d.rest.take 2 = [0xca, 0x11]
  · rw [if_pos hfirst] at hfits
    rw [if_neg (not_not_intro hfirst)]
    -- the first octet behind the header is there too
    obtain ⟨bytes, n, he, htake, -⟩ | ⟨ex, n, htake, hn⟩ :=
      runs_take hin (Nat.le_trans (by decide : 4 ≤ 5) hfits)
    · cases he
      obtain ⟨d', hd', hpos, hset⟩ : ∃ d' : FastRpcDecoder, d'.content = d.content ∧ d'.pos = d.pos + 4 ∧
          setLengthAdd (bytes.getD 2 0) (d.moved 4) = (.ok (), d') :=
        ⟨(setLengthAdd (bytes.getD 2 0) (d.moved 4)).2, rfl, rfl, rfl⟩
      have hrest : d'.rest = (d.moved 4).rest := by
        unfold FastRpcDecoder.rest
        rw [hd', hpos]
        rfl
      have hin' : d'.Inside := by
        have hin := hin.moved (Nat.le_trans (by decide : 4 ≤ 5) hfits)
        unfold Inside theEnd at hin ⊢
        rw [hd', hpos]
        exact hin
      have hne : d'.rest ≠ [] := by
        intro hnil
        have hdrop := length_rest_moved d 4
        rw [← hrest, hnil, List.length_nil] at hdrop
        omega
      obtain ⟨first, l, hfirst⟩ := List.exists_cons_of_ne_nil hne
      rw [bind_ok htake, bind_ok hset, bind_ok (peek_eq hfirst)]
      refine ⟨d', hin', ?_⟩
      obtain ⟨kind, h⟩ | ⟨ex, h⟩ := readFirst_call first
      · rw [h]
        exact .inl ⟨kind, rfl⟩
      · rw [h]
        exact .inr ⟨ex, rfl⟩
    · exact ⟨d.moved n, hin.moved hn, .inr ⟨ex, bind_raise htake⟩⟩
  · rw [if_pos hfirst]
    exact ⟨d, hin, .inr ⟨_, rfl⟩⟩

theorem readCheckType_call (d : FastRpcDecoder) :
    (∃ type, d.readCheckType = .ok type) ∨ ∃ ex, d.readCheckType = .raise ex := by
  unfold FastRpcDecoder.readCheckType
  by_cases hend : d.pos ≥ d.theEnd
  · rw [if_pos hend]
    exact .inl ⟨_, rfl⟩
  · rw [if_neg hend]
    have hne : d.rest ≠ [] := by
      intro hnil
      have hlength := d.length_rest
      rw [hnil, List.length_nil] at hlength
      omega
    obtain ⟨c, l, hrest⟩ := List.exists_cons_of_ne_nil hne
    rw [peek_call hrest, Outcome.ok_bind]
    split <;> first
      | exact .inl ⟨_, rfl⟩
      | exact .inr ⟨_, rfl⟩

theorem stays_readCheckType (hin : d.Inside) : readCheckType.Stays Inside d := by
  unfold Stays readCheckType lift
  dsimp only
  refine ⟨d, hin, ?_⟩
  obtain ⟨type, h⟩ | ⟨ex, h⟩ := readCheckType_call d
  · rw [h]
    exact .inl ⟨type, rfl⟩
  · rw [h]
    exact .inr ⟨ex, rfl⟩

end Decoding

end Drt
