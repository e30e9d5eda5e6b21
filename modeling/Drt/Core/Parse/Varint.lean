import Drt.Core.Parse.BinaryWord

/-!
# Variable-length integers

Both sides work on the base-128 groups of the value, highest group first; all
groups but the last carry the continuation bit. A proper prefix of such octets
consists of continuation octets only, so a truncated varint always runs into
the end of the data and never into a shorter value.
-/

open List

namespace Drt

open Bytes

namespace BinaryWriter

/-- The groups of `v` as continuation octets, highest first; none for zero. -/
def continuation (v : Nat) : List UInt8 :=
  if v = 0 then [] else continuation (v / 128) ++ [UInt8.ofNat (v % 128 + 128)]
termination_by v
decreasing_by omega

theorem continuation_zero : continuation 0 = [] := by
  rw [continuation]
  rfl

theorem continuation_pos {v : Nat} (h : v ≠ 0) :
    continuation v = continuation (v / 128) ++ [UInt8.ofNat (v % 128 + 128)] := by
  rw [continuation, if_neg h]

/-- All octets of the varint of `v`. -/
def varint (v : Nat) : List UInt8 := continuation (v / 128) ++ [UInt8.ofNat (v % 128)]

/-- The octet the loop stores is a group with its continuation bit. -/
theorem stored_group (v : Nat) : UInt8.ofNat (v ||| 0x80) = UInt8.ofNat (v % 128 + 128) := by
  apply UInt8.toNat_inj.mp
  rw [UInt8.toNat_ofNat', UInt8.toNat_ofNat']
  have hsplit : (v ||| 0x80) % 2 ^ 8 = v % 2 ^ 8 ||| 0x80 % 2 ^ 8 := Nat.or_mod_two_pow
  rw [hsplit, ← or_128 (Nat.mod_lt v (by decide : 128 > 0))]
  apply Nat.eq_of_testBit_eq
  intro i
  have h128 : (128 : Nat) = 2 ^ 7 := rfl
  simp only [Nat.testBit_or, Nat.testBit_mod_two_pow, h128]
  -- Bit 7 is set on both sides; below it and above it only `v` counts.
  rcases Nat.lt_trichotomy i 7 with hlt | rfl | hgt
  · simp [hlt, show i < 8 by omega]
  · have htop : Nat.testBit 128 7 = true := by decide
    simp [htop]
  · simp [show ¬ i < 8 by omega, show ¬ i < 7 by omega]

variable {p value : Nat}

/-- With enough room the loop stores exactly the higher groups. -/
theorem varintLoop_eq (h : value / 128 < 128 ^ p) (stored : List UInt8) :
    varintLoop value p stored = .ok (continuation (value / 128) ++ stored) := by
  induction p generalizing value stored with
  | zero =>
    have hz : value / 128 = 0 := by simpa using h
    rw [varintLoop, if_pos hz, hz, continuation_zero, nil_append]
  | succ p ih =>
    by_cases hz : value / 128 = 0
    · rw [varintLoop, if_pos hz, hz, continuation_zero, nil_append]
    · have hnext : value / 128 / 128 < 128 ^ p := by
        rw [Nat.div_lt_iff_lt_mul (by decide), ← pow_succ]
        exact h
      rw [varintLoop, if_neg hz, ih hnext, continuation_pos hz, stored_group, append_assoc,
        singleton_append]

theorem varintOctets_eq (h : value / 128 < 128 ^ p) :
    varintOctets (p + 1) value = .ok (varint value) := by
  rw [varintOctets, varintLoop_eq h, and_127, varint]

/-- With too little room the loop stores in front of the buffer. -/
theorem varintLoop_fault (h : 128 ^ p ≤ value / 128) (stored : List UInt8) :
    varintLoop value p stored = .fault := by
  induction p generalizing value stored with
  | zero =>
    have hpos : value / 128 ≠ 0 := by
      rw [pow_zero] at h
      omega
    rw [varintLoop, if_neg hpos]
  | succ p ih =>
    have hpos : 0 < 128 ^ (p + 1) := Nat.pow_pos (by decide)
    have hnext : 128 ^ p ≤ value / 128 / 128 := by
      rw [Nat.le_div_iff_mul_le (by decide), ← pow_succ]
      exact h
    rw [varintLoop, if_neg (by omega), ih hnext]

/-- What comes out of the local buffer are the octets of the value. -/
theorem varint_of_octets {b : List UInt8} (h : varintOctets (p + 1) value = .ok b) :
    b = varint value := by
  rcases Nat.lt_or_ge (value / 128) (128 ^ p) with hroom | hroom
  · rw [varintOctets_eq hroom] at h
    exact (Outcome.ok.inj h).symm
  · rw [varintOctets, varintLoop_fault hroom] at h
    cases h

end BinaryWriter

namespace BinaryMemReader

open BinaryWriter

variable {limit result v width : Nat}

/-- A proper prefix of the octets of `v` holds the leading groups of `v` only. -/
theorem prefix_varint {pre : List UInt8} (hp : pre <+: varint v)
    (hl : pre.length < (varint v).length) : ∃ u ≤ v / 128, pre = continuation u := by
  have hc : pre <+: continuation (v / 128) := by
    apply prefix_of_prefix_length_le hp (prefix_append _ _)
    simpa [varint, Nat.lt_succ_iff] using hl
  clear hp hl
  induction hv : v / 128 using Nat.strongRecOn generalizing v with
  | ind n ih =>
    rw [hv] at hc
    by_cases hz : n = 0
    · subst hz
      rw [continuation_zero, prefix_nil] at hc
      exact ⟨0, Nat.le_refl _, by rw [hc, continuation_zero]⟩
    · rw [continuation_pos hz] at hc
      rcases prefix_concat_iff.mp hc with heq | hpre
      · exact ⟨n, Nat.le_refl _, by rw [heq, ← continuation_pos hz]⟩
      · obtain ⟨u, hu, he⟩ := ih (n / 128) (by omega) (v := n) hpre rfl
        exact ⟨u, by omega, he⟩

theorem varintLoop_more {b : UInt8} (hb : 128 ≤ b.toNat) (hl : result < limit) (value_name : String)
    (fuel : Nat) (passed rest : List UInt8) :
    varintLoop width limit value_name (fuel + 1) result ⟨passed, b :: rest⟩ =
      varintLoop width limit value_name fuel ((result * 128 + b.toNat % 128) % 2 ^ width)
        ⟨b :: passed, rest⟩ := by
  rw [varintLoop]
  simp [needBytes, back, advance, and_127, show ¬ limit ≤ result by omega,
    show ¬ b.toNat < 128 by omega]

theorem varintLoop_last {b : UInt8} (hb : b.toNat < 128) (hl : result < limit) (value_name : String)
    (fuel : Nat) (passed rest : List UInt8) :
    varintLoop width limit value_name (fuel + 1) result ⟨passed, b :: rest⟩ =
      .ok ((result * 128 + b.toNat) % 2 ^ width, ⟨b :: passed, rest⟩) := by
  rw [varintLoop]
  simp [needBytes, back, advance, show ¬ limit ≤ result by omega, hb]

theorem varintLoop_nil (width limit result : Nat) (value_name : String) (fuel : Nat)
    (passed : List UInt8) :
    varintLoop width limit value_name (fuel + 1) result ⟨passed, []⟩ =
      .raise (.endOfDataException "byte" value_name) := by
  rw [varintLoop]
  simp [needBytes, extendCache]

/-- Reading the groups of `v` from zero leaves `v` as the result so far. -/
theorem varintLoop_continuation (width limit : Nat) (hv : v < 2 ^ width) (hl : v / 128 < limit)
    (value_name : String) (fuel : Nat) (passed rest : List UInt8) :
    varintLoop width limit value_name (fuel + (continuation v).length) 0
        ⟨passed, continuation v ++ rest⟩ =
      varintLoop width limit value_name fuel v ⟨(continuation v).reverse ++ passed, rest⟩ := by
  induction v using Nat.strongRecOn generalizing fuel rest with
  | ind v ih =>
    by_cases hz : v = 0
    · subst hz
      simp [continuation_zero]
    · have hb : (UInt8.ofNat (v % 128 + 128)).toNat = v % 128 + 128 := by
        rw [UInt8.toNat_ofNat']
        omega
      have hstep : (v / 128 * 128 + (v % 128 + 128) % 128) % 2 ^ width = v := by
        rw [Nat.mod_eq_of_lt] <;> omega
      have hprev := ih (v / 128) (by omega) (by omega) (by omega) (fuel + 1)
        (UInt8.ofNat (v % 128 + 128) :: rest)
      have hlen : (continuation v).length = 1 + (continuation (v / 128)).length := by
        rw [continuation_pos hz, length_append, length_singleton, Nat.add_comm]
      rw [hlen, ← Nat.add_assoc, continuation_pos hz, append_assoc, singleton_append,
        hprev, varintLoop_more (by omega) hl, hb, hstep, reverse_append,
        reverse_singleton, singleton_append, cons_append]

/-- The octets of `v` are read as `v`, provided the groups stay below the limit. -/
theorem reads_varint (width limit : Nat) (hv : v < 2 ^ width) (hl : v / 128 < limit)
    (value_name : String) :
    Reads (fun r => r.readVarint width limit value_name) (varint v) v value_name where
  full passed rest := by
    have hb : (UInt8.ofNat (v % 128)).toNat = v % 128 := by
      rw [UInt8.toNat_ofNat']
      omega
    have hstep : (v / 128 * 128 + v % 128) % 2 ^ width = v := by
      rw [Nat.mod_eq_of_lt] <;> omega
    have hlen : (varint v ++ rest).length + 1 =
        rest.length + 1 + 1 + (continuation (v / 128)).length := by
      simp only [varint, length_append, length_singleton]
      omega
    simp only [readVarint]
    rw [hlen, varint, append_assoc, singleton_append,
      varintLoop_continuation width limit (by omega) (by omega), varintLoop_last (by omega) hl, hb,
      hstep, reverse_append, reverse_singleton, singleton_append, cons_append]
  short passed pre hp hlen := by
    obtain ⟨u, hu, rfl⟩ := prefix_varint hp hlen
    have hrun := varintLoop_continuation width limit (v := u) (by omega) (by omega)
      value_name 1 passed []
    rw [append_nil] at hrun
    rw [readVarint, Nat.add_comm, hrun, varintLoop_nil]

/-- What `readVarint64` accepts: seven octets of groups below `2^53`, and the last one. -/
theorem reads_varint64 (h : v < 2 ^ 60) (value_name : String) :
    Reads (fun r => r.readVarint64 value_name) (varint v) (UInt64.ofNat v) value_name :=
  (reads_varint 64 (0x200000 <<< 32) (by omega) (by omega) value_name).map UInt64.ofNat

/-- What `readVarint32` accepts: three octets of groups below `2^21`, and the last one. -/
theorem reads_varint32 (h : v < 2 ^ 28) (value_name : String) :
    Reads (fun r => r.readVarint32 value_name) (varint v) (UInt32.ofNat v) value_name :=
  (reads_varint 32 0x200000 (by omega) (by omega) value_name).map UInt32.ofNat

/-- Groups that have come to the limit are refused in front of the last octet. -/
theorem readVarint_overflow (width limit : Nat) (hv : v / 128 < 2 ^ width)
    (hl : v / 128 / 128 < limit) (hover : limit ≤ v / 128) (value_name : String)
    (passed rest : List UInt8) :
    (⟨passed, varint v ++ rest⟩ : BinaryMemReader).readVarint width limit value_name =
      .raise (.overflowException "reading varint") := by
  have hlen : (varint v ++ rest).length + 1 =
      rest.length + 1 + 1 + (continuation (v / 128)).length := by
    simp only [varint, length_append, length_singleton]
    omega
  rw [readVarint, hlen, varint, append_assoc, singleton_append,
    varintLoop_continuation width limit hv hl, varintLoop]
  simp [needBytes, hover]

/-- A blob whose size passes the reader's bound is read with its size in front. -/
theorem reads_varBlob {data : List UInt8} {max_size : Nat} (h : data.length < 2 ^ 60)
    (hm : data.length ≤ max_size) (value_name : String) :
    Reads (fun r => r.readVarBlob max_size value_name) (varint data.length ++ data) data
      value_name := by
  refine (reads_varint64 h value_name).seq (fun size r =>
    if max_size < size.toNat then .raise (.overflowException ("too long blob: " ++ value_name))
    else r.readBytes size.toNat value_name) ?_
  have hsize : (UInt64.ofNat data.length).toNat = data.length :=
    UInt64.toNat_ofNat_of_lt' (by simp only [UInt64.size]; omega)
  simp only [hsize, if_neg (Nat.not_lt.mpr hm)]
  exact reads_bytes data value_name

end BinaryMemReader

/-- Every writer is handed the same octets, none of them stored outside the local buffer, and a
reader in front of them returns the value and stops behind them. -/
def VarintReadsBack {T : Type}
    (write : ∀ (W : Type) [BinaryWriter W], W → T → String → Call W)
    (read : BinaryMemReader → String → Call (T × BinaryMemReader)) (value : T) : Prop :=
  ∃ octets : List UInt8,
    (∀ (W : Type) [BinaryWriter W] (w : W) (value_name : String),
      write W w value value_name = BinaryWriter.writeDirect w octets value_name) ∧
    ∀ (value_name : String) (passed rest : List UInt8),
      read ⟨passed, octets ++ rest⟩ value_name = .ok (value, ⟨octets.reverse ++ passed, rest⟩)

/-- `writeVarint(Uint32)`, read by `readVarint32`. -/
def VarintReadsBack32 (value : UInt32) : Prop :=
  VarintReadsBack (fun _ _ => BinaryWriter.writeVarint32) BinaryMemReader.readVarint32 value

/-- `writeVarint(Uint64)`, read by `readVarint64`. -/
def VarintReadsBack64 (value : UInt64) : Prop :=
  VarintReadsBack (fun _ _ => BinaryWriter.writeVarint64) BinaryMemReader.readVarint64 value

open BinaryWriter BinaryMemReader

/-- From `2^28` on, `readVarint32` refuses the octets of the value. -/
theorem not_varintReadsBack32 {value : UInt32} (h : 2 ^ 28 ≤ value.toNat) :
    ¬ VarintReadsBack32 value := by
  rintro ⟨octets, hwrite, hread⟩
  have hlt := value.toNat_lt
  obtain ⟨b, hb, hdirect⟩ := Outcome.bind_eq_ok.mp (hwrite BinaryBlobWriter ⟨[]⟩ "")
  obtain rfl : b = octets := by
    have hcontent := congrArg BinaryBlobWriter.content (Outcome.ok.inj hdirect)
    simpa using hcontent
  rw [varint_of_octets hb] at hread
  have hover := readVarint_overflow 32 0x200000 (v := value.toNat) (by omega) (by omega)
    (by omega) "" [] []
  have heq := hread "" [] []
  rw [readVarint32, hover] at heq
  cases heq

/-- From `2^60` on, `readVarint64` refuses the octets of the value. -/
theorem not_varintReadsBack64 {value : UInt64} (h : 2 ^ 60 ≤ value.toNat) :
    ¬ VarintReadsBack64 value := by
  rintro ⟨octets, hwrite, hread⟩
  have hlt := value.toNat_lt
  obtain ⟨b, hb, hdirect⟩ := Outcome.bind_eq_ok.mp (hwrite BinaryBlobWriter ⟨[]⟩ "")
  obtain rfl : b = octets := by
    have hcontent := congrArg BinaryBlobWriter.content (Outcome.ok.inj hdirect)
    simpa using hcontent
  rw [varint_of_octets hb] at hread
  have hover := readVarint_overflow 64 (0x200000 <<< 32) (v := value.toNat) (by omega) (by omega)
    (by omega) "" [] []
  have heq := hread "" [] []
  rw [readVarint64, hover] at heq
  cases heq

theorem varintReadsBack32_iff (value : UInt32) :
    VarintReadsBack32 value ↔ value.toNat < 2 ^ 28 := by
  constructor
  · intro hback
    by_contra hge
    exact not_varintReadsBack32 (by omega) hback
  · intro hlt
    refine ⟨varint value.toNat, fun W _ w value_name => ?_, fun value_name passed rest => ?_⟩
    · change writeVarint32 w value value_name = _
      rw [writeVarint32, varintOctets_eq (by omega), Outcome.ok_bind]
    · rw [(reads_varint32 hlt value_name).full, UInt32.ofNat_toNat]

theorem varintReadsBack64_iff (value : UInt64) :
    VarintReadsBack64 value ↔ value.toNat < 2 ^ 60 := by
  constructor
  · intro hback
    by_contra hge
    exact not_varintReadsBack64 (by omega) hback
  · intro hlt
    refine ⟨varint value.toNat, fun W _ w value_name => ?_, fun value_name passed rest => ?_⟩
    · change writeVarint64 w value value_name = _
      rw [writeVarint64, varintOctets_eq (by omega), Outcome.ok_bind]
    · rw [(reads_varint64 hlt value_name).full, UInt64.ofNat_toNat]

/-- A varint comes back exactly if it is below `2^28`, and `2^60` for 64 bits: both limits of the
readers are a factor of sixteen below what the type has room for. -/
theorem varintReadsBack_iff (v : UInt32) (w : UInt64) :
    (VarintReadsBack32 v ↔ v.toNat < 2 ^ 28) ∧ (VarintReadsBack64 w ↔ w.toNat < 2 ^ 60) :=
  ⟨varintReadsBack32_iff v, varintReadsBack64_iff w⟩

/-- The least number that `readVarint32` refuses. -/
theorem not_varintReadsBack32_limit : ¬ VarintReadsBack32 0x10000000 :=
  not_varintReadsBack32 (by decide)

/-! ### Any octets

The octets in front of a reader need not come from a writer: there may be any number of groups,
leading zeros among them. The limit is compared before a group is shifted in, so that whatever is
shifted still fits the type. -/

/-- The number in base-128 groups, highest first. -/
def groupsValue (groups : List UInt8) : Nat :=
  groups.foldl (fun value b => value * 128 + b.toNat % 128) 0

/-- All these octets have the continuation bit. -/
def Continues (octets : List UInt8) : Prop := ∀ b ∈ octets, 128 ≤ b.toNat

theorem groupsValue_concat (groups : List UInt8) (b : UInt8) :
    groupsValue (groups ++ [b]) = groupsValue groups * 128 + b.toNat % 128 := by
  rw [groupsValue, foldl_append]
  rfl

theorem Continues.concat {octets : List UInt8} (h : Continues octets) {b : UInt8}
    (hb : 128 ≤ b.toNat) : Continues (octets ++ [b]) := by
  intro c hc
  rcases mem_append.mp hc with hc | hc
  · exact h c hc
  · rwa [mem_singleton.mp hc]

namespace BinaryMemReader

/-- What a reader of varints may come to: the exact number of the groups, with the reader right
behind them, or an exception. -/
inductive ReadsGroups {T : Type} (toNat : T → Nat) (limit : Nat) (value_name : String)
    (r : BinaryMemReader) : Call (T × BinaryMemReader) → Prop
  | value {leading rest : List UInt8} {last : UInt8} {v : T}
      (octets : r.pending = leading ++ last :: rest) (continued : Continues leading)
      (ends : last.toNat < 128) (exact_value : toNat v = groupsValue (leading ++ [last])) :
      ReadsGroups toNat limit value_name r
        (.ok (v, ⟨(leading ++ [last]).reverse ++ r.passed, rest⟩))
  | endOfData (continued : Continues r.pending) :
      ReadsGroups toNat limit value_name r (.raise (.endOfDataException "byte" value_name))
  | overflow {leading rest : List UInt8} (octets : r.pending = leading ++ rest)
      (more : rest ≠ []) (continued : Continues leading) (high : limit ≤ groupsValue leading) :
      ReadsGroups toNat limit value_name r (.raise (.overflowException "reading varint"))

variable {fuel limit width : Nat}

/-- From any groups on that have been read, the loop comes to one of the three results. -/
theorem readsGroups_varintLoop (hwidth : limit * 128 ≤ 2 ^ width) (value_name : String)
    (passed : List UInt8) {leading rest : List UInt8} (hcontinues : Continues leading)
    (hfuel : rest.length < fuel) :
    ReadsGroups id limit value_name ⟨passed, leading ++ rest⟩
      (varintLoop width limit value_name fuel (groupsValue leading)
        ⟨leading.reverse ++ passed, rest⟩) := by
  induction rest generalizing leading fuel with
  | nil =>
    obtain ⟨fuel, rfl⟩ : ∃ n, fuel = n + 1 := ⟨fuel - 1, by omega⟩
    rw [varintLoop_nil]
    exact .endOfData (by simpa using hcontinues)
  | cons b rest ih =>
    obtain ⟨fuel, rfl⟩ : ∃ n, fuel = n + 1 := ⟨fuel - 1, by omega⟩
    have hfuel : rest.length < fuel := by simpa using hfuel
    by_cases hl : limit ≤ groupsValue leading
    · have hraise : varintLoop width limit value_name (fuel + 1) (groupsValue leading)
          ⟨leading.reverse ++ passed, b :: rest⟩ =
            .raise (.overflowException "reading varint") := by
        rw [varintLoop]
        simp [needBytes, hl]
      rw [hraise]
      exact .overflow rfl (cons_ne_nil b rest) hcontinues hl
    -- Below the limit a group more is still below the range of the type.
    have hfits : (groupsValue leading * 128 + b.toNat % 128) % 2 ^ width =
        groupsValue (leading ++ [b]) := by
      rw [groupsValue_concat, Nat.mod_eq_of_lt]
      have hgroup := Nat.mod_lt b.toNat (by decide : 128 > 0)
      omega
    by_cases hb : b.toNat < 128
    · rw [varintLoop_last hb (by omega), ← Nat.mod_eq_of_lt hb, hfits]
      have hpos : (⟨b :: (leading.reverse ++ passed), rest⟩ : BinaryMemReader) =
          ⟨(leading ++ [b]).reverse ++ passed, rest⟩ := by simp
      rw [hpos]
      exact .value rfl hcontinues hb rfl
    · have hnext := ih (hcontinues.concat (by omega : 128 ≤ b.toNat)) hfuel
      rw [append_assoc, singleton_append, reverse_append, reverse_singleton,
        singleton_append, cons_append] at hnext
      rwa [varintLoop_more (by omega) (by omega), hfits]

theorem readsGroups_readVarint (hwidth : limit * 128 ≤ 2 ^ width) (r : BinaryMemReader)
    (value_name : String) :
    ReadsGroups id limit value_name r (r.readVarint width limit value_name) :=
  readsGroups_varintLoop hwidth value_name r.passed (show Continues [] by simp [Continues])
    (Nat.lt_succ_self r.pending.length)

/-- A number that is wrapped in its type stays what it is. -/
theorem ReadsGroups.map {T : Type} {toNat : T → Nat} {value_name : String} {r : BinaryMemReader}
    {run : Call (Nat × BinaryMemReader)} {wrap : Nat → T}
    (h : ReadsGroups id limit value_name r run)
    (hwrap : ∀ v r', run = .ok (v, r') → toNat (wrap v) = v) :
    ReadsGroups toNat limit value_name r (run >>= fun x => .ok (wrap x.1, x.2)) := by
  cases h with
  | value octets continued ends exact_value =>
    exact .value octets continued ends ((hwrap _ _ rfl).trans exact_value)
  | endOfData continued => exact .endOfData continued
  | overflow octets more continued high => exact .overflow octets more continued high

/-- What the loop returns is reduced to its width. -/
theorem varintLoop_lt {result v : Nat} {value_name : String} {r r' : BinaryMemReader}
    (h : varintLoop width limit value_name fuel result r = .ok (v, r')) : v < 2 ^ width := by
  induction fuel generalizing result r with
  | zero => cases h
  | succ fuel ih =>
    obtain ⟨passed, pending⟩ := r
    cases pending with
    | nil =>
      rw [varintLoop_nil] at h
      cases h
    | cons b rest =>
      by_cases hl : limit ≤ result
      · rw [varintLoop] at h
        simp [needBytes, hl] at h
      · by_cases hb : b.toNat < 128
        · rw [varintLoop_last hb (by omega)] at h
          rw [← (Prod.mk.inj (Outcome.ok.inj h)).1]
          exact Nat.mod_lt _ (Nat.two_pow_pos width)
        · rw [varintLoop_more (by omega) (by omega)] at h
          exact ih h

/-- In front of any octets a reader of varints comes to the exact number of the groups, or to an
exception: at the end of the data if no group ends the number, and where the groups so far have come
to the limit. -/
theorem readsGroups_readVarint32 (r : BinaryMemReader) (value_name : String) :
    ReadsGroups UInt32.toNat 0x200000 value_name r (r.readVarint32 value_name) :=
  (readsGroups_readVarint (by decide) r value_name).map fun _ _ h =>
    UInt32.toNat_ofNat_of_lt' (varintLoop_lt h)

theorem readsGroups_readVarint64 (r : BinaryMemReader) (value_name : String) :
    ReadsGroups UInt64.toNat (0x200000 <<< 32) value_name r (r.readVarint64 value_name) :=
  (readsGroups_readVarint (by decide) r value_name).map fun _ _ h =>
    UInt64.toNat_ofNat_of_lt' (varintLoop_lt h)

/-- Neither reader ever returns a reduced number. -/
theorem readVarint_exact (r : BinaryMemReader) (value_name : String) :
    ReadsGroups UInt32.toNat 0x200000 value_name r (r.readVarint32 value_name) ∧
      ReadsGroups UInt64.toNat (0x200000 <<< 32) value_name r (r.readVarint64 value_name) :=
  ⟨readsGroups_readVarint32 r value_name, readsGroups_readVarint64 r value_name⟩

end BinaryMemReader

end Drt
