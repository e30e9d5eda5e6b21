import Drt.Net.Rpc.FastRpcDecoding

/-!
# What FastRPC operations read

The sizes found in the octets from `pos` on say how far an operation reads, if nothing checks
that they are there. Where the checks of the code stand the right way round, an operation that
finds too few octets stops in front of them.
-/

namespace Drt

open Bytes

/-- How an operation goes over octets: up to an exception, or over an item, for as many octets
as it reads; `never` is a shift by all bits, or a length of more than eight octets. -/
inductive Extent where
  | never
  | stop (need : Nat)
  | go (need : Nat)
  deriving DecidableEq, Repr

namespace Extent

/-- All that is read is there. -/
def Fits (left : Nat) : Extent → Prop
  | never => False
  | stop need => need ≤ left
  | go need => need ≤ left

instance (left : Nat) : (e : Extent) → Decidable (e.Fits left)
  | never => isFalse id
  | stop need => inferInstanceAs (Decidable (need ≤ left))
  | go need => inferInstanceAs (Decidable (need ≤ left))

/-- The extent of what comes behind `n` octets. -/
def after (n : Nat) : Extent → Extent
  | never => never
  | stop need => stop (n + need)
  | go need => go (n + need)

/-- One item after another. -/
def andThen (e : Extent) (l : Blob) (f : Blob → Extent) : Extent :=
  match e with
  | go n => (f (l.drop n)).after n
  | e => e

/-- An item with a type octet. Without one, `empty` octets are read. -/
def typed (empty : Nat) (accepted : UInt8 → Bool) (f : UInt8 → Blob → Extent) : Blob → Extent
  | [] => stop empty
  | type :: l => if accepted type then (f type l).after 1 else stop 1

/-- The octets of a length. -/
def genLength (octets : Nat) : Extent := if octets > 8 then never else go octets

/-- The octets of an integer: as many as the type octet says, and `length_add` more but for the
first kind. The check finds them missing, or more than four of 32 bits. -/
def intOctets (bits32 : Bool) (add : Nat) (type : UInt8) (l : Blob) : Extent :=
  let octets := (type &&& 7).toNat + if type >>> 3 = 1 then 0 else add
  if (bits32 ∧ octets > 4) ∨ octets > l.length then stop 0
  else if type >>> 3 = 1 ∧ octets = 0 then never
  else go octets

/-- `readInt32` and `readInt64`. -/
def int (bits32 : Bool) (add : Nat) : Blob → Extent :=
  typed 0 (fun type => type >>> 3 = 1 ∨ type >>> 3 = 7 ∨ type >>> 3 = 8) (intOctets bits32 add)

/-- `readBool`. -/
def bool : Blob → Extent := typed 0 (· &&& 0xfe = 0x10) fun _ _ => go 0

/-- `readDouble`. -/
def double : Blob → Extent := typed 1 (· = 0x18) fun _ _ => go 8

/-- `readString` and `readBinary`. -/
def octets (code : UInt8) (add : Nat) : Blob → Extent :=
  typed 0 (· &&& 0xf8 = code) fun type l =>
    (genLength ((type &&& 7).toNat + add)).andThen l fun _ =>
      go (leValue (l.take ((type &&& 7).toNat + add)))

/-- `readTime`. -/
def time : Blob → Extent := typed 0 (· = 0x28) fun _ _ => go 10

/-- `readStructLength` and `readArrayLength`. -/
def count (code : UInt8) (add : Nat) : Blob → Extent :=
  typed 0 (· &&& 0xf8 = code) fun type _ => genLength ((type &&& 7).toNat + add)

/-- The number that they give. -/
def countValue (add : Nat) : Blob → Nat
  | [] => 0
  | type :: l => leValue (l.take ((type &&& 7).toNat + add))

/-- A name behind its length. -/
def name : Blob → Extent
  | [] => stop 1
  | len :: _ => go (1 + len.toNat)

/-- `readMemberName`. -/
def memberName : Blob → Extent
  | [] => stop 0
  | l => name l

/-- `readMethodName`. -/
def methodName : Blob → Extent := typed 1 (· = 0x68) fun _ l => name l

/-- `readMethodResponse`. -/
def methodResponse : Blob → Extent := typed 1 (· = 0x70) fun _ _ => go 0

/-- `readFaultResponse`. -/
def faultResponse (add : Nat) : Blob → Extent :=
  typed 1 (· = 0x78) fun _ l => (int false add l).andThen l (octets 0x20 add)

/-- What `readSkip` goes over, by the type octet `c` in front. -/
def byType (add : Nat) (members elements : Nat → Blob → Extent) (c : UInt8) (l : Blob) : Extent :=
  match c >>> 3 with
  | 1 | 8 | 7 => int false add l
  | 2 => bool l
  | 3 => double l
  | 4 => octets 0x20 add l
  | 5 => time l
  | 6 => octets 0x30 add l
  | 10 => (count 0x50 add l).andThen l (members (countValue add l))
  | 11 => (count 0x58 add l).andThen l (elements (countValue add l))
  | 13 => methodName l
  | 14 => methodResponse l
  | 15 => faultResponse add l
  | _ => stop 1

mutual

/-- `readSkip`. The type octet is read without a check. -/
def skip (add : Nat) : Nat → Blob → Extent
  | 0, _ => never
  | _ + 1, [] => stop 1
  | depth + 1, c :: l => byType add (members add depth) (elements add depth) c (c :: l)

/-- The members of a struct. -/
def members (add : Nat) : Nat → Nat → Blob → Extent
  | 0, _, _ => never
  | _ + 1, 0, _ => go 0
  | depth + 1, n + 1, l =>
    (memberName l).andThen l fun l => (skip add depth l).andThen l (members add depth n)

/-- The elements of an array. -/
def elements (add : Nat) : Nat → Nat → Blob → Extent
  | 0, _, _ => never
  | _ + 1, 0, _ => go 0
  | depth + 1, n + 1, l => (skip add depth l).andThen l (elements add depth n)

end

variable {add left n : Nat} {e : Extent} {l : Blob}

theorem intOctets_first {bits32 : Bool} {type : UInt8} (h : type >>> 3 = 1) (l : Blob) :
    intOctets bits32 add type l =
      if (bits32 ∧ (type &&& 7).toNat > 4) ∨ (type &&& 7).toNat > l.length then stop 0
      else if (type &&& 7).toNat = 0 then never
      else go (type &&& 7).toNat := by
  unfold intOctets
  simp only [h, if_true, Nat.add_zero, true_and]

theorem intOctets_other {bits32 : Bool} {type : UInt8} (h : type >>> 3 ≠ 1) (l : Blob) :
    intOctets bits32 add type l =
      if (bits32 ∧ (type &&& 7).toNat + add > 4) ∨ (type &&& 7).toNat + add > l.length then stop 0
      else go ((type &&& 7).toNat + add) := by
  unfold intOctets
  simp only [h, if_false, false_and]

theorem Fits.after (hn : n ≤ left) (h : (e.after n).Fits left) : e.Fits (left - n) := by
  cases e with
  | never => exact h
  | stop need | go need =>
    change n + need ≤ left at h
    change need ≤ left - n
    omega

theorem Fits.le_of_after (h : (e.after n).Fits left) : n ≤ left := by
  cases e with
  | never => exact h.elim
  | stop need | go need =>
    change n + need ≤ left at h
    omega

theorem Fits.first {f : Blob → Extent} (h : (e.andThen l f).Fits left) : e.Fits left := by
  cases e with
  | never => exact h
  | stop need => exact h
  | go need => exact h.le_of_after

theorem one_le_of_typed {empty : Nat} {accepted : UInt8 → Bool} {f : UInt8 → Blob → Extent}
    (h : typed empty accepted f l = go n) : 1 ≤ n := by
  cases l with
  | nil => cases h
  | cons c l =>
    change (if accepted c then (f c l).after 1 else stop 1) = go n at h
    split at h
    · cases hf : f c l with
      | go k =>
        rw [hf] at h
        cases h
        omega
      | _ =>
        rw [hf] at h
        cases h
    · cases h

/-- Items one after another are at least as long as the first one. -/
theorem le_of_andThen {f : Blob → Extent} {k : Nat} (he : ∀ n, e = go n → k ≤ n)
    (h : e.andThen l f = go n) : k ≤ n := by
  cases e with
  | never => cases h
  | stop need => cases h
  | go m =>
    have hm := he m rfl
    change (f (l.drop m)).after m = go n at h
    cases hf : f (l.drop m) with
    | go j =>
      rw [hf] at h
      cases h
      omega
    | _ =>
      rw [hf] at h
      cases h

theorem one_le_of_memberName (h : memberName l = go n) : 1 ≤ n := by
  cases l with
  | nil => cases h
  | cons len l =>
    cases h
    omega

theorem one_le_of_skip {depth : Nat} (h : skip add depth l = go n) : 1 ≤ n := by
  cases depth with
  | zero => cases h
  | succ depth =>
    cases l with
    | nil => cases h
    | cons c l =>
      rw [skip] at h
      unfold byType at h
      split at h
      all_goals first
        | exact one_le_of_typed h
        | exact le_of_andThen (fun _ => one_le_of_typed) h
        | cases h

end Extent

namespace FastRpcDecoder

variable {d : FastRpcDecoder}

/-- The octets from `pos` on. -/
def rest (d : FastRpcDecoder) : Blob := d.content.drop d.pos

/-- The decoder `n` octets further on. -/
def moved (d : FastRpcDecoder) (n : Nat) : FastRpcDecoder := { d with pos := d.pos + n }

/-- `pos` is not beyond the end. -/
def Inside (d : FastRpcDecoder) : Prop := d.pos ≤ d.theEnd

theorem length_rest (d : FastRpcDecoder) : d.rest.length = d.theEnd - d.pos := List.length_drop

theorem rest_moved (d : FastRpcDecoder) (n : Nat) : (d.moved n).rest = d.rest.drop n :=
  List.drop_drop.symm

theorem moved_moved (d : FastRpcDecoder) (n k : Nat) : (d.moved n).moved k = d.moved (n + k) := by
  unfold moved
  rw [Nat.add_assoc]

theorem Inside.moved (h : d.Inside) {n : Nat} (hn : n ≤ d.rest.length) : (d.moved n).Inside := by
  rw [length_rest] at hn
  unfold Inside at h ⊢
  change d.pos + n ≤ d.theEnd
  omega

end FastRpcDecoder

namespace Decoding

open FastRpcDecoder Extent Keeping

variable {α β : Type} {d : FastRpcDecoder} {e e' : Extent} {post : α → Prop} {post' : β → Prop}

/-- The code comes to a result behind what its extent says, or raises an exception inside. -/
def Runs (x : Decoding α) (e : Extent) (post : α → Prop) (d : FastRpcDecoder) : Prop :=
  (∃ a n, e = .go n ∧ x d = (.ok a, d.moved n) ∧ post a) ∨
    ∃ ex n, x d = (.raise ex, d.moved n) ∧ n ≤ d.rest.length

theorem Runs.throw (e : Extent) (ex : Exception) : Runs (throw ex : Decoding α) e post d :=
  .inr ⟨ex, 0, rfl, Nat.zero_le _⟩

theorem Runs.pure {a : α} (h : post a) : Runs (Pure.pure a) (.go 0) post d :=
  .inl ⟨a, 0, rfl, rfl, h⟩

variable {x : Decoding α} {empty n : Nat} {c : UInt8} {l : Blob} {accepted : UInt8 → Bool}
  {f : UInt8 → Blob → Extent} {read : UInt8 → Decoding α}

/-- One item after another. -/
theorem Runs.bind {f : α → Decoding β} {rest : Blob → Extent} (h : x.Runs e post d)
    (hfits : (e.andThen d.rest rest).Fits d.rest.length)
    (hnext : ∀ a n, e = .go n → n ≤ d.rest.length → post a →
      (rest (d.moved n).rest).Fits (d.moved n).rest.length →
      (f a).Runs (rest (d.moved n).rest) post' (d.moved n)) :
    (x >>= f).Runs (e.andThen d.rest rest) post' d := by
  obtain ⟨a, n, rfl, hx, hpost⟩ | ⟨ex, n, hx, hn⟩ := h
  · have hn : n ≤ d.rest.length := hfits.le_of_after
    have hrest : (d.moved n).rest = d.rest.drop n := d.rest_moved n
    have hlength : (d.moved n).rest.length = d.rest.length - n := by rw [hrest, List.length_drop]
    have hnext := hnext a n rfl hn hpost (by rw [hlength, hrest]; exact hfits.after hn)
    rw [hrest] at hnext
    obtain ⟨b, k, he, hf, hpost'⟩ | ⟨ex, k, hf, hk⟩ := hnext
    · refine .inl ⟨b, n + k, ?_, ?_, hpost'⟩
      · change (rest (d.rest.drop n)).after n = _
        rw [he]
        rfl
      · rw [bind_ok hx, hf, moved_moved]
    · refine .inr ⟨ex, n + k, ?_, ?_⟩
      · rw [bind_ok hx, hf, moved_moved]
      · omega
  · exact .inr ⟨ex, n, bind_raise hx, hn⟩

theorem Runs.congr {y : Decoding α} (h : y.Runs e post d) (heq : x d = y d) : x.Runs e post d := by
  unfold Runs
  rw [heq]
  exact h

theorem Runs.map {g : α → β} (h : x.Runs e post d) (hpost : ∀ a, post a → post' (g a)) :
    (x >>= fun a => Pure.pure (g a)).Runs e post' d := by
  obtain ⟨a, n, he, hx, ha⟩ | ⟨ex, n, hx, hn⟩ := h
  · exact .inl ⟨g a, n, he, bind_ok hx, hpost a ha⟩
  · exact .inr ⟨ex, n, bind_raise hx, hn⟩

theorem Runs.imp {post' : α → Prop} (h : x.Runs e post d) (hpost : ∀ a, post a → post' a) :
    x.Runs e post' d := by
  obtain ⟨a, n, he, hx, ha⟩ | hraise := h
  · exact .inl ⟨a, n, he, hx, hpost a ha⟩
  · exact .inr hraise

theorem runs_unlessAtEnd (ex : Exception) (h : d.rest ≠ [] → x.Runs e post d) :
    (unlessAtEnd ex x).Runs e post d := by
  by_cases hend : d.pos ≥ d.theEnd
  · refine .inr ⟨ex, 0, ?_, Nat.zero_le _⟩
    unfold unlessAtEnd
    rw [if_pos hend]
    rfl
  · have hne : d.rest ≠ [] := by
      intro hnil
      have hlength := d.length_rest
      rw [hnil] at hlength
      change 0 = _ at hlength
      omega
    have hx := h hne
    unfold Runs unlessAtEnd
    rw [if_neg hend]
    exact hx

theorem runs_unlessFarBeyond (k : Nat) (ex : Exception) (hin : d.Inside) (h : x.Runs e post d) :
    (unlessFarBeyond k ex x).Runs e post d := by
  have hend : ¬ d.pos > d.theEnd + k := by
    unfold Inside at hin
    omega
  unfold Runs unlessFarBeyond
  rw [if_neg hend]
  exact h

theorem runs_take (hin : d.Inside) (hn : n ≤ d.rest.length) :
    (take n).Runs (.go n) (· = d.rest.take n) d := by
  have hend : d.pos + n ≤ d.theEnd := by
    rw [d.length_rest] at hn
    unfold Inside at hin
    omega
  refine .inl ⟨_, n, rfl, ?_, rfl⟩
  unfold Decoding.take lift FastRpcDecoder.take
  dsimp only
  rw [if_pos hend]
  rfl

theorem peek_call (h : d.rest = c :: l) : d.peek = .ok c := by
  have hget : d.content[d.pos]? = some c := by
    have h0 := congrArg (fun l => l[0]?) h
    simpa [FastRpcDecoder.rest] using h0
  unfold FastRpcDecoder.peek
  rw [hget]
  rfl

theorem next_eq (h : d.rest = c :: l) : next d = (.ok c, d.moved 1) := by
  unfold next lift FastRpcDecoder.next
  rw [peek_call h]
  rfl

theorem runs_next (h : d.rest = c :: l) : next.Runs (.go 1) (· = c) d :=
  .inl ⟨c, 1, rfl, next_eq h, rfl⟩

theorem readType_eq (accepted : UInt8 → Bool) (format_type : String) (h : d.rest = c :: l) :
    readType accepted format_type d =
      if accepted c then (.ok c, d.moved 1)
      else (.raise (.invalidFormatException format_type (createNumber c)), d.moved 1) := by
  refine (bind_ok (next_eq h)).trans ?_
  split <;> rfl

/-- A type octet, and what is read behind it. -/
theorem runs_typed (format_type : String) (hin : d.Inside)
    (hfits : (typed empty accepted f d.rest).Fits d.rest.length) (hne : d.rest ≠ [])
    (hread : ∀ type, accepted type → d.rest = type :: (d.moved 1).rest → (d.moved 1).Inside →
      (f type (d.moved 1).rest).Fits (d.moved 1).rest.length →
      (read type).Runs (f type (d.moved 1).rest) post (d.moved 1)) :
    (readType accepted format_type >>= read).Runs (typed empty accepted f d.rest) post d := by
  obtain ⟨c, l, hrest⟩ := List.exists_cons_of_ne_nil hne
  have hlength : 1 ≤ d.rest.length := by
    rw [hrest, List.length_cons]
    omega
  have htype := readType_eq accepted format_type hrest
  by_cases haccepted : accepted c = true
  · rw [if_pos haccepted] at htype
    have hextent : typed empty accepted f d.rest = (go 1).andThen d.rest (f c) := by
      rw [hrest]
      exact if_pos haccepted
    rw [hextent] at hfits ⊢
    have hruns : (readType accepted format_type).Runs (.go 1) (· = c) d :=
      .inl ⟨c, 1, rfl, htype, rfl⟩
    refine hruns.bind hfits ?_
    rintro a n hn hle rfl hrestfits
    cases hn
    have hmoved : d.rest = a :: (d.moved 1).rest := by
      rw [d.rest_moved, hrest]
      rfl
    exact hread a haccepted hmoved (hin.moved hle) hrestfits
  · rw [if_neg haccepted] at htype
    exact .inr ⟨_, 1, bind_raise htype, hlength⟩

/-- A check of the right way round stands in front of a type octet. -/
theorem runs_checked (ex : Exception) (format_type : String) (hin : d.Inside)
    (hfits : (typed empty accepted f d.rest).Fits d.rest.length)
    (hread : ∀ type, accepted type → d.rest = type :: (d.moved 1).rest → (d.moved 1).Inside →
      (f type (d.moved 1).rest).Fits (d.moved 1).rest.length →
      (read type).Runs (f type (d.moved 1).rest) post (d.moved 1)) :
    (unlessAtEnd ex (readType accepted format_type >>= read)).Runs
      (typed empty accepted f d.rest) post d :=
  runs_unlessAtEnd ex fun hne => runs_typed format_type hin hfits hne hread

/-- A check of the wrong way round stands there: an octet has to be read. -/
theorem runs_unchecked (k : Nat) (ex : Exception) (format_type : String) (hin : d.Inside)
    (hfits : (typed 1 accepted f d.rest).Fits d.rest.length)
    (hread : ∀ type, accepted type → d.rest = type :: (d.moved 1).rest → (d.moved 1).Inside →
      (f type (d.moved 1).rest).Fits (d.moved 1).rest.length →
      (read type).Runs (f type (d.moved 1).rest) post (d.moved 1)) :
    (unlessFarBeyond k ex (readType accepted format_type >>= read)).Runs
      (typed 1 accepted f d.rest) post d := by
  refine runs_unlessFarBeyond k ex hin (runs_typed format_type hin hfits ?_ hread)
  intro hnil
  rw [hnil] at hfits
  exact absurd (show 1 ≤ 0 from hfits) (by decide)

/-- The octets of a length are there, and not too many. -/
theorem runs_readGenLength (hin : d.Inside)
    (hfits : (genLength (n + d.length_add)).Fits d.rest.length) :
    (readGenLength n).Runs (genLength (n + d.length_add))
      (fun length => length.toNat = leValue (d.rest.take (n + d.length_add))) d := by
  unfold genLength at hfits ⊢
  by_cases hlong : n + d.length_add > 8
  · rw [if_pos hlong] at hfits
    exact hfits.elim
  · rw [if_neg hlong] at hfits ⊢
    have hend : d.pos + (n + d.length_add) ≤ d.theEnd := by
      change n + d.length_add ≤ d.rest.length at hfits
      rw [d.length_rest] at hfits
      unfold Inside at hin
      omega
    refine .inl ⟨.ofNat (leValue (d.rest.take (n + d.length_add))), _, rfl, ?_, ?_⟩
    · unfold readGenLength lift FastRpcDecoder.readGenLength FastRpcDecoder.take
      dsimp only
      rw [if_neg (by omega), if_neg hlong, if_pos hend]
      rfl
    · dsimp only
      rw [UInt64.toNat_ofNat']
      apply Nat.mod_eq_of_lt
      have hlt := leValue_lt (d.rest.take (n + d.length_add))
      have hle : (d.rest.take (n + d.length_add)).length ≤ 8 := by
        rw [List.length_take]
        omega
      calc leValue (d.rest.take (n + d.length_add)) < _ := hlt
        _ ≤ 256 ^ 8 := Nat.pow_le_pow_right (by decide) hle
        _ = 2 ^ 64 := by decide

end Decoding

end Drt
