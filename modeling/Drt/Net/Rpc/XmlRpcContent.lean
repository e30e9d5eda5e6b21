import Drt.Net.Rpc.XmlRpcDecoder
import Drt.Net.Rpc.XmlRpcEncoder

/-!
# The content of XML-RPC elements

What the encoder writes for a number and for a string has no "<", and the decoder turns
it back. The three replacements of `writeString` come to one for each character, since
"&" is replaced first.
-/

open List

namespace Drt

open Outcome

theorem DrString.utf8_replace (s : DrString) (what : UInt8) (rep : Blob) :
    (s.replace what rep).utf8 = s.utf8.flatMap fun c => if c = what then rep else [c] := by
  unfold DrString.replace
  split_ifs with hmem
  · rfl
  · have hsame : s.utf8.flatMap (fun c => if c = what then rep else [c]) = s.utf8.flatMap pure := by
      refine flatMap_congr fun c hc => if_neg ?_
      rintro rfl
      exact hmem hc
    rw [hsame]
    exact (flatMap_pure_eq_map id s.utf8 |>.trans (map_id _)).symm

namespace XmlRpcEncoder

/-- What stands for a character in the content of an element. -/
def escape (c : UInt8) : Blob :=
  if c = 38 then ascii "&amp;" else if c = 60 then ascii "&lt;" else if c = 62 then ascii "&gt;" else [c]

theorem utf8_escaped (s : DrString) : (escaped s).utf8 = s.utf8.flatMap escape := by
  rw [escaped, DrString.utf8_replace, DrString.utf8_replace, DrString.utf8_replace,
    flatMap_assoc, flatMap_assoc]
  refine flatMap_congr fun c _ => ?_
  unfold escape
  split_ifs with hamp hlt hgt
  · decide
  · simp [hlt]
    decide
  · simp [hgt]
  · simp [hlt, hgt]

theorem escape_ne {c x : UInt8} (h : x ∈ escape c) : x ≠ 60 := by
  unfold escape at h
  split_ifs at h with hamp hlt hgt
  · revert x
    decide
  · revert x
    decide
  · revert x
    decide
  · rw [mem_singleton] at h
    exact h ▸ hlt

theorem length_escape_pos (c : UInt8) : 0 < (escape c).length := by
  unfold escape
  split_ifs
  · decide
  · decide
  · decide
  · exact Nat.one_pos

end XmlRpcEncoder

namespace XmlRpcDecoder

open XmlRpcEncoder

variable {fuel len : Nat} {out : Blob}

theorem convertFrom_reference {n : Blob} {o : UInt8} (rest : Blob)
    (href : reference (n ++ rest) = .ok (o, n.length))
    (hrest : convertFrom fuel len rest = .ok out) :
    convertFrom (fuel + 1) (len + (38 :: n).length) (38 :: (n ++ rest)) = .ok (o :: out) := by
  have hlen : len + (38 :: n).length = (len + n.length) + 1 := by
    rw [length_cons]
    omega
  rw [hlen, convertFrom, if_pos rfl, href, ok_bind]
  simp only [Nat.add_sub_cancel, drop_left]
  rw [hrest, ok_bind]

theorem convertFrom_char {c : UInt8} (rest : Blob) (hc : c ≠ 38)
    (hrest : convertFrom fuel len rest = .ok out) :
    convertFrom (fuel + 1) (len + 1) (c :: rest) = .ok (c :: out) := by
  rw [convertFrom, if_neg hc, hrest, ok_bind]

theorem reference_escape (rest : Blob) :
    reference (ascii "amp;" ++ rest) = .ok (38, 4) ∧ reference (ascii "lt;" ++ rest) = .ok (60, 3) ∧
      reference (ascii "gt;" ++ rest) = .ok (62, 3) := by
  have hlong : ¬ rest.length + 1 + 1 + 1 < 3 := by omega
  have hlonger : ¬ rest.length + 1 + 1 + 1 + 1 < 3 := by omega
  simp [reference, ascii, hlong, hlonger]

/-- The encoder writes a reference, or the character itself. -/
theorem convertFrom_escape (c : UInt8) (rest : Blob) (hrest : convertFrom fuel len rest = .ok out) :
    convertFrom (fuel + 1) (len + (escape c).length) (escape c ++ rest) = .ok (c :: out) := by
  obtain ⟨hampersand, hless, hgreater⟩ := reference_escape rest
  unfold escape
  split_ifs with hamp hlt hgt
  · subst hamp
    exact convertFrom_reference (n := ascii "amp;") rest hampersand hrest
  · subst hlt
    exact convertFrom_reference (n := ascii "lt;") rest hless hrest
  · subst hgt
    exact convertFrom_reference (n := ascii "gt;") rest hgreater hrest
  · exact convertFrom_char rest hamp hrest

/-- What the encoder writes for a string is turned back, whatever comes behind it. -/
theorem convertFrom_escaped (octets rest : Blob) (hfuel : (octets.flatMap escape).length ≤ fuel) :
    convertFrom fuel (octets.flatMap escape).length (octets.flatMap escape ++ rest) =
      .ok octets := by
  induction octets generalizing fuel with
  | nil => cases fuel <;> rfl
  | cons c octets ih =>
    have hpos := length_escape_pos c
    rw [flatMap_cons, length_append] at hfuel ⊢
    obtain ⟨fuel, rfl⟩ : ∃ n, fuel = n + 1 := ⟨fuel - 1, by omega⟩
    rw [append_assoc, Nat.add_comm (escape c).length]
    exact convertFrom_escape c _ (ih (by omega))

theorem convertToString_escaped (s : DrString) (rest : Blob) :
    convertToString ((escaped s).utf8 ++ rest) (escaped s).utf8.length = .ok (.bytes s.utf8) := by
  rw [utf8_escaped, convertToString, convertFrom_escaped _ _ (Nat.le_refl _), ok_bind]

theorem digitOf_eq {c : UInt8} (h : digitValue c < 10) : digitOf c = Int64.ofNat (digitValue c) := by
  have hdigit (d : Nat) (hd : d < 10) : digitOf (digitChar d) = Int64.ofNat d := by
    revert d
    decide
  have hc := hdigit _ h
  rwa [← eq_digitChar h] at hc

/-- The decoder adds up digits as they denote a number. -/
theorem foldl_digitOf {digits : Blob} (h : ∀ c ∈ digits, digitValue c < 10) (number : Nat) :
    digits.foldl (fun val c => val * 10 + digitOf c) (Int64.ofNat number) =
      Int64.ofNat (digits.foldl (fun number c => number * 10 + digitValue c) number) := by
  induction digits generalizing number with
  | nil => rfl
  | cons c digits ih =>
    obtain ⟨hc, h⟩ := forall_mem_cons.mp h
    have hstep : Int64.ofNat number * 10 + digitOf c = Int64.ofNat (number * 10 + digitValue c) := by
      rw [digitOf_eq hc, Int64.ofNat_add, Int64.ofNat_mul]
      rfl
    rw [foldl_cons, hstep, ih h, foldl_cons]

theorem head?_numberText_append (number : Nat) (rest : Blob) :
    (numberText 10 number ++ rest).head? ≠ some 45 := by
  cases htext : numberText 10 number with
  | nil => exact absurd htext (numberText_ne_nil 10 number)
  | cons c text =>
    have hminus : 45 ∉ numberText 10 number := minus_not_mem (by decide) (by decide) number
    rw [htext] at hminus
    intro h
    exact hminus (mem_cons.mpr (.inl (Option.some.inj h).symm))

theorem int64Of_numberText {number : Nat} (h : number < 2 ^ 64) (rest : Blob) :
    int64Of (numberText 10 number ++ rest) (numberText 10 number).length = Int64.ofNat number := by
  have hdigits : ∀ c ∈ numberText 10 number, digitValue c < 10 := fun c hc =>
    digitValue_lt_of_mem (by decide) (by decide) hc
  rw [int64Of, if_neg (head?_numberText_append number rest), take_left]
  have hfold := foldl_digitOf hdigits 0
  exact hfold.trans (congrArg Int64.ofNat (numeral_numberText (by decide) (by decide) h))

end XmlRpcDecoder

end Drt
