import Drt.Core.Parse.BinaryStream

/-!
# Single words, both ways

A fixed-width writer emits the base-256 digits of its value and the reader of
the same width and order turns any digits of that width back into their value.
Reading is stated once for all positions in a buffer: complete octets are
consumed exactly, and a proper prefix of them ends the data.
-/

namespace Drt

open Bytes Mem

/-- `read` turns the octets `chunk` into `v` wherever they stand, consumes just
them, and reports the end of data on every proper prefix of them. -/
structure Reads {α : Type} (read : BinaryMemReader → Call (α × BinaryMemReader))
    (chunk : List UInt8) (v : α) (value_name : String) : Prop where
  /-- All octets are there. -/
  full : ∀ passed rest, read ⟨passed, chunk ++ rest⟩ = .ok (v, ⟨chunk.reverse ++ passed, rest⟩)
  /-- The buffer ends early. -/
  short : ∀ passed pre, pre <+: chunk → pre.length < chunk.length →
    read ⟨passed, pre⟩ = .raise (.endOfDataException "byte" value_name)

/-- Post-processing the value does not change which octets are read. -/
theorem Reads.map {α β : Type} {read : BinaryMemReader → Call (α × BinaryMemReader)}
    {chunk : List UInt8} {v : α} {value_name : String} (h : Reads read chunk v value_name)
    (f : α → β) :
    Reads (fun r => do let (a, r) ← read r; return (f a, r)) chunk (f v) value_name where
  full passed rest := by simp [h.full]
  short passed pre hp hl := by simp [h.short passed pre hp hl]

/-- Two reads in a row read two chunks in a row. -/
theorem Reads.seq {α β : Type} {read : BinaryMemReader → Call (α × BinaryMemReader)}
    {c d : List UInt8} {v : α} {w : β} {value_name : String} (h : Reads read c v value_name)
    (next : α → BinaryMemReader → Call (β × BinaryMemReader))
    (hn : Reads (next v) d w value_name) :
    Reads (fun r => do let (a, r) ← read r; next a r) (c ++ d) w value_name where
  full passed rest := by
    simp [h.full, hn.full, List.append_assoc]
  short passed pre hp hl := by
    rcases Nat.lt_or_ge pre.length c.length with hlt | hge
    · have hpc : pre <+: c := List.prefix_of_prefix_length_le hp (List.prefix_append c d) hlt.le
      simp [h.short passed pre hpc hlt]
    · obtain ⟨q, rfl⟩ := List.prefix_of_prefix_length_le (List.prefix_append c d) hp hge
      have hq : q <+: d := (List.prefix_append_right_inj c).mp hp
      have hlen : q.length < d.length := by simpa using hl
      simp [h.full, hn.short _ q hq hlen]

namespace BinaryWriter

theorem octets16 (v : UInt16) : [v.toUInt8, (v >>> 8).toUInt8] = leBytes 2 v.toNat := by
  simp only [leBytes, List.cons.injEq, and_true]
  refine ⟨?_, ?_⟩ <;> apply UInt8.toNat_inj.mp <;> simp [Nat.shiftRight_eq_div_pow]

theorem octets32 (v : UInt32) : [v.toUInt8, (v >>> 8).toUInt8, (v >>> 16).toUInt8,
    (v >>> 24).toUInt8] = leBytes 4 v.toNat := by
  simp only [leBytes, Nat.div_div_eq_div_mul, List.cons.injEq, and_true]
  refine ⟨?_, ?_, ?_, ?_⟩ <;> apply UInt8.toNat_inj.mp <;> simp [Nat.shiftRight_eq_div_pow]

theorem octets64 (v : UInt64) : [v.toUInt8, (v >>> 8).toUInt8, (v >>> 16).toUInt8,
    (v >>> 24).toUInt8, (v >>> 32).toUInt8, (v >>> 40).toUInt8, (v >>> 48).toUInt8,
    (v >>> 56).toUInt8] = leBytes 8 v.toNat := by
  simp only [leBytes, Nat.div_div_eq_div_mul, List.cons.injEq, and_true]
  refine ⟨?_, ?_, ?_, ?_, ?_, ?_, ?_, ?_⟩ <;> apply UInt8.toNat_inj.mp <;>
    simp [Nat.shiftRight_eq_div_pow]

end BinaryWriter

namespace BinaryMemReader

variable {chunk passed rest : List UInt8} {count : Nat}

theorem take_append (h : chunk.length = count) (value_name : String) :
    (⟨passed, chunk ++ rest⟩ : BinaryMemReader).take count value_name =
      .ok ⟨chunk.reverse ++ passed, rest⟩ := by
  subst h
  simp [take, needBytes, advance]

theorem take_short {r : BinaryMemReader} (h : r.pending.length < count) (value_name : String) :
    r.take count value_name = .raise (.endOfDataException "byte" value_name) := by
  simp [take, needBytes, extendCache, h]

/-- A reader that starts by taking `count` octets fails on fewer. -/
theorem reads_of_take {α : Type} {v : α} {value_name : String}
    {body : BinaryMemReader → Call (α × BinaryMemReader)} (hlen : chunk.length = count)
    (hbody : ∀ passed rest, body ⟨chunk.reverse ++ passed, rest⟩ =
      .ok (v, ⟨chunk.reverse ++ passed, rest⟩)) :
    Reads (fun r => do let r ← r.take count value_name; body r) chunk v value_name where
  full passed rest := by
    simp [take_append hlen, hbody]
  short passed pre _ hl := by
    rw [hlen] at hl
    simp [take_short (r := ⟨passed, pre⟩) hl]

theorem copyBack_append (h : chunk.length = count) :
    (⟨chunk.reverse ++ passed, rest⟩ : BinaryMemReader).copyBack count = .ok chunk := by
  subst h
  simp [copyBack]

theorem reads_host {α : Type} (sex : Sex) (count : Nat) (mk : Nat → α) (value_name : String)
    (hlen : chunk.length = count) :
    Reads (fun r => do
      let r ← r.take count value_name
      let val ← r.copyBack count
      return (mk (hostValue sex val), r)) chunk (mk (hostValue sex chunk)) value_name := by
  refine reads_of_take hlen ?_
  intro passed rest
  simp [copyBack_append hlen]

theorem reads_octet (b : UInt8) (value_name : String) :
    Reads (fun r => r.readLe8 value_name) [b] b value_name :=
  reads_of_take rfl (by intro passed rest; simp [back])

theorem readLe16_value (a b : UInt8) :
    a.toUInt16 ||| b.toUInt16 <<< 8 = UInt16.ofNat (leValue [a, b]) := by
  have ha := a.toNat_lt
  have hlt : leValue [a, b] < UInt16.size := (leValue_lt [a, b]).trans_le (by simp [UInt16.size])
  apply UInt16.toNat_inj.mp
  rw [UInt16.toNat_ofNat_of_lt' hlt]
  simp only [UInt16.toNat_or, UInt16.toNat_shiftLeft, UInt8.toNat_toUInt16, UInt16.reduceToNat,
    Nat.reduceMod]
  simp (disch := omega) only [shiftLeft_mod, or_shiftLeft, leValue]
  omega

theorem readLe32_value (a b c d : UInt8) :
    a.toUInt32 ||| b.toUInt32 <<< 8 ||| c.toUInt32 <<< 16 ||| d.toUInt32 <<< 24 =
      UInt32.ofNat (leValue [a, b, c, d]) := by
  have ha := a.toNat_lt
  have hb := b.toNat_lt
  have hc := c.toNat_lt
  have hlt : leValue [a, b, c, d] < UInt32.size :=
    (leValue_lt [a, b, c, d]).trans_le (by simp [UInt32.size])
  apply UInt32.toNat_inj.mp
  rw [UInt32.toNat_ofNat_of_lt' hlt]
  simp only [UInt32.toNat_or, UInt32.toNat_shiftLeft, UInt8.toNat_toUInt32, UInt32.reduceToNat,
    Nat.reduceMod]
  simp (disch := omega) only [shiftLeft_mod, or_shiftLeft, leValue]
  omega

theorem readLe64_value (a b c d e f g h : UInt8) :
    a.toUInt64 ||| b.toUInt64 <<< 8 ||| c.toUInt64 <<< 16 ||| d.toUInt64 <<< 24 |||
      e.toUInt64 <<< 32 ||| f.toUInt64 <<< 40 ||| g.toUInt64 <<< 48 ||| h.toUInt64 <<< 56 =
      UInt64.ofNat (leValue [a, b, c, d, e, f, g, h]) := by
  have ha := a.toNat_lt
  have hb := b.toNat_lt
  have hc := c.toNat_lt
  have hd := d.toNat_lt
  have he := e.toNat_lt
  have hf := f.toNat_lt
  have hg := g.toNat_lt
  have hlt : leValue [a, b, c, d, e, f, g, h] < UInt64.size :=
    (leValue_lt [a, b, c, d, e, f, g, h]).trans_le (by simp [UInt64.size])
  apply UInt64.toNat_inj.mp
  rw [UInt64.toNat_ofNat_of_lt' hlt]
  simp only [UInt64.toNat_or, UInt64.toNat_shiftLeft, UInt8.toNat_toUInt64, UInt64.reduceToNat,
    Nat.reduceMod]
  simp (disch := omega) only [shiftLeft_mod, or_shiftLeft, leValue]
  omega

theorem reads_le16 (a b : UInt8) (value_name : String) :
    Reads (fun r => r.readLe16 value_name) [a, b] (UInt16.ofNat (leValue [a, b])) value_name :=
  reads_of_take rfl (by intro passed rest; simp [back, readLe16_value])

theorem reads_le32 (a b c d : UInt8) (value_name : String) :
    Reads (fun r => r.readLe32 value_name) [a, b, c, d] (UInt32.ofNat (leValue [a, b, c, d]))
      value_name :=
  reads_of_take rfl (by intro passed rest; simp [back, readLe32_value])

theorem reads_le64 (a b c d e f g h : UInt8) (value_name : String) :
    Reads (fun r => r.readLe64 value_name) [a, b, c, d, e, f, g, h]
      (UInt64.ofNat (leValue [a, b, c, d, e, f, g, h])) value_name :=
  reads_of_take rfl (by intro passed rest; simp [back, readLe64_value])

/-- The big-endian readers are the little-endian ones on reversed octets. -/
theorem reads_be16 (a b : UInt8) (value_name : String) :
    Reads (fun r => r.readBe16 value_name) [b, a] (UInt16.ofNat (leValue [a, b])) value_name :=
  reads_of_take rfl (by intro passed rest; simp [back, readLe16_value])

theorem reads_be32 (a b c d : UInt8) (value_name : String) :
    Reads (fun r => r.readBe32 value_name) [d, c, b, a] (UInt32.ofNat (leValue [a, b, c, d]))
      value_name :=
  reads_of_take rfl (by intro passed rest; simp [back, readLe32_value])

theorem reads_be64 (a b c d e f g h : UInt8) (value_name : String) :
    Reads (fun r => r.readBe64 value_name) [h, g, f, e, d, c, b, a]
      (UInt64.ofNat (leValue [a, b, c, d, e, f, g, h])) value_name :=
  reads_of_take rfl (by intro passed rest; simp [back, readLe64_value])

theorem reads_le16_word (v : UInt16) (value_name : String) :
    Reads (fun r => r.readLe16 value_name) (leBytes 2 v.toNat) v value_name := by
  have h := reads_le16 (UInt8.ofNat v.toNat) (UInt8.ofNat (v.toNat / 256)) value_name
  change Reads _ (leBytes 2 v.toNat) (UInt16.ofNat (leValue (leBytes 2 v.toNat))) _ at h
  rwa [leValue_leBytes v.toNat_lt, UInt16.ofNat_toNat] at h

theorem reads_le32_word (v : UInt32) (value_name : String) :
    Reads (fun r => r.readLe32 value_name) (leBytes 4 v.toNat) v value_name := by
  have h := reads_le32 (UInt8.ofNat v.toNat) (UInt8.ofNat (v.toNat / 256))
    (UInt8.ofNat (v.toNat / 256 / 256)) (UInt8.ofNat (v.toNat / 256 / 256 / 256)) value_name
  change Reads _ (leBytes 4 v.toNat) (UInt32.ofNat (leValue (leBytes 4 v.toNat))) _ at h
  rwa [leValue_leBytes v.toNat_lt, UInt32.ofNat_toNat] at h

theorem leBytes_eight (v : Nat) : ∃ a b c d e f g h, leBytes 8 v = [a, b, c, d, e, f, g, h] :=
  ⟨_, _, _, _, _, _, _, _, rfl⟩

theorem reads_le64_word (v : UInt64) (value_name : String) :
    Reads (fun r => r.readLe64 value_name) (leBytes 8 v.toNat) v value_name := by
  obtain ⟨a, b, c, d, e, f, g, h, hv⟩ := leBytes_eight v.toNat
  have hr := reads_le64 a b c d e f g h value_name
  rwa [← hv, leValue_leBytes v.toNat_lt, UInt64.ofNat_toNat] at hr

theorem reads_be16_word (v : UInt16) (value_name : String) :
    Reads (fun r => r.readBe16 value_name) (leBytes 2 v.toNat).reverse v value_name := by
  have h := reads_be16 (UInt8.ofNat v.toNat) (UInt8.ofNat (v.toNat / 256)) value_name
  change Reads _ (leBytes 2 v.toNat).reverse (UInt16.ofNat (leValue (leBytes 2 v.toNat))) _ at h
  rwa [leValue_leBytes v.toNat_lt, UInt16.ofNat_toNat] at h

theorem reads_be32_word (v : UInt32) (value_name : String) :
    Reads (fun r => r.readBe32 value_name) (leBytes 4 v.toNat).reverse v value_name := by
  have h := reads_be32 (UInt8.ofNat v.toNat) (UInt8.ofNat (v.toNat / 256))
    (UInt8.ofNat (v.toNat / 256 / 256)) (UInt8.ofNat (v.toNat / 256 / 256 / 256)) value_name
  change Reads _ (leBytes 4 v.toNat).reverse (UInt32.ofNat (leValue (leBytes 4 v.toNat))) _ at h
  rwa [leValue_leBytes v.toNat_lt, UInt32.ofNat_toNat] at h

theorem reads_be64_word (v : UInt64) (value_name : String) :
    Reads (fun r => r.readBe64 value_name) (leBytes 8 v.toNat).reverse v value_name := by
  obtain ⟨a, b, c, d, e, f, g, h, hv⟩ := leBytes_eight v.toNat
  have hr := reads_be64 a b c d e f g h value_name
  have hrev : (leBytes 8 v.toNat).reverse = [h, g, f, e, d, c, b, a] := by
    rw [hv]
    rfl
  rwa [← hrev, ← hv, leValue_leBytes v.toNat_lt, UInt64.ofNat_toNat] at hr

theorem reads_nat16_word (sex : Sex) (v : UInt16) (value_name : String) :
    Reads (fun r => r.readNat16 sex value_name) (hostBytes sex 2 v.toNat) v value_name := by
  have h := reads_host sex 2 UInt16.ofNat value_name (length_hostBytes sex 2 v.toNat)
  rwa [hostValue_hostBytes sex v.toNat_lt, UInt16.ofNat_toNat] at h

theorem reads_nat32_word (sex : Sex) (v : UInt32) (value_name : String) :
    Reads (fun r => r.readNat32 sex value_name) (hostBytes sex 4 v.toNat) v value_name := by
  have h := reads_host sex 4 UInt32.ofNat value_name (length_hostBytes sex 4 v.toNat)
  rwa [hostValue_hostBytes sex v.toNat_lt, UInt32.ofNat_toNat] at h

theorem reads_nat64_word (sex : Sex) (v : UInt64) (value_name : String) :
    Reads (fun r => r.readNat64 sex value_name) (hostBytes sex 8 v.toNat) v value_name := by
  have h := reads_host sex 8 UInt64.ofNat value_name (length_hostBytes sex 8 v.toNat)
  rwa [hostValue_hostBytes sex v.toNat_lt, UInt64.ofNat_toNat] at h

theorem reads_bytes (data : List UInt8) (value_name : String) :
    Reads (fun r => r.readBytes data.length value_name) data data value_name :=
  reads_of_take rfl (by intro passed rest; simp [copyBack_append rfl])

end BinaryMemReader

end Drt
