import Drt.Core.Parse.Varint

/-!
# Sequences of typed writes, read back

A pair of a write and its matching read is an `Item`; the matching is part of
the pair. Reading item after item consumes exactly the octets written for them,
and a buffer cut short anywhere ends in the end-of-data exception of the item
the cut falls into.
-/

open List Outcome

namespace Drt

open Bytes Mem BinaryWriter

/-- A typed write with its argument. -/
inductive WriteOp where
  | nat8 (value : UInt8)
  | nat16 (value : UInt16)
  | nat32 (value : UInt32)
  | nat64 (value : UInt64)
  | le8 (value : UInt8)
  | le16 (value : UInt16)
  | le32 (value : UInt32)
  | le64 (value : UInt64)
  | be8 (value : UInt8)
  | be16 (value : UInt16)
  | be32 (value : UInt32)
  | be64 (value : UInt64)
  | bytes (data : List UInt8)
  | varBlob (data : List UInt8)
  deriving DecidableEq, Repr

/-- A typed read with its argument. -/
inductive ReadOp where
  | nat8
  | nat16
  | nat32
  | nat64
  | le8
  | le16
  | le32
  | le64
  | be8
  | be16
  | be32
  | be64
  | bytes (count : Nat)
  | varBlob (max_size : Nat)
  deriving DecidableEq, Repr

/-- What a typed read returns. -/
inductive Value where
  | u8 (value : UInt8)
  | u16 (value : UInt16)
  | u32 (value : UInt32)
  | u64 (value : UInt64)
  | blob (data : List UInt8)
  deriving DecidableEq, Repr

/-- The value a write is given. -/
def WriteOp.value : WriteOp → Value
  | .nat8 v | .le8 v | .be8 v => .u8 v
  | .nat16 v | .le16 v | .be16 v => .u16 v
  | .nat32 v | .le32 v | .be32 v => .u32 v
  | .nat64 v | .le64 v | .be64 v => .u64 v
  | .bytes data | .varBlob data => .blob data

/-- Call the writer method. -/
def WriteOp.write {W : Type} [BinaryWriter W] (sex : Sex) (op : WriteOp) (w : W)
    (value_name : String) : Call W :=
  match op with
  | .nat8 v => writeNat8 w v value_name
  | .nat16 v => writeNat16 sex w v value_name
  | .nat32 v => writeNat32 sex w v value_name
  | .nat64 v => writeNat64 sex w v value_name
  | .le8 v => writeLe8 w v value_name
  | .le16 v => writeLe16 w v value_name
  | .le32 v => writeLe32 w v value_name
  | .le64 v => writeLe64 w v value_name
  | .be8 v => writeBe8 w v value_name
  | .be16 v => writeBe16 w v value_name
  | .be32 v => writeBe32 w v value_name
  | .be64 v => writeBe64 w v value_name
  | .bytes data => writeBytes w data value_name
  | .varBlob data => writeVarBlob w data value_name

/-- Call the reader method. -/
def ReadOp.read (sex : Sex) (op : ReadOp) (r : BinaryMemReader) (value_name : String) :
    Call (Value × BinaryMemReader) :=
  match op with
  | .nat8 => do let (v, r) ← r.readNat8 value_name; return (.u8 v, r)
  | .nat16 => do let (v, r) ← r.readNat16 sex value_name; return (.u16 v, r)
  | .nat32 => do let (v, r) ← r.readNat32 sex value_name; return (.u32 v, r)
  | .nat64 => do let (v, r) ← r.readNat64 sex value_name; return (.u64 v, r)
  | .le8 => do let (v, r) ← r.readLe8 value_name; return (.u8 v, r)
  | .le16 => do let (v, r) ← r.readLe16 value_name; return (.u16 v, r)
  | .le32 => do let (v, r) ← r.readLe32 value_name; return (.u32 v, r)
  | .le64 => do let (v, r) ← r.readLe64 value_name; return (.u64 v, r)
  | .be8 => do let (v, r) ← r.readBe8 value_name; return (.u8 v, r)
  | .be16 => do let (v, r) ← r.readBe16 value_name; return (.u16 v, r)
  | .be32 => do let (v, r) ← r.readBe32 value_name; return (.u32 v, r)
  | .be64 => do let (v, r) ← r.readBe64 value_name; return (.u64 v, r)
  | .bytes count => do let (v, r) ← r.readBytes count value_name; return (.blob v, r)
  | .varBlob max_size => do let (v, r) ← r.readVarBlob max_size value_name; return (.blob v, r)

/-- The read asks for what the write has stored. A blob is below `2^60` octets,
the largest size a varint can be read back from, and within the reader's own bound. -/
def WriteOp.Matches : WriteOp → ReadOp → Prop
  | .nat8 _, .nat8 | .nat16 _, .nat16 | .nat32 _, .nat32 | .nat64 _, .nat64 => True
  | .le8 _, .le8 | .le16 _, .le16 | .le32 _, .le32 | .le64 _, .le64 => True
  | .be8 _, .be8 | .be16 _, .be16 | .be32 _, .be32 | .be64 _, .be64 => True
  | .bytes data, .bytes count => count = data.length
  | .varBlob data, .varBlob max_size => data.length < 2 ^ 60 ∧ data.length ≤ max_size
  | _, _ => False

/-- A write and its matching read, each with the name it gives the value. -/
structure Item where
  write : WriteOp
  write_name : String
  read : ReadOp
  read_name : String
  /-- The read is the counterpart of the write. -/
  matched : write.Matches read

/-- The octets a write produces. -/
def WriteOp.octets (sex : Sex) : WriteOp → List UInt8
  | .nat8 v | .le8 v | .be8 v => [v]
  | .nat16 v => hostBytes sex 2 v.toNat
  | .nat32 v => hostBytes sex 4 v.toNat
  | .nat64 v => hostBytes sex 8 v.toNat
  | .le16 v => leBytes 2 v.toNat
  | .le32 v => leBytes 4 v.toNat
  | .le64 v => leBytes 8 v.toNat
  | .be16 v => (leBytes 2 v.toNat).reverse
  | .be32 v => (leBytes 4 v.toNat).reverse
  | .be64 v => (leBytes 8 v.toNat).reverse
  | .bytes data => data
  | .varBlob data => varint data.length ++ data

/-- The octets of a sequence of items. -/
def octetsOf (sex : Sex) (items : List Item) : List UInt8 :=
  items.flatMap fun item => item.write.octets sex

/-- Perform the writes of the items in order. -/
def writeAll {W : Type} [BinaryWriter W] (sex : Sex) (w : W) : List Item → Call W
  | [] => .ok w
  | item :: items => do
    let w ← item.write.write sex w item.write_name
    writeAll sex w items

/-- Perform the reads of the items in order: the values returned, and how the
sequence of calls ended. -/
def readAll (sex : Sex) (r : BinaryMemReader) : List Item → List Value × Call BinaryMemReader
  | [] => ([], .ok r)
  | item :: items =>
    match item.read.read sex r item.read_name with
    | .ok (v, r) => ((v :: (readAll sex r items).1), (readAll sex r items).2)
    | .raise e => ([], .raise e)
    | .fault => ([], .fault)
    | .outOfFuel => ([], .outOfFuel)

open BinaryMemReader in
/-- A matched read reads the octets of its write. -/
theorem Item.reads (sex : Sex) (item : Item) :
    Reads (fun r => item.read.read sex r item.read_name) (item.write.octets sex)
      item.write.value item.read_name := by
  obtain ⟨write, write_name, read, value_name, h⟩ := item
  cases write with
  | nat8 v => cases read with
    | nat8 => exact (reads_octet v value_name).map Value.u8
    | _ => exact h.elim
  | nat16 v => cases read with
    | nat16 => exact (reads_nat16_word sex v value_name).map Value.u16
    | _ => exact h.elim
  | nat32 v => cases read with
    | nat32 => exact (reads_nat32_word sex v value_name).map Value.u32
    | _ => exact h.elim
  | nat64 v => cases read with
    | nat64 => exact (reads_nat64_word sex v value_name).map Value.u64
    | _ => exact h.elim
  | le8 v => cases read with
    | le8 => exact (reads_octet v value_name).map Value.u8
    | _ => exact h.elim
  | le16 v => cases read with
    | le16 => exact (reads_le16_word v value_name).map Value.u16
    | _ => exact h.elim
  | le32 v => cases read with
    | le32 => exact (reads_le32_word v value_name).map Value.u32
    | _ => exact h.elim
  | le64 v => cases read with
    | le64 => exact (reads_le64_word v value_name).map Value.u64
    | _ => exact h.elim
  | be8 v => cases read with
    | be8 => exact (reads_octet v value_name).map Value.u8
    | _ => exact h.elim
  | be16 v => cases read with
    | be16 => exact (reads_be16_word v value_name).map Value.u16
    | _ => exact h.elim
  | be32 v => cases read with
    | be32 => exact (reads_be32_word v value_name).map Value.u32
    | _ => exact h.elim
  | be64 v => cases read with
    | be64 => exact (reads_be64_word v value_name).map Value.u64
    | _ => exact h.elim
  | bytes data => cases read with
    | bytes count =>
      have hc : count = data.length := h
      subst hc
      exact (reads_bytes data value_name).map Value.blob
    | _ => exact h.elim
  | varBlob data => cases read with
    | varBlob max_size => exact (reads_varBlob h.1 h.2 value_name).map Value.blob
    | _ => exact h.elim

/-- Every octet of the items is there: all values come back and nothing is left. -/
theorem readAll_octetsOf (sex : Sex) (items : List Item) (passed rest : List UInt8) :
    readAll sex ⟨passed, octetsOf sex items ++ rest⟩ items =
      (items.map fun item => item.write.value,
        .ok ⟨(octetsOf sex items).reverse ++ passed, rest⟩) := by
  induction items generalizing passed with
  | nil => rfl
  | cons item items ih =>
    have hread := (item.reads sex).full passed (octetsOf sex items ++ rest)
    simp only [octetsOf, flatMap_cons, append_assoc] at hread ih ⊢
    simp only [readAll, hread, ih, map_cons, reverse_append, append_assoc]

/-- A buffer that ends inside the octets of the items: the reads before the cut
return their values and the read at the cut reports the end of data. -/
theorem readAll_short (sex : Sex) (items : List Item) (passed pre : List UInt8)
    (hp : pre <+: octetsOf sex items) (hl : pre.length < (octetsOf sex items).length) :
    ∃ (n : Nat) (h : n < items.length), readAll sex ⟨passed, pre⟩ items =
      ((items.take n).map fun item => item.write.value,
        .raise (.endOfDataException "byte" items[n].read_name)) := by
  induction items generalizing passed pre with
  | nil => simp [octetsOf] at hl
  | cons item items ih =>
    have hcons : octetsOf sex (item :: items) = item.write.octets sex ++ octetsOf sex items := rfl
    rw [hcons] at hp hl
    rcases Nat.lt_or_ge pre.length (item.write.octets sex).length with hlt | hge
    · have hpi : pre <+: item.write.octets sex :=
        prefix_of_prefix_length_le hp (prefix_append _ _) hlt.le
      refine ⟨0, by simp, ?_⟩
      simp [readAll, (item.reads sex).short passed pre hpi hlt]
    · obtain ⟨q, rfl⟩ := prefix_of_prefix_length_le (prefix_append _ _) hp hge
      have hq : q <+: octetsOf sex items := (prefix_append_right_inj _).mp hp
      have hql : q.length < (octetsOf sex items).length := by simpa using hl
      obtain ⟨n, hn, he⟩ := ih ((item.write.octets sex).reverse ++ passed) q hq hql
      refine ⟨n + 1, by simpa using hn, ?_⟩
      simp [readAll, (item.reads sex).full passed q, he]

/-- Hand over several runs of octets, one `writeDirect` for each. -/
def writeChunks {W : Type} [BinaryWriter W] (w : W) (value_name : String) :
    List (List UInt8) → Call W
  | [] => .ok w
  | chunk :: chunks => do
    let w ← writeDirect w chunk value_name
    writeChunks w value_name chunks

theorem writeChunks_one {W : Type} [BinaryWriter W] (w : W) (value_name : String)
    (chunk : List UInt8) : writeChunks w value_name [chunk] = writeDirect w chunk value_name := by
  simp only [writeChunks]
  cases writeDirect w chunk value_name <;> rfl

/-- A typed write hands over its octets, a blob in two runs and all else in one. -/
theorem Item.write_chunks (sex : Sex) (item : Item) : ∃ chunks : List (List UInt8),
    chunks.flatten = item.write.octets sex ∧
    ∀ {W : Type} [BinaryWriter W] (w : W),
      item.write.write sex w item.write_name = writeChunks w item.write_name chunks := by
  obtain ⟨write, write_name, read, value_name, h⟩ := item
  cases write with
  | varBlob data =>
    refine ⟨[varint data.length, data], by simp [WriteOp.octets], ?_⟩
    intro W _ w
    have hlen : data.length < 2 ^ 60 := by
      cases read with
      | varBlob max_size => exact h.1
      | _ => exact h.elim
    have hsize : (UInt64.ofNat data.length).toNat = data.length :=
      UInt64.toNat_ofNat_of_lt' (by simp only [UInt64.size]; omega)
    have hvar : varintOctets 9 data.length = .ok (varint data.length) :=
      varintOctets_eq (by omega)
    simp only [WriteOp.write, writeVarBlob, writeVarint64, writeBytes, hsize, hvar,
      ok_bind, writeChunks]
    cases writeDirect w (varint data.length) write_name with
    | ok w => exact (writeChunks_one w write_name data).symm
    | _ => rfl
  | le16 v =>
    exact ⟨[leBytes 2 v.toNat], by simp [WriteOp.octets], fun w => by
      rw [writeChunks_one, WriteOp.write, writeLe16, octets16]⟩
  | le32 v =>
    exact ⟨[leBytes 4 v.toNat], by simp [WriteOp.octets], fun w => by
      rw [writeChunks_one, WriteOp.write, writeLe32, octets32]⟩
  | le64 v =>
    exact ⟨[leBytes 8 v.toNat], by simp [WriteOp.octets], fun w => by
      rw [writeChunks_one, WriteOp.write, writeLe64, octets64]⟩
  | be16 v =>
    exact ⟨[(leBytes 2 v.toNat).reverse], by simp [WriteOp.octets], fun w => by
      rw [writeChunks_one, WriteOp.write, writeBe16, ← octets16]
      rfl⟩
  | be32 v =>
    exact ⟨[(leBytes 4 v.toNat).reverse], by simp [WriteOp.octets], fun w => by
      rw [writeChunks_one, WriteOp.write, writeBe32, ← octets32]
      rfl⟩
  | be64 v =>
    exact ⟨[(leBytes 8 v.toNat).reverse], by simp [WriteOp.octets], fun w => by
      rw [writeChunks_one, WriteOp.write, writeBe64, ← octets64]
      rfl⟩
  | nat8 v | le8 v | be8 v =>
    exact ⟨[[v]], by simp [WriteOp.octets], fun w => (writeChunks_one w _ _).symm⟩
  | nat16 v =>
    exact ⟨[hostBytes sex 2 v.toNat], by simp [WriteOp.octets],
      fun w => (writeChunks_one w _ _).symm⟩
  | nat32 v =>
    exact ⟨[hostBytes sex 4 v.toNat], by simp [WriteOp.octets],
      fun w => (writeChunks_one w _ _).symm⟩
  | nat64 v =>
    exact ⟨[hostBytes sex 8 v.toNat], by simp [WriteOp.octets],
      fun w => (writeChunks_one w _ _).symm⟩
  | bytes data => exact ⟨[data], by simp [WriteOp.octets], fun w => (writeChunks_one w _ _).symm⟩

theorem writeChunks_blob (w : BinaryBlobWriter) (value_name : String)
    (chunks : List (List UInt8)) :
    writeChunks w value_name chunks = .ok ⟨w.content ++ chunks.flatten⟩ := by
  induction chunks generalizing w with
  | nil => simp [writeChunks]
  | cons chunk chunks ih =>
    have hw : writeDirect w chunk value_name = .ok ⟨w.content ++ chunk⟩ := rfl
    rw [writeChunks, hw, ok_bind, ih, flatten_cons, append_assoc]

/-- A memory writer takes the runs its area has room for. -/
theorem writeChunks_mem (w : BinaryMemWriter) (value_name : String)
    (chunks : List (List UInt8)) (h : chunks.flatten.length ≤ w.pendingSize) :
    writeChunks w value_name chunks =
      .ok ⟨w.before ++ chunks.flatten, w.pending.drop chunks.flatten.length⟩ := by
  induction chunks generalizing w with
  | nil => simp [writeChunks]
  | cons chunk chunks ih =>
    rw [flatten_cons, length_append, BinaryMemWriter.pendingSize] at h
    have hroom : ¬ w.pending.length < chunk.length := by omega
    have hw : writeDirect w chunk value_name =
        .ok ⟨w.before ++ chunk, w.pending.drop chunk.length⟩ := if_neg hroom
    rw [writeChunks, hw, ok_bind, ih]
    · simp [append_assoc, drop_drop]
    · simp only [BinaryMemWriter.pendingSize, length_drop]
      omega

theorem writeAll_blob (sex : Sex) (items : List Item) (w : BinaryBlobWriter) :
    writeAll sex w items = .ok ⟨w.content ++ octetsOf sex items⟩ := by
  induction items generalizing w with
  | nil => simp [writeAll, octetsOf]
  | cons item items ih =>
    obtain ⟨chunks, hflat, hw⟩ := item.write_chunks sex
    rw [writeAll, hw, writeChunks_blob, hflat, ok_bind, ih]
    simp [octetsOf, append_assoc]

/-- A memory writer with enough room stores the octets of the items. -/
theorem writeAll_mem (sex : Sex) (items : List Item) (w : BinaryMemWriter)
    (h : (octetsOf sex items).length ≤ w.pendingSize) :
    writeAll sex w items =
      .ok ⟨w.before ++ octetsOf sex items, w.pending.drop (octetsOf sex items).length⟩ := by
  induction items generalizing w with
  | nil => simp [writeAll, octetsOf]
  | cons item items ih =>
    obtain ⟨chunks, hflat, hw⟩ := item.write_chunks sex
    have hcons : octetsOf sex (item :: items) = item.write.octets sex ++ octetsOf sex items := rfl
    rw [hcons, length_append] at h
    rw [writeAll, hw, writeChunks_mem, hflat, ok_bind, ih, hcons]
    · simp [append_assoc, drop_drop]
    · simp only [BinaryMemWriter.pendingSize, length_drop] at h ⊢
      omega
    · rw [hflat]
      omega

/-- Typed writes and matching reads are inverse on whole sequences. Either writer
produces the same octets after whatever it already holds. A reader over exactly
these octets returns the values written and is at its end; over any shorter
buffer it returns the values in front of the cut and then raises the end-of-data
exception, so no read ever leaves the buffer. -/
theorem readAll_writeAll (sex : Sex) (items : List Item) : ∃ octets : List UInt8,
    (∀ w : BinaryBlobWriter, writeAll sex w items = .ok ⟨w.content ++ octets⟩) ∧
    (∀ w : BinaryMemWriter, octets.length ≤ w.pendingSize →
      writeAll sex w items = .ok ⟨w.before ++ octets, w.pending.drop octets.length⟩) ∧
    (∃ r, readAll sex (.ofBlob octets) items =
      (items.map fun item => item.write.value, .ok r) ∧ r.isEnd = true) ∧
    ∀ k < octets.length, ∃ (n : Nat) (h : n < items.length),
      readAll sex (.ofBlob (octets.take k)) items =
        ((items.take n).map fun item => item.write.value,
          .raise (.endOfDataException "byte" items[n].read_name)) := by
  refine ⟨octetsOf sex items, writeAll_blob sex items, writeAll_mem sex items, ?_, ?_⟩
  · have hread := readAll_octetsOf sex items [] []
    rw [append_nil] at hread
    exact ⟨_, hread, rfl⟩
  · intro k hk
    refine readAll_short sex items [] _ (List.take_prefix k _) ?_
    rw [length_take]
    omega

/-- Integers of both orders and of the host's, octets, and two blobs, one of them empty. -/
def mixedItems : List Item := [
  ⟨.be16 0x4452, "magic", .be16, "magic", trivial⟩,
  ⟨.le32 70000, "size", .le32, "size", trivial⟩,
  ⟨.bytes [1, 2, 3], "padding", .bytes 3, "padding", rfl⟩,
  ⟨.varBlob (List.replicate 300 7), "data", .varBlob 512, "data",
    ⟨List.length_replicate.trans_lt (by decide), List.length_replicate.trans_le (by decide)⟩⟩,
  ⟨.nat64 1700000000, "time", .nat64, "stamp", trivial⟩,
  ⟨.varBlob [], "note", .varBlob 0, "note", ⟨by decide, by decide⟩⟩]

/-- The values come back. Without the last octet one of the reads raises an exception. -/
theorem readAll_mixedItems : ∃ octets : List UInt8,
    writeAll .le (⟨[]⟩ : BinaryBlobWriter) mixedItems = .ok ⟨octets⟩ ∧
      (∃ r, readAll .le (.ofBlob octets) mixedItems =
        ([.u16 0x4452, .u32 70000, .blob [1, 2, 3], .blob (List.replicate 300 7), .u64 1700000000,
          .blob []], .ok r) ∧ r.isEnd = true) ∧
      ∃ (n : Nat) (h : n < mixedItems.length),
        (readAll .le (.ofBlob (octets.take (octets.length - 1))) mixedItems).2 =
          .raise (.endOfDataException "byte" mixedItems[n].read_name) := by
  obtain ⟨octets, hblob, -, hread, hshort⟩ := readAll_writeAll .le mixedItems
  have hwrite : writeAll .le (⟨[]⟩ : BinaryBlobWriter) mixedItems = .ok ⟨octets⟩ := hblob ⟨[]⟩
  have hpos : 0 < octets.length := by
    rw [writeAll_blob] at hwrite
    obtain rfl : octetsOf .le mixedItems = octets := by cases hwrite; rfl
    exact length_pos_of_ne_nil (cons_ne_nil _ _)
  obtain ⟨n, hn, hraise⟩ := hshort (octets.length - 1) (by omega)
  exact ⟨octets, hwrite, hread, n, hn, by rw [hraise]⟩

end Drt
