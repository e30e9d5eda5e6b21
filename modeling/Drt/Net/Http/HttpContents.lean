import Drt.Net.Http.HttpChunks
import Drt.Net.Http.HttpIsolation

/-!
# The two ways to read a whole body

`readFullContent` is there twice: one returns the body, the other one fills a blob of the
caller. The second one knows nothing of chunks.
-/

namespace Drt

open StreamBuffer

open Outcome

namespace StreamBuffer

/-- No more is handed over than was asked for. -/
theorem readData_length_le {s s' : StreamBuffer} {maxsize : Nat} {data : Blob}
    (hread : s.readData maxsize = .ok (data, s')) : data.length ≤ maxsize := by
  unfold readData at hread
  split_ifs at hread with hempty hnull hless
  · obtain ⟨s₁, -, hlast⟩ := bind_eq_ok.mp hread
    have hle := s₁.handle.length_read_le maxsize
    dsimp only at hlast
    split_ifs at hlast
    · obtain ⟨rfl, -⟩ := Prod.mk.inj (ok.inj hlast)
      exact hle
    · obtain ⟨rfl, -⟩ := Prod.mk.inj (ok.inj hlast)
      exact hle
  · obtain ⟨rfl, -⟩ := Prod.mk.inj (ok.inj hread)
    exact List.length_take_le _ _
  · obtain ⟨rfl, -⟩ := Prod.mk.inj (ok.inj hread)
    exact Nat.not_lt.mp hless

theorem readFull_eq (fuel : Nat) (s : StreamBuffer) (size : Nat) :
    readFull fuel s size = readFullFrom (fuel + 1) s [] size := by
  rw [readFull, readFullFrom, List.length_nil]
  by_cases hzero : size = 0
  · rw [if_pos hzero, if_neg (by omega)]
  · rw [if_neg hzero, if_pos (by omega), readExtendAdd, read, bind_assoc]
    rfl

end StreamBuffer

namespace HttpServer

/-- `readFullContent` into a blob of the caller: the new content of the blob. -/
def readFullContentInto (fuel : Nat) (h : HttpServer) : HttpCall (Blob × HttpServer) :=
  if h.req_body_size ≥ 0 then do
    let (content, h) ← h.onStream fun s =>
      StreamBuffer.readFull fuel s (sizeOf64 h.req_body_size)
    .ok (content, { h with req_body_size := h.req_body_size - content.length })
  else do
    let h ← h.onStream' (StreamBuffer.extendToEnd fuel)
    h.onStream fun s => .ok s.cleanGet

/-- The result of a call, or its exception, with the connection as it is then. -/
def atStream {α : Type} : HttpCall (α × HttpServer) → StreamCall (α × StreamBuffer)
  | .ok (a, h) => .ok (a, h.read_stream)
  | .raise (e, h) => .raise (e, h.read_stream)
  | .fault => .fault
  | .outOfFuel => .outOfFuel

/-- A call comes to this result or exception, with the connection like this. -/
def Comes {α : Type} (run : Nat → HttpCall (α × HttpServer))
    (o : StreamCall (α × StreamBuffer)) : Prop :=
  ∃ least, ∀ fuel, least ≤ fuel → atStream (run fuel) = o

/-- Both ways come to the same body, or the same exception, at the same place of the connection. -/
def SameContent (h : HttpServer) : Prop :=
  ∀ o, Comes (fun fuel => h.readFullContent fuel) o ↔
    Comes (fun fuel => h.readFullContentInto fuel) o

/-- Whatever is on the connection, both ways come to the same for a body with this announced size
and this encoding. -/
def SameBody (size : Int) (encoding : TransferEncoding) : Prop :=
  ∀ h : HttpServer, h.req_body_size = size → h.transfer_encoding = encoding → SameContent h

variable {α : Type} {h : HttpServer}

/-- What follows a call on the stream, as far as the connection is concerned. -/
theorem atStream_bind {β : Type} (h : HttpServer)
    (call : StreamBuffer → StreamCall (α × StreamBuffer))
    (next : α × HttpServer → HttpCall (β × HttpServer))
    (next' : α × StreamBuffer → StreamCall (β × StreamBuffer))
    (hnext : ∀ a s, call h.read_stream = .ok (a, s) →
      atStream (next (a, { h with read_stream := s })) = next' (a, s)) :
    atStream (h.onStream call >>= next) = (call h.read_stream >>= next') := by
  unfold onStream
  cases hcall : call h.read_stream with
  | ok r => exact hnext r.1 r.2 hcall
  | raise e => rfl
  | fault => rfl
  | outOfFuel => rfl

theorem atStream_readFullContentInto (hsize : h.req_body_size ≥ 0) (fuel : Nat) :
    atStream (h.readFullContentInto fuel) =
      readFull fuel h.read_stream (sizeOf64 h.req_body_size) := by
  rw [readFullContentInto, if_pos hsize]
  rw [atStream_bind h _ _ .ok fun a s _ => rfl]
  cases readFull fuel h.read_stream (sizeOf64 h.req_body_size) with
  | ok r | raise e | fault | outOfFuel => rfl

/-- Without chunks the loop over the parts of a body makes the steps of the loop of `readFull`. -/
theorem atStream_readParts {size : Nat} (hsize : size < 2 ^ 63) (fuel : Nat) {data : Blob}
    (hbasic : h.transfer_encoding = .TE_Basic) (hle : data.length ≤ size)
    (hleft : h.req_body_size = size - data.length) :
    atStream (readParts fuel h data) = readFullFrom fuel h.read_stream data size := by
  induction fuel generalizing h data with
  | zero => rfl
  | succ fuel ih =>
    rw [readParts, readFullFrom, nextPart]
    by_cases hend : data.length = size
    · have hzero : h.req_body_size = 0 := by omega
      have hencoding : ¬ h.transfer_encoding = .TE_Chunked := by
        rw [hbasic]
        decide
      rw [if_pos hzero, if_neg hencoding, if_neg (by omega)]
      rfl
    · have hmax : sizeOf64 h.req_body_size = size - data.length := by
        rw [hleft, sizeOf64]
        omega
      rw [if_neg (by omega), if_pos (by omega), ok_bind]
      simp only [if_true, hmax]
      refine atStream_bind h _ _ _ fun a s hcall => ?_
      obtain ⟨data', n⟩ := a
      obtain ⟨⟨add, s₁⟩, hread, hlast⟩ := bind_eq_ok.mp hcall
      obtain ⟨heq, rfl⟩ := Prod.mk.inj (ok.inj hlast)
      obtain ⟨rfl, rfl⟩ := Prod.mk.inj heq
      have hadd := readData_length_le hread
      refine ih (h := { h with read_stream := s₁, req_body_size := h.req_body_size - add.length })
        hbasic ?_ ?_
      · rw [List.length_append]
        omega
      · show h.req_body_size - add.length = size - (data ++ add).length
        rw [List.length_append]
        omega

/-- One bound more on one side makes no difference to what a call comes to. -/
theorem comes_iff_of_succ {run run' : Nat → HttpCall (α × HttpServer)}
    (hstep : ∀ fuel, atStream (run (fuel + 1)) = atStream (run' fuel))
    (o : StreamCall (α × StreamBuffer)) : Comes run o ↔ Comes run' o := by
  constructor
  · rintro ⟨least, hrun⟩
    exact ⟨least, fun fuel hfuel => (hstep fuel).symm.trans (hrun (fuel + 1) (by omega))⟩
  · rintro ⟨least, hrun⟩
    refine ⟨least + 1, fun fuel hfuel => ?_⟩
    obtain ⟨fuel, rfl⟩ : ∃ n, fuel = n + 1 := ⟨fuel - 1, by omega⟩
    exact (hstep fuel).trans (hrun fuel (by omega))

theorem comes_of_returns {run : Nat → HttpCall (α × HttpServer)} {a : α}
    (hrun : Returns run (a, h)) :
    Comes run (.ok (a, h.read_stream)) := by
  obtain ⟨least, hrun⟩ := hrun
  exact ⟨least, fun fuel hfuel => by rw [hrun fuel hfuel, atStream]⟩

theorem Comes.unique {run : Nat → HttpCall (α × HttpServer)} {o o' : StreamCall (α × StreamBuffer)}
    (h : Comes run o) (h' : Comes run o') : o = o' := by
  obtain ⟨least, hrun⟩ := h
  obtain ⟨least', hrun'⟩ := h'
  exact (hrun (max least least') (by omega)).symm.trans (hrun' (max least least') (by omega))

/-- Without chunks, or with a body that goes to the end of the connection, both ways come to the
same. -/
theorem sameContent_of_basic (hsize : h.req_body_size < 2 ^ 63)
    (hframing : h.transfer_encoding = .TE_Basic ∨ h.req_body_size < 0) : SameContent h := by
  by_cases hpos : h.req_body_size ≥ 0
  · have hbasic : h.transfer_encoding = .TE_Basic := by
      rcases hframing with hbasic | hneg
      · exact hbasic
      · exact absurd hneg (by omega)
    refine comes_iff_of_succ fun fuel => ?_
    have hnat : sizeOf64 h.req_body_size = h.req_body_size.toNat := by
      rw [sizeOf64]
      omega
    rw [atStream_readFullContentInto hpos, readFull_eq, hnat, readFullContent,
      if_pos hpos]
    exact atStream_readParts (by omega) _ hbasic (Nat.zero_le _) (by rw [List.length_nil]; omega)
  · intro o
    simp only [readFullContent, readFullContentInto, if_neg hpos]

/-- What stands on a connection behind the first of the chunks, up to the end of the body. -/
def lastChunk : Blob := ascii "\r\n" ++ (HttpClient.chunksText [] ++ [])

/-- Of a chunked body one way takes all of it, the other one only the first chunk. -/
theorem not_sameContent_of_chunked {part : Blob} (hsize : h.req_body_size = part.length)
    (hpart : part.length < 2 ^ 63) (hchunked : h.transfer_encoding = .TE_Chunked)
    (hholds : h.read_stream.Holds (part ++ lastChunk)) : ¬ SameContent h := by
  intro hsame
  obtain ⟨s₁, h₁, hbody⟩ := readParts_part hsize hpart hholds []
  have hnone : ∀ data ∈ ([] : List Blob), data.length < 2 ^ 63 := List.forall_mem_nil _
  obtain ⟨h₂, hrest, h₂'⟩ := readParts_chunks
    (h := { h with req_body_size := 0, read_stream := s₁ }) hnone rfl hchunked h₁ ([] ++ part)
  have hpos : h.req_body_size ≥ 0 := by omega
  have hall : Comes (fun fuel => h.readFullContent fuel)
      (.ok ([] ++ part ++ (([] : List Blob).takeWhile (· ≠ [])).flatten, h₂.read_stream)) := by
    refine comes_of_returns ((hbody _ hrest).congr fun fuel => ?_)
    rw [readFullContent, if_pos hpos]
  -- without the encoding the same size is read by both ways
  obtain ⟨h₃, hread, h₃'⟩ := readFullContent_length (h := { h with transfer_encoding := .TE_Basic })
    hsize rfl hpart hholds
  have hfirst : Comes (fun fuel => h.readFullContentInto fuel) (.ok (part, h₃.read_stream)) := by
    have hbasic := (sameContent_of_basic (h := { h with transfer_encoding := .TE_Basic })
      (show h.req_body_size < 2 ^ 63 by omega) (Or.inl rfl) _).mp (comes_of_returns hread)
    obtain ⟨least, hrun⟩ := hbasic
    refine ⟨least, fun fuel hfuel => ?_⟩
    rw [← hrun fuel hfuel, atStream_readFullContentInto hpos,
      atStream_readFullContentInto (h := { h with transfer_encoding := .TE_Basic }) hpos]
  have heq := ((hsame _).mp hall).unique hfirst
  have hstream : h₂.read_stream = h₃.read_stream := (Prod.mk.inj (ok.inj heq)).2
  have hahead := h₂'.ahead.symm.trans ((congrArg ahead hstream).trans h₃'.ahead)
  exact absurd hahead (by decide)

/-- Both ways come to the same, whatever is on the connection, exactly for a body without chunks or
with a negative size. -/
theorem sameBody_iff {size : Int} (hsize : size < 2 ^ 63) (encoding : TransferEncoding) :
    SameBody size encoding ↔ encoding = .TE_Basic ∨ size < 0 := by
  constructor
  · intro hsame
    by_contra hnot
    obtain ⟨hchunked, hneg⟩ := not_or.mp hnot
    have hpart : (List.replicate size.toNat (0 : UInt8)).length = size.toNat :=
      List.length_replicate
    generalize List.replicate size.toNat (0 : UInt8) = part at hpart
    generalize hnew : { new (.new (.fresh (.every 1 (by decide)) (part ++ lastChunk))) with
      req_body_size := size, transfer_encoding := encoding } = h
    have hencoding : encoding = .TE_Chunked := by
      cases encoding with
      | TE_Basic => exact absurd rfl hchunked
      | TE_Chunked => rfl
    have hholds : h.read_stream.Holds (part ++ lastChunk) := by
      rw [← hnew]
      exact holds_new _ _
    have hsize' : h.req_body_size = size := by rw [← hnew]
    have hencoding' : h.transfer_encoding = encoding := by rw [← hnew]
    exact not_sameContent_of_chunked (by omega) (by omega) (hencoding'.trans hencoding) hholds
      (hsame h hsize' hencoding')
  · rintro hframing h rfl rfl
    exact sameContent_of_basic hsize hframing

/-- A body of three octets. -/
theorem sameBody_iff_three : SameBody 3 .TE_Basic ↔ (TransferEncoding.TE_Basic = .TE_Basic ∨
    (3 : Int) < 0) :=
  sameBody_iff (by decide) .TE_Basic

/-- A server with a request on its connection whose body comes in two chunks. -/
def twoChunks : HttpServer := served (ascii
  "PUT / HTTP/1.1\r\ntransfer-encoding: chunked\r\n\r\n3\r\nabc\r\n2\r\nde\r\n0\r\n\r\n")

/-- Of two chunks one way returns both, and the other one the first. -/
theorem not_sameContent_twoChunks :
    Returns (fun fuel => twoChunks.readRequest fuel) (firstRequest twoChunks) ∧
      (firstBody twoChunks).1 = ascii "abcde" ∧ ¬ SameContent (firstRequest twoChunks).2 := by
  have hbody : (firstBody twoChunks).1 = ascii "abcde" := by decide
  refine ⟨.of_add 10 fun fuel => rfl, hbody, fun hsame => ?_⟩
  have hall : Returns (fun fuel => (firstRequest twoChunks).2.readFullContent fuel)
      (firstBody twoChunks) := .of_add 10 fun fuel => rfl
  let part := ((firstRequest twoChunks).2.readFullContentInto 10).getD ([], twoChunks)
  have hfirst : Returns (fun fuel => (firstRequest twoChunks).2.readFullContentInto fuel) part :=
    .of_add 10 fun fuel => rfl
  have hpart : part.1 = ascii "abc" := by decide
  have heq := ((hsame _).mp (comes_of_returns hall)).unique (comes_of_returns hfirst)
  have hcontent : (firstBody twoChunks).1 = part.1 := (Prod.mk.inj (ok.inj heq)).1
  rw [hbody, hpart] at hcontent
  exact absurd hcontent (by decide)

end HttpServer

end Drt
