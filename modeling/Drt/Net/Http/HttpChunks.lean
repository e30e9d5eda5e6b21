import Drt.Net.Http.HttpRoundTrip

/-!
# Chunked bodies

The client writes each blob as one chunk. An empty blob makes a chunk of size zero,
which is the end of the body for the server.
-/

open List

namespace Drt

open StreamBuffer HttpClient

open Outcome

namespace HttpClient

/-- `partialBodyChunked` for each blob in turn. -/
def partialBodiesChunked (fuel : Nat) : HttpClient → List Blob → HttpClientCall HttpClient
  | h, [] => .ok h
  | h, data :: blobs => do
    let h ← h.partialBodyChunked fuel data
    partialBodiesChunked fuel h blobs

/-- A chunk as it is written. -/
def chunkText (data : Blob) : Blob :=
  numberText 16 data.length ++ ascii "\r\n" ++ data ++ ascii "\r\n"

/-- The chunks of a body and its end. -/
def chunksText (blobs : List Blob) : Blob := (blobs.map chunkText).flatten ++ ascii "0\r\n\r\n"

/-- Every blob is written as its chunk. -/
theorem partialBodiesChunked_returns (h : HttpClient) (blobs : List Blob) :
    ∃ h', Returns (fun fuel => partialBodiesChunked fuel h blobs) h' ∧
      h'.read_stream.handle.written =
        h.read_stream.handle.written ++ (blobs.map chunkText).flatten := by
  induction blobs generalizing h with
  | nil => exact ⟨h, .ok h, (append_nil _).symm⟩
  | cons data blobs ih =>
    obtain ⟨h₁, hsize, -, hwritten₁⟩ :=
      h.writeFull_returns (numberText 16 data.length ++ ascii "\r\n")
    obtain ⟨h₂, hdata, -, hwritten₂⟩ := h₁.writeFull_returns data
    obtain ⟨h₃, hend, -, hwritten₃⟩ := h₂.writeFull_returns (ascii "\r\n")
    obtain ⟨h', hrest, hwritten⟩ := ih h₃
    have hone : Returns (fun fuel => h.partialBodyChunked fuel data) h₃ :=
      hsize.bind (hdata.bind hend)
    refine ⟨h', hone.bind hrest, ?_⟩
    rw [hwritten, hwritten₃, hwritten₂, hwritten₁]
    simp only [map_cons, flatten_cons, chunkText, append_assoc]

/-- A request with a chunked body: its head, its chunks and their end. -/
def requestChunked (fuel : Nat) (h : HttpClient) (method uri : DrString)
    (headers : List (DrString × DrString)) (blobs : List Blob) : HttpClientCall HttpClient := do
  let h ← h.partialRequest fuel method uri headers
  let h ← h.partialStartBodyChunked fuel
  let h ← partialBodiesChunked fuel h blobs
  h.partialFinishBodyChunked fuel

/-- What a request with a chunked body writes. -/
theorem requestChunked_returns (h : HttpClient) {method : DrString} (uri : DrString)
    (headers : List (DrString × DrString)) (hmethod : method.utf8 ≠ [])
    (hzero : ∀ c ∈ method.utf8, c ≠ 0) (blobs : List Blob) :
    ∃ h', Returns (fun fuel => h.requestChunked fuel method uri headers blobs) h' ∧
      h'.read_stream.handle.written = h.read_stream.handle.written ++
        (HttpServer.headText method.utf8 uri.utf8
          ((h.hostHeader headers ++ headers ++ [(DrString.bytes (ascii "transfer-encoding"),
            DrString.bytes (ascii "chunked"))]).map headerEntry) ++ chunksText blobs) := by
  have htext := requestText_eq h uri headers hmethod hzero
    (DrString.bytes (ascii "transfer-encoding"), DrString.bytes (ascii "chunked"))
  have hline : headerLine (DrString.bytes (ascii "transfer-encoding"))
      (DrString.bytes (ascii "chunked")) ++ ascii "\r\n" =
        ascii "transfer-encoding: chunked\r\n\r\n" := by decide
  rw [append_assoc, hline] at htext
  obtain ⟨h₁, hhead, -, hwritten₁⟩ := h.writeFull_returns (h.requestText method uri headers)
  obtain ⟨h₂, hstart, -, hwritten₂⟩ :=
    h₁.writeFull_returns (ascii "transfer-encoding: chunked\r\n\r\n")
  obtain ⟨h₃, hchunks, hwritten₃⟩ := h₂.partialBodiesChunked_returns blobs
  obtain ⟨h', hend, -, hwritten⟩ := h₃.writeFull_returns (ascii "0\r\n\r\n")
  refine ⟨h', hhead.bind (hstart.bind (hchunks.bind hend)), ?_⟩
  rw [hwritten, hwritten₃, hwritten₂, hwritten₁, ← htext, chunksText]
  simp only [append_assoc]

end HttpClient

namespace StreamBuffer

variable {s : StreamBuffer} {rest : Blob}

/-- The size of a chunk is read with its line. -/
theorem readChunkSize_returns {n : Nat} (hn : n < 2 ^ 63)
    (h : s.Holds (numberText 16 n ++ ascii "\r\n" ++ rest)) :
    ∃ s', Returns (fun fuel => readChunkSize fuel s) ((n : Int), s') ∧ s'.Holds rest := by
  have hdigit {c : UInt8} (hc : c ∈ numberText 16 n) : digitValue c < 16 :=
    digitValue_lt_of_mem (by decide) (by decide) hc
  have hpre : 10 ∉ numberText 16 n ++ [13] := by
    rw [mem_append, not_or]
    exact ⟨fun hmem => absurd (hdigit hmem) (by decide), by decide⟩
  have hsplit (x : Blob) :
      numberText 16 n ++ ascii "\r\n" ++ x = (numberText 16 n ++ [13]) ++ 10 :: x := by
    simp [ascii]
  obtain ⟨s₁, hread, h₁, more, hmore⟩ :=
    readUntilChar_returns (hsplit rest ▸ h) hpre (Nat.zero_le _)
  have hvalue : strtol 16 s₁.cache.octets =
      ((n : Int), (numberText 16 n).length) := by
    rw [hmore, append_assoc]
    exact strtol_numberText (Or.inr ⟨rfl, rfl⟩) hn
      (fun c hc => by obtain rfl := Option.some.inj hc; decide)
  have h₂ : (s₁.shrinkCache ((numberText 16 n ++ [13]).length + 1)).Holds rest := by
    have hsplit (x : Blob) : (numberText 16 n ++ [13]) ++ 10 :: x =
      ((numberText 16 n ++ [13]) ++ [10]) ++ x := by simp
    have h₂ := (hsplit _ ▸ h₁).shrinkCache ⟨more, by rw [hmore, hsplit]⟩
    rwa [length_append, length_singleton] at h₂
  exact ⟨_, hread.bind (.of_eq fun fuel => by simp only [hvalue]), h₂⟩

theorem skipTrailer_returns (h : s.Holds (ascii "\r\n" ++ rest)) :
    ∃ s', Returns (fun fuel => skipTrailer fuel s) s' ∧ s'.Holds rest := by
  obtain ⟨s', hread, h'⟩ := readHeaderLine_end (show s.Holds ([13] ++ 10 :: rest) from h) (by decide)
    (by decide)
  exact ⟨s', .pass (fun fuel => rfl) hread (.ok _), h'⟩

end StreamBuffer

namespace HttpServer

variable {h : HttpServer} {rest : Blob}

/-- What a server leaves on the connection: everything behind the first empty chunk. -/
def unread (blobs : List Blob) : Blob :=
  match blobs.dropWhile (· ≠ []) with
  | [] => []
  | _ :: later => HttpClient.chunksText later

/-- A call without a result comes back with what the stream gives. -/
theorem onStream'_returns {call : Nat → StreamBuffer → StreamCall StreamBuffer}
    {s' : StreamBuffer} (hcall : Returns (fun fuel => call fuel h.read_stream) s') :
    Returns (fun fuel => h.onStream' (call fuel)) { h with read_stream := s' } := by
  obtain ⟨least, hrun⟩ := hcall
  exact ⟨least, fun fuel hfuel => by simp only [onStream', onStream, hrun fuel hfuel, ok_bind]⟩

/-- The chunk of an empty blob is the size zero and an empty trailer, as the end of the body is. -/
theorem chunksText_end (blobs : List Blob) :
    (∃ data more, data ≠ [] ∧ blobs = data :: more) ∨
      (blobs.takeWhile (· ≠ []) = [] ∧
        chunksText blobs =
          numberText 16 0 ++ ascii "\r\n" ++ (ascii "\r\n" ++ unread blobs)) := by
  match blobs with
  | [] => exact Or.inr ⟨rfl, by decide⟩
  | [] :: more =>
    refine Or.inr ⟨rfl, ?_⟩
    have hchunk : HttpClient.chunkText [] = numberText 16 0 ++ ascii "\r\n" ++ ascii "\r\n" := by
      decide
    rw [chunksText, map_cons, flatten_cons, hchunk, unread,
      dropWhile_cons, if_neg (by decide)]
    simp only [chunksText, append_assoc]
  | (c :: data) :: more => exact Or.inl ⟨c :: data, more, cons_ne_nil _ _, rfl⟩

theorem chunksText_cons (data : Blob) (blobs : List Blob) :
    chunksText (data :: blobs) =
      numberText 16 data.length ++ ascii "\r\n" ++
        (data ++ (ascii "\r\n" ++ HttpClient.chunksText blobs)) := by
  simp only [chunksText, chunkText, map_cons, flatten_cons,
    append_assoc]

/-- The body goes on as it does once the size of the next chunk is known. -/
theorem readParts_of_nextPart {h₁ : HttpServer} {data : Blob} {result : Blob × HttpServer}
    (hnext : Returns (fun fuel => h.nextPart fuel) (true, h₁)) (hsize : h₁.req_body_size ≠ 0)
    (hrun : Returns (fun fuel => readParts fuel h₁ data) result) :
    Returns (fun fuel => readParts fuel h data) result := by
  obtain ⟨least, hnext⟩ := hnext
  obtain ⟨least', hrun⟩ := hrun
  refine ⟨max least least' + 1, fun fuel hfuel => ?_⟩
  obtain ⟨fuel, rfl⟩ : ∃ n, fuel = n + 1 := ⟨fuel - 1, by omega⟩
  have hsame : h₁.nextPart fuel = .ok (true, h₁) := by rw [nextPart, if_neg hsize]
  have hpass := hrun (fuel + 1) (by omega)
  simp only [readParts, hsame, ok_bind] at hpass
  simp only [readParts, hnext fuel (by omega), ok_bind]
  exact hpass

/-- The line end behind a chunk and the size of the next one. -/
theorem chunkLine_returns {n : Nat} (hn : n < 2 ^ 63)
    (hholds : h.read_stream.Holds
      (ascii "\r\n" ++ (numberText 16 n ++ ascii "\r\n" ++ rest))) :
    ∃ s₁ s₂,
      Returns (fun fuel => h.onStream fun s => do
        let (n, s) ← readUntilChar fuel s 10 0
        .ok ((), s.shrinkCache (n + 1))) ((), { h with read_stream := s₁ }) ∧
      Returns (fun fuel => onStream { h with read_stream := s₁ } (readChunkSize fuel))
        ((n : Int), { h with read_stream := s₂ }) ∧ s₂.Holds rest := by
  have hends : h.read_stream.Holds ([13] ++ 10 :: (numberText 16 n ++ ascii "\r\n" ++ rest)) :=
    hholds
  obtain ⟨s₁, hread, h₁, more, hmore⟩ :=
    readUntilChar_returns hends (by decide) (Nat.zero_le _)
  have h₁' := (show s₁.Holds ([13, 10] ++ (numberText 16 n ++ ascii "\r\n" ++ rest)) from
    h₁).shrinkCache ⟨more, hmore⟩
  have hline : Returns (fun fuel => do
      let (n, s) ← readUntilChar fuel h.read_stream 10 0
      .ok ((), s.shrinkCache (n + 1))) ((), s₁.shrinkCache 2) := hread.bind (.ok _)
  obtain ⟨s₂, hsize, h₂⟩ := readChunkSize_returns hn h₁'
  exact ⟨_, s₂, onStream_returns hline,
    onStream_returns (h := { h with read_stream := s₁.shrinkCache 2 }) hsize, h₂⟩

/-- A chunk of size zero ends the body. -/
theorem updateNextChunk_end
    (hholds : h.read_stream.Holds
      (ascii "\r\n" ++ (numberText 16 0 ++ ascii "\r\n" ++ (ascii "\r\n" ++ rest)))) :
    ∃ h', Returns (fun fuel => h.updateNextChunk fuel) (false, h') ∧ h'.read_stream.Holds rest := by
  obtain ⟨s₁, s₂, hline, hsize, h₂⟩ := chunkLine_returns (by decide) hholds
  obtain ⟨s₃, htrailer, h₃⟩ := skipTrailer_returns h₂
  have htrailer' := onStream'_returns
    (h := { h with req_body_size := ((0 : Nat) : Int), read_stream := s₂ }) htrailer
  refine ⟨{ h with
    req_body_size := ((0 : Nat) : Int), read_stream := s₃, transfer_encoding := .TE_Basic },
    hline.bind (hsize.bind ?_), h₃⟩
  simp only [Nat.cast_zero, if_true]
  exact htrailer'.bind (.ok _)

/-- A chunk of another size is the next part of the body. -/
theorem updateNextChunk_part {n : Nat} (hn : n < 2 ^ 63) (hpos : 0 < n)
    (hholds : h.read_stream.Holds
      (ascii "\r\n" ++ (numberText 16 n ++ ascii "\r\n" ++ rest))) :
    ∃ s, s.Holds rest ∧ Returns (fun fuel => h.updateNextChunk fuel)
      (true, { h with req_body_size := n, read_stream := s }) := by
  obtain ⟨s₁, s₂, hline, hsize, h₂⟩ := chunkLine_returns hn hholds
  refine ⟨s₂, h₂, hline.bind (hsize.bind ?_)⟩
  have hne : ¬ (n : Int) = 0 := by omega
  simp only [if_neg hne]
  exact .ok _

theorem nextPart_chunk (hsize : h.req_body_size = 0) (hchunked : h.transfer_encoding = .TE_Chunked)
    (fuel : Nat) : h.nextPart fuel = h.updateNextChunk fuel := by
  rw [nextPart, if_pos hsize, if_pos hchunked]

variable {blobs : List Blob} {headers : List (DrString × DrString)}

/-- The chunks are read up to the first empty one. -/
theorem readParts_chunks (hblobs : ∀ data ∈ blobs, data.length < 2 ^ 63)
    (hsize : h.req_body_size = 0) (hchunked : h.transfer_encoding = .TE_Chunked)
    (hholds : h.read_stream.Holds
      (ascii "\r\n" ++ (HttpClient.chunksText blobs ++ rest))) (data : Blob) :
    ∃ h', Returns (fun fuel => readParts fuel h data)
        (data ++ (blobs.takeWhile (· ≠ [])).flatten, h') ∧
      h'.read_stream.Holds (unread blobs ++ rest) := by
  induction blobs generalizing h data with
  | nil =>
    obtain ⟨h', hend, h₁⟩ := updateNextChunk_end hholds
    refine ⟨h', .pass (fun fuel => rfl) (hend.congr (nextPart_chunk hsize hchunked)) ?_, h₁⟩
    rw [takeWhile_nil, flatten_nil, append_nil]
    exact .ok _
  | cons part blobs ih =>
    rcases chunksText_end (part :: blobs) with ⟨_, _, hne, heq⟩ | ⟨htake, htext⟩
    · obtain ⟨rfl, rfl⟩ := List.cons.inj heq
      have hpart : part.length < 2 ^ 63 := hblobs part mem_cons_self
      have hpos := length_pos_iff.mpr hne
      have hsplit : chunksText (part :: blobs) ++ rest =
          numberText 16 part.length ++ ascii "\r\n" ++
            (part ++ (ascii "\r\n" ++ (HttpClient.chunksText blobs ++ rest))) := by
        simp only [chunksText_cons, append_assoc]
      rw [hsplit] at hholds
      obtain ⟨s₁, h₁, hupdate⟩ := updateNextChunk_part hpart hpos hholds
      obtain ⟨s₂, h₂, hpartRead⟩ := readParts_part
        (h := { h with req_body_size := part.length, read_stream := s₁ }) rfl hpart h₁ data
      obtain ⟨h', hrest, h₃⟩ := ih (fun b hb => hblobs b (mem_cons_of_mem _ hb))
        (h := { h with req_body_size := 0, read_stream := s₂ }) rfl hchunked h₂ (data ++ part)
      refine ⟨h', ?_, ?_⟩
      · rw [takeWhile_cons, if_pos (decide_eq_true hne), flatten_cons,
          ← append_assoc]
        exact readParts_of_nextPart (hupdate.congr (nextPart_chunk hsize hchunked))
          (Int.natCast_ne_zero.mpr (Nat.pos_iff_ne_zero.mp hpos)) (hpartRead _ hrest)
      · rw [unread, dropWhile_cons, if_pos (decide_eq_true hne)]
        exact h₃
    · rw [htext, append_assoc, append_assoc] at hholds
      obtain ⟨h', hend, h₁⟩ := updateNextChunk_end hholds
      refine ⟨h', .pass (fun fuel => rfl) (hend.congr (nextPart_chunk hsize hchunked)) ?_, h₁⟩
      rw [htake, flatten_nil, append_nil]
      exact .ok _

/-- The first chunk is read with the header; `startChunks` finds it, or the end of the body. -/
theorem startChunks_returns (hblobs : ∀ data ∈ blobs, data.length < 2 ^ 63)
    (hbasic : h.transfer_encoding = .TE_Basic)
    (hholds : h.read_stream.Holds (chunksText blobs ++ rest)) :
    ∃ h₁, Returns (fun fuel => h.startChunks fuel) h₁ ∧ ∀ state,
      ∃ h₂, Returns (fun fuel => readFullContent fuel { h₁ with connection_state := state })
          ((blobs.takeWhile (· ≠ [])).flatten, h₂) ∧
        h₂.read_stream.Holds (unread blobs ++ rest) := by
  rcases chunksText_end blobs with ⟨part, more, hne, rfl⟩ | ⟨htake, htext⟩
  · have hpart : part.length < 2 ^ 63 := hblobs part mem_cons_self
    have hpos := length_pos_iff.mpr hne
    have hsplit : chunksText (part :: more) ++ rest =
        numberText 16 part.length ++ ascii "\r\n" ++
          (part ++ (ascii "\r\n" ++ (HttpClient.chunksText more ++ rest))) := by
      simp only [chunksText_cons, append_assoc]
    rw [hsplit] at hholds
    obtain ⟨s₁, hsize, h₁⟩ := readChunkSize_returns hpart hholds
    have hzero : ¬ (part.length : Int) = 0 := by omega
    refine ⟨{ h with
      req_body_size := part.length, read_stream := s₁, transfer_encoding := .TE_Chunked },
      (onStream_returns hsize).bind ?_, fun state => ?_⟩
    · simp only [if_neg hzero]
      exact .ok _
    · obtain ⟨s₂, h₂, hpartRead⟩ := readParts_part
        (h := { h with
          req_body_size := part.length, read_stream := s₁, transfer_encoding := .TE_Chunked
          connection_state := state }) rfl hpart h₁ []
      obtain ⟨h₃, hrest, h₃'⟩ := readParts_chunks (fun b hb => hblobs b (mem_cons_of_mem _ hb))
        (h := { h with
          req_body_size := 0, read_stream := s₂, transfer_encoding := .TE_Chunked
          connection_state := state }) rfl rfl h₂ part
      obtain ⟨least, hrun⟩ := hpartRead _ hrest
      refine ⟨h₃, ⟨least, fun fuel hfuel => ?_⟩, ?_⟩
      · simp only [readFullContent, if_pos (Int.natCast_nonneg part.length)]
        rw [takeWhile_cons, if_pos (decide_eq_true hne), flatten_cons]
        exact hrun fuel hfuel
      · rw [unread, dropWhile_cons, if_pos (decide_eq_true hne)]
        exact h₃'
  · rw [htext, append_assoc, append_assoc] at hholds
    obtain ⟨s₁, hsize, h₁⟩ := readChunkSize_returns (n := 0) (by decide) hholds
    obtain ⟨s₂, htrailer, h₂⟩ := skipTrailer_returns h₁
    have htrailer' := onStream'_returns
      (h := { h with req_body_size := ((0 : Nat) : Int), read_stream := s₁ }) htrailer
    refine ⟨{ h with req_body_size := ((0 : Nat) : Int), read_stream := s₂ },
      (onStream_returns hsize).bind ?_, fun state => ?_⟩
    · simp only [Nat.cast_zero, if_true]
      exact htrailer'
    · rw [htake]
      let h₃ := { h with
        req_body_size := ((0 : Nat) : Int), read_stream := s₂, connection_state := state }
      have hsize : h₃.req_body_size = ([] : Blob).length := rfl
      exact readFullContent_length hsize hbasic (by decide) h₂

/-- The header of a request with a chunked body is finished with its first chunk. -/
theorem finishHeader_chunked {value : DrString} (hblobs : ∀ data ∈ blobs, data.length < 2 ^ 63)
    (hbasic : h.transfer_encoding = .TE_Basic)
    (hencoding : h.header "transfer-encoding" = some value) (hvalue : value.utf8 = ascii "chunked")
    (hholds : h.read_stream.Holds (chunksText blobs ++ rest)) :
    ∃ h₁ h₂, Returns (fun fuel => h.finishHeader fuel) h₁ ∧
      Returns (fun fuel => h₁.readFullContent fuel) ((blobs.takeWhile (· ≠ [])).flatten, h₂) ∧
      h₂.read_stream.Holds (unread blobs ++ rest) := by
  have hencoding' : header { h with req_body_size := h.bodySize } "transfer-encoding" =
      some value := hencoding
  obtain ⟨h₁, hstart, hbody⟩ :=
    startChunks_returns (h := { h with req_body_size := h.bodySize }) hblobs hbasic hholds
  have hfinish {h₁' : HttpServer} (hlast : (if h₁.connection_state = 0 then
      .ok { h₁ with connection_state := if h₁.req_version ≤ 0x100 then 2 else 1 }
      else .ok h₁ : HttpCall HttpServer) = .ok h₁') :
      Returns (fun fuel => h.finishHeader fuel) h₁' := by
    obtain ⟨least, hrun⟩ := hstart
    refine ⟨least, fun fuel hfuel => ?_⟩
    simp only [finishHeader, hencoding', hvalue, if_true, hrun fuel hfuel, ok_bind]
    exact hlast
  by_cases hstate : h₁.connection_state = 0
  · obtain ⟨h₂, hread, h₂'⟩ := hbody (if h₁.req_version ≤ 0x100 then 2 else 1)
    exact ⟨_, h₂, hfinish (if_pos hstate), hread, h₂'⟩
  · obtain ⟨h₂, hread, h₂'⟩ := hbody h₁.connection_state
    exact ⟨_, h₂, hfinish (if_neg hstate), hread, h₂'⟩

/-- What a client sends in chunks is what the server reads, and all that it takes. -/
def ReadsChunked (c : HttpClient) (method uri : DrString) (headers : List (DrString × DrString))
    (blobs : List Blob) : Prop :=
  ∃ request c', Returns (fun fuel => c.requestChunked fuel method uri headers blobs) c' ∧
    c'.read_stream.handle.written = c.read_stream.handle.written ++ request ∧
    ∀ schedule rest, ∃ uri' h₁ h₂,
      Returns (fun fuel => (new (.new (.fresh schedule (request ++ rest)))).readRequest fuel)
        (some uri', h₁) ∧
      Returns (fun fuel => h₁.readFullContent fuel) (blobs.flatten, h₂) ∧
      h₂.read_stream.Holds rest

theorem framing_chunked : HttpClient.Framing
    (DrString.bytes (ascii "transfer-encoding"), DrString.bytes (ascii "chunked")) :=
  ⟨⟨by decide, by decide, by decide, by decide, by decide, by decide⟩, Or.inr rfl⟩

/-- What the server reads of a chunked body: the blobs before the first empty one. -/
theorem readRequest_requestChunked {c : HttpClient} {method uri : DrString}
    (hhost : 10 ∉ c.host.utf8) (hmethod : method.utf8.map tolower ∈ HttpConst.methods.map Prod.fst)
    (hne : uri.utf8 ≠ []) (hblank : ∀ o ∈ uri.utf8, isspace o = false)
    (hheaders : SendableHeaders headers) (hblobs : ∀ data ∈ blobs, data.length < 2 ^ 63) :
    ∃ request c', Returns (fun fuel => c.requestChunked fuel method uri headers blobs) c' ∧
      c'.read_stream.handle.written = c.read_stream.handle.written ++ request ∧
      ∀ schedule rest, ∃ uri' h₁ h₂,
        Returns (fun fuel => (new (.new (.fresh schedule (request ++ rest)))).readRequest fuel)
          (some uri', h₁) ∧
        Returns (fun fuel => h₁.readFullContent fuel)
          ((blobs.takeWhile (· ≠ [])).flatten, h₂) ∧
        h₂.read_stream.Holds (unread blobs ++ rest) := by
  obtain ⟨hname, hoctets⟩ := method_octets hmethod
  obtain ⟨c', hsend, hwritten⟩ := c.requestChunked_returns uri headers hname (fun o ho => (hoctets o ho).1) blobs
  refine ⟨_, c', hsend, hwritten, fun schedule rest => ?_⟩
  generalize hlines : (c.hostHeader headers ++ headers ++
    [(DrString.bytes (ascii "transfer-encoding"), DrString.bytes (ascii "chunked"))]).map
      headerEntry = lines
  generalize hnew : new (.new (.fresh schedule
    (headText method.utf8 uri.utf8 lines ++ chunksText blobs ++ rest))) = h
  have hholds : h.read_stream.Holds
      (headText method.utf8 uri.utf8 lines ++ (chunksText blobs ++ rest)) := by
    rw [← hnew, ← append_assoc]
    exact holds_new _ _
  obtain ⟨s, hs, hread⟩ := readRequest_returns (h := h) (by rw [← hnew, new]; exact Nat.succ_pos 1)
    (fun o ho => (hoctets o ho).2) hblank hne (method_type_map_ne hmethod)
    (hlines ▸ entries_hold hhost hheaders framing_chunked) hholds
  obtain ⟨hfound, -⟩ := atBody_getHeader (h := h) (c := c) (by rw [← hnew]; rfl) hheaders
    framing_chunked method.utf8 uri.utf8
  rw [hlines] at hfound
  obtain ⟨hbasic, -, -⟩ := atBody_fields h method.utf8 uri.utf8 lines
  have hencoding := hfound _ (mem_append_right _ (mem_singleton_self _))
  obtain ⟨h₁, h₂, hfinish, hbody, h₂'⟩ := finishHeader_chunked
    (h := { h.atBody method.utf8 uri.utf8 lines with read_stream := s }) hblobs hbasic hencoding
    (by decide) hs
  exact ⟨h₁.req_uri, h₁, h₂, hread _ hfinish, hbody, h₂'⟩

theorem unread_eq_nil : unread blobs = [] ↔ ∀ data ∈ blobs, data ≠ [] := by
  have hdrop : unread blobs = [] ↔ blobs.dropWhile (· ≠ []) = [] := by
    unfold unread
    cases blobs.dropWhile (· ≠ []) with
    | nil => exact ⟨fun _ => rfl, fun _ => rfl⟩
    | cons data later => simp [chunksText, ascii]
  rw [hdrop, dropWhile_eq_nil_iff]
  exact forall₂_congr fun data _ => decide_eq_true_iff

/-- Behind an empty blob the rest of the body is taken for the next request. -/
theorem not_readsChunked {c : HttpClient} {method uri : DrString} (hhost : 10 ∉ c.host.utf8)
    (hmethod : method.utf8.map tolower ∈ HttpConst.methods.map Prod.fst) (hne : uri.utf8 ≠ [])
    (hblank : ∀ o ∈ uri.utf8, isspace o = false) (hheaders : SendableHeaders headers)
    (hblobs : ∀ data ∈ blobs, data.length < 2 ^ 63) (hempty : [] ∈ blobs) :
    ¬ ReadsChunked c method uri headers blobs := by
  obtain ⟨request, c', hsend, hwritten, hreads⟩ :=
    readRequest_requestChunked hhost hmethod hne hblank hheaders hblobs
  rintro ⟨request', c'', hsend', hwritten', hreads'⟩
  obtain rfl := hsend.unique hsend'
  obtain rfl : request = request' := append_cancel_left (hwritten.symm.trans hwritten')
  obtain ⟨_, h₁, h₂, hread, hbody, hholds⟩ := hreads (.every 1 (by decide)) []
  obtain ⟨_, h₁', h₂', hread', hbody', hholds'⟩ := hreads' (.every 1 (by decide)) []
  obtain ⟨-, rfl⟩ := Prod.mk.inj (hread.unique hread')
  obtain ⟨-, rfl⟩ := Prod.mk.inj (hbody.unique hbody')
  have hsame := hholds.ahead.symm.trans hholds'.ahead
  rw [append_nil] at hsame
  exact unread_eq_nil.mp hsame [] hempty rfl

/-- The server reads what was sent exactly when no blob is empty. -/
theorem readsChunked_iff {c : HttpClient} {method uri : DrString}
    {headers : List (DrString × DrString)} {blobs : List Blob} (hhost : 10 ∉ c.host.utf8)
    (hmethod : method.utf8.map tolower ∈ HttpConst.methods.map Prod.fst) (hne : uri.utf8 ≠ [])
    (hblank : ∀ o ∈ uri.utf8, isspace o = false) (hheaders : SendableHeaders headers)
    (hblobs : ∀ data ∈ blobs, data.length < 2 ^ 63) :
    ReadsChunked c method uri headers blobs ↔ ∀ data ∈ blobs, data ≠ [] := by
  constructor
  · rintro hreads data hdata rfl
    exact not_readsChunked hhost hmethod hne hblank hheaders hblobs hdata hreads
  · intro hall
    obtain ⟨request, c', hsend, hwritten, hreads⟩ :=
      readRequest_requestChunked hhost hmethod hne hblank hheaders hblobs
    have htake : blobs.takeWhile (· ≠ []) = blobs :=
      takeWhile_eq_self_iff.mpr fun data hdata => decide_eq_true (hall data hdata)
    rw [htake, unread_eq_nil.mpr hall] at hreads
    exact ⟨request, c', hsend, hwritten, hreads⟩

/-- Two blobs without an empty one. -/
theorem readsChunked_iff_two :
    ReadsChunked (HttpClient.new (.new (.fresh (.every 1 (by decide)) [])) (.bytes []))
        (.bytes (ascii "POST")) (.bytes (ascii "/")) [] [[65], [66, 67]] ↔
      ∀ data ∈ [[65], [66, 67]], data ≠ ([] : Blob) :=
  readsChunked_iff (by decide) (by decide) (by decide) (by decide)
    ⟨forall_mem_nil _, by decide, by decide⟩ (by decide)

/-- An empty blob between two others cuts the body short. -/
theorem not_readsChunked_empty :
    ¬ ReadsChunked (HttpClient.new (.new (.fresh (.every 1 (by decide)) [])) (.bytes []))
        (.bytes (ascii "POST")) (.bytes (ascii "/")) [] [[65], [], [66]] :=
  not_readsChunked (by decide) (by decide) (by decide) (by decide)
    ⟨forall_mem_nil _, by decide, by decide⟩ (by decide) (by decide)

end HttpServer

end Drt
