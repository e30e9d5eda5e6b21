import Drt.Io.Stream.StreamTwin
import Drt.Net.Http.HttpRoundTrip

/-!
# One request after others

What a server makes of a request, after two different histories. The headers of earlier
requests are never dropped: `readRequest` only adds to them.
-/

namespace Drt

open StreamBuffer

open Outcome

namespace StreamBuffer.Twin

variable {s s' : StreamBuffer}

theorem readHeaderLine (h : s.Twin s') (fuel : Nat) :
    TwinResult (s.readHeaderLine fuel) (s'.readHeaderLine fuel) := by
  refine (h.readUntilChar fuel 10 0).bind ?_
  rintro _ _ @⟨s, s', n, h⟩
  simp only [h.cache]
  split_ifs
  · exact .ok (.intro _ (h.shrinkCache _))
  · cases headerOf (trimRight (s.cache.octets.take n)) with
    | none => exact .raise ⟨rfl, h⟩
    | some header => exact .ok (.intro _ (h.shrinkCache _))

theorem readChunkSize (h : s.Twin s') (fuel : Nat) :
    TwinResult (s.readChunkSize fuel) (s'.readChunkSize fuel) := by
  refine (h.readUntilChar fuel 10 0).bind ?_
  rintro _ _ ⟨n, h⟩
  simp only [h.cache]
  exact .ok (.intro _ (h.shrinkCache _))

theorem skipTrailer (h : s.Twin s') (fuel : Nat) :
    TwinCall (s.skipTrailer fuel) (s'.skipTrailer fuel) := by
  induction fuel generalizing s s' with
  | zero => exact .outOfFuel
  | succ fuel ih =>
    refine (h.readHeaderLine fuel).bind ?_
    rintro _ _ ⟨header, h⟩
    dsimp only
    split_ifs
    · exact .ok h
    · exact ih h

theorem extendToEnd (h : s.Twin s') (fuel : Nat) :
    TwinCall (s.extendToEnd fuel) (s'.extendToEnd fuel) := by
  induction fuel generalizing s s' with
  | zero => exact .outOfFuel
  | succ fuel ih =>
    refine (h.tryExtendCacheAdd fuel 1).bind ?_
    rintro _ _ ⟨added, h⟩
    dsimp only
    split_ifs
    · exact ih h
    · exact .ok h

end StreamBuffer.Twin

namespace HttpServer

/-- The same exception, with streams that cannot be told apart. -/
def TwinRaise (e e' : Exception × HttpServer) : Prop :=
  e.1 = e'.1 ∧ e.2.read_stream.Twin e'.2.read_stream

/-- The same result, with related servers. -/
inductive Paired (R : HttpServer → HttpServer → Prop) {α : Type} :
    α × HttpServer → α × HttpServer → Prop
  | intro {h h' : HttpServer} (a : α) (ht : R h h') : Paired R (a, h) (a, h')

/-- The same server on streams that cannot be told apart. -/
inductive Twin (h : HttpServer) : HttpServer → Prop
  | intro {s' : StreamBuffer} (hs : h.read_stream.Twin s') : Twin h { h with read_stream := s' }

/-- Servers behind the first line of a request, which say the same of it. -/
inductive HeadTwin (h : HttpServer) : HttpServer → Prop
  | intro {s' : StreamBuffer} {headers : List UInt32 → Option DrString} {size : Int}
      (hs : h.read_stream.Twin s') :
      HeadTwin h { h with read_stream := s', req_headers := headers, req_body_size := size }

variable {R : HttpServer → HttpServer → Prop} {h h' : HttpServer} {blank content line rest : Blob}
  {lines : List (Blob × DrString × DrString)} {fuel : Nat}

section

variable (hs : h.read_stream.Twin h'.read_stream)
include hs

/-- A call on two streams that cannot be told apart. -/
theorem onStream_alike {α : Type} {call : StreamBuffer → StreamCall (α × StreamBuffer)}
    (hcall : ∀ s s', s.Twin s' → StreamBuffer.TwinResult (call s) (call s'))
    (hR : ∀ s s', s.Twin s' → R { h with read_stream := s } { h' with read_stream := s' }) :
    Alike TwinRaise (Paired R) (h.onStream call) (h'.onStream call) := by
  have hends := hcall _ _ hs
  simp only [HttpServer.onStream]
  generalize call h.read_stream = x at hends ⊢
  generalize call h'.read_stream = x' at hends ⊢
  cases hends with
  | ok hr =>
    obtain ⟨a, hs⟩ := hr
    exact .ok (.intro a (hR _ _ hs))
  | raise he => exact .raise he
  | fault => exact .fault
  | outOfFuel => exact .outOfFuel

/-- A call without a result on two streams that cannot be told apart. -/
theorem onStream'_alike {call : StreamBuffer → StreamCall StreamBuffer}
    (hcall : ∀ s s', s.Twin s' → StreamBuffer.TwinCall (call s) (call s'))
    (hR : ∀ s s', s.Twin s' → R { h with read_stream := s } { h' with read_stream := s' }) :
    Alike TwinRaise R (h.onStream' call) (h'.onStream' call) := by
  have hunit (s s' : StreamBuffer) (hs : s.Twin s') :
      StreamBuffer.TwinResult (do let s ← call s; .ok ((), s)) (do let s ← call s'; .ok ((), s)) :=
    (hcall s s' hs).bind fun s s' hs => .ok (.intro () hs)
  refine (onStream_alike hs hunit hR).bind ?_
  rintro _ _ ⟨_, hr⟩
  exact .ok hr

/-- The first line is found at the same place. -/
theorem readFirstLine_alike
    (hR : ∀ s s', s.Twin s' → R { h with read_stream := s } { h' with read_stream := s' })
    (fuel : Nat) : Alike TwinRaise (Paired R) (h.readFirstLine fuel) (h'.readFirstLine fuel) := by
  have hends := hs.tryReadUntilChar fuel 10 0
  simp only [readFirstLine, onStream]
  generalize h.read_stream.tryReadUntilChar fuel 10 0 = x at hends ⊢
  generalize h'.read_stream.tryReadUntilChar fuel 10 0 = x' at hends ⊢
  cases hends with
  | ok hr =>
    obtain ⟨n, hs⟩ := hr
    exact .ok (.intro n (hR _ _ hs))
  | @raise e e' he =>
    obtain ⟨e, s⟩ := e
    obtain ⟨e', s'⟩ := e'
    obtain ⟨rfl, hs⟩ := he
    replace hs : s.Twin s' := hs
    cases e with
    | timeoutException =>
      simp only [hs.cache]
      split_ifs
      · exact .raise ⟨rfl, hs⟩
      · exact .ok (.intro none (hR _ _ hs))
    | _ => exact .raise ⟨rfl, hs⟩
  | fault => exact .fault
  | outOfFuel => exact .outOfFuel

end

namespace Twin

variable {h h' : HttpServer}

section

variable (ht : h.Twin h')
include ht

theorem onStream {α : Type} {call : StreamBuffer → StreamCall (α × StreamBuffer)}
    (hcall : ∀ s s', s.Twin s' → StreamBuffer.TwinResult (call s) (call s')) :
    Alike TwinRaise (Paired Twin) (h.onStream call) (h'.onStream call) := by
  cases ht with
  | intro hs => exact onStream_alike hs hcall fun s s' hs => Twin.intro hs

theorem onStream' {call : StreamBuffer → StreamCall StreamBuffer}
    (hcall : ∀ s s', s.Twin s' → StreamBuffer.TwinCall (call s) (call s')) :
    Alike TwinRaise Twin (h.onStream' call) (h'.onStream' call) := by
  cases ht with
  | intro hs => exact onStream'_alike hs hcall fun s s' hs => Twin.intro hs

theorem size : h'.req_body_size = h.req_body_size := by
  cases ht with
  | intro hs => rfl

theorem withSize (n : Int) : Twin { h with req_body_size := n } { h' with req_body_size := n } := by
  cases ht with
  | intro hs => exact .intro hs

theorem withEncoding (encoding : TransferEncoding) :
    Twin { h with transfer_encoding := encoding } { h' with transfer_encoding := encoding } := by
  cases ht with
  | intro hs => exact .intro hs

theorem updateNextChunk (fuel : Nat) :
    Alike TwinRaise (Paired Twin) (h.updateNextChunk fuel) (h'.updateNextChunk fuel) := by
  refine (ht.onStream fun s s' hs => ?_).bind ?_
  · refine (hs.readUntilChar fuel 10 0).bind ?_
    rintro _ _ ⟨n, hs⟩
    exact .ok (.intro () (hs.shrinkCache _))
  rintro _ _ ⟨_, ht⟩
  refine (ht.onStream fun s s' hs => hs.readChunkSize fuel).bind ?_
  rintro _ _ ⟨size, ht⟩
  dsimp only
  split_ifs
  · refine ((ht.withSize size).onStream' fun s s' hs => hs.skipTrailer fuel).bind ?_
    intro h h' ht
    exact .ok (.intro _ (ht.withEncoding .TE_Basic))
  · exact .ok (.intro _ (ht.withSize size))

theorem nextPart (fuel : Nat) :
    Alike TwinRaise (Paired Twin) (h.nextPart fuel) (h'.nextPart fuel) := by
  have hupdate := ht.updateNextChunk fuel
  cases ht with
  | intro hs =>
    simp only [HttpServer.nextPart]
    split_ifs
    · exact hupdate
    · exact .ok (.intro _ (.intro hs))
    · exact .ok (.intro _ (.intro hs))

theorem readParts (fuel : Nat) (data : Blob) :
    Alike TwinRaise (Paired Twin) (HttpServer.readParts fuel h data)
      (HttpServer.readParts fuel h' data) := by
  induction fuel generalizing h h' data with
  | zero => exact .outOfFuel
  | succ fuel ih =>
    refine (ht.nextPart fuel).bind ?_
    rintro _ _ ⟨more, ht⟩
    dsimp only
    split_ifs
    · rw [ht.size]
      refine (ht.onStream fun s s' hs => hs.readExtendAdd data _).bind ?_
      rintro _ _ ⟨⟨data, n⟩, ht⟩
      dsimp only
      rw [ht.size]
      exact ih (ht.withSize _) data
    · exact .ok (.intro _ ht)

theorem readFullContent (fuel : Nat) :
    Alike TwinRaise (Paired Twin) (h.readFullContent fuel) (h'.readFullContent fuel) := by
  have hparts := ht.readParts fuel []
  cases ht with
  | intro hs =>
    simp only [HttpServer.readFullContent]
    split_ifs
    · exact hparts
    · refine (Twin.onStream' (.intro hs) fun s s' hs => hs.extendToEnd fuel).bind ?_
      intro h h' ht
      refine ht.onStream fun s s' hs => ?_
      simp only [cleanGet, hs.cache]
      exact .ok (.intro _ (hs.withCache _))

theorem startChunks (fuel : Nat) :
    Alike TwinRaise Twin (h.startChunks fuel) (h'.startChunks fuel) := by
  refine (ht.onStream fun s s' hs => hs.readChunkSize fuel).bind ?_
  rintro _ _ ⟨size, ht⟩
  dsimp only
  split_ifs
  · exact (ht.withSize size).onStream' fun s s' hs => hs.skipTrailer fuel
  · exact .ok ((ht.withSize size).withEncoding .TE_Chunked)

end

end Twin

/-- Servers with the same headers behind a head that was the same finish it in the same way. -/
theorem HeadTwin.finishHeader (ht : h.HeadTwin h') (hheaders : h'.req_headers = h.req_headers)
    (fuel : Nat) : Alike TwinRaise Twin (h.finishHeader fuel) (h'.finishHeader fuel) := by
  cases ht with
  | @intro s' headers size hs =>
    obtain rfl : headers = h.req_headers := hheaders
    have hsize : bodySize { h with read_stream := s', req_body_size := size } = h.bodySize := rfl
    have ht : Twin { h with req_body_size := h.bodySize }
        { h with read_stream := s', req_body_size := h.bodySize } := .intro hs
    have hlast (h h' : HttpServer) (ht : h.Twin h') : Alike TwinRaise Twin
        (if h.connection_state = 0 then
          .ok { h with connection_state := if h.req_version ≤ 0x100 then 2 else 1 }
          else .ok h : HttpCall HttpServer)
        (if h'.connection_state = 0 then
          .ok { h' with connection_state := if h'.req_version ≤ 0x100 then 2 else 1 }
          else .ok h') := by
      cases ht with
      | intro hs =>
        dsimp only
        split_ifs
        · exact .ok (.intro hs)
        · exact .ok (.intro hs)
        · exact .ok (.intro hs)
    have hheader : header { h with read_stream := s', req_body_size := h.bodySize }
        "transfer-encoding" = header { h with req_body_size := h.bodySize }
        "transfer-encoding" := rfl
    simp only [HttpServer.finishHeader, hsize, hheader]
    cases header { h with req_body_size := h.bodySize } "transfer-encoding" with
    | none => exact hlast _ _ ht
    | some f =>
      dsimp only
      split_ifs
      · exact (ht.startChunks fuel).bind hlast
      · exact hlast _ _ ht

/-- The head of a request: the first line, and header lines where it has a version. -/
def readHead (fuel : Nat) (h : HttpServer) : HttpCall (Option Bool × HttpServer) := do
  let (n, h) ← h.readFirstLine fuel
  match n with
  | none =>
    if h.read_stream.cache.getSize = 0 then .ok (none, h)
    else .raise (.endOfDataException "http" "method", h)
  | some n =>
    let (more, h) ← h.parseRequestLine n
    if more then
      let h ← readHeaderLines fuel h
      .ok (some true, h)
    else .ok (some false, h)

/-- What follows the head in `readRequest`. -/
def finishHead (fuel : Nat) : Option Bool × HttpServer → HttpCall (Option DrString × HttpServer)
  | (none, h) => .ok (none, { h with connection_state := 2 })
  | (some false, h) => .ok (some h.req_uri, h)
  | (some true, h) => do
    let h ← h.finishHeader fuel
    .ok (some h.req_uri, h)

/-- A request is its head, and what is made of the headers. -/
theorem readRequestBlock_eq (fuel : Nat) (h : HttpServer) :
    h.readRequestBlock fuel = (h.readHead fuel >>= finishHead fuel) := by
  rw [readRequestBlock, readHead, bind_assoc]
  refine congrArg (h.readFirstLine fuel >>= ·) (funext fun r => ?_)
  obtain ⟨n, h⟩ := r
  cases n with
  | none =>
    dsimp only
    split_ifs
    · rfl
    · rfl
  | some n =>
    dsimp only
    rw [bind_assoc]
    refine congrArg (h.parseRequestLine n >>= ·) (funext fun r => ?_)
    obtain ⟨more, h⟩ := r
    dsimp only
    split_ifs
    · rw [bind_assoc]
      rfl
    · rfl

/-- Servers that read the same request from here on, whatever they have read before. -/
structure LineTwin (h h' : HttpServer) : Prop where
  stream : h.read_stream.Twin h'.read_stream
  state : h'.connection_state = h.connection_state
  encoding : h'.transfer_encoding = h.transfer_encoding

/-- Heads that were read in the same way. -/
inductive HeadPair : Option Bool × HttpServer → Option Bool × HttpServer → Prop
  | none {h h' : HttpServer} : HeadPair (none, h) (none, h')
  | some {h h' : HttpServer} (more : Bool) (ht : h.HeadTwin h')
      (hsize : more = false → h'.req_body_size = h.req_body_size) :
      HeadPair (some more, h) (some more, h')

/-- First lines that were taken apart in the same way. -/
inductive LinePair : Bool × HttpServer → Bool × HttpServer → Prop
  | intro {h h' : HttpServer} (more : Bool) (ht : h.HeadTwin h')
      (hsize : more = false → h'.req_body_size = h.req_body_size) : LinePair (more, h) (more, h')

theorem LineTwin.parseRequestLine (ht : h.LineTwin h') (n : Nat) :
    Alike TwinRaise LinePair (h.parseRequestLine n) (h'.parseRequestLine n) := by
  obtain ⟨s, _, _, _, _, _, _, encoding, state⟩ := h
  obtain ⟨s', _, _, _, _, _, _, encoding', state'⟩ := h'
  obtain ⟨hs, rfl, rfl⟩ := ht
  have hs : s.Twin s' := hs
  simp only [HttpServer.parseRequestLine, hs.cache]
  split_ifs
  · exact .raise ⟨rfl, hs⟩
  · exact .raise ⟨rfl, hs⟩
  · exact .ok (.intro false (.intro (hs.shrinkCache _)) fun _ => rfl)
  · exact .ok (.intro true (.intro (hs.shrinkCache _)) fun hfalse => by cases hfalse)

/-- A header is processed with the same effect on the connection. -/
theorem HeadTwin.processHeader (ht : h.HeadTwin h') (key val : DrString) :
    HeadTwin (h.processHeader key val) (h'.processHeader key val) := by
  cases ht with
  | intro hs =>
    simp only [HttpServer.processHeader, processHeaderConnection]
    split_ifs
    · exact .intro hs
    · exact .intro hs
    · exact .intro hs
    · exact .intro hs

/-- The same header lines are read. -/
theorem HeadTwin.readHeaderLines (ht : h.HeadTwin h') (fuel : Nat) :
    Alike TwinRaise HeadTwin (HttpServer.readHeaderLines fuel h)
      (HttpServer.readHeaderLines fuel h') := by
  induction fuel generalizing h h' with
  | zero => exact .outOfFuel
  | succ fuel ih =>
    have hline : Alike TwinRaise (Paired HeadTwin)
        (h.onStream (readHeaderLine fuel))
        (h'.onStream (readHeaderLine fuel)) := by
      cases ht with
      | intro hs =>
        exact onStream_alike hs (fun s s' hs => hs.readHeaderLine fuel) fun s s' hs => HeadTwin.intro hs
    refine hline.bind ?_
    rintro _ _ ⟨header, ht⟩
    cases header with
    | none => exact .ok ht
    | some header => exact ih (ht.processHeader header.1 header.2)

/-- The head of a request is read in the same way. -/
theorem LineTwin.readHead (ht : h.LineTwin h') (fuel : Nat) :
    Alike TwinRaise HeadPair (h.readHead fuel) (h'.readHead fuel) := by
  refine (readFirstLine_alike ht.stream (fun s s' hs =>
    LineTwin.mk hs ht.state ht.encoding) fuel).bind ?_
  rintro _ _ @⟨h, h', n, ht⟩
  cases n with
  | none =>
    dsimp only
    rw [ht.stream.cache]
    split_ifs
    · exact .ok .none
    · exact .raise ⟨rfl, ht.stream⟩
  | some n =>
    refine (ht.parseRequestLine n).bind ?_
    rintro _ _ @⟨h, h', more, ht, hsize⟩
    cases more with
    | true =>
      refine (HeadTwin.readHeaderLines ht fuel).bind fun h h' ht => ?_
      exact .ok (.some true ht fun hfalse => by cases hfalse)
    | false => exact .ok (.some false ht hsize)

/-- Whether there is something behind the URI in a request line. -/
def hasVersion (line : Blob) : Bool :=
  (((line.dropWhile fun c => !isspace c).dropWhile isspace).dropWhile fun c =>
    !isspace c).dropWhile isspace ≠ []

/-- The method of a request line, in lower case. -/
def methodOf (line : Blob) : Blob := (line.takeWhile fun c => !isspace c).map tolower

/-- The octets of the head of a request: a line with a method that the server has, header lines, and
a blank one. -/
structure RequestHead (line : Blob) (lines : List (Blob × DrString × DrString)) (blank : Blob) :
    Prop where
  oneLine : 10 ∉ line
  method : line.dropWhile (fun c => !isspace c) ≠ []
  supported : HttpConst.method_type_map (methodOf line) ≠ .other
  headers : ∀ l ∈ lines, HoldsHeader l.1 l.2
  blankLine : 10 ∉ blank
  empty : trimRight blank = []

/-- The header lines that belong to a request; without a version it has none. -/
def carried (line : Blob) (lines : List (Blob × DrString × DrString)) :
    List (Blob × DrString × DrString) :=
  if hasVersion line then lines else []

/-- What `req_headers` is behind a head, by the headers of earlier requests. -/
def withHeaders (lines : List (Blob × DrString × DrString))
    (headers : List UInt32 → Option DrString) : List UInt32 → Option DrString :=
  lines.foldl (fun m l => Function.update m l.2.1.text (some l.2.2)) headers

/-- A request line is taken apart, and the headers are as they were. -/
theorem parseRequestLine_headers {more : Blob} (hmethod : line.dropWhile (fun c => !isspace c) ≠ [])
    (hknown : HttpConst.method_type_map (methodOf line) ≠ .other)
    (hcache : h.read_stream.cache.octets = line ++ 10 :: more) :
    ∃ h', h.parseRequestLine line.length = .ok (hasVersion line, h') ∧
      h'.req_headers = h.req_headers ∧
      h'.read_stream = h.read_stream.shrinkCache (line.length + 1) := by
  have htake : (line ++ 10 :: more).take line.length = line := List.take_left
  rw [methodOf] at hknown
  simp only [parseRequestLine, hcache, htake]
  rw [if_neg hmethod, if_neg hknown]
  split_ifs with hend
  · have hversion : hasVersion line = false := by simp [hasVersion, hend]
    rw [hversion]
    exact ⟨_, rfl, rfl, rfl⟩
  · have hversion : hasVersion line = true := decide_eq_true hend
    rw [hversion]
    exact ⟨_, rfl, rfl, rfl⟩

/-- The head of a request adds its headers to those of earlier ones. -/
theorem readHead_returns (hhead : RequestHead line lines blank) (hholds : h.read_stream.Holds
      (line ++ 10 :: ((lines.map fun l => l.1 ++ [10]).flatten ++ (blank ++ 10 :: rest)))) :
    ∃ h', Returns (fun fuel => h.readHead fuel) (some (hasVersion line), h') ∧
      h'.req_headers = withHeaders (carried line lines) h.req_headers := by
  obtain ⟨s₁, hread, h₁, more, hmore⟩ :=
    tryReadUntilChar_returns hholds hhead.oneLine (Nat.zero_le _)
  have hfirst : Returns (fun fuel => readFirstLine fuel h)
      (some line.length, { h with read_stream := s₁ }) := by
    obtain ⟨least, hrun⟩ := hread
    exact ⟨least, fun fuel hfuel => by simp only [readFirstLine, onStream, hrun fuel hfuel]⟩
  obtain ⟨h₂, hparse, hheaders, hstream⟩ :=
    parseRequestLine_headers (h := { h with read_stream := s₁ }) hhead.method hhead.supported hmore
  cases hversion : hasVersion line with
  | false =>
    rw [hversion] at hparse
    refine ⟨h₂, hfirst.bind ?_, ?_⟩
    · simp only [hparse, ok_bind, Bool.false_eq_true, if_false]
      exact .ok _
    · rw [carried, hversion, if_neg Bool.false_ne_true]
      exact hheaders
  | true =>
    rw [hversion] at hparse
    have hahead : h₂.read_stream.Holds
        ((lines.map fun l => l.1 ++ [10]).flatten ++ (blank ++ 10 :: rest)) := by
      have hsplit (x : Blob) : line ++ 10 :: x = (line ++ [10]) ++ x := by simp
      have hnext := (hsplit _ ▸ h₁).shrinkCache ⟨more, by rw [hmore, hsplit]⟩
      rw [List.length_append, List.length_singleton] at hnext
      rwa [hstream]
    obtain ⟨s₃, hlines, -⟩ :=
      readHeaderLines_returns hhead.headers hhead.blankLine hhead.empty hahead
    obtain ⟨state, hfold⟩ := foldl_processHeader lines h₂
    refine ⟨{ lines.foldl (fun h l => h.processHeader l.2.1 l.2.2) h₂ with read_stream := s₃ },
      hfirst.bind ?_, ?_⟩
    · simp only [hparse, ok_bind, if_true]
      exact hlines.bind (.ok _)
    · rw [carried, hversion, if_pos rfl, withHeaders, hfold, hheaders]

/-- What a server makes of a request: its URI, method and headers, how its body is sent, and the
octets of the body. -/
structure Interpretation where
  uri : Option DrString
  method : MethodType
  getHeader : DrString → Option DrString
  encoding : TransferEncoding
  body_size : Int
  content : Outcome Exception Blob

/-- The exception or the result without the server it leaves. -/
def forget {α : Type} : HttpCall (α × HttpServer) → Outcome Exception α
  | .ok (a, _) => .ok a
  | .raise (e, _) => .raise e
  | .fault => .fault
  | .outOfFuel => .outOfFuel

/-- `readRequest`, the getters, and `readFullContent`. -/
def interpret (fuel : Nat) (h : HttpServer) : Outcome Exception Interpretation :=
  match h.readRequest fuel with
  | .ok (uri, h) => .ok ⟨uri, h.getMethod, h.getHeader, h.transfer_encoding, h.req_body_size,
      forget (h.readFullContent fuel)⟩
  | .raise (e, _) => .raise e
  | .fault => .fault
  | .outOfFuel => .outOfFuel

/-- Two servers make the same of the request that lies ahead of them. -/
def SameInterpretation (h h' : HttpServer) : Prop :=
  ∃ least, ∀ fuel, least ≤ fuel → interpret fuel h = interpret fuel h'

theorem forget_alike {α : Type} {x x' : HttpCall (α × HttpServer)}
    (h : Alike TwinRaise (Paired Twin) x x') : forget x = forget x' := by
  cases h with
  | ok h =>
    obtain ⟨a, -⟩ := h
    rfl
  | raise h => exact congrArg raise h.1
  | fault => rfl
  | outOfFuel => rfl

theorem interpret_alike
    (hreq : Alike TwinRaise (Paired Twin) (h.readRequest fuel) (h'.readRequest fuel)) :
    interpret fuel h = interpret fuel h' := by
  simp only [interpret]
  generalize h.readRequest fuel = x at hreq ⊢
  generalize h'.readRequest fuel = x' at hreq ⊢
  cases hreq with
  | ok hr =>
    obtain ⟨uri, ht⟩ := hr
    have hcontent := forget_alike (ht.readFullContent fuel)
    cases ht with
    | intro hs =>
      dsimp only
      rw [hcontent]
      rfl
  | raise he => exact congrArg raise he.1
  | fault => rfl
  | outOfFuel => rfl

/-- The end of a head with the same headers. -/
theorem finishHead_alike {more : Bool} (ht : h.HeadTwin h')
    (hsize : more = false → h'.req_body_size = h.req_body_size)
    (hheaders : h'.req_headers = h.req_headers) (fuel : Nat) :
    Alike TwinRaise (Paired Twin) (finishHead fuel (some more, h))
      (finishHead fuel (some more, h')) := by
  cases more with
  | true =>
    refine (ht.finishHeader hheaders fuel).bind ?_
    rintro _ _ ⟨hs⟩
    exact .ok (.intro _ (.intro hs))
  | false =>
    have hsize := hsize rfl
    cases ht with
    | @intro s' headers size hs =>
      obtain rfl : headers = h.req_headers := hheaders
      obtain rfl : size = h.req_body_size := hsize
      exact .ok (.intro _ (.intro hs))

theorem onStream_headers {α : Type} {a : α} {call : StreamBuffer → StreamCall (α × StreamBuffer)}
    (hrun : h.onStream call = .ok (a, h')) : h'.req_headers = h.req_headers := by
  unfold onStream at hrun
  split at hrun
  · obtain ⟨-, rfl⟩ := Prod.mk.inj (ok.inj hrun)
    rfl
  · cases hrun
  · cases hrun
  · cases hrun

/-- A call on the stream without a result does not change the headers. -/
theorem onStream'_headers {call : StreamBuffer → StreamCall StreamBuffer}
    (hrun : h.onStream' call = .ok h') : h'.req_headers = h.req_headers := by
  obtain ⟨⟨_, h₁⟩, hcall, hlast⟩ := bind_eq_ok.mp hrun
  exact ok.inj hlast ▸ onStream_headers hcall

theorem startChunks_headers (hrun : h.startChunks fuel = .ok h') :
    h'.req_headers = h.req_headers := by
  obtain ⟨⟨size, h₁⟩, hcall, hlast⟩ := bind_eq_ok.mp hrun
  have hsame := onStream_headers hcall
  dsimp only at hlast
  split_ifs at hlast
  · exact (onStream'_headers hlast).trans hsame
  · exact ok.inj hlast ▸ hsame

/-- Finishing a header does not change the headers. -/
theorem finishHeader_headers (hrun : h.finishHeader fuel = .ok h') :
    h'.req_headers = h.req_headers := by
  have hlast (h₁ : HttpServer) (hlast : (if h₁.connection_state = 0 then
      .ok { h₁ with connection_state := if h₁.req_version ≤ 0x100 then 2 else 1 }
      else .ok h₁ : HttpCall HttpServer) = .ok h') : h'.req_headers = h₁.req_headers := by
    by_cases hstate : h₁.connection_state = 0
    · obtain rfl := ok.inj ((if_pos hstate).symm.trans hlast)
      rfl
    · obtain rfl := ok.inj ((if_neg hstate).symm.trans hlast)
      rfl
  unfold finishHeader at hrun
  dsimp only at hrun
  split at hrun
  · split_ifs at hrun
    · obtain ⟨h₁, hstart, hrest⟩ := bind_eq_ok.mp hrun
      have hsame := startChunks_headers hstart
      exact (hlast h₁ hrest).trans hsame
    · exact hlast { h with req_body_size := h.bodySize } hrun
  · exact hlast { h with req_body_size := h.bodySize } hrun

/-- The next chunk does not change the headers. -/
theorem updateNextChunk_headers {more : Bool} (hrun : h.updateNextChunk fuel = .ok (more, h')) :
    h'.req_headers = h.req_headers := by
  obtain ⟨⟨_, h₁⟩, hline, hrest⟩ := bind_eq_ok.mp hrun
  obtain ⟨⟨size, h₂⟩, hsize, hrest⟩ := bind_eq_ok.mp hrest
  have hsame := (onStream_headers hsize).trans (onStream_headers hline)
  dsimp only at hrest
  split_ifs at hrest
  · obtain ⟨h₃, htrailer, hlast⟩ := bind_eq_ok.mp hrest
    obtain ⟨-, rfl⟩ := Prod.mk.inj (ok.inj hlast)
    exact (onStream'_headers htrailer).trans hsame
  · obtain ⟨-, rfl⟩ := Prod.mk.inj (ok.inj hrest)
    exact hsame

/-- Reading the parts of a body does not change the headers. -/
theorem readParts_headers {data : Blob} (hrun : readParts fuel h data = .ok (content, h')) :
    h'.req_headers = h.req_headers := by
  induction fuel generalizing h data with
  | zero => cases hrun
  | succ fuel ih =>
    obtain ⟨⟨more, h₁⟩, hnext, hrest⟩ := bind_eq_ok.mp hrun
    have hsame : h₁.req_headers = h.req_headers := by
      unfold nextPart at hnext
      split_ifs at hnext
      · exact updateNextChunk_headers hnext
      · obtain ⟨-, rfl⟩ := Prod.mk.inj (ok.inj hnext)
        rfl
      · obtain ⟨-, rfl⟩ := Prod.mk.inj (ok.inj hnext)
        rfl
    cases more with
    | true =>
      obtain ⟨⟨⟨data, n⟩, h₂⟩, hpart, hrest⟩ := bind_eq_ok.mp hrest
      have hpart := onStream_headers hpart
      exact (ih hrest).trans (hpart.trans hsame)
    | false =>
      obtain ⟨-, rfl⟩ := Prod.mk.inj (ok.inj hrest)
      exact hsame

theorem readFullContent_headers (hrun : h.readFullContent fuel = .ok (content, h')) :
    h'.req_headers = h.req_headers := by
  unfold readFullContent at hrun
  split_ifs at hrun
  · exact readParts_headers hrun
  · obtain ⟨h₁, hend, hrest⟩ := bind_eq_ok.mp hrun
    exact (onStream_headers hrest).trans (onStream'_headers hend)

/-- A request keeps every header that it does not carry itself. -/
theorem readRequest_headers (hstate : h.connection_state < 2) (hhead : RequestHead line lines blank)
    (hholds : h.read_stream.Holds
      (line ++ 10 :: ((lines.map fun l => l.1 ++ [10]).flatten ++ (blank ++ 10 :: rest)))) :
    ∃ least, ∀ fuel, least ≤ fuel → ∀ uri h', h.readRequest fuel = .ok (uri, h') →
      h'.req_headers = withHeaders (carried line lines) h.req_headers := by
  obtain ⟨h₁, ⟨least, hrun⟩, hheaders⟩ := readHead_returns
    (h := { h with connection_state := 0, transfer_encoding := .TE_Basic }) hhead hholds
  refine ⟨least, fun fuel hfuel uri h' hread => ?_⟩
  have hblock : readRequestBlock fuel
      { h with connection_state := 0, transfer_encoding := .TE_Basic } = .ok (uri, h') := by
    simp only [readRequest, if_neg (Nat.not_le.mpr hstate)] at hread
    split at hread
    · cases hread
    · exact hread
  rw [readRequestBlock_eq] at hblock
  simp only [hrun fuel hfuel, ok_bind] at hblock
  rw [← hheaders]
  cases hversion : hasVersion line with
  | true =>
    rw [hversion] at hblock
    obtain ⟨h₂, hfinish, hlast⟩ := bind_eq_ok.mp hblock
    obtain ⟨-, rfl⟩ := Prod.mk.inj (ok.inj hlast)
    exact finishHeader_headers hfinish
  | false =>
    rw [hversion] at hblock
    obtain ⟨-, rfl⟩ := Prod.mk.inj (ok.inj hblock)
    rfl

/-- With the same headers from before, or from the request itself, a request is interpreted in the
same way. -/
theorem sameInterpretation_of_agree (hstate : h.connection_state < 2)
    (hstate' : h'.connection_state < 2) (hstream : h.read_stream.Twin h'.read_stream)
    (hhead : RequestHead line lines blank) (hholds : h.read_stream.Holds
      (line ++ 10 :: ((lines.map fun l => l.1 ++ [10]).flatten ++ (blank ++ 10 :: rest))))
    (hagree : ∀ k, k ∉ (carried line lines).map (fun l => l.2.1.text) →
      h.req_headers k = h'.req_headers k) : SameInterpretation h h' := by
  have hholds' := hstream.holds hholds
  obtain ⟨h₁, ⟨least, hrun⟩, hheaders⟩ := readHead_returns
    (h := { h with connection_state := 0, transfer_encoding := .TE_Basic }) hhead hholds
  obtain ⟨h₂, ⟨least', hrun'⟩, hheaders'⟩ := readHead_returns
    (h := { h' with connection_state := 0, transfer_encoding := .TE_Basic }) hhead hholds'
  have hsame : h₂.req_headers = h₁.req_headers := by
    rw [hheaders, hheaders']
    funext k
    exact (List.foldl_update_congr (hagree k)).symm
  refine ⟨max least least', fun fuel hfuel => interpret_alike ?_⟩
  have hline : LineTwin { h with connection_state := 0, transfer_encoding := .TE_Basic }
      { h' with connection_state := 0, transfer_encoding := .TE_Basic } := ⟨hstream, rfl, rfl⟩
  have hhead := hline.readHead fuel
  have hleft := hrun fuel (by omega)
  have hright := hrun' fuel (by omega)
  simp only at hleft hright
  rw [hleft, hright] at hhead
  have hfinish : Alike TwinRaise (Paired Twin) (finishHead fuel (some (hasVersion line), h₁))
      (finishHead fuel (some (hasVersion line), h₂)) := by
    cases hhead with
    | ok hpair =>
      cases hpair with
      | some more ht hsize => exact finishHead_alike ht hsize hsame fuel
  simp only [readRequest, if_neg (Nat.not_le.mpr hstate), if_neg (Nat.not_le.mpr hstate'),
    readRequestBlock_eq, hleft, hright, ok_bind]
  generalize finishHead fuel (some (hasVersion line), h₁) = x at hfinish ⊢
  generalize finishHead fuel (some (hasVersion line), h₂) = x' at hfinish ⊢
  cases hfinish with
  | ok hr => exact .ok hr
  | raise he => exact .raise he
  | fault => exact .fault
  | outOfFuel => exact .outOfFuel

/-- A server on a connection after some requests with these header lines. Between them it writes
what it likes. -/
inductive Reached : List (Blob × DrString × DrString) → HttpServer → Prop
  | new (s : StreamBuffer) : Reached [] (new s)
  | request {earlier lines : List (Blob × DrString × DrString)} {h h₁ h₂ : HttpServer}
      {line blank content : Blob} {uri : Option DrString} (rest : Blob)
      (hreached : Reached earlier h) (hstate : h.connection_state < 2) (hhead : RequestHead line lines blank)
      (hholds : h.read_stream.Holds
        (line ++ 10 :: ((lines.map fun l => l.1 ++ [10]).flatten ++ (blank ++ 10 :: rest))))
      (hread : Returns (fun fuel => h.readRequest fuel) (uri, h₁))
      (hbody : Returns (fun fuel => h₁.readFullContent fuel) (content, h₂)) :
      Reached (earlier ++ carried line lines) h₂
  | write {earlier : List (Blob × DrString × DrString)} {h h' : HttpServer} {data : Blob}
      (hreached : Reached earlier h) (hwrite : Returns (fun fuel => writeFull fuel h data) h') :
      Reached earlier h'

/-- The headers of all requests up to now are there. -/
theorem Reached.headers (hreached : Reached lines h) :
    h.req_headers = withHeaders lines fun _ => none := by
  induction hreached with
  | new s => rfl
  | request _ _ hstate hhead hholds hread hbody ih =>
    obtain ⟨least₁, hread⟩ := hread
    obtain ⟨least₂, hbody⟩ := hbody
    obtain ⟨least₃, hheaders⟩ := readRequest_headers hstate hhead hholds
    generalize hfuel : max (max least₁ least₂) least₃ = fuel
    have hkept := readFullContent_headers (hbody fuel (by omega))
    rw [hkept, hheaders fuel (by omega) _ _ (hread fuel (by omega)), ih, withHeaders, withHeaders,
      withHeaders, List.foldl_append]
  | write _ hwrite ih =>
    obtain ⟨least, hwrite⟩ := hwrite
    exact (onStream'_headers (hwrite least (Nat.le_refl least))).trans ih

/-- What differs in the headers from before, and is not in the request, is seen in it. -/
theorem agree_of_sameInterpretation (hstate : h.connection_state < 2)
    (hstate' : h'.connection_state < 2) (hstream : h.read_stream.Twin h'.read_stream)
    (hhead : RequestHead line lines blank) (hholds : h.read_stream.Holds
      (line ++ 10 :: ((lines.map fun l => l.1 ++ [10]).flatten ++ (blank ++ 10 :: rest))))
    (haccepted : ∃ result, Returns (fun fuel => h.readRequest fuel) result)
    (hsame : SameInterpretation h h') {k : List UInt32}
    (hk : k ∉ (carried line lines).map fun l => l.2.1.text) :
    h.req_headers k = h'.req_headers k := by
  obtain ⟨⟨uri, r⟩, least₁, hread⟩ := haccepted
  obtain ⟨least₂, hsame⟩ := hsame
  obtain ⟨least₃, hheaders⟩ := readRequest_headers hstate hhead hholds
  obtain ⟨least₄, hheaders'⟩ := readRequest_headers hstate' hhead (hstream.holds hholds)
  generalize hfuel : max (max least₁ least₂) (max least₃ least₄) = fuel
  have hread := hread fuel (by omega)
  have hsame := hsame fuel (by omega)
  simp only [interpret, hread] at hsame
  split at hsame
  next uri' r' hread' =>
    have hget := congrArg (fun o : Interpretation => o.getHeader) (ok.inj hsame)
    have hk₁ := hheaders fuel (by omega) uri r hread
    have hk₂ := hheaders' fuel (by omega) uri' r' hread'
    have hkept : r.req_headers k = h.req_headers k := by
      rw [hk₁]
      exact List.foldl_update_of_notMem hk
    have hkept' : r'.req_headers k = h'.req_headers k := by
      rw [hk₂]
      exact List.foldl_update_of_notMem hk
    rw [← hkept, ← hkept']
    exact congrFun hget (.wide k)
  · cases hsame
  · cases hsame
  · cases hsame

/-- The last request of two histories is interpreted in the same way exactly when the headers of
the earlier requests agree on every name that the last one does not carry itself. -/
theorem sameInterpretation_iff {h h' : HttpServer} {line blank rest : Blob}
    {earlier earlier' lines : List (Blob × DrString × DrString)} (hreached : Reached earlier h)
    (hreached' : Reached earlier' h') (hstate : h.connection_state < 2)
    (hstate' : h'.connection_state < 2) (hstream : h.read_stream.Twin h'.read_stream)
    (hhead : RequestHead line lines blank)
    (hholds : h.read_stream.Holds
      (line ++ 10 :: ((lines.map fun l => l.1 ++ [10]).flatten ++ (blank ++ 10 :: rest))))
    (haccepted : ∃ result, Returns (fun fuel => h.readRequest fuel) result) :
    SameInterpretation h h' ↔
      ∀ k, k ∉ (carried line lines).map (fun l => l.2.1.text) →
        withHeaders earlier (fun _ => none) k = withHeaders earlier' (fun _ => none) k := by
  rw [← hreached.headers, ← hreached'.headers]
  exact ⟨fun hsame k hk => agree_of_sameInterpretation hstate hstate' hstream hhead hholds
    haccepted hsame hk, sameInterpretation_of_agree hstate hstate' hstream hhead hholds⟩

/-- A server that has all of these octets ahead, and reads them at once. -/
def served (octets : Blob) : HttpServer := new (.new (.fresh (.every 4096 (by decide)) octets))

/-- The first request that a server reads. -/
def firstRequest (h : HttpServer) : Option DrString × HttpServer :=
  (h.readRequest 10).getD (none, h)

/-- The body of the first request that a server reads. -/
def firstBody (h : HttpServer) : Blob × HttpServer :=
  (h.firstRequest.2.readFullContent 10).getD ([], h)

/-- A server behind a `PUT` with a body of one octet. -/
def afterPut : HttpServer := (firstBody (served (ascii
  "PUT / HTTP/1.1\r\ncontent-length: 1\r\n\r\nZGET / HTTP/1.1\r\n\r\nab"))).2

/-- A server behind a `GET` with another header. -/
def afterGet : HttpServer := (firstBody (served (ascii
  "GET / HTTP/1.1\r\na: b\r\n\r\nGET / HTTP/1.1\r\n\r\nab"))).2

/-- The `PUT` is an earlier request. -/
theorem reached_afterPut : Reached
    [(ascii "content-length: 1\r", .bytes (ascii "content-length"), .bytes (ascii "1"))]
    afterPut := by
  generalize hoctets : ascii
    "PUT / HTTP/1.1\r\ncontent-length: 1\r\n\r\nZGET / HTTP/1.1\r\n\r\nab" = octets
  have hread : Returns (fun fuel => (served octets).readRequest fuel)
      (firstRequest (served octets)) := hoctets ▸ .of_add 10 fun fuel => rfl
  have hbody : Returns (fun fuel => (firstRequest (served octets)).2.readFullContent fuel)
      (firstBody (served octets)) := hoctets ▸ .of_add 10 fun fuel => rfl
  have hline : HoldsHeader (ascii "content-length: 1\r")
    (.bytes (ascii "content-length"), .bytes (ascii "1")) := ⟨by decide, by decide, by decide⟩
  have hhead : RequestHead (ascii "PUT / HTTP/1.1\r")
      [(ascii "content-length: 1\r", .bytes (ascii "content-length"), .bytes (ascii "1"))] [13] :=
    ⟨by decide, by decide, by decide, List.forall_mem_singleton.mpr hline, by decide, by decide⟩
  have hholds := holds_new (.every 4096 (by decide)) octets
  rw [← hoctets] at hholds hread hbody
  exact .request (ascii "ZGET / HTTP/1.1\r\n\r\nab") (.new _) (Nat.succ_pos 1) hhead hholds hread
    hbody

/-- The `GET` is an earlier request. -/
theorem reached_afterGet : Reached
    [(ascii "a: b\r", .bytes (ascii "a"), .bytes (ascii "b"))] afterGet := by
  generalize hoctets : ascii "GET / HTTP/1.1\r\na: b\r\n\r\nGET / HTTP/1.1\r\n\r\nab" = octets
  have hread : Returns (fun fuel => (served octets).readRequest fuel)
      (firstRequest (served octets)) := hoctets ▸ .of_add 10 fun fuel => rfl
  have hbody : Returns (fun fuel => (firstRequest (served octets)).2.readFullContent fuel)
      (firstBody (served octets)) := hoctets ▸ .of_add 10 fun fuel => rfl
  have hline : HoldsHeader (ascii "a: b\r") (.bytes (ascii "a"), .bytes (ascii "b")) :=
    ⟨by decide, by decide, by decide⟩
  have hhead : RequestHead (ascii "GET / HTTP/1.1\r")
      [(ascii "a: b\r", .bytes (ascii "a"), .bytes (ascii "b"))] [13] :=
    ⟨by decide, by decide, by decide, List.forall_mem_singleton.mpr hline, by decide, by decide⟩
  have hholds := holds_new (.every 4096 (by decide)) octets
  rw [← hoctets] at hholds hread hbody
  exact .request (ascii "GET / HTTP/1.1\r\n\r\nab") (.new _) (Nat.succ_pos 1) hhead hholds hread
    hbody

/-- The same octets lie ahead of both servers, and come in the same reads. -/
theorem twin_afterPut_afterGet : afterPut.read_stream.Twin afterGet.read_stream ∧
    afterPut.read_stream.Holds (ascii "GET / HTTP/1.1\r\n\r\nab") := by
  have hschedule : afterPut.read_stream.handle.schedule = .every 4096 (by decide) ∧
      afterGet.read_stream.handle.schedule = .every 4096 (by decide) := ⟨rfl, rfl⟩
  have hpending : afterPut.read_stream.handle.pending = [] ∧
      afterGet.read_stream.handle.pending = [] := by decide
  refine ⟨.of_eq ⟨fun i => ?_, fun i => ?_, ?_⟩ (by decide) (by decide) (by decide),
    by decide, by decide, by decide, by decide⟩
  · rw [hschedule.1, hschedule.2]
    rfl
  · rw [hschedule.1, hschedule.2]
    rfl
  · rw [hpending.1, hpending.2]

/-- The condition for the `GET` that follows both. -/
theorem sameInterpretation_iff_get :
    SameInterpretation afterPut afterGet ↔
      ∀ k, k ∉ (carried (ascii "GET / HTTP/1.1\r") []).map (fun l => l.2.1.text) →
        withHeaders [(ascii "content-length: 1\r", .bytes (ascii "content-length"),
          .bytes (ascii "1"))] (fun _ => none) k =
        withHeaders [(ascii "a: b\r", .bytes (ascii "a"), .bytes (ascii "b"))] (fun _ => none) k :=
  sameInterpretation_iff reached_afterPut reached_afterGet (by decide) (by decide)
    twin_afterPut_afterGet.1
    (show RequestHead (ascii "GET / HTTP/1.1\r") [] [13] from
      ⟨by decide, by decide, by decide, List.forall_mem_nil _, by decide, by decide⟩)
    (show afterPut.read_stream.Holds
      (ascii "GET / HTTP/1.1\r" ++ 10 :: ([] ++ ([13] ++ 10 :: ascii "ab"))) from
        twin_afterPut_afterGet.2)
    ⟨firstRequest afterPut, .of_add 10 fun fuel => rfl⟩

/-- The length of an earlier body is taken for that of a `GET` without a body. -/
theorem not_sameInterpretation_get :
    ∃ earlier earlier' h h', Reached earlier h ∧ Reached earlier' h' ∧ h.connection_state < 2 ∧
      h'.connection_state < 2 ∧ h.read_stream.Twin h'.read_stream ∧
      h.read_stream.Holds (ascii "GET / HTTP/1.1\r\n\r\nab") ∧ ¬ SameInterpretation h h' := by
  refine ⟨_, _, afterPut, afterGet, reached_afterPut, reached_afterGet, by decide, by decide,
    twin_afterPut_afterGet.1, twin_afterPut_afterGet.2, fun hsame => ?_⟩
  obtain ⟨least, hsame⟩ := hsame
  have heq := hsame (least + 10) (Nat.le_add_right least 10)
  -- The body of the `GET` has one octet for one server, and none for the other one.
  let size (x : Outcome Exception Interpretation) : Int := (x.getD ⟨none, .other, fun _ => none,
    .TE_Basic, 0, .fault⟩).body_size
  have hleft : size (interpret (least + 10) afterPut) = 1 := rfl
  have hright : size (interpret (least + 10) afterGet) = 0 := rfl
  rw [heq, hright] at hleft
  exact absurd hleft (by decide)

end HttpServer

end Drt
