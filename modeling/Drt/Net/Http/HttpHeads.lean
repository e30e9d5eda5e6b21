import Drt.Net.Http.HttpIsolation

/-!
# A request up to its body

The server behind the head of any request, and how `readRequest` goes on from there. The
version is the one that stands in the line; the state of the connection is what the
headers made of it.
-/

open List

namespace Drt

open Outcome

/-- The name of the header with the length of a body. -/
def contentLength : List UInt32 := (DrString.bytes (ascii "content-length")).text

/-- The name of the header with the encoding of a body. -/
def transferEncoding : List UInt32 := (DrString.bytes (ascii "transfer-encoding")).text

theorem tolower_tolower (c : UInt8) : tolower (tolower c) = tolower c := by
  unfold tolower
  split_ifs with hupper hagain
  · have hle := UInt8.le_iff_toNat_le.mp hupper.1
    have hle' := UInt8.le_iff_toNat_le.mp hupper.2
    have hagain := UInt8.le_iff_toNat_le.mp hagain.2
    rw [UInt8.toNat_add] at hagain
    have h65 : (65 : UInt8).toNat = 65 := rfl
    have h90 : (90 : UInt8).toNat = 90 := rfl
    have h32 : (32 : UInt8).toNat = 32 := rfl
    omega
  · rfl
  · rfl

theorem HoldsHeader.lower {line : Blob} {header : DrString × DrString}
    (h : HoldsHeader line header) : createLowerUtf8 header.2.utf8 = header.2 := by
  have hheader := h.header
  unfold headerOf at hheader
  split at hheader
  · cases hheader
  · obtain rfl := Option.some.inj hheader
    simp only [createLowerUtf8, DrString.utf8, map_map]
    refine congrArg DrString.bytes (map_congr_left fun c _ => tolower_tolower c)

namespace HttpServer

/-- What is behind the URI in a request line. -/
def behindUri (line : Blob) : Blob :=
  (((line.dropWhile fun c => !isspace c).dropWhile isspace).dropWhile fun c =>
    !isspace c).dropWhile isspace

/-- The text of the version in a request line: what is behind the `/`. -/
def versionText (line : Blob) : Blob := ((behindUri line).dropWhile (· ≠ 47)).drop 1

theorem versionText_suffix (line : Blob) : versionText line <:+ line :=
  (drop_suffix _ _).trans ((dropWhile_suffix _).trans ((dropWhile_suffix _).trans
    ((dropWhile_suffix _).trans ((dropWhile_suffix _).trans (dropWhile_suffix _)))))

/-- The version behind a request line with these octets after it. -/
def versionOf (line more : Blob) : UInt32 :=
  parseVersion (versionText line ++ 10 :: more) (versionText line).length

variable {h h' : HttpServer} {line more rest : Blob} {lines : List (Blob × DrString × DrString)}

/-- A request line without a version ends the request, and the connection after it. -/
theorem parseRequestLine_short (hmethod : line.dropWhile (fun c => !isspace c) ≠ [])
    (hknown : HttpConst.method_type_map (methodOf line) ≠ .other)
    (hversion : hasVersion line = false)
    (hcache : h.read_stream.cache.octets = line ++ 10 :: more) :
    ∃ h', h.parseRequestLine line.length = .ok (false, h') ∧ h'.connection_state = 2 := by
  have htake : (line ++ 10 :: more).take line.length = line := take_left
  have hend : behindUri line = [] := by
    by_contra hne
    rw [hasVersion, decide_eq_false_iff_not] at hversion
    exact hversion hne
  rw [behindUri] at hend
  rw [methodOf] at hknown
  simp only [parseRequestLine, hcache, htake]
  rw [if_neg hmethod, if_neg hknown, if_pos hend]
  exact ⟨_, rfl, rfl⟩

/-- A request line with a version is taken apart. -/
theorem parseRequestLine_version (hmethod : line.dropWhile (fun c => !isspace c) ≠ [])
    (hknown : HttpConst.method_type_map (methodOf line) ≠ .other)
    (hversion : hasVersion line = true) (hcache : h.read_stream.cache.octets = line ++ 10 :: more) :
    ∃ h', h.parseRequestLine line.length = .ok (true, h') ∧
      h'.connection_state = h.connection_state ∧ h'.transfer_encoding = h.transfer_encoding ∧
      h'.req_headers = h.req_headers ∧ h'.req_version = versionOf line more ∧
      h'.read_stream = h.read_stream.shrinkCache (line.length + 1) := by
  have htake : (line ++ 10 :: more).take line.length = line := take_left
  have hend : behindUri line ≠ [] := by
    rw [hasVersion, decide_eq_true_iff] at hversion
    exact hversion
  have hdrop : (line ++ 10 :: more).drop (line.length - (versionText line).length) =
      versionText line ++ 10 :: more := by
    obtain ⟨front, hfront⟩ := versionText_suffix line
    have hlength := congrArg List.length hfront
    rw [length_append] at hlength
    have hplace : line.length - (versionText line).length = front.length := by omega
    rw [hplace]
    nth_rewrite 1 [← hfront]
    rw [append_assoc, drop_left]
  rw [versionText, behindUri] at hdrop
  rw [behindUri] at hend
  rw [methodOf] at hknown
  simp only [parseRequestLine, hcache, htake]
  rw [if_neg hmethod, if_neg hknown, if_neg hend, hdrop, versionOf, versionText, behindUri]
  exact ⟨_, rfl, rfl, rfl, rfl, rfl, rfl⟩

/-- The value `keep-alive`. -/
def keepAlive : List UInt32 := (DrString.bytes (ascii "keep-alive")).text

/-- The state of the connection for the value of the header that decides it. -/
def valueState (value : DrString) : Nat :=
  if value.text = keepAlive then 1 else 2

/-- The state of the connection behind these headers: the last one named `close` decides it. -/
def headerState (lines : List (Blob × DrString × DrString)) (state : Nat) : Nat :=
  lines.foldl (fun state l =>
    if l.2.1.text = (DrString.bytes (ascii "close")).text then valueState l.2.2 else state) state

/-- Header lines leave their headers, and decide the state of the connection. -/
theorem foldl_processHeader_eq (hlines : ∀ l ∈ lines, HoldsHeader l.1 l.2) (h : HttpServer) :
    lines.foldl (fun h l => h.processHeader l.2.1 l.2.2) h = { h with
      req_headers := withHeaders lines h.req_headers
      connection_state := headerState lines h.connection_state } := by
  induction lines generalizing h with
  | nil => rfl
  | cons l lines ih =>
    obtain ⟨hl, hlines⟩ := forall_mem_cons.mp hlines
    have hone : h.processHeader l.2.1 l.2.2 = { h with
        req_headers := Function.update h.req_headers l.2.1.text (some l.2.2)
        connection_state := if l.2.1.text = (DrString.bytes (ascii "close")).text then
          valueState l.2.2 else h.connection_state } := by
      have hvalue : (DrString.bytes (ascii "keep-alive")).text = keepAlive := rfl
      simp only [processHeader, processHeaderConnection, hl.lower, valueState, hvalue]
      split_ifs with hname hclose hkeep hkeep
      · rw [hclose] at hkeep
        exact absurd hkeep (by decide)
      · rfl
      · rfl
      · rfl
      · rfl
    rw [foldl_cons, hone, ih hlines, withHeaders, withHeaders, headerState, headerState,
      foldl_cons, foldl_cons]

/-- A call on the stream changes nothing but the stream. -/
theorem onStream_keeps {α : Type} {a : α} {call : StreamBuffer → StreamCall (α × StreamBuffer)}
    (hrun : h.onStream call = .ok (a, h')) : ∃ s, h' = { h with read_stream := s } := by
  unfold onStream at hrun
  split at hrun
  · obtain ⟨-, rfl⟩ := Prod.mk.inj (Outcome.ok.inj hrun)
    exact ⟨_, rfl⟩
  · cases hrun
  · cases hrun
  · cases hrun

/-- A call on the stream without a result changes nothing but the stream. -/
theorem onStream'_keeps {call : StreamBuffer → StreamCall StreamBuffer}
    (hrun : h.onStream' call = .ok h') : ∃ s, h' = { h with read_stream := s } := by
  obtain ⟨⟨_, h₁⟩, hcall, hlast⟩ := bind_eq_ok.mp hrun
  exact Outcome.ok.inj hlast ▸ onStream_keeps hcall

/-- The start of a chunked body leaves the version and the state of the connection. -/
theorem startChunks_keeps {fuel : Nat} (hrun : h.startChunks fuel = .ok h') :
    h'.req_version = h.req_version ∧ h'.connection_state = h.connection_state := by
  obtain ⟨⟨size, h₁⟩, hcall, hlast⟩ := bind_eq_ok.mp hrun
  obtain ⟨s, rfl⟩ := onStream_keeps hcall
  dsimp only at hlast
  split_ifs at hlast
  · obtain ⟨s', rfl⟩ := onStream'_keeps hlast
    exact ⟨rfl, rfl⟩
  · obtain rfl := Outcome.ok.inj hlast
    exact ⟨rfl, rfl⟩

/-- What no header has decided is decided by the version. -/
theorem finishHeader_state {fuel : Nat} (hrun : h.finishHeader fuel = .ok h') :
    h'.connection_state = if h.connection_state = 0 then
      (if h.req_version ≤ 0x100 then 2 else 1) else h.connection_state := by
  have hlast (h₁ : HttpServer) (hversion : h₁.req_version = h.req_version)
      (hstate : h₁.connection_state = h.connection_state)
      (hlast : (if h₁.connection_state = 0 then
        .ok { h₁ with connection_state := if h₁.req_version ≤ 0x100 then 2 else 1 }
        else .ok h₁ : HttpCall HttpServer) = .ok h') :
      h'.connection_state = if h.connection_state = 0 then
        (if h.req_version ≤ 0x100 then 2 else 1) else h.connection_state := by
    by_cases hzero : h₁.connection_state = 0
    · obtain rfl := Outcome.ok.inj ((if_pos hzero).symm.trans hlast)
      rw [hstate] at hzero
      rw [if_pos hzero, ← hversion]
    · obtain rfl := Outcome.ok.inj ((if_neg hzero).symm.trans hlast)
      rw [hstate] at hzero
      rw [if_neg hzero, hstate]
  unfold finishHeader at hrun
  dsimp only at hrun
  split at hrun
  · split_ifs at hrun
    · obtain ⟨h₁, hstart, hrest⟩ := bind_eq_ok.mp hrun
      obtain ⟨hversion, hstate⟩ := startChunks_keeps hstart
      exact hlast h₁ hversion hstate hrest
    · exact hlast { h with req_body_size := h.bodySize } rfl rfl hrun
  · exact hlast { h with req_body_size := h.bodySize } rfl rfl hrun

/-- A header is finished without a look at the stream, unless the body is chunked. -/
theorem finishHeader_plain (hencoding : ∀ encoding, h.req_headers transferEncoding = some encoding →
      encoding.utf8 ≠ ascii "chunked") :
    ∃ state, Returns (fun fuel => h.finishHeader fuel)
      { h with req_body_size := h.bodySize, connection_state := state } := by
  have hstart (fuel : Nat) : h.finishHeader fuel =
      if h.connection_state = 0 then
        .ok { h with
          req_body_size := h.bodySize
          connection_state := if h.req_version ≤ 0x100 then 2 else 1 }
      else .ok { h with req_body_size := h.bodySize } := by
    have hsame : header { h with req_body_size := h.bodySize } "transfer-encoding" =
      h.req_headers transferEncoding := rfl
    simp only [finishHeader, hsame]
    cases hvalue : h.req_headers transferEncoding with
    | none => rfl
    | some encoding =>
      simp only [if_neg (hencoding encoding hvalue)]
      rfl
  by_cases hstate : h.connection_state = 0
  · exact ⟨if h.req_version ≤ 0x100 then 2 else 1, .of_eq fun fuel => by rw [hstart, if_pos hstate]⟩
  · exact ⟨h.connection_state, .of_eq fun fuel => by rw [hstart, if_neg hstate]⟩

/-- The head of a request with a version is read to its end. -/
theorem readHead_version {blank : Blob} (hhead : RequestHead line lines blank)
    (hversion : hasVersion line = true) (hholds : h.read_stream.Holds
      (line ++ 10 :: ((lines.map fun l => l.1 ++ [10]).flatten ++ (blank ++ 10 :: rest)))) :
    ∃ h₁ more, h₁.connection_state = headerState lines h.connection_state ∧
      h₁.transfer_encoding = h.transfer_encoding ∧
      h₁.req_headers = withHeaders lines h.req_headers ∧ h₁.req_version = versionOf line more ∧
      h₁.read_stream.Holds rest ∧ Returns (fun fuel => h.readHead fuel) (some true, h₁) := by
  obtain ⟨s₁, hread, h₁, more, hmore⟩ :=
    StreamBuffer.tryReadUntilChar_returns hholds hhead.oneLine (Nat.zero_le _)
  have hfirst : Returns (fun fuel => readFirstLine fuel h)
      (some line.length, { h with read_stream := s₁ }) := by
    obtain ⟨least, hrun⟩ := hread
    exact ⟨least, fun fuel hfuel => by simp only [readFirstLine, onStream, hrun fuel hfuel]⟩
  obtain ⟨h₂, hparse, hstate, hencoding, hheaders, hnumber, hstream⟩ :=
    parseRequestLine_version (h := { h with read_stream := s₁ }) hhead.method hhead.supported
      hversion hmore
  have hahead : h₂.read_stream.Holds
      ((lines.map fun l => l.1 ++ [10]).flatten ++ (blank ++ 10 :: rest)) := by
    have hsplit (x : Blob) : line ++ 10 :: x = (line ++ [10]) ++ x := by simp
    have hnext := (hsplit _ ▸ h₁).shrinkCache ⟨more, by rw [hmore, hsplit]⟩
    rw [length_append, length_singleton] at hnext
    rwa [hstream]
  obtain ⟨s₃, hlines, h₃⟩ :=
    readHeaderLines_returns hhead.headers hhead.blankLine hhead.empty hahead
  rw [foldl_processHeader_eq hhead.headers] at hlines
  refine ⟨{ h₂ with
    req_headers := withHeaders lines h₂.req_headers
    connection_state := headerState lines h₂.connection_state
    read_stream := s₃ }, more, congrArg (headerState lines) hstate, hencoding,
    congrArg (withHeaders lines) hheaders, hnumber, h₃, hfirst.bind ?_⟩
  simp only [hparse, ok_bind, if_true]
  exact hlines.bind (.ok _)

/-- The head of a request without a version is its first line. -/
theorem readHead_short (hline : 10 ∉ line) (hmethod : line.dropWhile (fun c => !isspace c) ≠ [])
    (hknown : HttpConst.method_type_map (methodOf line) ≠ .other)
    (hversion : hasVersion line = false) (hholds : h.read_stream.Holds (line ++ 10 :: rest)) :
    ∃ h₁, h₁.connection_state = 2 ∧ Returns (fun fuel => h.readHead fuel) (some false, h₁) := by
  obtain ⟨s₁, hread, h₁, more, hmore⟩ :=
    StreamBuffer.tryReadUntilChar_returns hholds hline (Nat.zero_le _)
  have hfirst : Returns (fun fuel => readFirstLine fuel h)
      (some line.length, { h with read_stream := s₁ }) := by
    obtain ⟨least, hrun⟩ := hread
    exact ⟨least, fun fuel hfuel => by simp only [readFirstLine, onStream, hrun fuel hfuel]⟩
  obtain ⟨h₂, hparse, hstate⟩ :=
    parseRequestLine_short (h := { h with read_stream := s₁ }) hmethod hknown hversion hmore
  refine ⟨h₂, hstate, hfirst.bind ?_⟩
  simp only [hparse, ok_bind, Bool.false_eq_true, if_false]
  exact .ok _

/-- `readRequest` behind a head that was read returns what `finishHead` does. -/
theorem returns_readRequest_iff {h₁ : HttpServer} {more : Bool} (hstate : h.connection_state < 2)
    (hhead : Returns (fun fuel => readHead fuel
      { h with connection_state := 0, transfer_encoding := .TE_Basic }) (some more, h₁))
    (r : Option DrString × HttpServer) :
    Returns (fun fuel => h.readRequest fuel) r ↔
      Returns (fun fuel => finishHead fuel (some more, h₁)) r := by
  have hblock (fuel : Nat) : h.readRequest fuel = .ok r ↔ readRequestBlock fuel
      { h with connection_state := 0, transfer_encoding := .TE_Basic } = .ok r := by
    simp only [readRequest, if_neg (Nat.not_le.mpr hstate)]
    split
    next e h' hraise =>
      rw [hraise]
      exact iff_of_false (fun heq => by cases heq) fun heq => by cases heq
    next result _ => rfl
  have hsplit : Returns (fun fuel => h.readRequest fuel) r ↔
      Returns (fun fuel => readHead fuel
        { h with connection_state := 0, transfer_encoding := .TE_Basic } >>= finishHead fuel) r := by
    simp only [Returns, hblock, readRequestBlock_eq]
  rw [hsplit]
  exact ⟨fun hrun => hrun.of_bind hhead, fun hrun => hhead.bind hrun⟩

end HttpServer

end Drt
