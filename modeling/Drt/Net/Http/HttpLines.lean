import Drt.Io.Stream.StreamAhead
import Drt.Net.Http.HttpServer

/-!
# The HTTP client, and the lines of a request

`HttpClient` writes requests, whole or in parts, and reads the responses. The status
line is read with pointers; one that leaves the cache and its terminating zero is a
fault here.
-/

open List

namespace Drt

/-- The fields of `HttpClient`. -/
structure HttpClient where
  read_stream : StreamBuffer
  host : DrString
  /-- The headers by the texts of their names. -/
  response_headers : List UInt32 → Option DrString
  response_size : Int

/-- A call on a client. An exception comes with the client it leaves. -/
abbrev HttpClientCall (α : Type) := Outcome (Exception × HttpClient) α

namespace HttpClient

/-- A client on a connection. -/
def new (read_stream : StreamBuffer) (host : DrString) : HttpClient :=
  ⟨read_stream, host, fun _ => none, 0⟩

/-- A call on `read_stream`. -/
def onStream {α : Type} (h : HttpClient) (call : StreamBuffer → StreamCall (α × StreamBuffer)) :
    HttpClientCall (α × HttpClient) :=
  match call h.read_stream with
  | .ok (a, s) => .ok (a, { h with read_stream := s })
  | .raise (e, s) => .raise (e, { h with read_stream := s })
  | .fault => .fault
  | .outOfFuel => .outOfFuel

/-- `read_stream.writeFull`. -/
def writeFull (fuel : Nat) (h : HttpClient) (data : Blob) : HttpClientCall HttpClient := do
  let (_, h) ← h.onStream fun s => do
    let s ← StreamBuffer.writeFull fuel s data
    .ok ((), s)
  .ok h

/-- The line of a header. -/
def headerLine (key value : DrString) : Blob := key.utf8 ++ ascii ": " ++ value.utf8 ++ ascii "\r\n"

/-- The request line and the header lines. The method is appended as a text that ends at a zero. -/
def requestText (h : HttpClient) (method uri : DrString) (headers : List (DrString × DrString)) :
    Blob :=
  (if method.utf8 = [] then ascii "GET" else method.utf8.takeWhile (· ≠ 0)) ++ ascii " " ++
    uri.utf8 ++ ascii " HTTP/1.0\r\n" ++
    (if ∃ f ∈ headers, f.1.text = (DrString.bytes (ascii "host")).text then []
      else if h.host.utf8 = [] then [] else ascii "host: " ++ h.host.utf8 ++ ascii "\r\n") ++
    (headers.map fun f => headerLine f.1 f.2).flatten

/-- `sendRequest`; `none` is a null content. The shutdown of the sending side is left out: it
writes nothing. -/
def sendRequest (fuel : Nat) (h : HttpClient) (method uri : DrString)
    (headers : List (DrString × DrString)) (content : Option Blob) : HttpClientCall HttpClient := do
  let length := match content with
    | some data => ascii "content-length: " ++ numberText 10 data.length ++ ascii "\r\n"
    | none => []
  let h ← h.writeFull fuel (h.requestText method uri headers ++ length ++ ascii "\r\n")
  h.writeFull fuel (content.getD [])

def partialRequest (fuel : Nat) (h : HttpClient) (method uri : DrString)
    (headers : List (DrString × DrString)) : HttpClientCall HttpClient :=
  h.writeFull fuel (h.requestText method uri headers)

def partialStartBodyChunked (fuel : Nat) (h : HttpClient) : HttpClientCall HttpClient :=
  h.writeFull fuel (ascii "transfer-encoding: chunked\r\n\r\n")

def partialBodyChunked (fuel : Nat) (h : HttpClient) (data : Blob) : HttpClientCall HttpClient := do
  let h ← h.writeFull fuel (numberText 16 data.length ++ ascii "\r\n")
  let h ← h.writeFull fuel data
  h.writeFull fuel (ascii "\r\n")

def partialFinishBodyChunked (fuel : Nat) (h : HttpClient) : HttpClientCall HttpClient :=
  h.writeFull fuel (ascii "0\r\n\r\n")

/-- `*p` for a pointer into the cache or to the zero behind it. -/
def octetAt (cache : Blob) (p : Nat) : HttpClientCall UInt8 := .ofOption (cache ++ [0])[p]?

/-- `for (; b > c && isspace(b[-1]); b--)`. -/
def skipBack (cache : Blob) (c : Nat) : Nat → HttpClientCall Nat
  | 0 => .ok 0
  | b + 1 =>
    if b + 1 > c then do
      let octet ← octetAt cache b
      if isspace octet then skipBack cache c b else .ok (b + 1)
    else .ok (b + 1)

/-- `for (; c < b && isspace(*c); c++)`, with `n` places left. -/
def skipForward (cache : Blob) (c : Nat) : Nat → HttpClientCall Nat
  | 0 => .ok c
  | n + 1 => do
    let octet ← octetAt cache c
    if isspace octet then skipForward cache (c + 1) n else .ok c

/-- `setUtf8(c, b-c)`: a negative length stands for a text that ends at a zero. -/
def textBetween (cache : Blob) (c b : Nat) : HttpClientCall DrString :=
  if b < c then
    if c ≤ cache.length then .ok (.setUtf8 ((cache.drop c).takeWhile (· ≠ 0))) else .fault
  else if b ≤ cache.length + 1 then .ok (.setUtf8 (((cache ++ [0]).drop c).take (b - c)))
  else .fault

/-- The status line, which ends at place `n` of the cache. -/
def parseStatus (h : HttpClient) (n : Nat) : HttpClientCall ((Int32 × DrString) × HttpClient) :=
  let cache := h.read_stream.cache.octets
  let b := ((cache.take n).takeWhile fun c => !isspace c).length
  if b = (cache.take n).length then .raise (.endOfDataException "http" "status", h)
  else do
    let (resp_code, length) := strtol 10 (cache.drop b)
    let c := b + length
    let b ← skipBack cache c (b + n)
    let c ← skipForward cache c (b - c)
    let message ← textBetween cache c b
    .ok ((Int32.ofInt resp_code, message), { h with
      read_stream := h.read_stream.shrinkCache (n + 1) })

/-- The header lines. -/
def readHeaderLines : Nat → HttpClient → HttpClientCall HttpClient
  | 0, _ => .outOfFuel
  | fuel + 1, h => do
    match ← h.onStream (StreamBuffer.readHeaderLine fuel) with
    | (none, h) => .ok h
    | (some (key, val), h) =>
      readHeaderLines fuel
        { h with response_headers := Function.update h.response_headers key.text (some val) }

/-- `readHeaders`: the code and the message. -/
def readHeaders (fuel : Nat) (h : HttpClient) :
    HttpClientCall ((Int32 × DrString) × HttpClient) := do
  let (n, h) ← h.onStream fun s => StreamBuffer.readUntilChar fuel s 10 0
  let (status, h) ← h.parseStatus n
  let h ← readHeaderLines fuel h
  let length := match h.response_headers (DrString.bytes (ascii "content-length")).text with
    | some f => (strtol 0 f.utf8).1
    | none => -1
  .ok (status, { h with response_size := length })

def readFullContent (fuel : Nat) (h : HttpClient) : HttpClientCall (Blob × HttpClient) :=
  if h.response_size ≥ 0 then
    h.onStream fun s => StreamBuffer.readFull fuel s (sizeOf64 h.response_size)
  else
    h.onStream fun s => do
      let s ← StreamBuffer.extendToEnd fuel s
      .ok s.cleanGet

end HttpClient

/-! ### Reading the lines of a request

What the server gets from lines that lie ahead, and what the client has written. A
request is a first line, header lines that end with the empty one, and a body. -/

open Outcome

/-- A line without its `\n`, and the header it holds. -/
structure HoldsHeader (line : Blob) (header : DrString × DrString) : Prop where
  oneLine : 10 ∉ line
  notEmpty : trimRight line ≠ []
  header : headerOf (trimRight line) = some header

/-- Blanks are only trimmed behind the last character that is none. -/
theorem trimRight_append (a : Blob) {c : UInt8} (hc : isspace c = false) (b : Blob) :
    trimRight (a ++ c :: b) = a ++ c :: trimRight b := by
  have hdrop (x y : Blob) : (x ++ c :: y).dropWhile isspace = x.dropWhile isspace ++ c :: y := by
    induction x with
    | nil => simp [hc]
    | cons d x ih =>
      by_cases hd : isspace d
      · simp only [cons_append, dropWhile_cons, hd, if_true, ih]
      · simp [hd]
  unfold trimRight
  rw [reverse_append, reverse_cons, append_assoc, singleton_append, hdrop]
  simp

/-- A line with a name and a value. -/
theorem holdsHeader_line {name : Blob} {value : Blob} (hname : 58 ∉ name) (hline : 10 ∉ name)
    (hvalue : 10 ∉ value) :
    HoldsHeader (name ++ 58 :: value)
      (createLowerUtf8 name, createLowerUtf8 ((trimRight value).dropWhile isspace)) where
  oneLine := by
    simp only [mem_append, mem_cons, not_or]
    exact ⟨hline, by decide, hvalue⟩
  notEmpty := by
    rw [trimRight_append name (by decide) value]
    simp
  header := by
    have hall : ∀ c ∈ name, decide (c ≠ 58) = true :=
      fun c hc => decide_eq_true fun heq => hname (heq ▸ hc)
    rw [trimRight_append name (by decide) value, headerOf,
      dropWhile_append_of_pos hall, takeWhile_append_of_pos hall]
    simp

/-- A value without blanks at its ends is what is left of it with blanks. -/
theorem trim_value {value : Blob} (hhead : ∀ c, value.head? = some c → isspace c = false)
    (hlast : ∀ c, value.getLast? = some c → isspace c = false) :
    (trimRight (32 :: value ++ [13])).dropWhile isspace = value := by
  cases hvalue : value.reverse with
  | nil =>
    rw [reverse_eq_nil_iff.mp hvalue]
    decide
  | cons c rest =>
    obtain rfl : value = rest.reverse ++ [c] := by
      rw [← reverse_reverse value, hvalue, reverse_cons]
    have hc : isspace c = false := hlast c (by simp)
    have hsplit : 32 :: (rest.reverse ++ [c]) ++ [13] = (32 :: rest.reverse) ++ c :: [13] := by
      simp
    rw [hsplit, trimRight_append _ hc, show trimRight [13] = [] by decide, cons_append,
      dropWhile_cons, if_pos (by decide)]
    cases hfirst : rest.reverse with
    | nil => simp [hc]
    | cons d more =>
      have hd : isspace d = false := hhead d (by rw [hfirst]; rfl)
      simp [hd]

namespace StreamBuffer

variable {s : StreamBuffer} {rest : Blob}

/-- A line that lies ahead is found, and is behind the stream when it is taken. -/
theorem readLine_returns {line : Blob} (h : s.Holds (line ++ 10 :: rest)) (hline : 10 ∉ line) :
    ∃ s₁, Returns (fun fuel => readUntilChar fuel s 10 0) (line.length, s₁) ∧
      s₁.cache.octets.take line.length = line ∧
      (s₁.shrinkCache (line.length + 1)).Holds rest := by
  obtain ⟨s₁, hread, h₁, more, hmore⟩ := readUntilChar_returns h hline (Nat.zero_le _)
  have hsplit : line ++ 10 :: rest = (line ++ [10]) ++ rest := by simp
  have h₂ := (hsplit ▸ h₁).shrinkCache ⟨more, by simp [hmore]⟩
  rw [length_append, length_singleton] at h₂
  exact ⟨s₁, hread, by rw [hmore, take_left], h₂⟩

/-- The header in a line that lies ahead is read. -/
theorem readHeaderLine_returns {line : Blob} {header : DrString × DrString}
    (h : s.Holds (line ++ 10 :: rest)) (hline : HoldsHeader line header) :
    ∃ s', Returns (fun fuel => readHeaderLine fuel s) (some header, s') ∧ s'.Holds rest := by
  obtain ⟨s₁, hread, htake, h₂⟩ := readLine_returns h hline.oneLine
  refine ⟨_, hread.bind (.of_eq fun fuel => ?_), h₂⟩
  simp only [htake, if_neg hline.notEmpty, hline.header]

/-- The line that ends a header is read. -/
theorem readHeaderLine_end {line : Blob} (h : s.Holds (line ++ 10 :: rest)) (hline : 10 ∉ line)
    (hempty : trimRight line = []) :
    ∃ s', Returns (fun fuel => readHeaderLine fuel s) (none, s') ∧ s'.Holds rest := by
  obtain ⟨s₁, hread, htake, h₂⟩ := readLine_returns h hline
  refine ⟨_, hread.bind (.of_eq fun fuel => ?_), h₂⟩
  simp only [htake, hempty, if_true]

/-- What is written comes behind what was. -/
theorem writeFull_returns (s : StreamBuffer) (data : Blob) :
    ∃ s', Returns (fun fuel => writeFull fuel s data) s' ∧
      s'.handle.written = s.handle.written ++ data := by
  induction hn : data.length using Nat.strongRecOn generalizing s data with
  | ind n ih =>
    cases data with
    | nil => exact ⟨s, .of_succ_ok fun fuel => by rw [writeFull, if_pos rfl], by simp⟩
    | cons c data =>
      have hpos := s.handle.schedule.size_pos s.handle.turn
      generalize hk : min (c :: data).length (s.handle.schedule.size s.handle.turn) = k
      have hk0 : 0 < k := by
        rw [← hk, length_cons]
        omega
      have hlt : ((c :: data).drop k).length < n := by
        rw [length_drop, ← hn]
        rw [length_cons] at hn ⊢
        omega
      obtain ⟨s', hrun, hwritten⟩ := ih _ hlt
        { s with handle := (s.handle.write (c :: data)).2 } ((c :: data).drop k) rfl
      refine ⟨s', hrun.of_succ fun fuel => ?_, ?_⟩
      · rw [writeFull, if_neg (cons_ne_nil _ _)]
        simp only [Handle.write, hk]
      · rw [hwritten]
        simp only [Handle.write, hk, append_assoc, take_append_drop]

end StreamBuffer

namespace HttpServer

variable {h : HttpServer} {rest : Blob}

theorem onStream_returns {α : Type} {call : Nat → StreamBuffer → StreamCall (α × StreamBuffer)}
    {a : α} {s' : StreamBuffer} (hcall : Returns (fun fuel => call fuel h.read_stream) (a, s')) :
    Returns (fun fuel => h.onStream (call fuel)) (a, { h with read_stream := s' }) := by
  obtain ⟨least, hrun⟩ := hcall
  exact ⟨least, fun fuel hfuel => by simp only [onStream, hrun fuel hfuel]⟩

theorem processHeader_stream (h : HttpServer) (key val : DrString) (s : StreamBuffer) :
    processHeader { h with read_stream := s } key val =
      { h.processHeader key val with read_stream := s } := by
  simp only [processHeader, processHeaderConnection]
  split_ifs <;> rfl

theorem foldl_processHeader_stream (lines : List (Blob × DrString × DrString)) (h : HttpServer)
    (s : StreamBuffer) :
    lines.foldl (fun h l => h.processHeader l.2.1 l.2.2) { h with read_stream := s } =
      { lines.foldl (fun h l => h.processHeader l.2.1 l.2.2) h with read_stream := s } := by
  induction lines generalizing h with
  | nil => rfl
  | cons l lines ih => rw [foldl_cons, processHeader_stream, ih, foldl_cons]

/-- The header lines are read up to the empty one. -/
theorem readHeaderLines_returns {lines : List (Blob × DrString × DrString)} {blank : Blob}
    (hlines : ∀ l ∈ lines, HoldsHeader l.1 l.2) (hblank : 10 ∉ blank) (hempty : trimRight blank = [])
    (hholds : h.read_stream.Holds ((lines.map fun l => l.1 ++ [10]).flatten ++
      (blank ++ 10 :: rest))) :
    ∃ s', Returns (fun fuel => readHeaderLines fuel h)
        { lines.foldl (fun h l => h.processHeader l.2.1 l.2.2) h with read_stream := s' } ∧
      s'.Holds rest := by
  induction lines generalizing h with
  | nil =>
    obtain ⟨s', hread, h'⟩ := StreamBuffer.readHeaderLine_end hholds hblank hempty
    exact ⟨s', .pass (fun fuel => rfl) (onStream_returns hread) (.ok _), h'⟩
  | cons l lines ih =>
    obtain ⟨hl, hlines⟩ := forall_mem_cons.mp hlines
    have hsplit : ((l :: lines).map fun l => l.1 ++ [10]).flatten ++ (blank ++ 10 :: rest) =
        l.1 ++ 10 :: ((lines.map fun l => l.1 ++ [10]).flatten ++ (blank ++ 10 :: rest)) := by
      simp
    rw [hsplit] at hholds
    obtain ⟨s₁, hread, h₁⟩ := StreamBuffer.readHeaderLine_returns hholds hl
    obtain ⟨s', hrun, h'⟩ :=
      ih (h := { h.processHeader l.2.1 l.2.2 with read_stream := s₁ }) hlines h₁
    refine ⟨s', ?_, h'⟩
    have hnext : Returns (fun fuel => readHeaderLines fuel
        (processHeader { h with read_stream := s₁ } l.2.1 l.2.2)) _ :=
      hrun.congr fun fuel => by rw [processHeader_stream]
    have hsame := foldl_processHeader_stream lines (h.processHeader l.2.1 l.2.2) s₁
    rw [foldl_cons]
    rw [hsame] at hnext
    exact .pass (fun fuel => rfl) (onStream_returns hread) hnext

end HttpServer

end Drt
