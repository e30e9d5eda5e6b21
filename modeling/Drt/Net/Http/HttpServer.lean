import Drt.Core.Types.Number
import Drt.Io.Stream.StreamBuffer

/-!
# HTTP methods, header lines and the server

HTTP methods, and how a line of a header is taken apart: the server and the client do this in the
same way, also for the trailer of a chunked body. The server reads requests from one connection and
writes the responses.
-/

namespace Drt

/-- `HttpConst::MethodType`. The -1 that the index gives for other names is none of its
constants; the type has no negative values. -/
inductive MethodType where
  | MT_Unknown
  | MT_Head
  | MT_Get
  | MT_Post
  | MT_Put
  | MT_Delete
  | MT_Connect
  | MT_Options
  | MT_Trace
  /-- `(MethodType)-1`. -/
  | other
  deriving DecidableEq, Repr

/-- `HttpConst::TransferEncoding`. -/
inductive TransferEncoding where
  | TE_Basic
  | TE_Chunked
  deriving DecidableEq, Repr

namespace HttpConst

/-- The elements of `method_type_map`. -/
def methods : List (Blob × MethodType) :=
  [(ascii "head", .MT_Head), (ascii "get", .MT_Get), (ascii "post", .MT_Post),
    (ascii "put", .MT_Put), (ascii "delete", .MT_Delete), (ascii "connect", .MT_Connect),
    (ascii "options", .MT_Options), (ascii "trace", .MT_Trace)]

/-- `method_type_map.find`. -/
def method_type_map (name : Blob) : MethodType := (methods.lookup name).getD .other

end HttpConst

/-- `String::createLowerUtf8`. -/
def createLowerUtf8 (utf8 : Blob) : DrString := .bytes (utf8.map tolower)

/-- `for (; e > b && isspace(e[-1]); e--)`. -/
def trimRight (line : Blob) : Blob := (line.reverse.dropWhile isspace).reverse

/-- The name and the value in a line without the blanks at its end, if it has a colon. -/
def headerOf (line : Blob) : Option (DrString × DrString) :=
  match line.dropWhile (· ≠ 58) with
  | [] => none
  | _ :: value =>
    some (createLowerUtf8 (line.takeWhile (· ≠ 58)), createLowerUtf8 (value.dropWhile isspace))

/-! ### The HTTP server

`HttpServer` reads requests from one connection and writes the responses. A header is
found by the text of its name. The index of header functions has one entry, for the
header `close`. -/

namespace StreamBuffer

/-- A header line; `none` is the empty one, the end of the header. -/
def readHeaderLine (fuel : Nat) (s : StreamBuffer) :
    StreamCall (Option (DrString × DrString) × StreamBuffer) := do
  let (n, s) ← readUntilChar fuel s 10 0
  let line := trimRight (s.cache.octets.take n)
  if line = [] then .ok (none, s.shrinkCache (n + 1))
  else
    match headerOf line with
    | none => .raise (.endOfDataException "http" ":", s)
    | some header => .ok (some header, s.shrinkCache (n + 1))

/-- The line with the size of a chunk. -/
def readChunkSize (fuel : Nat) (s : StreamBuffer) : StreamCall (Int × StreamBuffer) := do
  let (n, s) ← readUntilChar fuel s 10 0
  .ok ((strtol 16 s.cache.octets).1, s.shrinkCache (n + 1))

/-- The trailer of a chunked body; its lines are only checked. -/
def skipTrailer : Nat → StreamBuffer → StreamCall StreamBuffer
  | 0, _ => .outOfFuel
  | fuel + 1, s => do
    let (header, s) ← readHeaderLine fuel s
    if header = none then .ok s else skipTrailer fuel s

/-- `while (tryExtendCacheAdd(1) > 0)`. -/
def extendToEnd : Nat → StreamBuffer → StreamCall StreamBuffer
  | 0, _ => .outOfFuel
  | fuel + 1, s => do
    let (added, s) ← tryExtendCacheAdd fuel s 1
    if added > 0 then extendToEnd fuel s else .ok s

end StreamBuffer

/-- The fields of `HttpServer`. -/
structure HttpServer where
  read_stream : StreamBuffer
  req_method : DrString
  req_uri : DrString
  req_version : UInt32
  /-- The headers by the texts of their names. -/
  req_headers : List UInt32 → Option DrString
  req_body_size : Int
  method_type : MethodType
  transfer_encoding : TransferEncoding
  /-- Start, keep-alive, close. -/
  connection_state : Nat

/-- A call on a server. An exception comes with the server it leaves. -/
abbrev HttpCall (α : Type) := Outcome (Exception × HttpServer) α

/-- A `size_t` from a `Sint64`. -/
def sizeOf64 (n : Int) : Nat := (n % 2 ^ 64).toNat

namespace HttpServer

/-- `HttpServer(stream)`. What the constructor leaves out has any value, zero here. -/
def new (read_stream : StreamBuffer) : HttpServer where
  read_stream := read_stream
  req_method := .bytes []
  req_uri := .bytes []
  req_version := 0
  req_headers := fun _ => none
  req_body_size := 0
  method_type := .MT_Unknown
  transfer_encoding := .TE_Basic
  connection_state := 0

/-- A call on `read_stream`. -/
def onStream {α : Type} (h : HttpServer) (call : StreamBuffer → StreamCall (α × StreamBuffer)) :
    HttpCall (α × HttpServer) :=
  match call h.read_stream with
  | .ok (a, s) => .ok (a, { h with read_stream := s })
  | .raise (e, s) => .raise (e, { h with read_stream := s })
  | .fault => .fault
  | .outOfFuel => .outOfFuel

/-- A call on `read_stream` without a result. -/
def onStream' (h : HttpServer) (call : StreamBuffer → StreamCall StreamBuffer) :
    HttpCall HttpServer := do
  let (_, h) ← h.onStream fun s => do
    let s ← call s
    .ok ((), s)
  .ok h

/-- The place of the end of the first line, before its `\n`; `none` is -1. A time limit that passes
before the first octet is the end of the connection. -/
def readFirstLine (fuel : Nat) (h : HttpServer) : HttpCall (Option Nat × HttpServer) :=
  match h.onStream fun s => StreamBuffer.tryReadUntilChar fuel s 10 0 with
  | .raise (.timeoutException, h) =>
    if h.read_stream.cache.getSize ≠ 0 then .raise (.timeoutException, h) else .ok (none, h)
  | result => result

/-- The version in the text behind the first `/`, of which `length` octets are in the line. -/
def parseVersion (text : Blob) (length : Nat) : UInt32 :=
  if length = 0 then 0x100
  else
    let (major, b) := strtol 0 text
    if b < length ∧ text[b]? = some 46 then
      UInt32.ofInt (major * 256) + UInt32.ofInt (strtol 0 (text.drop (b + 1))).1
    else 0x100

/-- The request line, which ends at place `n` of the cache. The result says whether a header
follows. -/
def parseRequestLine (h : HttpServer) (n : Nat) : HttpCall (Bool × HttpServer) :=
  let cache := h.read_stream.cache.octets
  let line := cache.take n
  let b := line.dropWhile fun c => !isspace c
  if b = [] then .raise (.endOfDataException "http" "method", h)
  else
    let method := (line.takeWhile fun c => !isspace c).map tolower
    let h := { h with
      req_method := .bytes method
      method_type := HttpConst.method_type_map method }
    if h.method_type = .other then .raise (.unsupportedException "HttpServer" "method" method, h)
    else
      let b := b.dropWhile isspace
      let h := { h with req_uri := .setUtf8 (b.takeWhile fun c => !isspace c) }
      let b := (b.dropWhile fun c => !isspace c).dropWhile isspace
      if b = [] then
        .ok (false, { h with
          req_body_size := -1
          req_version := 0x100
          connection_state := 2
          read_stream := h.read_stream.shrinkCache (n + 1) })
      else
        let b := (b.dropWhile (· ≠ 47)).drop 1
        .ok (true, { h with
          req_version := parseVersion (cache.drop (n - b.length)) b.length
          read_stream := h.read_stream.shrinkCache (n + 1) })

def processHeaderConnection (h : HttpServer) (value : DrString) : HttpServer :=
  let lowvalue := createLowerUtf8 value.utf8
  if lowvalue.text = (DrString.bytes (ascii "close")).text then { h with connection_state := 2 }
  else if lowvalue.text = (DrString.bytes (ascii "keep-alive")).text then
    { h with connection_state := 1 }
  else { h with connection_state := 2 }

def processHeader (h : HttpServer) (header value : DrString) : HttpServer :=
  let h := { h with req_headers := Function.update h.req_headers header.text (some value) }
  if header.text = (DrString.bytes (ascii "close")).text then h.processHeaderConnection value else h

/-- The header lines. -/
def readHeaderLines : Nat → HttpServer → HttpCall HttpServer
  | 0, _ => .outOfFuel
  | fuel + 1, h => do
    match ← h.onStream (StreamBuffer.readHeaderLine fuel) with
    | (none, h) => .ok h
    | (some (key, val), h) => readHeaderLines fuel (h.processHeader key val)

/-- `req_headers.accValue` for a name of the source. -/
def header (h : HttpServer) (name : String) : Option DrString :=
  h.req_headers (DrString.bytes (ascii name)).text

def getHeader (h : HttpServer) (key : DrString) : Option DrString := h.req_headers key.text

def getMethod (h : HttpServer) : MethodType := h.method_type

/-- `req_body_size` after the header. -/
def bodySize (h : HttpServer) : Int :=
  match h.header "content-length" with
  | some f => (strtol 0 f.utf8).1
  | none =>
    match h.method_type with
    | .MT_Head | .MT_Get | .MT_Delete | .MT_Connect | .MT_Options | .MT_Trace => 0
    | _ => -1

/-- The start of a chunked body. -/
def startChunks (fuel : Nat) (h : HttpServer) : HttpCall HttpServer := do
  let (size, h) ← h.onStream (StreamBuffer.readChunkSize fuel)
  let h := { h with req_body_size := size }
  if size = 0 then h.onStream' (StreamBuffer.skipTrailer fuel)
  else .ok { h with transfer_encoding := .TE_Chunked }

/-- What follows the header lines in `readRequest`. -/
def finishHeader (fuel : Nat) (h : HttpServer) : HttpCall HttpServer := do
  let h := { h with req_body_size := h.bodySize }
  let h ← match h.header "transfer-encoding" with
    | some f => if f.utf8 = ascii "chunked" then h.startChunks fuel else .ok h
    | none => .ok h
  if h.connection_state = 0 then
    .ok { h with connection_state := if h.req_version ≤ 0x100 then 2 else 1 }
  else .ok h

/-- The block of `readRequest` that is guarded by `xcatchany`. -/
def readRequestBlock (fuel : Nat) (h : HttpServer) : HttpCall (Option DrString × HttpServer) := do
  let (n, h) ← h.readFirstLine fuel
  match n with
  | none =>
    if h.read_stream.cache.getSize = 0 then .ok (none, { h with connection_state := 2 })
    else .raise (.endOfDataException "http" "method", h)
  | some n =>
    let (more, h) ← h.parseRequestLine n
    if more then
      let h ← readHeaderLines fuel h
      let h ← h.finishHeader fuel
      .ok (some h.req_uri, h)
    else .ok (some h.req_uri, h)

/-- `readRequest`: the URI; `none` is `Null()`. -/
def readRequest (fuel : Nat) (h : HttpServer) : HttpCall (Option DrString × HttpServer) :=
  if h.connection_state ≥ 2 then .ok (none, h)
  else
    match readRequestBlock fuel { h with connection_state := 0, transfer_encoding := .TE_Basic } with
    | .raise (e, h) => .raise (e, { h with connection_state := 2 })
    | result => result

def updateNextChunk (fuel : Nat) (h : HttpServer) : HttpCall (Bool × HttpServer) := do
  let (_, h) ← h.onStream fun s => do
    let (n, s) ← StreamBuffer.readUntilChar fuel s 10 0
    .ok ((), s.shrinkCache (n + 1))
  let (size, h) ← h.onStream (StreamBuffer.readChunkSize fuel)
  let h := { h with req_body_size := size }
  if size = 0 then
    let h ← h.onStream' (StreamBuffer.skipTrailer fuel)
    .ok (false, { h with transfer_encoding := .TE_Basic })
  else .ok (true, h)

/-- Whether there is more of the body to read. -/
def nextPart (fuel : Nat) (h : HttpServer) : HttpCall (Bool × HttpServer) :=
  if h.req_body_size = 0 then
    if h.transfer_encoding = .TE_Chunked then h.updateNextChunk fuel else .ok (false, h)
  else .ok (true, h)

/-- The loop of `readFullContent` behind the octets it has. -/
def readParts : Nat → HttpServer → Blob → HttpCall (Blob × HttpServer)
  | 0, _, _ => .outOfFuel
  | fuel + 1, h, data => do
    let (more, h) ← h.nextPart fuel
    if more then
      let ((data, n), h) ← h.onStream fun s => s.readExtendAdd data (sizeOf64 h.req_body_size)
      readParts fuel { h with req_body_size := h.req_body_size - n } data
    else .ok (data, h)

def readFullContent (fuel : Nat) (h : HttpServer) : HttpCall (Blob × HttpServer) :=
  if h.req_body_size ≥ 0 then readParts fuel h []
  else do
    let h ← h.onStream' (StreamBuffer.extendToEnd fuel)
    h.onStream fun s => .ok s.cleanGet

/-- `read_stream.writeFull`. -/
def writeFull (fuel : Nat) (h : HttpServer) (data : Blob) : HttpCall HttpServer :=
  h.onStream' fun s => StreamBuffer.writeFull fuel s data

/-- The first lines of a response. -/
def responseText (h : HttpServer) (code : Int32) (message : DrString) : Blob :=
  ascii "HTTP/" ++ numberText 10 (h.req_version / 256).toNat ++ ascii "." ++
    numberText 10 (h.req_version &&& 255).toNat ++ ascii " " ++ intText 10 code.toInt ++
    ascii " " ++ message.utf8 ++ ascii "\r\n" ++
    if h.connection_state ≥ 2 then ascii "connection: close\r\n"
    else if h.req_version < 0x101 ∧ h.connection_state = 1 then ascii "connection: keep-alive\r\n"
    else []

def sendResponse (fuel : Nat) (h : HttpServer) (code : Int32) (message : DrString) :
    HttpCall HttpServer :=
  h.writeFull fuel (h.responseText code message)

def sendHeader (fuel : Nat) (h : HttpServer) (header value : DrString) : HttpCall HttpServer :=
  h.writeFull fuel (header.utf8 ++ ascii ": " ++ value.utf8 ++ ascii "\r\n")

/-- `sendContent`. The shutdown of the socket after the last content is left out: it writes
nothing. -/
def sendContent (fuel : Nat) (h : HttpServer) (content : Blob) : HttpCall HttpServer := do
  let h ← h.writeFull fuel (ascii "content-length: " ++ numberText 10 content.length ++
    ascii "\r\n\r\n")
  h.writeFull fuel content

end HttpServer

end Drt
