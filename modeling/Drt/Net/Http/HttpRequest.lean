import Drt.Lib.ListUpdate
import Drt.Net.Http.HttpLines

/-!
# The head of a request

The first line and the header lines that the client writes, and how far the server
comes with them: to the start of the body, with all the headers. Where the reads of the
stream end makes no difference.
-/

open List

namespace Drt

open HttpClient

open Outcome

/-- A text of the version 1.0 is read as such. -/
theorem parseVersion_eq (more : Blob) :
    HttpServer.parseVersion (ascii "1.0\r\n" ++ more) 4 = 0x100 := by
  have hone : strtol 0 (numberText 10 1 ++ (ascii ".0\r\n" ++ more)) = (1, 1) :=
    strtol_numberText (Or.inl ⟨rfl, Or.inl rfl⟩) (by decide)
      (fun c hc => by obtain rfl := Option.some.inj hc; decide)
  have hzero : strtol 0 (numberText 10 0 ++ (ascii "\r\n" ++ more)) = (0, 1) :=
    strtol_numberText (Or.inl ⟨rfl, Or.inl rfl⟩) (by decide)
      (fun c hc => by obtain rfl := Option.some.inj hc; decide)
  have htext : strtol 0 (ascii "1.0\r\n" ++ more) = (1, 1) := hone
  have htext' : strtol 0 ((ascii "1.0\r\n" ++ more).drop 2) = (0, 1) := hzero
  rw [HttpServer.parseVersion, if_neg (by decide), htext]
  simp only [htext']
  rw [if_pos ⟨by decide, rfl⟩]
  decide

namespace HttpServer

/-- The request line of the client is taken apart. -/
theorem parseRequestLine_eq {h : HttpServer} {method uri more : Blob}
    (hmethod : ∀ c ∈ method, isspace c = false) (huri : ∀ c ∈ uri, isspace c = false)
    (hne : uri ≠ []) (hknown : HttpConst.method_type_map (method.map tolower) ≠ .other)
    (hcache : h.read_stream.cache.octets =
      method ++ 32 :: uri ++ ascii " HTTP/1.0\r" ++ 10 :: more) :
    h.parseRequestLine (method ++ 32 :: uri ++ ascii " HTTP/1.0\r").length =
      .ok (true, { h with
        req_method := .bytes (method.map tolower)
        method_type := HttpConst.method_type_map (method.map tolower)
        req_uri := .setUtf8 uri
        req_version := 0x100
        read_stream := h.read_stream.shrinkCache
          ((method ++ 32 :: uri ++ ascii " HTTP/1.0\r").length + 1) }) := by
  generalize hline : method ++ 32 :: uri ++ ascii " HTTP/1.0\r" = line at hcache ⊢
  have htake : (line ++ 10 :: more).take line.length = line := take_left
  have hnot {text : Blob} (htext : ∀ c ∈ text, isspace c = false) :
      ∀ c ∈ text, (!isspace c) = true := fun c hc => by rw [htext c hc]; rfl
  have hdrop : line.dropWhile (fun c => !isspace c) = 32 :: (uri ++ ascii " HTTP/1.0\r") := by
    rw [← hline, append_assoc, dropWhile_append_of_pos (hnot hmethod)]
    rfl
  have htakeMethod : line.takeWhile (fun c => !isspace c) = method := by
    rw [← hline, append_assoc, takeWhile_append_of_pos (hnot hmethod)]
    exact append_nil _
  have hblanks : (32 :: (uri ++ ascii " HTTP/1.0\r")).dropWhile isspace =
      uri ++ ascii " HTTP/1.0\r" := by
    obtain ⟨c, cs, rfl⟩ := exists_cons_of_ne_nil hne
    rw [dropWhile_cons, if_pos (by decide), cons_append, dropWhile_cons,
      if_neg (by simp [huri c mem_cons_self])]
  have htakeUri : (uri ++ ascii " HTTP/1.0\r").takeWhile (fun c => !isspace c) = uri := by
    rw [takeWhile_append_of_pos (hnot huri)]
    exact append_nil _
  have hrest : ((uri ++ ascii " HTTP/1.0\r").dropWhile fun c => !isspace c).dropWhile isspace =
      ascii "HTTP/1.0\r" := by
    rw [dropWhile_append_of_pos (hnot huri)]
    decide
  have hversion : ((ascii "HTTP/1.0\r").dropWhile (· ≠ 47)).drop 1 = ascii "1.0\r" := by decide
  have hpre : line = (method ++ 32 :: uri ++ ascii " HTTP/") ++ ascii "1.0\r" := by
    rw [← hline, List.append_assoc _ (ascii " HTTP/")]
    rfl
  have hplace : (line ++ 10 :: more).drop (line.length - (ascii "1.0\r").length) =
      ascii "1.0\r\n" ++ more := by
    rw [hpre]
    generalize method ++ 32 :: uri ++ ascii " HTTP/" = front
    rw [length_append, Nat.add_sub_cancel, append_assoc, drop_left]
    rfl
  simp only [parseRequestLine, hcache, htake, hdrop, htakeMethod, hblanks, htakeUri, hrest,
    hversion, hplace]
  rw [if_neg (cons_ne_nil _ _), if_neg hknown, if_neg (by decide)]
  simp only [show (ascii "1.0\r").length = 4 by decide, parseVersion_eq]

/-- The server behind the request line and the header lines of a request. -/
def atBody (h : HttpServer) (method uri : Blob) (lines : List (Blob × DrString × DrString)) :
    HttpServer :=
  lines.foldl (fun h l => h.processHeader l.2.1 l.2.2) { h with
    connection_state := 0
    transfer_encoding := .TE_Basic
    req_method := .bytes (method.map tolower)
    method_type := HttpConst.method_type_map (method.map tolower)
    req_uri := .setUtf8 uri
    req_version := 0x100 }

/-- A request line and header lines, up to the body. -/
def headText (method uri : Blob) (lines : List (Blob × DrString × DrString)) : Blob :=
  method ++ 32 :: uri ++ ascii " HTTP/1.0\r" ++
    10 :: ((lines.map fun l => l.1 ++ [10]).flatten ++ ascii "\r\n")

/-- Headers leave everything else but the state of the connection as it is. -/
theorem foldl_processHeader (lines : List (Blob × DrString × DrString)) (h : HttpServer) :
    ∃ state, lines.foldl (fun h l => h.processHeader l.2.1 l.2.2) h = { h with
      req_headers := lines.foldl
        (fun m l => Function.update m l.2.1.text (some l.2.2)) h.req_headers
      connection_state := state } := by
  induction lines generalizing h with
  | nil => exact ⟨h.connection_state, rfl⟩
  | cons l lines ih =>
    have hone : ∃ state, h.processHeader l.2.1 l.2.2 = { h with
        req_headers := Function.update h.req_headers l.2.1.text (some l.2.2)
        connection_state := state } := by
      simp only [processHeader, processHeaderConnection]
      split_ifs <;> exact ⟨_, rfl⟩
    obtain ⟨state, hone⟩ := hone
    obtain ⟨state', hall⟩ := ih (h.processHeader l.2.1 l.2.2)
    exact ⟨state', by rw [foldl_cons, hall, hone, foldl_cons]⟩

/-- The first line of the request decides the other fields. -/
theorem atBody_fields (h : HttpServer) (method uri : Blob)
    (lines : List (Blob × DrString × DrString)) :
    (h.atBody method uri lines).transfer_encoding = .TE_Basic ∧
      (h.atBody method uri lines).method_type =
        HttpConst.method_type_map (method.map tolower) ∧
      (h.atBody method uri lines).req_uri = .setUtf8 uri := by
  obtain ⟨state, hfold⟩ := foldl_processHeader lines { h with
    connection_state := 0
    transfer_encoding := .TE_Basic
    req_method := .bytes (method.map tolower)
    method_type := HttpConst.method_type_map (method.map tolower)
    req_uri := .setUtf8 uri
    req_version := 0x100 }
  rw [atBody, hfold]
  exact ⟨rfl, rfl, rfl⟩

/-- A request is read up to its body; how it goes on is up to `finishHeader`. -/
theorem readRequest_returns {h : HttpServer} {method uri rest : Blob}
    {lines : List (Blob × DrString × DrString)} (hstate : h.connection_state < 2)
    (hmethod : ∀ c ∈ method, isspace c = false) (huri : ∀ c ∈ uri, isspace c = false)
    (hne : uri ≠ []) (hknown : HttpConst.method_type_map (method.map tolower) ≠ .other)
    (hlines : ∀ l ∈ lines, HoldsHeader l.1 l.2)
    (hholds : h.read_stream.Holds (headText method uri lines ++ rest)) :
    ∃ s, s.Holds rest ∧ ∀ h',
      Returns (fun fuel => finishHeader fuel
        { h.atBody method uri lines with read_stream := s }) h' →
      Returns (fun fuel => h.readRequest fuel) (some h'.req_uri, h') := by
  have hsplit : headText method uri lines ++ rest =
      (method ++ 32 :: uri ++ ascii " HTTP/1.0\r") ++
        10 :: ((lines.map fun l => l.1 ++ [10]).flatten ++ (ascii "\r\n" ++ rest)) := by
    simp only [headText, append_assoc, cons_append]
  have hfirst : 10 ∉ method ++ 32 :: uri ++ ascii " HTTP/1.0\r" := by
    have hno {text : Blob} (htext : ∀ c ∈ text, isspace c = false) : 10 ∉ text :=
      fun hmem => absurd (htext 10 hmem) (by decide)
    have hend : 10 ∉ ascii " HTTP/1.0\r" := by decide
    simp only [mem_append, mem_cons, not_or]
    exact ⟨⟨hno hmethod, by decide, hno huri⟩, hend⟩
  rw [hsplit] at hholds
  generalize hline : method ++ 32 :: uri ++ ascii " HTTP/1.0\r" = line at hholds hfirst
  obtain ⟨s₁, hread, h₁, more, hmore⟩ :=
    StreamBuffer.tryReadUntilChar_returns hholds hfirst (Nat.zero_le _)
  have h₂ : (s₁.shrinkCache (line.length + 1)).Holds
      ((lines.map fun l => l.1 ++ [10]).flatten ++ (ascii "\r\n" ++ rest)) := by
    have hsplit (x : Blob) : line ++ 10 :: x = (line ++ [10]) ++ x := by simp
    have h₂ := (hsplit _ ▸ h₁).shrinkCache ⟨more, by rw [hmore, hsplit]⟩
    rwa [length_append, length_singleton] at h₂
  have hparse := parseRequestLine_eq (h := { h with
    connection_state := 0
    transfer_encoding := .TE_Basic
    read_stream := s₁ }) hmethod huri hne hknown (show s₁.cache.octets =
      method ++ 32 :: uri ++ ascii " HTTP/1.0\r" ++ 10 :: more by rw [hline]; exact hmore)
  rw [hline] at hparse
  obtain ⟨s₃, hheader, h₃⟩ := readHeaderLines_returns (h := { h with
    connection_state := 0
    transfer_encoding := .TE_Basic
    req_method := .bytes (method.map tolower)
    method_type := HttpConst.method_type_map (method.map tolower)
    req_uri := .setUtf8 uri
    req_version := 0x100
    read_stream := s₁.shrinkCache (line.length + 1) }) hlines (show 10 ∉ [(13 : UInt8)] by decide)
    (by decide) h₂
  refine ⟨s₃, h₃, fun h' hfinish => ?_⟩
  have hfirstLine : Returns (fun fuel => readFirstLine fuel
      { h with connection_state := 0, transfer_encoding := .TE_Basic })
      (some line.length, { h with
        connection_state := 0
        transfer_encoding := .TE_Basic
        read_stream := s₁ }) := by
    obtain ⟨least, hrun⟩ := hread
    exact ⟨least, fun fuel hfuel => by simp only [readFirstLine, onStream, hrun fuel hfuel]⟩
  have hsame := foldl_processHeader_stream lines { h with
    connection_state := 0
    transfer_encoding := .TE_Basic
    req_method := .bytes (method.map tolower)
    method_type := HttpConst.method_type_map (method.map tolower)
    req_uri := .setUtf8 uri
    req_version := 0x100 } (s₁.shrinkCache (line.length + 1))
  have hblock : Returns (fun fuel => readRequestBlock fuel
      { h with connection_state := 0, transfer_encoding := .TE_Basic }) (some h'.req_uri, h') := by
    refine hfirstLine.bind ?_
    simp only [hparse, ok_bind, if_true]
    refine hheader.bind (.bind (a := h') ?_ (.ok _))
    rw [atBody] at hfinish
    simp only [hsame]
    exact hfinish
  obtain ⟨least, hrun⟩ := hblock
  refine ⟨least, fun fuel hfuel => ?_⟩
  simp only [readRequest, if_neg (Nat.not_le.mpr hstate), hrun fuel hfuel]

end HttpServer

namespace HttpClient

/-- The line of a header without its `\n`, with the header that is read from it. -/
def headerEntry (f : DrString × DrString) : Blob × DrString × DrString :=
  (f.1.utf8 ++ 58 :: (32 :: f.2.utf8 ++ [13]),
    createLowerUtf8 f.1.utf8, createLowerUtf8 ((trimRight (32 :: f.2.utf8 ++ [13])).dropWhile isspace))

/-- The host line that a request has by itself. -/
def hostHeader (h : HttpClient) (headers : List (DrString × DrString)) :
    List (DrString × DrString) :=
  if ∃ f ∈ headers, f.1.text = (DrString.bytes (ascii "host")).text then []
  else if h.host.utf8 = [] then [] else [(.bytes (ascii "host"), h.host)]

theorem headerEntry_line (f : DrString × DrString) :
    (headerEntry f).1 ++ [10] = headerLine f.1 f.2 := by
  simp [headerEntry, headerLine, ascii]

/-- The request as a request line and header lines. -/
theorem requestText_eq (h : HttpClient) {method : DrString} (uri : DrString)
    (headers : List (DrString × DrString)) (hmethod : method.utf8 ≠ [])
    (hzero : ∀ c ∈ method.utf8, c ≠ 0) (last : DrString × DrString) :
    h.requestText method uri headers ++ headerLine last.1 last.2 ++ ascii "\r\n" =
      HttpServer.headText method.utf8 uri.utf8
        ((h.hostHeader headers ++ headers ++ [last]).map headerEntry) := by
  have htake : method.utf8.takeWhile (· ≠ 0) = method.utf8 :=
    takeWhile_eq_self_iff.mpr fun c hc => decide_eq_true (hzero c hc)
  have hhost : (if ∃ f ∈ headers, f.1.text = (DrString.bytes (ascii "host")).text then []
      else if h.host.utf8 = [] then [] else ascii "host: " ++ h.host.utf8 ++ ascii "\r\n") =
      ((h.hostHeader headers).map fun f => headerLine f.1 f.2).flatten := by
    unfold hostHeader
    split_ifs
    · rfl
    · rfl
    · simp [headerLine, DrString.utf8, ascii]
  have hlines (l : List (DrString × DrString)) :
      ((l.map headerEntry).map fun l => l.1 ++ [10]) = l.map fun f => headerLine f.1 f.2 := by
    rw [map_map]
    exact map_congr_left fun f _ => headerEntry_line f
  rw [requestText, if_neg hmethod, htake, hhost, HttpServer.headText, hlines]
  simp [ascii]

end HttpClient

/-- A header that both sides take for the same: a lower-case name, and a value without blanks at
its ends. -/
structure Sendable (f : DrString × DrString) : Prop where
  nameAscii : f.1.Ascii
  name : ∀ c ∈ f.1.utf8, c ≠ 58 ∧ isspace c = false ∧ tolower c = c
  valueAscii : f.2.Ascii
  printable : ∀ c ∈ f.2.utf8, 32 ≤ c ∧ c < 127
  head : ∀ c, f.2.utf8.head? = some c → isspace c = false
  last : ∀ c, f.2.utf8.getLast? = some c → isspace c = false

/-- The names that the client and the connection use themselves. -/
def reservedNames : List DrString :=
  [.bytes (ascii "content-length"), .bytes (ascii "transfer-encoding"), .bytes (ascii "connection"),
    .bytes (ascii "host")]

/-- The headers of a caller: sendable, with distinct names, and none of the reserved ones. -/
structure SendableHeaders (headers : List (DrString × DrString)) : Prop where
  sendable : ∀ f ∈ headers, Sendable f
  distinct : (headers.map fun f => f.1.text).Nodup
  notReserved : ∀ f ∈ headers, f.1.text ∉ reservedNames.map DrString.text

theorem headerEntry_snd {f : DrString × DrString} (hname : f.1.utf8.map tolower = f.1.utf8)
    (hascii : f.1.Ascii) (hhead : ∀ c, f.2.utf8.head? = some c → isspace c = false)
    (hlast : ∀ c, f.2.utf8.getLast? = some c → isspace c = false) :
    (headerEntry f).2.1.text = f.1.text ∧
      (headerEntry f).2.2 = createLowerUtf8 f.2.utf8 := by
  refine ⟨?_, ?_⟩
  · rw [headerEntry, createLowerUtf8, hname]
    exact (DrString.text_setUtf8_utf8 f.1).mpr hascii.plain
  · rw [headerEntry, trim_value hhead hlast]

theorem holdsHeader_headerEntry {f : DrString × DrString} (hcolon : 58 ∉ f.1.utf8)
    (hname : 10 ∉ f.1.utf8) (hvalue : 10 ∉ f.2.utf8) :
    HoldsHeader (headerEntry f).1 (headerEntry f).2 := by
  refine holdsHeader_line hcolon hname ?_
  simp only [mem_append, mem_cons, not_or]
  exact ⟨⟨by decide, hvalue⟩, by decide, not_mem_nil⟩

namespace Sendable

variable {f : DrString × DrString}

theorem map_tolower (h : Sendable f) : f.1.utf8.map tolower = f.1.utf8 :=
  (map_congr_left fun c hc => (h.name c hc).2.2).trans (map_id' _)

theorem headerEntry_snd (h : Sendable f) :
    (headerEntry f).2.1.text = f.1.text ∧
      (headerEntry f).2.2 = createLowerUtf8 f.2.utf8 :=
  Drt.headerEntry_snd h.map_tolower h.nameAscii h.head h.last

theorem holdsHeader (h : Sendable f) :
    HoldsHeader (headerEntry f).1 (headerEntry f).2 := by
  refine holdsHeader_headerEntry (fun hc => (h.name 58 hc).1 rfl)
    (fun hc => absurd (h.name 10 hc).2.1 (by decide))
    (fun hc => absurd (h.printable 10 hc).1 (by decide))

end Sendable

namespace HttpClient

variable {h : HttpClient} {headers : List (DrString × DrString)} {last : DrString × DrString}

/-- The header that says how long the body is. -/
structure Framing (last : DrString × DrString) : Prop where
  sendable : Sendable last
  name : last.1 = .bytes (ascii "content-length") ∨ last.1 = .bytes (ascii "transfer-encoding")

section

variable (hheaders : SendableHeaders headers)
include hheaders

theorem entries_names (hlast : Framing last) :
    ((h.hostHeader headers ++ headers ++ [last]).map headerEntry).map (fun l => l.2.1.text) =
      (h.hostHeader headers ++ headers ++ [last]).map fun f => f.1.text := by
  rw [map_map]
  refine map_congr_left fun f hf => ?_
  rw [append_assoc, mem_append, mem_append, mem_singleton] at hf
  rcases hf with hf | hf | rfl
  · unfold hostHeader at hf
    split_ifs at hf
    · cases hf
    · cases hf
    · rw [mem_singleton.mp hf]
      rfl
  · exact (hheaders.sendable f hf).headerEntry_snd.1
  · exact hlast.sendable.headerEntry_snd.1

/-- The names of the header lines of a request are distinct. -/
theorem entries_nodup (hlast : Framing last) :
    ((h.hostHeader headers ++ headers ++ [last]).map fun f => f.1.text).Nodup := by
  have hnot {k : DrString} (hk : k ∈ reservedNames) : k.text ∉ headers.map fun f => f.1.text := by
    rw [mem_map]
    rintro ⟨f, hf, heq⟩
    exact hheaders.notReserved f hf (heq ▸ mem_map_of_mem hk)
  have hlastName : last.1.text ∉ headers.map fun f => f.1.text := by
    rcases hlast.name with heq | heq
    · exact heq ▸ hnot (by decide)
    · exact heq ▸ hnot (by decide)
  have hhost : (DrString.bytes (ascii "host")).text ≠ last.1.text := by
    rcases hlast.name with heq | heq
    · rw [heq]
      decide
    · rw [heq]
      decide
  have htail : ((headers ++ [last]).map fun f => f.1.text).Nodup := by
    rw [map_append, map_singleton, ← concat_eq_append]
    exact hheaders.distinct.concat hlastName
  rw [append_assoc, hostHeader]
  split_ifs
  · exact htail
  · exact htail
  · rw [singleton_append, map_cons, nodup_cons]
    refine ⟨?_, htail⟩
    rw [map_append, mem_append, map_singleton, mem_singleton, not_or]
    exact ⟨hnot (k := .bytes (ascii "host")) (by decide), hhost⟩

/-- No other line says how long the body is. -/
theorem framing_only {k : DrString}
    (hk : k = .bytes (ascii "content-length") ∨ k = .bytes (ascii "transfer-encoding"))
    (hne : k.text ≠ last.1.text) :
    k.text ∉ (h.hostHeader headers ++ headers ++ [last]).map fun f => f.1.text := by
  intro hmem
  obtain ⟨f, hf, heq⟩ := mem_map.mp hmem
  rw [append_assoc, mem_append, mem_append, mem_singleton] at hf
  rcases hf with hf | hf | rfl
  · unfold hostHeader at hf
    split_ifs at hf
    · cases hf
    · cases hf
    · have hdiffer : (DrString.bytes (ascii "host")).text ≠
            (DrString.bytes (ascii "content-length")).text ∧
          (DrString.bytes (ascii "host")).text ≠
            (DrString.bytes (ascii "transfer-encoding")).text := by decide
      obtain rfl := mem_singleton.mp hf
      rcases hk with rfl | rfl
      · exact hdiffer.1 heq
      · exact hdiffer.2 heq
  · refine hheaders.notReserved f hf (heq ▸ mem_map_of_mem ?_)
    rcases hk with rfl | rfl
    · decide
    · decide
  · exact hne heq.symm

end

/-- The header lines of a request hold their headers. -/
theorem entries_hold (hhost : 10 ∉ h.host.utf8) (hheaders : SendableHeaders headers)
    (hlast : Framing last) :
    ∀ l ∈ (h.hostHeader headers ++ headers ++ [last]).map headerEntry, HoldsHeader l.1 l.2 := by
  intro l hl
  obtain ⟨f, hf, rfl⟩ := mem_map.mp hl
  rw [append_assoc, mem_append, mem_append, mem_singleton] at hf
  rcases hf with hf | hf | rfl
  · unfold hostHeader at hf
    split_ifs at hf
    · cases hf
    · cases hf
    · have hname : 58 ∉ (DrString.bytes (ascii "host")).utf8 ∧
          10 ∉ (DrString.bytes (ascii "host")).utf8 := by decide
      rw [mem_singleton.mp hf]
      exact holdsHeader_headerEntry hname.1 hname.2 hhost
  · exact (hheaders.sendable f hf).holdsHeader
  · exact hlast.sendable.holdsHeader

end HttpClient

namespace HttpServer

variable {h : HttpServer} {c : HttpClient} {headers : List (DrString × DrString)}
  {last : DrString × DrString}

/-- The server finds every header of the client, and no other one. -/
theorem atBody_getHeader (hnew : h.req_headers = fun _ => none)
    (hheaders : SendableHeaders headers) (hlast : HttpClient.Framing last) (method uri : Blob) :
    let h' := h.atBody method uri
      ((c.hostHeader headers ++ headers ++ [last]).map headerEntry)
    (∀ f ∈ headers ++ [last], h'.getHeader f.1 = some (createLowerUtf8 f.2.utf8)) ∧
      ∀ k, k.text ∉ (c.hostHeader headers ++ headers ++ [last]).map (fun f => f.1.text) →
        h'.getHeader k = none := by
  intro h'
  have hnames := entries_names (h := c) hheaders hlast
  have hnodup := hnames ▸ entries_nodup (h := c) hheaders hlast
  obtain ⟨state, hfold⟩ := foldl_processHeader
    ((c.hostHeader headers ++ headers ++ [last]).map headerEntry) { h with
      connection_state := 0
      transfer_encoding := .TE_Basic
      req_method := .bytes (method.map tolower)
      method_type := HttpConst.method_type_map (method.map tolower)
      req_uri := .setUtf8 uri
      req_version := 0x100 }
  have hbody := congrArg HttpServer.req_headers hfold
  refine ⟨fun f hf => ?_, fun k hk => ?_⟩
  · have hsnd : (headerEntry f).2.1.text = f.1.text ∧
        (headerEntry f).2.2 = createLowerUtf8 f.2.utf8 := by
      rcases mem_append.mp hf with hf | hf
      · exact (hheaders.sendable f hf).headerEntry_snd
      · exact mem_singleton.mp hf ▸ hlast.sendable.headerEntry_snd
    have hmem : headerEntry f ∈
        (c.hostHeader headers ++ headers ++ [last]).map headerEntry := by
      rw [append_assoc]
      exact mem_map_of_mem (mem_append_right _ hf)
    have hfound : (((c.hostHeader headers ++ headers ++ [last]).map headerEntry).foldl
        (fun (m : List UInt32 → Option DrString) l =>
          Function.update m l.2.1.text (some l.2.2)) h.req_headers)
        (headerEntry f).2.1.text = some (headerEntry f).2.2 :=
      foldl_update_of_mem hnodup hmem
    rw [hsnd.1, hsnd.2] at hfound
    exact (congrFun hbody _).trans hfound
  · rw [← hnames] at hk
    have hnone : (((c.hostHeader headers ++ headers ++ [last]).map headerEntry).foldl
        (fun (m : List UInt32 → Option DrString) l =>
          Function.update m l.2.1.text (some l.2.2)) h.req_headers) k.text =
          h.req_headers k.text :=
      foldl_update_of_notMem hk
    exact (congrFun hbody _).trans (hnone.trans (congrFun hnew _))

end HttpServer

end Drt
