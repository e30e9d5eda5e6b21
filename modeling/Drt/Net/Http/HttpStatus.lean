import Drt.Net.Http.HttpRoundTrip

/-!
# The status line of a response

The client looks for the end of the message from the first blank of the status line
and not from its start, so that it reads behind the line before it reads anything else.
-/

open List

namespace Drt

open StreamBuffer HttpClient

open Outcome

namespace StreamBuffer

/-- A handle that gives one octet at a time adds the next octet to the cache. -/
theorem extendCacheAdd_single {s : StreamBuffer} {octets : Blob} (h : s.Holds octets)
    (hone : ∀ i, s.handle.schedule.size i = 1) {c : UInt8} {tail : Blob}
    (hpending : s.handle.pending = c :: tail) :
    ∃ s', s.extendCacheAdd 256 = .ok s' ∧ s'.Holds octets ∧
      s'.handle.schedule = s.handle.schedule ∧ s'.cache.octets = s.cache.octets ++ [c] ∧
      s'.handle.pending = tail := by
  have hsize : s.handle.readSize (s.toread s.cache.octets.length) = 1 := by
    have hpos := h.toread_pos
    rw [Handle.readSize, hone]
    omega
  have hread : s.handle.read (s.toread s.cache.octets.length) = ([c], { s.handle with
      turn := s.handle.turn + 1
      pending := tail
      delivered := s.handle.delivered ++ [c] }) := by
    rw [Handle.read, hsize, hpending]
    rfl
  refine ⟨_, ?_, h.of_read (s.cache.octets.length + s.toread s.cache.octets.length) hread
    (cons_ne_nil _ _), rfl, BString.octets_unlock _ _, rfl⟩
  rw [extendCacheAdd, extendCache, if_pos (by omega), h.waitLimit, ok_bind]
  simp only [hread, if_neg (cons_ne_nil c [])]

/-- A handle that gives one octet at a time leaves nothing behind the character in the cache. -/
theorem readUntilChar_single {s : StreamBuffer} {chr : UInt8} {pre rest : Blob}
    (h : s.Holds (pre ++ chr :: rest)) (hpre : chr ∉ pre)
    (hone : ∀ i, s.handle.schedule.size i = 1) {pre' : Blob} (hcache : pre = s.cache.octets ++ pre')
    {p : Nat} (hp : p ≤ s.cache.octets.length) :
    ∃ s', Returns (fun fuel => readUntilChar fuel s chr p) (pre.length, s') ∧
      s'.cache.octets = pre ++ [chr] := by
  have hnone : BString.findChar s.cache.octets chr p = none :=
    BString.findChar_none (fun hmem => hpre (hcache ▸ mem_append_left _ hmem)) p
  have hpending : s.handle.pending = pre' ++ chr :: rest := by
    have hahead := h.ahead
    rw [ahead, hcache, append_assoc] at hahead
    exact append_cancel_left hahead
  induction pre' generalizing s p with
  | nil =>
    obtain ⟨s₁, hextend, -, -, hcache₁, -⟩ := extendCacheAdd_single h hone hpending
    rw [append_nil] at hcache
    have hsize : s.cache.getSize ≤ pre.length := by
      rw [hcache]
      exact Nat.le_refl _
    have hfind : BString.findChar (pre ++ [chr]) chr s.cache.getSize = some pre.length :=
      BString.findChar_eq hpre hsize
    rw [← hcache] at hcache₁
    have hlast : Returns (fun fuel => readUntilChar fuel s₁ chr s.cache.getSize)
        (pre.length, s₁) := .of_succ_ok fun fuel => by rw [readUntilChar, hcache₁, hfind]
    refine ⟨s₁, hlast.of_succ fun fuel => ?_, hcache₁⟩
    rw [readUntilChar, hnone]
    simp only [hextend, ok_bind]
  | cons c pre' ih =>
    obtain ⟨s₁, hextend, h₁, hschedule, hcache₁, hpending₁⟩ :=
      extendCacheAdd_single h hone hpending
    have hsplit : pre = s₁.cache.octets ++ pre' := by
      rw [hcache, hcache₁, append_assoc, singleton_append]
    have hp₁ : s.cache.getSize ≤ s₁.cache.octets.length := by
      rw [hcache₁, length_append]
      exact Nat.le_add_right _ _
    obtain ⟨s', hrun, hafter⟩ := ih h₁ (hschedule ▸ hone) hsplit hp₁
      (BString.findChar_none (fun hmem => hpre (hsplit ▸ mem_append_left _ hmem)) _) hpending₁
    refine ⟨s', hrun.of_succ fun fuel => ?_, hafter⟩
    rw [readUntilChar, hnone]
    simp only [hextend, ok_bind]

end StreamBuffer

namespace HttpClient

/-- The status line is read from a place behind it. With no more than the line in the cache this
is foreign memory. -/
theorem parseStatus_fault {h : HttpClient} {version status : Blob} (hversion : 8 ≤ version.length)
    (hblank : ∀ c ∈ version, isspace c = false)
    (hcache : h.read_stream.cache.octets = version ++ 32 :: status ++ [10]) :
    h.parseStatus (version ++ 32 :: status).length = .fault := by
  generalize hline : version ++ 32 :: status = line at hcache ⊢
  have hlength : line.length = version.length + status.length + 1 := by
    rw [← hline, length_append, length_cons]
    rfl
  have htake : (line ++ [10]).take line.length = line := take_left
  have hword : line.takeWhile (fun c => !isspace c) = version := by
    rw [← hline, takeWhile_append_of_pos (fun c hc => by rw [hblank c hc]; rfl)]
    exact append_nil _
  have hnumber := strtol_le 10 ((line ++ [10]).drop version.length)
  rw [length_drop, length_append, length_singleton] at hnumber
  have hskip : skipBack (line ++ [10])
      (version.length + (strtol 10 ((line ++ [10]).drop version.length)).2)
      (version.length + line.length) = .fault := by
    obtain ⟨b, hb⟩ : ∃ b, version.length + line.length = b + 1 :=
      ⟨version.length + line.length - 1, by omega⟩
    have houtside : (line ++ [10] ++ [0])[b]? = none := by
      rw [List.getElem?_eq_none_iff]
      simp only [length_append, length_singleton]
      omega
    rw [hb, skipBack, if_pos (by omega), octetAt, houtside]
    rfl
  rw [parseStatus, hcache]
  simp only [htake, hword]
  rw [if_neg (by omega)]
  simp only [hskip, fault_bind]

end HttpClient

namespace HttpServer

/-- `sendHeader` for each header in turn. -/
def sendHeaders (fuel : Nat) : HttpServer → List (DrString × DrString) → HttpCall HttpServer
  | h, [] => .ok h
  | h, f :: headers => do
    let h ← h.sendHeader fuel f.1 f.2
    sendHeaders fuel h headers

/-- A whole response. -/
def respond (fuel : Nat) (h : HttpServer) (code : Int32) (message : DrString)
    (headers : List (DrString × DrString)) (content : Blob) : HttpCall HttpServer := do
  let h ← h.sendResponse fuel code message
  let h ← sendHeaders fuel h headers
  h.sendContent fuel content

theorem writeFull_returns (h : HttpServer) (data : Blob) :
    ∃ h', Returns (fun fuel => writeFull fuel h data) h' ∧
      h'.read_stream.handle.written = h.read_stream.handle.written ++ data := by
  obtain ⟨s', hrun, hwritten⟩ := h.read_stream.writeFull_returns data
  refine ⟨{ h with read_stream := s' }, ?_, hwritten⟩
  obtain ⟨least, hrun⟩ := hrun
  exact ⟨least, fun fuel hfuel => by
    simp only [writeFull, onStream', onStream, hrun fuel hfuel, ok_bind]⟩

/-- The headers are written after each other. -/
theorem sendHeaders_returns (h : HttpServer) (headers : List (DrString × DrString)) :
    ∃ h', Returns (fun fuel => sendHeaders fuel h headers) h' ∧
      h'.read_stream.handle.written = h.read_stream.handle.written ++
        (headers.map fun f => headerLine f.1 f.2).flatten := by
  induction headers generalizing h with
  | nil => exact ⟨h, .ok h, (append_nil _).symm⟩
  | cons f headers ih =>
    obtain ⟨h₁, hone, hwritten₁⟩ := h.writeFull_returns (headerLine f.1 f.2)
    obtain ⟨h', hrest, hwritten⟩ := ih h₁
    refine ⟨h', hone.bind hrest, ?_⟩
    rw [hwritten, hwritten₁, map_cons, flatten_cons, append_assoc]

/-- A whole response as it is written. -/
def wholeText (h : HttpServer) (code : Int32) (message : DrString)
    (headers : List (DrString × DrString)) (content : Blob) : Blob :=
  h.responseText code message ++ ((headers.map fun f => HttpClient.headerLine f.1 f.2).flatten ++
    (ascii "content-length: " ++ numberText 10 content.length ++ ascii "\r\n\r\n") ++ content)

/-- What a response writes. -/
theorem respond_returns (h : HttpServer) (code : Int32) (message : DrString)
    (headers : List (DrString × DrString)) (content : Blob) :
    ∃ h', Returns (fun fuel => respond fuel h code message headers content) h' ∧
      h'.read_stream.handle.written =
        h.read_stream.handle.written ++ h.wholeText code message headers content := by
  obtain ⟨h₁, hfirst, hwritten₁⟩ := h.writeFull_returns (h.responseText code message)
  obtain ⟨h₂, hheaders, hwritten₂⟩ := h₁.sendHeaders_returns headers
  obtain ⟨h₃, hlength, hwritten₃⟩ := h₂.writeFull_returns
    (ascii "content-length: " ++ numberText 10 content.length ++ ascii "\r\n\r\n")
  obtain ⟨h₄, hcontent, hwritten₄⟩ := h₃.writeFull_returns content
  refine ⟨h₄, hfirst.bind (hheaders.bind (hlength.bind hcontent)), ?_⟩
  rw [hwritten₄, hwritten₃, hwritten₂, hwritten₁, wholeText]
  simp only [append_assoc]

/-- The first line of a response: the version, a blank and the status. -/
theorem responseText_line (h : HttpServer) (code : Int32) {message : DrString}
    (hmessage : 10 ∉ message.utf8) :
    ∃ version status more, h.responseText code message = version ++ 32 :: status ++ 10 :: more ∧
      8 ≤ version.length ∧ (∀ c ∈ version, isspace c = false) ∧
      10 ∉ version ++ 32 :: status := by
  have hdigit (n : Nat) : ∀ c ∈ numberText 10 n, isspace c = false := fun c hc =>
    (decimal_digit (digitValue_lt_of_mem (by decide) (by decide) hc)).2.2.1
  have hno {text : Blob} (htext : ∀ c ∈ text, isspace c = false) : 10 ∉ text :=
    fun hmem => absurd (htext 10 hmem) (by decide)
  have hnumber (n : Nat) : 0 < (numberText 10 n).length :=
    length_pos_iff.mpr (numberText_ne_nil 10 n)
  have hint : 10 ∉ intText 10 code.toInt := by
    unfold intText
    split_ifs
    · rw [mem_cons, not_or]
      exact ⟨by decide, hno (hdigit _)⟩
    · exact hno (hdigit _)
  obtain ⟨more, hmore⟩ : ∃ more, h.responseText code message =
      ascii "HTTP/" ++ numberText 10 (h.req_version / 256).toNat ++ ascii "." ++
        numberText 10 (h.req_version &&& 255).toNat ++ ascii " " ++ intText 10 code.toInt ++
        ascii " " ++ message.utf8 ++ ascii "\r\n" ++ more := ⟨_, rfl⟩
  generalize hmajor : numberText 10 (h.req_version / 256).toNat = major at hmore
  generalize hminor : numberText 10 (h.req_version &&& 255).toNat = minor at hmore
  have hmajor' := hmajor ▸ hdigit (h.req_version / 256).toNat
  have hminor' := hminor ▸ hdigit (h.req_version &&& 255).toNat
  have hversion : ∀ c ∈ ascii "HTTP/" ++ major ++ ascii "." ++ minor, isspace c = false := by
    have hfirst : ∀ c ∈ ascii "HTTP/", isspace c = false := by decide
    have hdot : ∀ c ∈ ascii ".", isspace c = false := by decide
    intro c hc
    simp only [mem_append] at hc
    rcases hc with ((hc | hc) | hc) | hc
    · exact hfirst c hc
    · exact hmajor' c hc
    · exact hdot c hc
    · exact hminor' c hc
  refine ⟨ascii "HTTP/" ++ major ++ ascii "." ++ minor,
    intText 10 code.toInt ++ ascii " " ++ message.utf8 ++ [13], more, ?_, ?_, hversion, ?_⟩
  · rw [hmore]
    simp [ascii]
  · have hpos₁ := hmajor ▸ hnumber (h.req_version / 256).toNat
    have hpos₂ := hminor ▸ hnumber (h.req_version &&& 255).toNat
    have hlen : (ascii "HTTP/").length = 5 ∧ (ascii ".").length = 1 := by decide
    simp only [length_append, hlen]
    omega
  · have hend : 10 ∉ ascii " " ∧ (10 : UInt8) ∉ [13] := by decide
    rw [mem_append, mem_cons, not_or, not_or]
    refine ⟨hno hversion, by decide, ?_⟩
    simp only [mem_append, not_or]
    exact ⟨⟨⟨hint, hend.1⟩, hmessage⟩, hend.2⟩

/-- What the client reads of a response, for one splitting of the stream into reads. The octets of
the status line are all that is needed for its code and its message. -/
structure ReadsResponse (response : Blob) (schedule : Schedule) (host : DrString) (code : Int32)
    (message : DrString) (content : Blob) (c₁ c₂ : HttpClient) : Prop where
  line : ∃ n s, Returns (fun fuel =>
      StreamBuffer.readUntilChar fuel (.new (.fresh schedule response)) 10 0) (n, s) ∧
    (HttpClient.new { s with cache := .own (s.cache.octets.take (n + 1)) } host).parseStatus n ≠
      .fault
  headers : ∃ message', message'.text = message.text ∧ Returns (fun fuel =>
    (HttpClient.new (.new (.fresh schedule response)) host).readHeaders fuel) ((code, message'), c₁)
  content : Returns (fun fuel => c₁.readFullContent fuel) (content, c₂)

/-- With reads of one octet the client leaves the cache, and returns from no response. -/
theorem readHeaders_diverges (h : HttpServer) (code : Int32) {message : DrString}
    (hmessage : 10 ∉ message.utf8) (more : Blob) (host : DrString) :
    Diverges fun fuel => (HttpClient.new (.new (.fresh (.every 1 (by decide))
      (h.responseText code message ++ more))) host).readHeaders fuel := by
  obtain ⟨version, status, lines, hline, hversion, hblank, hno⟩ :=
    h.responseText_line code hmessage
  rw [hline, append_assoc, cons_append]
  generalize hstart : StreamBuffer.new (.fresh (.every 1 (by decide))
    (version ++ 32 :: status ++ 10 :: (lines ++ more))) = s
  obtain ⟨s', hread, hcache⟩ := StreamBuffer.readUntilChar_single (p := 0)
    (hstart ▸ StreamBuffer.holds_new _ _) hno (by rw [← hstart]; exact fun _ => rfl)
    (by rw [← hstart]; rfl) (Nat.zero_le _)
  have hparse := HttpClient.parseStatus_fault (h := HttpClient.new s' host) hversion hblank hcache
  have hfirst : Returns (fun fuel => (HttpClient.new s host).onStream fun s =>
      StreamBuffer.readUntilChar fuel s 10 0)
      ((version ++ 32 :: status).length, HttpClient.new s' host) := by
    obtain ⟨least, hrun⟩ := hread
    refine ⟨least, fun fuel hfuel => ?_⟩
    have hrun' : StreamBuffer.readUntilChar fuel (HttpClient.new s host).read_stream 10 0 =
        .ok ((version ++ 32 :: status).length, s') := hrun fuel hfuel
    simp only [HttpClient.onStream, hrun']
    rfl
  refine .after hfirst (.of_ne fun fuel a => ?_)
  simp only [hparse, fault_bind, ne_eq, reduceCtorEq, not_false_eq_true]

/-- No response is read by the rules, however the stream is split. -/
theorem not_readsResponse (h : HttpServer) (code : Int32) {message : DrString}
    (hmessage : 10 ∉ message.utf8) (headers : List (DrString × DrString)) (content : Blob)
    (host : DrString) :
    ∃ response h', Returns (fun fuel => respond fuel h code message headers content) h' ∧
      h'.read_stream.handle.written = h.read_stream.handle.written ++ response ∧
      ∀ schedule c₁ c₂, ¬ ReadsResponse response schedule host code message content c₁ c₂ := by
  obtain ⟨h', hrespond, hwritten⟩ := h.respond_returns code message headers content
  obtain ⟨version, status, more, hline, hversion, hblank, hno⟩ :=
    h.responseText_line code hmessage
  refine ⟨_, h', hrespond, hwritten, fun schedule c₁ c₂ hreads => ?_⟩
  obtain ⟨more', hwhole⟩ : ∃ more', h.wholeText code message headers content =
      h.responseText code message ++ more' := ⟨_, rfl⟩
  rw [hline, append_assoc, cons_append] at hwhole
  obtain ⟨n, s, hread, hparse⟩ := hreads.line
  rw [hwhole] at hread
  obtain ⟨s', hread', -, tail, htail⟩ :=
    readUntilChar_returns (holds_new schedule _) hno (Nat.zero_le _)
  obtain ⟨rfl, rfl⟩ := Prod.mk.inj (hread.unique hread')
  have hcut : s.cache.octets.take ((version ++ 32 :: status).length + 1) =
      version ++ 32 :: status ++ [10] := by
    rw [htail]
    generalize version ++ 32 :: status = line
    rw [take_length_add_append]
    rfl
  exact hparse (parseStatus_fault hversion hblank hcut)

/-- An empty `404` with a header. -/
theorem not_readsResponse_notFound :
    ∃ response h',
      Returns (fun fuel => respond fuel (new (.new (.fresh (.every 1 (by decide)) [])))
        404 (.bytes (ascii "Not Found")) [(.bytes (ascii "a"), .bytes (ascii "b"))] []) h' ∧
      h'.read_stream.handle.written = [] ++ response ∧
      ∀ schedule c₁ c₂, ¬ ReadsResponse response schedule (.bytes []) 404
        (.bytes (ascii "Not Found")) [] c₁ c₂ :=
  not_readsResponse _ 404 (by decide) _ _ _

/-- `200 OK` with one octet, read one octet at a time. -/
theorem not_readsResponse_ok :
    ∃ response h',
      Returns (fun fuel => respond fuel (new (.new (.fresh (.every 1 (by decide)) [])))
        200 (.bytes (ascii "OK")) [] [65]) h' ∧
      h'.read_stream.handle.written = [] ++ response ∧
      ∀ c₁ c₂, ¬ ReadsResponse response (.every 1 (by decide)) (.bytes []) 200
        (.bytes (ascii "OK")) [65] c₁ c₂ := by
  obtain ⟨h', hrespond, hwritten⟩ := respond_returns
    (new (.new (.fresh (.every 1 (by decide)) []))) 200 (.bytes (ascii "OK")) [] [65]
  refine ⟨_, h', hrespond, hwritten, fun c₁ c₂ hreads => ?_⟩
  obtain ⟨message', -, hread⟩ := hreads.headers
  exact (readHeaders_diverges _ 200 (by decide) _ _).not_returns hread

end HttpServer

end Drt
