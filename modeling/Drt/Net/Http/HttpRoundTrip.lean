import Drt.Net.Http.HttpRequest

/-!
# What the client sends is what the server reads

A request with a content of known length: the server returns the method, the URI, the
headers and the content, and stops behind it.
-/

open List

namespace Drt

open Outcome

namespace HttpClient

theorem writeFull_returns (h : HttpClient) (data : Blob) :
    ∃ h', Returns (fun fuel => writeFull fuel h data) h' ∧ h'.host = h.host ∧
      h'.read_stream.handle.written = h.read_stream.handle.written ++ data := by
  obtain ⟨s', hrun, hwritten⟩ := h.read_stream.writeFull_returns data
  refine ⟨{ h with read_stream := s' }, ?_, rfl, hwritten⟩
  obtain ⟨least, hrun⟩ := hrun
  exact ⟨least, fun fuel hfuel => by simp only [writeFull, onStream, hrun fuel hfuel, ok_bind]⟩

/-- A request with a content is its head, and the content. -/
theorem sendRequest_returns (h : HttpClient) {method : DrString} (uri : DrString)
    (headers : List (DrString × DrString)) (hmethod : method.utf8 ≠ [])
    (hzero : ∀ c ∈ method.utf8, c ≠ 0) (content : Blob) :
    ∃ h', Returns (fun fuel => h.sendRequest fuel method uri headers (some content)) h' ∧
      h'.read_stream.handle.written = h.read_stream.handle.written ++
        (HttpServer.headText method.utf8 uri.utf8
          ((h.hostHeader headers ++ headers ++ [(DrString.bytes (ascii "content-length"),
            DrString.bytes (numberText 10 content.length))]).map headerEntry) ++ content) := by
  have htext := requestText_eq h uri headers hmethod hzero
    (.bytes (ascii "content-length"), .bytes (numberText 10 content.length))
  have hline : headerLine (.bytes (ascii "content-length"))
      (.bytes (numberText 10 content.length)) =
        ascii "content-length: " ++ numberText 10 content.length ++ ascii "\r\n" := by
    simp [headerLine, DrString.utf8, ascii]
  rw [hline] at htext
  obtain ⟨h₁, hfirst, -, hwritten₁⟩ := h.writeFull_returns (h.requestText method uri headers ++
    (ascii "content-length: " ++ numberText 10 content.length ++ ascii "\r\n") ++ ascii "\r\n")
  obtain ⟨h₂, hsecond, -, hwritten₂⟩ := h₁.writeFull_returns content
  refine ⟨h₂, hfirst.bind hsecond, ?_⟩
  rw [hwritten₂, hwritten₁, htext, append_assoc]

end HttpClient

namespace HttpServer

variable {h : HttpServer} {rest : Blob}

theorem sizeOf64_natCast {n : Nat} (h : n < 2 ^ 64) : sizeOf64 n = n := by
  unfold sizeOf64
  omega

/-- The header of a request with a length is finished without a look at the stream. -/
theorem finishHeader_length {n : Nat} {value : DrString} (hn : n < 2 ^ 63)
    (hlength : h.header "content-length" = some value) (hvalue : value.utf8 = numberText 10 n)
    (hencoding : h.header "transfer-encoding" = none) :
    ∃ state, Returns (fun fuel => h.finishHeader fuel)
      { h with req_body_size := n, connection_state := state } := by
  have hsize : h.bodySize = n := by
    have hstops : Stops [] := fun c hc => by cases hc
    have hread := strtol_numberText (Or.inl ⟨rfl, Or.inl rfl⟩) hn hstops
    rw [append_nil] at hread
    rw [bodySize, hlength]
    simp only [hvalue, hread]
  have hencoding' : header { h with req_body_size := n } "transfer-encoding" = none := hencoding
  by_cases hstate : h.connection_state = 0
  · refine ⟨if h.req_version ≤ 0x100 then 2 else 1, .of_eq fun fuel => ?_⟩
    simp only [finishHeader, hsize, hencoding', ok_bind]
    exact if_pos hstate
  · refine ⟨h.connection_state, .of_eq fun fuel => ?_⟩
    simp only [finishHeader, hsize, hencoding', ok_bind]
    exact if_neg hstate

/-- The octets of the body that are announced are taken, in as many parts as they come. -/
theorem readParts_part {part : Blob} (hsize : h.req_body_size = part.length)
    (hpart : part.length < 2 ^ 63) (hholds : h.read_stream.Holds (part ++ rest)) (data : Blob) :
    ∃ s', s'.Holds rest ∧ ∀ result,
      Returns (fun fuel => readParts fuel { h with req_body_size := 0, read_stream := s' }
        (data ++ part)) result →
      Returns (fun fuel => readParts fuel h data) result := by
  induction hn : part.length using Nat.strongRecOn generalizing h part data with
  | ind n ih =>
    by_cases hempty : part = []
    · subst hempty
      refine ⟨h.read_stream, hholds, fun result hresult => ?_⟩
      have hsame : { h with req_body_size := 0, read_stream := h.read_stream } = h := by
        rw [show (0 : Int) = h.req_body_size from hsize.symm]
      rw [hsame, append_nil] at hresult
      exact hresult
    · have hpos := length_pos_iff.mpr hempty
      have hmax : sizeOf64 h.req_body_size = part.length := by
        rw [hsize]
        exact sizeOf64_natCast (by omega)
      obtain ⟨add, ahead, s₁, hread, hsplit, hadd, hle, h₁⟩ :=
        hholds.readData (by simp [hempty]) hpos
      obtain ⟨left, rfl, rfl⟩ : ∃ left, part = add ++ left ∧ ahead = left ++ rest := by
        rcases append_eq_append_iff.mp hsplit with ⟨more, hmore, hahead⟩ | ⟨more, hmore, hahead⟩
        · rw [hmore, length_append] at hle
          obtain rfl : more = [] := length_eq_zero_iff.mp (by omega)
          exact ⟨[], by simpa using hmore.symm, by simpa using hahead.symm⟩
        · exact ⟨more, hmore, hahead⟩
      rw [length_append] at hsize hpart hn hmax hpos hread
      have haddpos := length_pos_iff.mpr hadd
      have hsize₁ : h.req_body_size - add.length = (left.length : Int) := by
        rw [hsize]
        omega
      obtain ⟨s', h', hnext⟩ := ih left.length (by omega)
        (h := { h with read_stream := s₁, req_body_size := h.req_body_size - add.length })
        hsize₁ (by omega) h₁ (data ++ add) rfl
      refine ⟨s', h', fun result hresult => ?_⟩
      rw [append_assoc] at hnext
      refine (hnext result hresult).of_succ fun fuel => ?_
      have hmore : h.nextPart fuel = .ok (true, h) := by
        rw [nextPart, if_neg (by rw [hsize]; omega)]
      rw [readParts, hmore]
      simp only [ok_bind, onStream, StreamBuffer.readExtendAdd, hmax, hread, if_true]

theorem readParts_end (hsize : h.req_body_size = 0) (hbasic : h.transfer_encoding = .TE_Basic)
    (data : Blob) : Returns (fun fuel => readParts fuel h data) (data, h) :=
  .of_succ_ok fun fuel => by
    simp only [readParts, nextPart, hsize, hbasic, if_true, reduceCtorEq, if_false, ok_bind,
      Bool.false_eq_true]

/-- A content of known length is read to its end. -/
theorem readFullContent_length {content : Blob} (hsize : h.req_body_size = content.length)
    (hbasic : h.transfer_encoding = .TE_Basic) (hcontent : content.length < 2 ^ 63)
    (hholds : h.read_stream.Holds (content ++ rest)) :
    ∃ h', Returns (fun fuel => h.readFullContent fuel) (content, h') ∧
      h'.read_stream.Holds rest := by
  obtain ⟨s', hs', hbody⟩ := readParts_part hsize hcontent hholds []
  have hend := readParts_end (h := { h with req_body_size := 0, read_stream := s' }) rfl hbasic
    content
  obtain ⟨least, hrun⟩ := hbody _ hend
  refine ⟨{ h with req_body_size := 0, read_stream := s' }, ⟨least, fun fuel hfuel => ?_⟩, hs'⟩
  have hpos : h.req_body_size ≥ 0 := by omega
  simp only [readFullContent, if_pos hpos]
  exact hrun fuel hfuel

/-- The name of a method has letters only, in whichever case it is given. -/
theorem method_octets {method : Blob}
    (hmethod : method.map tolower ∈ HttpConst.methods.map Prod.fst) :
    method ≠ [] ∧ ∀ c ∈ method, c ≠ 0 ∧ isspace c = false := by
  have hnames : ∀ name ∈ HttpConst.methods.map Prod.fst,
      name ≠ [] ∧ ∀ c ∈ name, c ≠ 0 ∧ isspace c = false := by decide
  obtain ⟨hne, hall⟩ := hnames _ hmethod
  refine ⟨fun hnil => hne (by rw [hnil]; rfl), fun c hc => ?_⟩
  have hlower := hall (tolower c) (mem_map_of_mem hc)
  unfold tolower at hlower
  split_ifs at hlower with hupper
  · refine ⟨?_, ?_⟩
    · rintro rfl
      exact absurd hupper (by decide)
    · have hle := UInt8.le_iff_toNat_le.mp hupper.1
      have hlt : ¬ c ≤ 13 := by
        rw [UInt8.le_iff_toNat_le]
        exact Nat.not_le.mpr (Nat.lt_of_lt_of_le (by decide) hle)
      have hne32 : c ≠ 32 := by
        rintro rfl
        exact absurd hupper (by decide)
      simp [isspace, hne32, hlt]
  · exact hlower

theorem method_type_map_mem {name : Blob} (h : name ∈ HttpConst.methods.map Prod.fst) :
    (name, HttpConst.method_type_map name) ∈ HttpConst.methods := by
  have hall : ∀ name ∈ HttpConst.methods.map Prod.fst,
      (name, HttpConst.method_type_map name) ∈ HttpConst.methods := by decide
  exact hall name h

theorem method_type_map_ne {name : Blob} (h : name ∈ HttpConst.methods.map Prod.fst) :
    HttpConst.method_type_map name ≠ .other := by
  have hall : ∀ name ∈ HttpConst.methods.map Prod.fst,
      HttpConst.method_type_map name ≠ .other := by decide
  exact hall name h

/-- The length of a content is a header of its own. -/
theorem framing_length (n : Nat) :
    HttpClient.Framing
      (DrString.bytes (ascii "content-length"), DrString.bytes (numberText 10 n)) := by
  have hdigit {c : UInt8} (hc : c ∈ numberText 10 n) :=
    decimal_digit (digitValue_lt_of_mem (by decide) (by decide) hc)
  have hname : (DrString.bytes (ascii "content-length")).Ascii ∧
      ∀ c ∈ (DrString.bytes (ascii "content-length")).utf8,
        c ≠ 58 ∧ isspace c = false ∧ tolower c = c := by decide
  have hascii : (DrString.bytes (numberText 10 n)).Ascii := by
    intro c hc
    obtain ⟨o, ho, rfl⟩ := mem_map.mp hc
    have hlt := UInt8.lt_iff_toNat_lt.mp (hdigit ho).2.1
    rw [UInt32.le_iff_toNat_le, UInt8.toNat_toUInt32]
    exact Nat.le_of_lt hlt
  exact ⟨⟨hname.1, hname.2, hascii, fun c hc => ⟨(hdigit hc).1, (hdigit hc).2.1⟩,
    fun c hc => (hdigit (mem_of_mem_head? hc)).2.2.1,
    fun c hc => (hdigit (mem_of_mem_getLast? hc)).2.2.1⟩, Or.inl rfl⟩

/-- The server returns what the client sent, and stops behind it. -/
theorem readRequest_sendRequest {c : HttpClient} {method uri : DrString}
    {headers : List (DrString × DrString)} {content : Blob} (hhost : 10 ∉ c.host.utf8)
    (hmethod : method.utf8.map tolower ∈ HttpConst.methods.map Prod.fst) (huri : uri.Ascii)
    (hne : uri.utf8 ≠ []) (hblank : ∀ o ∈ uri.utf8, isspace o = false)
    (hheaders : SendableHeaders headers) (hcontent : content.length < 2 ^ 63) :
    ∃ request c', Returns (fun fuel => c.sendRequest fuel method uri headers (some content)) c' ∧
      c'.read_stream.handle.written = c.read_stream.handle.written ++ request ∧
      ∀ schedule rest, ∃ uri' h₁ h₂,
        Returns (fun fuel => (new (.new (.fresh schedule (request ++ rest)))).readRequest fuel)
          (some uri', h₁) ∧
        uri'.text = uri.text ∧
        (method.utf8.map tolower, h₁.getMethod) ∈ HttpConst.methods ∧
        (∀ f ∈ headers, h₁.getHeader f.1 = some (createLowerUtf8 f.2.utf8)) ∧
        Returns (fun fuel => h₁.readFullContent fuel) (content, h₂) ∧
        h₂.read_stream.Holds rest := by
  obtain ⟨hname, hoctets⟩ := method_octets hmethod
  have hframing := framing_length content.length
  obtain ⟨c', hsend, hwritten⟩ := c.sendRequest_returns uri headers hname (fun o ho => (hoctets o ho).1) content
  refine ⟨_, c', hsend, hwritten, fun schedule rest => ?_⟩
  generalize hlength : (DrString.bytes (ascii "content-length"),
    DrString.bytes (numberText 10 content.length)) = length at hframing
  generalize hlines : (c.hostHeader headers ++ headers ++ [length]).map HttpClient.headerEntry =
    lines
  generalize hnew : new (.new (.fresh schedule
    (headText method.utf8 uri.utf8 lines ++ content ++ rest))) = h
  have hholds : h.read_stream.Holds (headText method.utf8 uri.utf8 lines ++ (content ++ rest)) := by
    rw [← hnew, ← append_assoc]
    exact StreamBuffer.holds_new _ _
  obtain ⟨s, hs, hread⟩ := readRequest_returns (h := h) (by rw [← hnew, new]; exact Nat.succ_pos 1)
    (fun o ho => (hoctets o ho).2) hblank hne (method_type_map_ne hmethod)
    (hlines ▸ HttpClient.entries_hold hhost hheaders hframing) hholds
  obtain ⟨hfound, hnone⟩ := atBody_getHeader (h := h) (c := c) (by rw [← hnew]; rfl) hheaders
    hframing method.utf8 uri.utf8
  rw [hlines] at hfound hnone
  obtain ⟨hbasic, htype, huri'⟩ := atBody_fields h method.utf8 uri.utf8 lines
  have hvalue : (createLowerUtf8 (numberText 10 content.length)).utf8 =
      numberText 10 content.length :=
    (map_congr_left fun o ho =>
      (decimal_digit (digitValue_lt_of_mem (by decide) (by decide) ho)).2.2.2).trans
      (map_id' _)
  have hlengthFound := hfound length (mem_append_right _ (mem_singleton_self _))
  have hencoding : (h.atBody method.utf8 uri.utf8 lines).header "transfer-encoding" = none := by
    refine hnone _ (HttpClient.framing_only hheaders (Or.inr rfl) ?_)
    rw [← hlength]
    show (DrString.bytes (ascii "transfer-encoding")).text ≠
      (DrString.bytes (ascii "content-length")).text
    decide
  rw [← hlength] at hlengthFound
  obtain ⟨state, hfinish⟩ := finishHeader_length
    (h := { h.atBody method.utf8 uri.utf8 lines with read_stream := s }) hcontent hlengthFound
    hvalue hencoding
  obtain ⟨h₂, hbody, h₂'⟩ := readFullContent_length
    (h := { h.atBody method.utf8 uri.utf8 lines with
      read_stream := s, req_body_size := content.length, connection_state := state })
    rfl hbasic hcontent hs
  refine ⟨_, _, h₂, hread _ hfinish, ?_, ?_, fun f hf => ?_, hbody, h₂'⟩
  · rw [huri']
    exact (DrString.text_setUtf8_utf8 uri).mpr huri.plain
  · rw [getMethod, htype]
    exact method_type_map_mem hmethod
  · exact hfound f (mem_append_left _ hf)

/-- A `PUT` of three octets with one header, over a connection to `h:1`. -/
theorem readRequest_sendRequest_put :
    ∃ request c', Returns (fun fuel =>
        (HttpClient.new (.new (.fresh (.every 1 (by decide)) [])) (.bytes (ascii "h:1"))).sendRequest
          fuel (.bytes (ascii "PUT")) (.bytes (ascii "/a"))
          [(.bytes (ascii "x-b"), .bytes (ascii "C d"))] (some [0, 10, 255])) c' ∧
      c'.read_stream.handle.written = [] ++ request ∧
      ∀ schedule rest, ∃ uri' h₁ h₂,
        Returns (fun fuel => (new (.new (.fresh schedule (request ++ rest)))).readRequest fuel)
          (some uri', h₁) ∧
        uri'.text = (DrString.bytes (ascii "/a")).text ∧
        ((DrString.bytes (ascii "PUT")).utf8.map tolower, h₁.getMethod) ∈ HttpConst.methods ∧
        (∀ f ∈ [(DrString.bytes (ascii "x-b"), DrString.bytes (ascii "C d"))],
          h₁.getHeader f.1 = some (createLowerUtf8 f.2.utf8)) ∧
        Returns (fun fuel => h₁.readFullContent fuel) ([0, 10, 255], h₂) ∧
        h₂.read_stream.Holds rest := by
  have hsendable : Sendable (DrString.bytes (ascii "x-b"), DrString.bytes (ascii "C d")) :=
    ⟨by decide, by decide, by decide, by decide, by decide, by decide⟩
  refine readRequest_sendRequest (by decide) (by decide) (by decide) (by decide) (by decide)
    ⟨?_, by decide, by decide⟩ (by decide)
  exact forall_mem_singleton.mpr hsendable

end HttpServer

end Drt
