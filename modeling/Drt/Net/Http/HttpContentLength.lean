import Drt.Net.Http.HttpHeads

/-!
# The length in a header

Both sides read `content-length` with `strtol` of base 0, which takes digits behind a zero
for octal ones.
-/

open List

namespace Drt

open Outcome

/-- The line of a length, without its `\n`. -/
def lengthLine (digits : Blob) : Blob × DrString × DrString :=
  (ascii "content-length" ++ 58 :: (32 :: digits ++ [13]),
    createLowerUtf8 (ascii "content-length"), createLowerUtf8 digits)

/-- The line of a length holds it. -/
theorem holdsHeader_lengthLine {digits : Blob} (hdigits : ∀ c ∈ digits, digitValue c < 10) :
    HoldsHeader (lengthLine digits).1 (lengthLine digits).2 := by
  have hno : 10 ∉ digits := fun hmem => absurd (hdigits 10 hmem) (by decide)
  have hblank {c : UInt8} (hc : c ∈ digits) : isspace c = false :=
    (decimal_digit (hdigits c hc)).2.2.1
  have hname : 58 ∉ ascii "content-length" ∧ 10 ∉ ascii "content-length" := by decide
  have hvalue : 10 ∉ 32 :: digits ++ [13] := by
    simp only [mem_append, mem_cons, not_or]
    exact ⟨⟨by decide, hno⟩, by decide, not_mem_nil⟩
  have hline := holdsHeader_line hname.1 hname.2 hvalue
  rwa [trim_value (fun c hc => hblank (mem_of_mem_head? hc))
    fun c hc => hblank (mem_of_mem_getLast? hc)] at hline

theorem createLowerUtf8_digits {digits : Blob} (hdigits : ∀ c ∈ digits, digitValue c < 10) :
    (createLowerUtf8 digits).utf8 = digits :=
  (map_congr_left fun c hc => (decimal_digit (hdigits c hc)).2.2.2).trans (map_id' _)

namespace HttpServer

/-- A request with a method that the server has, whose length is in these digits and whose body is
not chunked, has a body of the number they denote, which lies ahead then. -/
def TakesLength (digits : Blob) : Prop :=
  ∀ (h : HttpServer) (line blank rest : Blob) (lines : List (Blob × DrString × DrString))
    (value : DrString), h.connection_state < 2 → RequestHead line lines blank →
    hasVersion line = true →
    h.read_stream.Holds
      (line ++ 10 :: ((lines.map fun l => l.1 ++ [10]).flatten ++ (blank ++ 10 :: rest))) →
    withHeaders lines h.req_headers contentLength = some value → value.utf8 = digits →
    (∀ encoding, withHeaders lines h.req_headers transferEncoding = some encoding →
      encoding.utf8 ≠ ascii "chunked") →
    ∃ h', Returns (fun fuel => h.readRequest fuel) (some h'.req_uri, h') ∧
      h'.req_body_size = numeral 10 digits ∧ h'.read_stream.Holds rest

/-- The size of the body of a request. -/
theorem readRequest_strtol {h : HttpServer} {line blank rest : Blob}
    {lines : List (Blob × DrString × DrString)} {value : DrString} (hstate : h.connection_state < 2)
    (hhead : RequestHead line lines blank) (hversion : hasVersion line = true)
    (hholds : h.read_stream.Holds
      (line ++ 10 :: ((lines.map fun l => l.1 ++ [10]).flatten ++ (blank ++ 10 :: rest))))
    (hlength : withHeaders lines h.req_headers contentLength = some value)
    (hencoding : ∀ encoding, withHeaders lines h.req_headers transferEncoding = some encoding →
      encoding.utf8 ≠ ascii "chunked") :
    ∃ h', Returns (fun fuel => h.readRequest fuel) (some h'.req_uri, h') ∧
      h'.req_body_size = (strtol 0 value.utf8).1 ∧ h'.read_stream.Holds rest := by
  obtain ⟨h₁, more, -, -, hheaders, -, h₁', hrun⟩ := readHead_version
    (h := { h with connection_state := 0, transfer_encoding := .TE_Basic }) hhead hversion hholds
  have hlength₁ : h₁.req_headers contentLength = some value :=
    (congrFun hheaders contentLength).trans hlength
  have hencoding₁ (encoding : DrString) (hvalue : h₁.req_headers transferEncoding = some encoding) :
      encoding.utf8 ≠ ascii "chunked" :=
    hencoding encoding ((congrFun hheaders transferEncoding).symm.trans hvalue)
  obtain ⟨state, hfinish⟩ := finishHeader_plain hencoding₁
  refine ⟨_, (returns_readRequest_iff hstate hrun _).mpr (hfinish.bind (.ok _)), ?_, h₁'⟩
  have hheader : h₁.header "content-length" = some value := hlength₁
  simp only [bodySize, hheader]

/-- The server takes a length for its number exactly where `strtol` does. -/
theorem takesLength_iff {digits : Blob} (hdigits : ∀ c ∈ digits, digitValue c < 10) :
    TakesLength digits ↔ (strtol 0 digits).1 = numeral 10 digits := by
  constructor
  · intro htakes
    generalize hline : lengthLine digits = l
    generalize hnew : new (.new (.fresh (.every 1 (by decide))
      (ascii "PUT / HTTP/1.1\r" ++ 10 :: (([l].map fun l => l.1 ++ [10]).flatten ++
        (ascii "\r" ++ 10 :: []))))) = h
    have hholds : h.read_stream.Holds (ascii "PUT / HTTP/1.1\r" ++
        10 :: (([l].map fun l => l.1 ++ [10]).flatten ++ (ascii "\r" ++ 10 :: []))) := by
      rw [← hnew]
      exact StreamBuffer.holds_new _ _
    have hstate : h.connection_state < 2 := by
      rw [← hnew, new]
      exact Nat.succ_pos 1
    have hhead : RequestHead (ascii "PUT / HTTP/1.1\r") [l] (ascii "\r") :=
      ⟨by decide, by decide, by decide,
        forall_mem_singleton.mpr (hline ▸ holdsHeader_lengthLine hdigits), by decide, by decide⟩
    have hversion : hasVersion (ascii "PUT / HTTP/1.1\r") = true := by decide
    have hlength : withHeaders [l] h.req_headers contentLength = some (createLowerUtf8 digits) := by
      have hname : (lengthLine digits).2.1.text = contentLength := by
        simp only [lengthLine, contentLength]
        decide
      rw [← hline, withHeaders, foldl_cons, foldl_nil, hname, Function.update_self,
        lengthLine]
    have hencoding (encoding : DrString)
        (hvalue : withHeaders [l] h.req_headers transferEncoding = some encoding) :
        encoding.utf8 ≠ ascii "chunked" := by
      have hname : transferEncoding ≠ (lengthLine digits).2.1.text := by
        simp only [lengthLine, transferEncoding]
        decide
      rw [← hline, ← hnew, withHeaders, foldl_cons, foldl_nil,
        Function.update_of_ne hname] at hvalue
      cases hvalue
    obtain ⟨h', hrun, hsize, -⟩ := htakes h _ _ [] [l] _ hstate hhead hversion hholds hlength
      (createLowerUtf8_digits hdigits) hencoding
    obtain ⟨h'', hrun', hsize', -⟩ :=
      readRequest_strtol hstate hhead hversion hholds hlength hencoding
    obtain ⟨-, rfl⟩ := Prod.mk.inj (hrun.unique hrun')
    rw [createLowerUtf8_digits hdigits] at hsize'
    exact hsize'.symm.trans hsize
  · rintro heq h line blank rest lines value hstate hhead hversion hholds hlength rfl hencoding
    obtain ⟨h', hrun, hsize, hrest⟩ :=
      readRequest_strtol hstate hhead hversion hholds hlength hencoding
    exact ⟨h', hrun, hsize.trans heq, hrest⟩

end HttpServer

namespace HttpClient

/-- A response whose length is in these digits has a body of the number they denote. -/
def TakesLength (digits : Blob) : Prop :=
  ∀ (c c' : HttpClient) (status : Int32 × DrString) (value : DrString),
    Returns (fun fuel => c.readHeaders fuel) (status, c') →
    c'.response_headers contentLength = some value → value.utf8 = digits →
    c'.response_size = numeral 10 digits

/-- The size of the body of a response. -/
theorem response_size_eq {c c' : HttpClient} {status : Int32 × DrString} {value : DrString}
    {fuel : Nat} (hrun : c.readHeaders fuel = .ok (status, c'))
    (hlength : c'.response_headers contentLength = some value) :
    c'.response_size = (strtol 0 value.utf8).1 := by
  obtain ⟨⟨n, c₁⟩, -, hrest⟩ := bind_eq_ok.mp hrun
  obtain ⟨⟨status₂, c₂⟩, -, hrest⟩ := bind_eq_ok.mp hrest
  obtain ⟨c₃, -, hlast⟩ := bind_eq_ok.mp hrest
  obtain ⟨-, rfl⟩ := Prod.mk.inj (Outcome.ok.inj hlast)
  have hheader : c₃.response_headers (DrString.bytes (ascii "content-length")).text = some value :=
    hlength
  simp only [hheader]

theorem onStream_returns {c : HttpClient} {α : Type}
    {call : Nat → StreamBuffer → StreamCall (α × StreamBuffer)} {a : α} {s' : StreamBuffer}
    (hcall : Returns (fun fuel => call fuel c.read_stream) (a, s')) :
    Returns (fun fuel => c.onStream (call fuel)) (a, { c with read_stream := s' }) := by
  obtain ⟨least, hrun⟩ := hcall
  exact ⟨least, fun fuel hfuel => by simp only [onStream, hrun fuel hfuel]⟩

/-- The header lines of a response are read up to the empty one. -/
theorem readHeaderLines_returns {c : HttpClient} {lines : List (Blob × DrString × DrString)}
    {blank rest : Blob} (hlines : ∀ l ∈ lines, HoldsHeader l.1 l.2) (hblank : 10 ∉ blank)
    (hempty : trimRight blank = [])
    (hholds : c.read_stream.Holds ((lines.map fun l => l.1 ++ [10]).flatten ++
      (blank ++ 10 :: rest))) :
    ∃ s', Returns (fun fuel => readHeaderLines fuel c) { c with
        response_headers := HttpServer.withHeaders lines c.response_headers, read_stream := s' } ∧
      s'.Holds rest := by
  induction lines generalizing c with
  | nil =>
    obtain ⟨s', hread, h'⟩ := StreamBuffer.readHeaderLine_end hholds hblank hempty
    exact ⟨s', .pass (fun fuel => rfl) (onStream_returns hread) (.ok _), h'⟩
  | cons l lines ih =>
    obtain ⟨hl, hlines⟩ := forall_mem_cons.mp hlines
    have hsplit : ((l :: lines).map fun l => l.1 ++ [10]).flatten ++ (blank ++ 10 :: rest) =
        l.1 ++ 10 :: ((lines.map fun l => l.1 ++ [10]).flatten ++ (blank ++ 10 :: rest)) := by
      simp
    rw [hsplit] at hholds
    obtain ⟨s₁, hread, h₁⟩ := StreamBuffer.readHeaderLine_returns hholds hl
    obtain ⟨s', hrun, h'⟩ := ih (c := { c with
      response_headers := Function.update c.response_headers l.2.1.text (some l.2.2)
      read_stream := s₁ }) hlines h₁
    exact ⟨s', .pass (fun fuel => rfl) (onStream_returns hread) hrun, h'⟩

/-- Blanks in the cache are skipped. -/
theorem skipForward_ok {cache : Blob} (n : Nat) {c : Nat} (h : c + n ≤ cache.length) :
    ∃ c', skipForward cache c n = .ok c' ∧ c' ≤ c + n := by
  induction n generalizing c with
  | zero => exact ⟨c, rfl, Nat.le_refl _⟩
  | succ n ih =>
    have hlt : c < (cache ++ [0]).length := by
      rw [length_append]
      omega
    have hget : octetAt cache c = .ok (cache ++ [0])[c] := by
      rw [octetAt, List.getElem?_eq_getElem hlt]
      rfl
    rw [skipForward, hget, ok_bind]
    split_ifs
    · obtain ⟨c', hrun, hle⟩ := ih (c := c + 1) (by omega)
      exact ⟨c', hrun, by omega⟩
    · exact ⟨c, rfl, by omega⟩

/-- The status line of a response with a length is read, with the name of the header in the
cache. -/
theorem parseStatus_ok {c : HttpClient} {tail : Blob}
    (hcache : c.read_stream.cache.octets = ascii "HTTP/1.0 200 OK\r\ncontent-length: " ++ tail) :
    ∃ status, c.parseStatus 16 = .ok (status, { c with
      read_stream := c.read_stream.shrinkCache 17 }) := by
  generalize hline : ascii "HTTP/1.0 200 OK\r\ncontent-length: " = line at hcache
  have hlength : line.length = 33 := by
    rw [← hline]
    decide
  have htake : (line ++ tail).take 16 = ascii "HTTP/1.0 200 OK\r" := by
    rw [take_append_of_le_length (by omega), ← hline]
    decide
  have hword : ((ascii "HTTP/1.0 200 OK\r").takeWhile fun c => !isspace c).length = 8 := by decide
  have hback (start : Nat) : skipBack (line ++ tail) start (8 + 16) = .ok 24 := by
    have hplace : (ascii "HTTP/1.0 200 OK\r\ncontent-length: ")[23]? = some 116 := by decide
    have hget : octetAt (line ++ tail) 23 = .ok 116 := by
      rw [octetAt, append_assoc, List.getElem?_append_left (by omega), ← hline, hplace]
      rfl
    rw [skipBack, hget, ok_bind]
    exact ite_self _
  have hread := strtol_le 10 ((line ++ tail).drop 8)
  rw [length_drop, length_append] at hread
  rw [parseStatus, hcache]
  simp only [htake, hword]
  rw [if_neg (by decide)]
  simp only [hback, ok_bind]
  generalize hnumber : strtol 10 ((line ++ tail).drop 8) = number at hread ⊢
  obtain ⟨start, hskip, hle⟩ : ∃ start, skipForward (line ++ tail) (8 + number.2)
      (24 - (8 + number.2)) = .ok start ∧ start ≤ (line ++ tail).length := by
    rw [length_append]
    by_cases hbehind : 24 ≤ 8 + number.2
    · rw [Nat.sub_eq_zero_of_le hbehind]
      exact ⟨_, rfl, by omega⟩
    · have hin : 8 + number.2 + (24 - (8 + number.2)) ≤ (line ++ tail).length := by
        rw [length_append]
        omega
      obtain ⟨start, hskip, hle⟩ := skipForward_ok (24 - (8 + number.2)) hin
      exact ⟨start, hskip, by omega⟩
  have htext : ∃ message, textBetween (line ++ tail) start 24 = .ok message := by
    have hend : 24 ≤ (line ++ tail).length + 1 := by
      rw [length_append]
      omega
    rw [textBetween, if_pos hle, if_pos hend]
    split_ifs
    · exact ⟨_, rfl⟩
    · exact ⟨_, rfl⟩
  obtain ⟨message, htext⟩ := htext
  simp only [hskip, htext, ok_bind]
  exact ⟨_, rfl⟩

/-- A client with a whole response in its cache. -/
def ahead (response : Blob) : HttpClient := new
  ⟨.fresh (.every 1 (by decide)) [], .createDgLen response, 4096, false⟩ (.bytes [])

/-- The client takes a length for its number exactly where `strtol` does. -/
theorem takesLength_iff {digits : Blob} (hdigits : ∀ c ∈ digits, digitValue c < 10) :
    TakesLength digits ↔ (strtol 0 digits).1 = numeral 10 digits := by
  constructor
  · intro htakes
    generalize hresponse : ascii "HTTP/1.0 200 OK\r" ++
      10 :: (([lengthLine digits].map fun l => l.1 ++ [10]).flatten ++ (ascii "\r" ++ 10 :: [])) =
        response
    have hcache : (ahead response).read_stream.cache.octets = response :=
      BString.octets_createDgLen response
    have hholds : (ahead response).read_stream.Holds response := by
      refine ⟨rfl, Nat.succ_pos 4095, ?_, ?_⟩
      · rw [hcache]
        rfl
      · rw [StreamBuffer.ahead, hcache]
        exact append_nil _
    have hfind : BString.findChar (ahead response).read_stream.cache.octets 10 0 = some 16 := by
      rw [hcache, ← hresponse]
      exact BString.findChar_eq (by decide) (Nat.zero_le _)
    have hline : Returns (fun fuel => (ahead response).onStream fun s =>
        StreamBuffer.readUntilChar fuel s 10 0) (16, ahead response) :=
      onStream_returns (.of_succ_ok fun fuel => by rw [StreamBuffer.readUntilChar, hfind]; rfl)
    have hstart : (ahead response).read_stream.cache.octets =
        ascii "HTTP/1.0 200 OK\r\ncontent-length: " ++ (digits ++ [13, 10, 13, 10]) := by
      rw [hcache, ← hresponse]
      simp [lengthLine, ascii]
    obtain ⟨status, hstatus⟩ := parseStatus_ok hstart
    have hrest : (((ahead response).read_stream).shrinkCache 17).Holds
        (([lengthLine digits].map fun l => l.1 ++ [10]).flatten ++ (ascii "\r" ++ 10 :: [])) := by
      generalize ([lengthLine digits].map fun l => l.1 ++ [10]).flatten ++
        (ascii "\r" ++ 10 :: []) = more at hresponse ⊢
      have hsplit : response = (ascii "HTTP/1.0 200 OK\r" ++ [10]) ++ more := by
        rw [← hresponse, append_assoc]
        rfl
      have hlength : (ascii "HTTP/1.0 200 OK\r" ++ [10]).length = 17 := by decide
      have hlines : (ahead response).read_stream.Holds
          ((ascii "HTTP/1.0 200 OK\r" ++ [10]) ++ more) := hsplit ▸ hholds
      rw [← hlength]
      exact hlines.shrinkCache ⟨more, hcache.trans hsplit⟩
    obtain ⟨s', hlines, -⟩ := readHeaderLines_returns (c := { ahead response with
      read_stream := (ahead response).read_stream.shrinkCache 17 })
      (forall_mem_singleton.mpr (holdsHeader_lengthLine hdigits)) (by decide) (by decide) hrest
    have hrun : Returns (fun fuel => (ahead response).readHeaders fuel) _ :=
      hline.bind (Returns.bind (.of_eq fun fuel => hstatus) (hlines.bind (.ok _)))
    have hlength : HttpServer.withHeaders [lengthLine digits] (ahead response).response_headers
        contentLength = some (createLowerUtf8 digits) := by
      have hname : (lengthLine digits).2.1.text = contentLength := by
        simp only [lengthLine, contentLength]
        decide
      rw [HttpServer.withHeaders, foldl_cons, foldl_nil, hname, Function.update_self,
        lengthLine]
    have hsize := htakes _ _ _ _ hrun hlength (createLowerUtf8_digits hdigits)
    obtain ⟨least, hrun⟩ := hrun
    have hsize' := response_size_eq (hrun least (Nat.le_refl least)) hlength
    rw [createLowerUtf8_digits hdigits] at hsize'
    exact hsize'.symm.trans hsize
  · rintro heq c c' status value ⟨least, hrun⟩ hlength rfl
    exact (response_size_eq (hrun least (Nat.le_refl least)) hlength).trans heq

end HttpClient

/-- Decimal digits are taken for their number on both sides exactly without a zero in front, or
below eight. -/
theorem takesLength_both_iff {digits : Blob} (hne : digits ≠ [])
    (hdigits : ∀ c ∈ digits, isdigit c = true) (hlt : numeral 10 digits < 2 ^ 63) :
    HttpServer.TakesLength digits ∧ HttpClient.TakesLength digits ↔
      digits.head? ≠ some 48 ∨ numeral 10 digits ≤ 7 := by
  have hvalues : ∀ c ∈ digits, digitValue c < 10 := fun c hc =>
    digitValue_lt_ten_iff.mpr (hdigits c hc)
  rw [HttpServer.takesLength_iff hvalues, HttpClient.takesLength_iff hvalues, and_self,
    strtol_decimal_iff hne hvalues hlt]

/-- A length of ten. -/
theorem takesLength_both_iff_ten :
    HttpServer.TakesLength (ascii "10") ∧ HttpClient.TakesLength (ascii "10") ↔
      (ascii "10").head? ≠ some 48 ∨ numeral 10 (ascii "10") ≤ 7 :=
  takesLength_both_iff (by decide) (by decide) (by decide)

/-- A length of ten with a zero in front is taken for one of eight by the server, and by the
client. -/
theorem not_takesLength_zero :
    (∀ c ∈ ascii "010", isdigit c = true) ∧ numeral 10 (ascii "010") = 10 ∧
      ¬ HttpServer.TakesLength (ascii "010") ∧ ¬ HttpClient.TakesLength (ascii "010") := by
  have hvalues : ∀ c ∈ ascii "010", digitValue c < 10 := by decide
  have hread : (strtol 0 (ascii "010")).1 ≠ numeral 10 (ascii "010") := by decide
  refine ⟨by decide, by decide, ?_, ?_⟩
  · rw [HttpServer.takesLength_iff hvalues]
    exact hread
  · rw [HttpClient.takesLength_iff hvalues]
    exact hread

end Drt
