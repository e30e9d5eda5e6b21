import Drt.Net.Http.HttpChunks
import Drt.Net.Http.HttpHeads

/-!
# Whether a connection is kept

The function for the header `connection` is registered under the name `close`, so that only
a header of this name, or else the version, decides whether another request is read.
-/

open List

namespace Drt

open Outcome

namespace HttpServer

/-- The digits of a number of a version. -/
structure VersionDigits (digits : Blob) : Prop where
  notEmpty : digits ≠ []
  decimal : ∀ c ∈ digits, digitValue c < 10

/-- The version in a request line: two numbers, or none. -/
inductive VersionIn (line : Blob) : Option (Nat × Nat) → Prop
  | none (htext : versionText line = []) : VersionIn line none
  | numbers {major minor tail : Blob} (hmajor : VersionDigits major) (hminor : VersionDigits minor)
      (htail : Stops tail) (htext : versionText line = major ++ 46 :: (minor ++ tail)) :
      VersionIn line (some (numeral 10 major, numeral 10 minor))

/-- Whether a version is above 1.0. -/
def Above : Option (Nat × Nat) → Prop
  | none => False
  | some (major, minor) => 1 < major ∨ major = 1 ∧ 0 < minor

/-- The name `connection`. -/
def connection : List UInt32 := (DrString.bytes (ascii "connection")).text

/-- Whether a header says that the connection is to be kept. -/
def AsksKeep (lines : List (Blob × DrString × DrString)) : Prop :=
  ∃ l ∈ lines, l.2.1.text = connection ∧ l.2.2.text = keepAlive

/-- Whether a header says something else of the connection. -/
def AsksOther (lines : List (Blob × DrString × DrString)) : Prop :=
  ∃ l ∈ lines, l.2.1.text = connection ∧ l.2.2.text ≠ keepAlive

/-- The value of the last header named `close`. -/
def closeValue (lines : List (Blob × DrString × DrString)) : Option DrString :=
  withHeaders lines (fun _ => none) (DrString.bytes (ascii "close")).text

/-- The number that digits of a version denote to `strtol`: octal behind a zero, up to the first
digit that is not. -/
def versionNumber (digits : Blob) : Int :=
  clampLong (numeral (if digits.head? = some 48 then 8 else 10)
    (digitRun (if digits.head? = some 48 then 8 else 10) digits) : Nat)

/-- A line with a version whose numbers, as C writes them, are above 1.0 in the 32 bits that the
server has for both. -/
def WrittenAbove (line : Blob) : Prop :=
  ∃ major minor tail, VersionDigits major ∧ VersionDigits minor ∧ Stops tail ∧
    versionText line = major ++ 46 :: (minor ++ tail) ∧
    digitRun (if major.head? = some 48 then 8 else 10) major = major ∧
    256 < (versionNumber major * 256 + versionNumber minor) % 2 ^ 32

/-- What decides: the last header named `close`, or else the version in the line. -/
def Decided (line : Blob) (lines : List (Blob × DrString × DrString)) : Prop :=
  match closeValue lines with
  | some value => value.text = keepAlive
  | none => WrittenAbove line

/-- Whether a request asks for the connection to be kept: with `keep-alive`, or with a version
above 1.0 and no other value. -/
def Asked (lines : List (Blob × DrString × DrString)) (version : Option (Nat × Nat)) : Prop :=
  AsksKeep lines ∨ Above version ∧ ¬ AsksOther lines

/-- However a request comes, the connection is kept behind it when it asks for that, and closed
otherwise. -/
def Persists (line blank : Blob) (lines : List (Blob × DrString × DrString))
    (version : Option (Nat × Nat)) : Prop :=
  ∀ (h h' : HttpServer) (rest : Blob) (uri : Option DrString), h.connection_state < 2 →
    h.read_stream.Holds
      (line ++ 10 :: ((lines.map fun l => l.1 ++ [10]).flatten ++ (blank ++ 10 :: rest))) →
    Returns (fun fuel => h.readRequest fuel) (uri, h') →
    (h'.connection_state = 1 ↔ Asked (carried line lines) version) ∧
      (h'.connection_state = 2 ↔ ¬ Asked (carried line lines) version)

variable {blank line tail : Blob} {version : Option (Nat × Nat)}
  {lines : List (Blob × DrString × DrString)}

/-- A version of two numbers is what stands in the line, whatever comes behind it. -/
theorem versionOf_numbers {major minor : Blob} (hmajor : VersionDigits major)
    (hminor : VersionDigits minor) (htail : Stops tail)
    (htext : versionText line = major ++ 46 :: (minor ++ tail)) (more : Blob) :
    versionOf line more =
      if digitRun (if major.head? = some 48 then 8 else 10) major = major then
        UInt32.ofInt (versionNumber major * 256) + UInt32.ofInt (versionNumber minor)
      else 0x100 := by
  have hdot : Stops (46 :: (minor ++ (tail ++ 10 :: more))) := by
    intro c hc
    obtain rfl := Option.some.inj hc
    decide
  have hend : Stops (tail ++ 10 :: more) := by
    cases tail with
    | nil =>
      intro c hc
      obtain rfl := Option.some.inj hc
      decide
    | cons c tail => exact htail
  have hread := strtol_decimal hmajor.notEmpty hmajor.decimal hdot
  have hread' := strtol_decimal hminor.notEmpty hminor.decimal hend
  rw [versionOf, htext, parseVersion]
  generalize hbase : (if major.head? = some 48 then 8 else 10) = base at hread
  have hlength : ¬ (major ++ 46 :: (minor ++ tail)).length = 0 := by
    rw [length_append, length_cons]
    omega
  rw [if_neg hlength, append_assoc, cons_append, append_assoc, hread]
  simp only
  by_cases hall : digitRun base major = major
  · have hplace : (digitRun base major).length < (major ++ 46 :: (minor ++ tail)).length ∧
        (major ++ 46 :: (minor ++ (tail ++ 10 :: more)))[(digitRun base major).length]? =
          some 46 := by
      rw [hall]
      refine ⟨?_, ?_⟩
      · rw [length_append, length_cons]
        omega
      · rw [List.getElem?_append_right (Nat.le_refl _), Nat.sub_self]
        rfl
    have hbehind : (major ++ 46 :: (minor ++ (tail ++ 10 :: more))).drop
        ((digitRun base major).length + 1) = minor ++ (tail ++ 10 :: more) := by
      rw [hall]
      simp [drop_append]
    rw [if_pos hplace, if_pos hall, hbehind, hread', versionNumber, versionNumber, hbase]
  · have hbegins : digitRun base major <+: major := List.takeWhile_prefix _
    have hlt : (digitRun base major).length < major.length :=
      Nat.lt_of_le_of_ne hbegins.length_le fun heq => hall (hbegins.eq_of_length heq)
    have hdigit : (major ++ 46 :: (minor ++ (tail ++ 10 :: more)))[(digitRun base major).length]? ≠
        some 46 := by
      rw [List.getElem?_append_left hlt, List.getElem?_eq_getElem hlt]
      intro heq
      have hvalue := hmajor.decimal _ (getElem_mem hlt)
      rw [Option.some.inj heq] at hvalue
      exact absurd hvalue (by decide)
    rw [if_neg (fun hplace => hdigit hplace.2), if_neg hall]

theorem VersionIn.versionOf_eq (h : VersionIn line version) (more : Blob) :
    versionOf line more = versionOf line [] := by
  cases h with
  | none htext =>
    rw [versionOf, versionOf, htext]
    rfl
  | numbers hmajor hminor htail htext =>
    rw [versionOf_numbers hmajor hminor htail htext, versionOf_numbers hmajor hminor htail htext]

/-- The server takes a version for one above 1.0 exactly if it is written so. -/
theorem versionOf_gt_iff (h : VersionIn line version) :
    0x100 < versionOf line [] ↔ WrittenAbove line := by
  have hsum (a b : Int) :
      0x100 < UInt32.ofInt (a * 256) + UInt32.ofInt b ↔ 256 < (a * 256 + b) % 2 ^ 32 := by
    have h256 : (0x100 : UInt32).toNat = 256 := rfl
    rw [← UInt32.ofInt_add, UInt32.lt_iff_toNat_lt, h256, UInt32.ofInt, UInt32.toNat_ofNat']
    omega
  constructor
  · intro habove
    cases h with
    | none htext =>
      rw [versionOf, htext] at habove
      exact absurd habove (by decide)
    | numbers hmajor hminor htail htext =>
      rw [versionOf_numbers hmajor hminor htail htext] at habove
      by_contra hnot
      rw [if_neg fun hall => hnot ⟨_, _, _, hmajor, hminor, htail, htext, hall, ?_⟩] at habove
      · exact absurd habove (by decide)
      · rw [if_pos hall] at habove
        exact (hsum _ _).mp habove
  · rintro ⟨major, minor, tail, hmajor, hminor, htail, htext, hall, habove⟩
    rw [versionOf_numbers hmajor hminor htail htext, if_pos hall]
    exact (hsum _ _).mpr habove

/-- The headers named `close` decide the state of the connection. -/
theorem headerState_eq (lines : List (Blob × DrString × DrString)) :
    headerState lines 0 = match closeValue lines with
      | some value => valueState value
      | none => 0 := by
  have hall (headers : List UInt32 → Option DrString) (state : Nat)
      (hstate : state = match headers (DrString.bytes (ascii "close")).text with
        | some value => valueState value
        | none => 0) :
      headerState lines state =
        match withHeaders lines headers (DrString.bytes (ascii "close")).text with
        | some value => valueState value
        | none => 0 := by
    induction lines generalizing headers state with
    | nil => exact hstate
    | cons l lines ih =>
      rw [headerState, withHeaders, foldl_cons, foldl_cons]
      apply ih
      by_cases hname : l.2.1.text = (DrString.bytes (ascii "close")).text
      · rw [if_pos hname, hname, Function.update_self]
      · rw [if_neg hname, Function.update_of_ne (Ne.symm hname), hstate]
  exact hall _ 0 rfl

/-- Every request that is read leaves the connection as the code decides. -/
theorem readRequest_decided {h h' : HttpServer} {rest : Blob} {uri : Option DrString}
    (hstate : h.connection_state < 2) (hhead : RequestHead line lines blank)
    (hversion : VersionIn line version) (hholds : h.read_stream.Holds
      (line ++ 10 :: ((lines.map fun l => l.1 ++ [10]).flatten ++ (blank ++ 10 :: rest))))
    (hread : Returns (fun fuel => h.readRequest fuel) (uri, h')) :
    (h'.connection_state = 1 ↔ Decided line (carried line lines)) ∧
      (h'.connection_state = 2 ↔ ¬ Decided line (carried line lines)) := by
  cases hmore : hasVersion line with
  | false =>
    obtain ⟨h₁, hclosed, hrun⟩ := readHead_short
      (h := { h with connection_state := 0, transfer_encoding := .TE_Basic }) hhead.oneLine
      hhead.method hhead.supported hmore hholds
    have hfinish := (returns_readRequest_iff hstate hrun _).mp hread
    obtain ⟨-, rfl⟩ := Prod.mk.inj (hfinish.unique (.ok _))
    have hnot : ¬ Decided line (carried line lines) := by
      have hnone : carried line lines = [] := by
        rw [carried, hmore, if_neg Bool.false_ne_true]
      have htext : versionText line = [] := by
        rw [hasVersion, decide_eq_false_iff_not, not_not] at hmore
        rw [versionText, behindUri, hmore]
        rfl
      rw [hnone]
      show ¬ WrittenAbove line
      rw [← versionOf_gt_iff hversion, versionOf, htext]
      decide
    rw [hclosed]
    exact ⟨iff_of_false (by decide) hnot, iff_of_true rfl hnot⟩
  | true =>
    obtain ⟨h₁, more, hstate₁, -, -, hnumber, -, hrun⟩ := readHead_version
      (h := { h with connection_state := 0, transfer_encoding := .TE_Basic }) hhead hmore hholds
    obtain ⟨least, hfinish⟩ := (returns_readRequest_iff hstate hrun _).mp hread
    obtain ⟨h₂, hlast, hresult⟩ := bind_eq_ok.mp (hfinish least (Nat.le_refl least))
    obtain ⟨-, rfl⟩ := Prod.mk.inj (Outcome.ok.inj hresult)
    have hdone := finishHeader_state hlast
    have hcarried : carried line lines = lines := by rw [carried, hmore, if_pos rfl]
    rw [hversion.versionOf_eq more] at hnumber
    rw [hstate₁, hnumber] at hdone
    rw [hcarried]
    change h₂.connection_state = if headerState lines 0 = 0 then
      (if versionOf line [] ≤ 0x100 then 2 else 1) else headerState lines 0 at hdone
    rw [headerState_eq] at hdone
    unfold Decided
    cases hclose : closeValue lines with
    | none =>
      simp only [hclose, if_true] at hdone ⊢
      rw [hdone]
      by_cases hle : versionOf line [] ≤ 0x100
      · have hnot : ¬ WrittenAbove line :=
          mt (versionOf_gt_iff hversion).mpr (UInt32.not_lt.mpr hle)
        rw [if_pos hle]
        exact ⟨iff_of_false (by decide) hnot, iff_of_true rfl hnot⟩
      · have hlt : WrittenAbove line :=
          (versionOf_gt_iff hversion).mp (UInt32.not_le.mp hle)
        rw [if_neg hle]
        exact ⟨iff_of_true rfl hlt, iff_of_false (by decide) (not_not.mpr hlt)⟩
    | some value =>
      simp only [hclose, valueState] at hdone ⊢
      rw [hdone]
      by_cases hkeep : value.text = keepAlive
      · rw [if_pos hkeep, if_neg (by decide)]
        exact ⟨iff_of_true rfl hkeep, iff_of_false (by decide) (not_not.mpr hkeep)⟩
      · rw [if_neg hkeep, if_neg (by decide)]
        exact ⟨iff_of_false (by decide) hkeep, iff_of_true rfl hkeep⟩

/-- Every request can come with all that the server needs to read it. -/
theorem readRequest_completes (hhead : RequestHead line lines blank) :
    ∃ (h : HttpServer) (rest : Blob) (r : Option DrString × HttpServer), h.connection_state < 2 ∧
      h.read_stream.Holds
        (line ++ 10 :: ((lines.map fun l => l.1 ++ [10]).flatten ++ (blank ++ 10 :: rest))) ∧
      Returns (fun fuel => h.readRequest fuel) r := by
  -- a body without chunks, for the requests that say that theirs has chunks
  generalize hrest : HttpClient.chunksText [] ++ [] = rest
  generalize hnew : new (.new (.fresh (.every 1 (by decide))
    (line ++ 10 :: ((lines.map fun l => l.1 ++ [10]).flatten ++ (blank ++ 10 :: rest))))) = h
  have hstate : h.connection_state < 2 := by
    rw [← hnew, new]
    exact Nat.succ_pos 1
  have hholds : h.read_stream.Holds
      (line ++ 10 :: ((lines.map fun l => l.1 ++ [10]).flatten ++ (blank ++ 10 :: rest))) := by
    rw [← hnew]
    exact StreamBuffer.holds_new _ _
  cases hmore : hasVersion line with
  | false =>
    obtain ⟨h₁, -, hrun⟩ := readHead_short
      (h := { h with connection_state := 0, transfer_encoding := .TE_Basic }) hhead.oneLine
      hhead.method hhead.supported hmore hholds
    exact ⟨h, rest, _, hstate, hholds, (returns_readRequest_iff hstate hrun _).mpr (.ok _)⟩
  | true =>
    obtain ⟨h₁, more, -, hbasic, -, -, h₁', hrun⟩ := readHead_version
      (h := { h with connection_state := 0, transfer_encoding := .TE_Basic }) hhead hmore hholds
    have hfinish : ∃ h₂, Returns (fun fuel => h₁.finishHeader fuel) h₂ := by
      by_cases hchunked : ∃ encoding, h₁.req_headers transferEncoding = some encoding ∧
          encoding.utf8 = ascii "chunked"
      · obtain ⟨encoding, hencoding, hvalue⟩ := hchunked
        rw [← hrest] at h₁'
        obtain ⟨h₂, -, hfinish, -⟩ :=
          finishHeader_chunked (forall_mem_nil _) hbasic hencoding hvalue h₁'
        exact ⟨h₂, hfinish⟩
      · obtain ⟨state, hfinish⟩ := finishHeader_plain (h := h₁) fun encoding hencoding hvalue =>
          hchunked ⟨encoding, hencoding, hvalue⟩
        exact ⟨_, hfinish⟩
    obtain ⟨h₂, hfinish⟩ := hfinish
    exact ⟨h, rest, _, hstate, hholds,
      (returns_readRequest_iff hstate hrun _).mpr (hfinish.bind (.ok _))⟩

/-- A method that the server does not have ends the connection, whatever the request asks for. -/
theorem readRequest_unsupported {h : HttpServer} {rest : Blob} (hstate : h.connection_state < 2)
    (hline : 10 ∉ line) (hmethod : line.dropWhile (fun c => !isspace c) ≠ [])
    (hunknown : HttpConst.method_type_map (methodOf line) = .other)
    (hholds : h.read_stream.Holds (line ++ 10 :: rest)) :
    ∃ h' least, h'.connection_state = 2 ∧ ∀ fuel, least ≤ fuel → h.readRequest fuel =
      .raise (.unsupportedException "HttpServer" "method" (methodOf line), h') := by
  generalize hnew : { h with connection_state := 0, transfer_encoding := .TE_Basic } = h₀
  replace hholds : h₀.read_stream.Holds (line ++ 10 :: rest) := hnew ▸ hholds
  obtain ⟨s₁, ⟨least, hread⟩, -, more, hmore⟩ :=
    StreamBuffer.tryReadUntilChar_returns hholds hline (Nat.zero_le _)
  have htake : (line ++ 10 :: more).take line.length = line := take_left
  have hparse : ∃ h₁, ({ h₀ with read_stream := s₁ } : HttpServer).parseRequestLine line.length =
      .raise (.unsupportedException "HttpServer" "method" (methodOf line), h₁) := by
    rw [methodOf] at hunknown
    simp only [parseRequestLine, hmore, htake]
    rw [if_neg hmethod, if_pos hunknown, methodOf]
    exact ⟨_, rfl⟩
  obtain ⟨h₁, hparse⟩ := hparse
  refine ⟨{ h₁ with connection_state := 2 }, least, rfl, fun fuel hfuel => ?_⟩
  have hblock : readRequestBlock fuel h₀ =
      .raise (.unsupportedException "HttpServer" "method" (methodOf line), h₁) := by
    simp only [readRequestBlock, readFirstLine, onStream, hread fuel hfuel, ok_bind, hparse]
    rfl
  simp only [readRequest, if_neg (Nat.not_le.mpr hstate), hnew, hblock]

/-- The connection is kept as asked exactly when the code decides so. -/
theorem persists_iff_decided (hhead : RequestHead line lines blank)
    (hversion : VersionIn line version) :
    Persists line blank lines version ↔
      (Decided line (carried line lines) ↔ Asked (carried line lines) version) := by
  constructor
  · intro hpersists
    obtain ⟨h, rest, ⟨uri, h'⟩, hstate, hholds, hread⟩ := readRequest_completes hhead
    have hkept := (hpersists h h' rest uri hstate hholds hread).1
    rw [← hkept, (readRequest_decided hstate hhead hversion hholds hread).1]
  · intro hsame h h' rest uri hstate hholds hread
    rw [← hsame]
    exact readRequest_decided hstate hhead hversion hholds hread

/-- The connection is kept as asked exactly when the last header named `close`, or without one the
version in the line, says what the headers named `connection` and the version ask for. -/
theorem persists_iff {line blank : Blob} {lines : List (Blob × DrString × DrString)}
    {version : Option (Nat × Nat)} (hhead : RequestHead line lines blank)
    (hversion : VersionIn line version) :
    Persists line blank lines version ↔
      (AsksKeep (carried line lines) → Decided line (carried line lines)) ∧
      (¬ AsksKeep (carried line lines) → AsksOther (carried line lines) →
        ¬ Decided line (carried line lines)) ∧
      (¬ AsksKeep (carried line lines) → ¬ AsksOther (carried line lines) →
        (Decided line (carried line lines) ↔ Above version)) := by
  rw [persists_iff_decided hhead hversion, Asked]
  by_cases hkeep : AsksKeep (carried line lines)
  · simp only [hkeep, true_or, iff_true, true_implies, not_true, false_implies, and_true]
  · by_cases hother : AsksOther (carried line lines)
    · simp only [hkeep, hother, not_true, and_false, or_false, iff_false, false_implies,
        not_false_iff, true_implies, true_and, and_true]
    · simp only [hkeep, hother, false_or, not_false_iff, and_true, false_implies, true_implies,
        true_and]

theorem versionIn_one : VersionIn (ascii "GET / HTTP/1.1\r") (some (1, 1)) := by
  have hdigits : VersionDigits [49] := ⟨by decide, by decide⟩
  have hstops : Stops [13] := by
    intro c hc
    obtain rfl := Option.some.inj hc
    decide
  exact .numbers hdigits hdigits hstops (by decide)

theorem versionIn_zero : VersionIn (ascii "GET / HTTP/1.0\r") (some (1, 0)) := by
  have hmajor : VersionDigits [49] := ⟨by decide, by decide⟩
  have hminor : VersionDigits [48] := ⟨by decide, by decide⟩
  have hstops : Stops [13] := by
    intro c hc
    obtain rfl := Option.some.inj hc
    decide
  exact .numbers hmajor hminor hstops (by decide)

/-- A request without headers. -/
theorem persists_iff_plain :
    Persists (ascii "GET / HTTP/1.1\r") (ascii "\r") [] (some (1, 1)) ↔
      (AsksKeep (carried (ascii "GET / HTTP/1.1\r") []) →
        Decided (ascii "GET / HTTP/1.1\r") (carried (ascii "GET / HTTP/1.1\r") [])) ∧
      (¬ AsksKeep (carried (ascii "GET / HTTP/1.1\r") []) →
        AsksOther (carried (ascii "GET / HTTP/1.1\r") []) →
        ¬ Decided (ascii "GET / HTTP/1.1\r") (carried (ascii "GET / HTTP/1.1\r") [])) ∧
      (¬ AsksKeep (carried (ascii "GET / HTTP/1.1\r") []) →
        ¬ AsksOther (carried (ascii "GET / HTTP/1.1\r") []) →
        (Decided (ascii "GET / HTTP/1.1\r") (carried (ascii "GET / HTTP/1.1\r") []) ↔
          Above (some (1, 1)))) :=
  persists_iff ⟨by decide, by decide, by decide, forall_mem_nil _, by decide, by decide⟩
    versionIn_one

/-- A client of version 1.0 that asks for the connection to be kept loses it, and one of version
1.1 that asks for it to be closed keeps it. -/
theorem not_persists_connection :
    ¬ Persists (ascii "GET / HTTP/1.0\r") (ascii "\r")
      [(ascii "Connection: Keep-Alive\r", .bytes (ascii "connection"), .bytes (ascii "keep-alive"))]
      (some (1, 0)) ∧
    ¬ Persists (ascii "GET / HTTP/1.1\r") (ascii "\r")
      [(ascii "Connection: close\r", .bytes (ascii "connection"), .bytes (ascii "close"))]
      (some (1, 1)) := by
  constructor
  · have hline : HoldsHeader (ascii "Connection: Keep-Alive\r")
        (.bytes (ascii "connection"), .bytes (ascii "keep-alive")) :=
      ⟨by decide, by decide, by decide⟩
    have hcarried : carried (ascii "GET / HTTP/1.0\r")
        [(ascii "Connection: Keep-Alive\r", .bytes (ascii "connection"),
          .bytes (ascii "keep-alive"))] =
        [(ascii "Connection: Keep-Alive\r", .bytes (ascii "connection"),
          .bytes (ascii "keep-alive"))] := by decide
    rw [persists_iff_decided ⟨by decide, by decide, by decide,
      forall_mem_singleton.mpr hline, by decide, by decide⟩ versionIn_zero, hcarried]
    have hasked : Asked [(ascii "Connection: Keep-Alive\r", .bytes (ascii "connection"),
        .bytes (ascii "keep-alive"))] (some (1, 0)) := Or.inl ⟨_, List.mem_cons_self, rfl, rfl⟩
    have hnot : ¬ Decided (ascii "GET / HTTP/1.0\r") [(ascii "Connection: Keep-Alive\r",
        .bytes (ascii "connection"), .bytes (ascii "keep-alive"))] := by
      show ¬ WrittenAbove (ascii "GET / HTTP/1.0\r")
      rw [← versionOf_gt_iff versionIn_zero]
      decide
    exact fun hsame => hnot (hsame.mpr hasked)
  · have hline : HoldsHeader (ascii "Connection: close\r")
        (.bytes (ascii "connection"), .bytes (ascii "close")) := ⟨by decide, by decide, by decide⟩
    have hcarried : carried (ascii "GET / HTTP/1.1\r")
        [(ascii "Connection: close\r", .bytes (ascii "connection"), .bytes (ascii "close"))] =
        [(ascii "Connection: close\r", .bytes (ascii "connection"), .bytes (ascii "close"))] := by
      decide
    rw [persists_iff_decided ⟨by decide, by decide, by decide,
      forall_mem_singleton.mpr hline, by decide, by decide⟩ versionIn_one, hcarried]
    have hasked : ¬ Asked [(ascii "Connection: close\r", .bytes (ascii "connection"),
        .bytes (ascii "close"))] (some (1, 1)) := by
      rintro (⟨l, hl, -, hvalue⟩ | ⟨-, hother⟩)
      · obtain rfl := mem_singleton.mp hl
        exact absurd hvalue (by decide)
      · exact hother ⟨_, mem_cons_self, rfl, by decide⟩
    have hdecided : Decided (ascii "GET / HTTP/1.1\r") [(ascii "Connection: close\r",
        .bytes (ascii "connection"), .bytes (ascii "close"))] := by
      show WrittenAbove (ascii "GET / HTTP/1.1\r")
      rw [← versionOf_gt_iff versionIn_one]
      decide
    exact fun hsame => hasked (hsame.mp hdecided)

end HttpServer

end Drt
