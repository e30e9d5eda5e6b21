import Drt.Core.Types.AppendNumber

/-!
# Formatting

`StrData::vformatAscii` reads a conversion label by label, and writes an integer from the end of
a local buffer on. What goes around the digits is put into the buffer where it is short, and
appended to the string where it is long.
-/

namespace Drt

namespace StringData

variable {ω : Type}

/-- An argument behind the format: an `int`, an integer of the size of `long`, or anything else. -/
inductive Argument (ω : Type) where
  | int (value : UInt32)
  | long (value : UInt64)
  | other (value : ω)
  deriving DecidableEq, Repr

/-- `va_arg(args, int)`. -/
def vaInt : List (Argument ω) → Call (UInt32 × List (Argument ω))
  | .int value :: args => .ok (value, args)
  | _ => .fault

/-- `va_arg(args, long)`, and all that is as long. -/
def vaLong : List (Argument ω) → Call (UInt64 × List (Argument ω))
  | .long value :: args => .ok (value, args)
  | _ => .fault

/-- `enum Length`. -/
inductive Length where
  | none
  | hh
  | h
  | l
  | ll
  | L
  | j
  | z
  | t
  deriving DecidableEq, Repr

/-- The flags of `enum Output`. -/
structure Output where
  big : Bool
  zero : Bool
  plus : Bool
  minus : Bool
  space : Bool
  alt : Bool
  width : Bool
  prec : Bool
  deriving DecidableEq, Repr

/-- The local variables of `s_read`, and the character of the type. -/
structure Directive where
  width : Int
  prec : Int
  flength : Length
  output : Output
  type : UInt8
  deriving DecidableEq, Repr

/-- A sum of type `ssize_t`, which must not overflow. -/
def ssize (n : Int) : Call Int := if -2 ^ 63 ≤ n ∧ n < 2 ^ 63 then .ok n else .fault

/-- `10*n+c-'0'`. -/
def addDigit (n : Int) (c : UInt8) : Call Int :=
  ssize (10 * n) >>= fun n => ssize (n + c.toNat) >>= fun n => ssize (n - 48)

/-- `s_flag`: the flags, and where they end. -/
def sFlag : Blob → Output → Output × Blob
  | [], output => (output, [])
  | c :: asciifmt, output =>
    if c = 45 then sFlag asciifmt { output with minus := true }
    else if c = 43 then sFlag asciifmt { output with plus := true }
    else if c = 48 then sFlag asciifmt { output with zero := true }
    else if c = 32 then sFlag asciifmt { output with space := true }
    else if c = 35 then sFlag asciifmt { output with alt := true }
    else (output, c :: asciifmt)

/-- `s_type`. -/
def sType (asciifmt : Blob) (d : Directive) (args : List (Argument ω)) :
    Call (Directive × Blob × List (Argument ω)) :=
  match asciifmt with
  | [] => .fault
  | c :: asciifmt =>
    -- `p`
    if c = 112 then
      if d.flength = .none then
        .ok ({ d with flength := .l, output := { d.output with alt := true }, type := c },
          asciifmt, args)
      else .fault
    else if c ∈ Drt.ascii "XEFGA" then
      .ok ({ d with output := { d.output with big := true }, type := c }, asciifmt, args)
    else if c ∈ Drt.ascii "dibouxefgacsn" then .ok ({ d with type := c }, asciifmt, args)
    else .fault

/-- `s_length`: of `hh`, only the first character is passed over. -/
def sLength (asciifmt : Blob) (d : Directive) (args : List (Argument ω)) :
    Call (Directive × Blob × List (Argument ω)) :=
  match asciifmt with
  | 104 :: asciifmt =>
    sType asciifmt { d with flength := if asciifmt.head? = some 104 then .hh else .h } args
  | 108 :: 108 :: asciifmt => sType asciifmt { d with flength := .ll } args
  | 108 :: asciifmt => sType asciifmt { d with flength := .l } args
  | 76 :: asciifmt => sType asciifmt { d with flength := .L } args
  | 106 :: asciifmt => sType asciifmt { d with flength := .j } args
  | 122 :: asciifmt => sType asciifmt { d with flength := .z } args
  | 116 :: asciifmt => sType asciifmt { d with flength := .t } args
  | asciifmt => sType asciifmt d args

/-- `s_prec`. A type goes through the labels that follow to `s_type`, here and in `s_width`. -/
def sPrec : Blob → Directive → List (Argument ω) → Call (Directive × Blob × List (Argument ω))
  | [], d, args => sLength [] d args
  | c :: asciifmt, d, args =>
    if isdigit c then
      addDigit d.prec c >>= fun prec =>
        sPrec asciifmt { d with prec := prec, output := { d.output with prec := true } } args
    else if c = 42 then
      if d.prec = 0 then
        vaInt args >>= fun (prec, args) =>
          sLength asciifmt { d with prec := prec.toInt32.toInt } args
      else .fault
    else sLength (c :: asciifmt) d args

/-- `s_width`. -/
def sWidth : Blob → Directive → List (Argument ω) → Call (Directive × Blob × List (Argument ω))
  | [], d, args => sLength [] d args
  | c :: asciifmt, d, args =>
    if isdigit c then
      addDigit d.width c >>= fun width =>
        sWidth asciifmt { d with width := width, output := { d.output with width := true } } args
    else if c = 46 then sPrec asciifmt d args
    else if c = 42 then
      if d.width = 0 then
        vaInt args >>= fun (width, args) =>
          sWidth asciifmt { d with width := width.toInt32.toInt } args
      else .fault
    else sLength (c :: asciifmt) d args

/-! ## Integers -/

/-- `*--o_buf = c`. -/
def push (c : UInt8) (o_buf : Blob) : Call Blob :=
  if o_buf.length < 1024 then .ok (c :: o_buf) else .fault

/-- `memset(o_buf -= n, c, n)`. -/
def fill (c : UInt8) (n : Int) (o_buf : Blob) : Call Blob :=
  if o_buf.length + n.toNat ≤ 1024 then .ok (List.replicate n.toNat c ++ o_buf) else .fault

/-- The loop over the digits, with so much room in the buffer. -/
def formatDigits (chars : Nat → UInt8) (base : Nat) : (room number : Nat) → Blob → Call Blob
  | 0, _, _ => .fault
  | room + 1, number, o_buf =>
    let o_buf := chars (number % base) :: o_buf
    if number / base = 0 then .ok o_buf else formatDigits chars base room (number / base) o_buf

def appendAsciiChars (data : StringData) (c : UInt8) (count : Int) : StringData :=
  data.appendAscii (List.replicate count.toNat c)

/-- The zeros of the precision: fewer than 16 are put into the buffer, others are left. -/
def fillPrec (prec : Int) (o_buf : Blob) : Call (Int × Blob) :=
  let prec := prec - o_buf.length
  if prec > 0 then
    if prec < 16 then fill 48 prec o_buf >>= fun o_buf => .ok (0, o_buf) else .ok (prec, o_buf)
  else .ok (0, o_buf)

/-- A field on its way to the string; `lead` is `o_sign` or `o_signlen`. -/
structure Field (lead : Type) where
  width : Int
  lead : lead
  o_buf : Blob
  data : StringData

/-- A sign in the buffer. -/
def pushSign (o_sign : Option UInt8) (o_buf : Blob) : Call Blob :=
  match o_sign with
  | some c => push c o_buf
  | none => .ok o_buf

/-- What fills the field on the left. The sign is not cleared when it is appended. -/
def padLong (output : Output) (prec : Int) (field : Field (Option UInt8)) :
    Call (Field (Option UInt8)) :=
  if field.width > 0 ∧ ¬ output.minus then
    if prec > 0 ∨ field.width > 16 then
      if output.zero then
        let data :=
          match field.lead with
          | some c => field.data.appendAsciiChars c 1
          | none => field.data
        .ok { field with width := 0, data := data.appendAsciiChars 48 field.width }
      else
        .ok { field with width := 0, data := field.data.appendAsciiChars 32 field.width }
    else if output.zero then
      fill 48 field.width field.o_buf >>= fun o_buf =>
        .ok { field with width := 0, o_buf := o_buf }
    else
      pushSign field.lead field.o_buf >>= fun o_buf =>
        fill 32 field.width o_buf >>= fun o_buf =>
          .ok { field with width := 0, lead := none, o_buf := o_buf }
  else .ok field

/-- The rest of `format_long_common`. -/
def finishLong (prec : Int) (field : Field (Option UInt8)) : Call StringData :=
  let spaces (data : StringData) :=
    if field.width > 0 then data.appendAsciiChars 32 field.width else data
  match field.lead with
  | some c =>
    if prec > 0 then .ok (spaces ((field.data.appendAsciiChars c 1).appendAscii field.o_buf))
    else push c field.o_buf >>= fun o_buf => .ok (spaces (field.data.appendAscii o_buf))
  | none =>
    let data := if prec > 0 then field.data.appendAsciiChars 48 prec else field.data
    .ok (spaces (data.appendAscii field.o_buf))

/-- `format_long_common`. -/
def formatLongCommon (d : Directive) (o_sign : Option UInt8) (o_buf : Blob) (data : StringData) :
    Call StringData :=
  fillPrec d.prec o_buf >>= fun (prec, o_buf) =>
    let width := d.width - (o_buf.length + prec + o_sign.toList.length)
    padLong d.output prec ⟨width, o_sign, o_buf, data⟩ >>= finishLong prec

/-- The argument of a signed conversion. A `char` is signed. -/
def longArgument (flength : Length) (args : List (Argument ω)) :
    Call (Int64 × List (Argument ω)) :=
  match flength with
  | .none => vaInt args >>= fun (value, args) => .ok (value.toInt32.toInt64, args)
  | .hh => vaInt args >>= fun (value, args) => .ok (value.toUInt8.toInt8.toInt64, args)
  | .h => vaInt args >>= fun (value, args) => .ok (value.toUInt16.toInt16.toInt64, args)
  | .L => .fault
  | _ => vaLong args >>= fun (value, args) => .ok (value.toInt64, args)

/-- `out_int`. -/
def outInt (d : Directive) (args : List (Argument ω)) (data : StringData) :
    Call (StringData × List (Argument ω)) :=
  longArgument d.flength args >>= fun (value, args) =>
    let o_sign : Option UInt8 :=
      if value < 0 then some 45 else if d.output.plus then some 43 else none
    magnitude value.toBitVec >>= fun value =>
      formatDigits (fun digit => UInt8.ofNat (digit + 48)) 10 1024 value [] >>= fun o_buf =>
        formatLongCommon d o_sign o_buf data >>= fun data => .ok (data, args)

/-- The prefix in the buffer; `type` is `asciifmt[-1]`. -/
def pushPrefix (type : UInt8) (o_signlen : Nat) (o_buf : Blob) : Call Blob :=
  if o_signlen > 1 then push type o_buf >>= push 48 else push 48 o_buf

/-- What fills the field on the left. -/
def padUlong (output : Output) (type : UInt8) (prec : Int) (field : Field Nat) :
    Call (Field Nat) :=
  if field.width > 0 ∧ ¬ output.minus then
    if prec > 0 ∨ field.width > 16 then
      if output.zero then
        let data :=
          if field.lead ≠ 0 then
            field.data.appendAscii ((if output.big then [48, 88] else [48, 120]).take field.lead)
          else field.data
        .ok { field with width := 0, lead := 0, data := data.appendAsciiChars 48 field.width }
      else
        .ok { field with width := 0, data := field.data.appendAsciiChars 32 field.width }
    else if output.zero then
      fill 48 field.width field.o_buf >>= fun o_buf =>
        .ok { field with width := 0, o_buf := o_buf }
    else
      (if field.lead ≠ 0 then pushPrefix type field.lead field.o_buf else .ok field.o_buf) >>=
        fun o_buf => fill 32 field.width o_buf >>= fun o_buf =>
          .ok { field with width := 0, lead := 0, o_buf := o_buf }
  else .ok field

/-- The rest of `format_ulong_common`. -/
def finishUlong (type : UInt8) (prec : Int) (field : Field Nat) : Call StringData :=
  let spaces (data : StringData) :=
    if field.width > 0 then data.appendAsciiChars 32 field.width else data
  if field.lead ≠ 0 then
    if prec > 0 then
      .ok (spaces ((field.data.appendAscii ([48, 120].take field.lead)).appendAscii field.o_buf))
    else
      pushPrefix type field.lead field.o_buf >>= fun o_buf =>
        .ok (spaces (field.data.appendAscii o_buf))
  else
    let data := if prec > 0 then field.data.appendAsciiChars 48 prec else field.data
    .ok (spaces (data.appendAscii field.o_buf))

/-- `format_ulong_common`. -/
def formatUlongCommon (d : Directive) (o_signlen : Nat) (o_buf : Blob) (data : StringData) :
    Call StringData :=
  let o_signlen := if d.prec - o_buf.length > 0 ∧ o_signlen = 1 then 0 else o_signlen
  fillPrec d.prec o_buf >>= fun (prec, o_buf) =>
    let width := d.width - (o_buf.length + prec + o_signlen)
    padUlong d.output d.type prec ⟨width, o_signlen, o_buf, data⟩ >>= finishUlong d.type prec

/-- The argument of an unsigned conversion. -/
def ulongArgument (flength : Length) (args : List (Argument ω)) :
    Call (UInt64 × List (Argument ω)) :=
  match flength with
  | .none => vaInt args >>= fun (value, args) => .ok (value.toUInt64, args)
  | .hh => vaInt args >>= fun (value, args) => .ok (value.toUInt8.toUInt64, args)
  | .h => vaInt args >>= fun (value, args) => .ok (value.toUInt16.toUInt64, args)
  | .L => .fault
  | _ => vaLong args >>= fun (value, args) => .ok (value, args)

/-- `"0123456789ABCDEF"[digit]`. -/
def bigDigitChar (digit : Nat) : UInt8 := UInt8.ofNat (if digit < 10 then 48 + digit else 55 + digit)

/-- The base, and `o_signlen`. -/
def ulongBase (d : Directive) (value : UInt64) : Nat × Nat :=
  -- `b`
  if d.type = 98 then (2, 0)
  -- `u`
  else if d.type = 117 then (10, 0)
  -- `o`
  else if d.type = 111 then (8, if d.output.alt ∧ value ≠ 0 then 1 else 0)
  else (16, if d.output.alt then 2 else 0)

/-- `out_uint`. -/
def outUint (d : Directive) (args : List (Argument ω)) (data : StringData) :
    Call (StringData × List (Argument ω)) :=
  ulongArgument d.flength args >>= fun (value, args) =>
    let (base, o_signlen) := ulongBase d value
    formatDigits (if d.output.big then bigDigitChar else digitChar) base 1024 value.toNat [] >>=
      fun o_buf => formatUlongCommon d o_signlen o_buf data >>= fun data => .ok (data, args)

/-! ## The format -/

/-- `out_float`, `out_char`, `out_string` and `out_printed`. -/
abbrev Others (ω : Type) :=
  Directive → List (Argument ω) → StringData → Call (StringData × List (Argument ω))

/-- The label that `s_type` goes to. -/
def out (others : Others ω) (d : Directive) (args : List (Argument ω)) (data : StringData) :
    Call (StringData × List (Argument ω)) :=
  if d.type ∈ Drt.ascii "di" then outInt d args data
  else if d.type ∈ Drt.ascii "bouxXp" then outUint d args data
  else others d args data

/-- The loop of `vformatAscii`. -/
def vformatAscii (others : Others ω) :
    Nat → Blob → List (Argument ω) → StringData → Call StringData
  | 0, _, _, _ => .outOfFuel
  | _ + 1, [], _, data => .ok data
  | fuel + 1, c :: asciifmt, args, data =>
    if c = 37 then
      match sFlag asciifmt ⟨false, false, false, false, false, false, false, false⟩ with
      | (_, 37 :: asciifmt) =>
        -- `s_copy`
        vformatAscii others fuel (asciifmt.dropWhile (· ≠ 37)) args
          (data.appendAscii (37 :: asciifmt.takeWhile (· ≠ 37)))
      | (output, asciifmt) =>
        sWidth asciifmt ⟨0, 0, .none, output, 0⟩ args >>= fun (d, asciifmt, args) =>
          out others d args data >>= fun (data, args) =>
            vformatAscii others fuel asciifmt args data
    else
      vformatAscii others fuel (asciifmt.dropWhile (· ≠ 37)) args
        (data.appendAscii (c :: asciifmt.takeWhile (· ≠ 37)))

end StringData

end Drt
