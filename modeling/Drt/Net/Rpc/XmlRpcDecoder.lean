import Drt.Core.Parse.MemBase64
import Drt.Core.Types.Number
import Drt.Net.Rpc.FastRpcDecoder

/-!
# Reading XML-RPC

`XmlRpcDecoder` takes one tag after another from `pos`. What it only looks at it reads
and then sets `pos` back. After a tag that is empty, `empty_el` stays at its name, and
the next tag is its end. A read beyond the content is a fault here. The loops over tags
are bounded by the length of the content, since a pass takes an octet at least.
-/

namespace Drt

/-- The fields of `XmlRpcDecoder`, the places in the content for its pointers. -/
structure XmlRpcDecoder where
  content : Blob
  pos : Nat
  /-- The place of the name of the tag that was empty. -/
  empty_el : Option Nat
  deriving DecidableEq, Repr

/-- The functions of other parts that `XmlRpcDecoder` calls. -/
structure XmlRpcLibrary where
  time : RpcTime
  /-- `strtod`: the bits of the number at the start of a text. -/
  strtod : Blob → UInt64

/-- What `moveToNextElement` gives: whether a tag is an end tag, and its name. -/
structure XmlRpcElement where
  isEnd : Bool
  name : Blob
  deriving DecidableEq, Repr

namespace XmlRpcDecoder

/-- `end`. -/
def theEnd (d : XmlRpcDecoder) : Nat := d.content.length

/-- The content from `pos` on. -/
def ahead (d : XmlRpcDecoder) : Blob := d.content.drop d.pos

/-- `*pos`. -/
def peek (d : XmlRpcDecoder) : Call UInt8 := .ofOption d.content[d.pos]?

/-- `pos += n`. -/
def skip (d : XmlRpcDecoder) (n : Nat) : XmlRpcDecoder := { d with pos := d.pos + n }

/-- A character of a name. -/
def isNameChar (c : UInt8) : Bool := isalnum c ∨ c = 95 ∨ c = 46

/-- A loop that passes characters and raises an exception at the end. It only looks for the end
itself, and does not find it from behind. -/
def skipWhile (p : UInt8 → Bool) (value_name : String) (d : XmlRpcDecoder) : Call XmlRpcDecoder :=
  if d.pos > d.theEnd then .fault
  else
    let d := d.skip (d.ahead.takeWhile p).length
    if d.pos = d.theEnd then .raise (.endOfDataException "char" value_name) else .ok d

/-- The blanks up to something else. -/
def skipBlanks (d : XmlRpcDecoder) : Call XmlRpcDecoder := d.skipWhile isspace "element"

/-- A name, and the blanks behind it. -/
def takeName (d : XmlRpcDecoder) : Call (Blob × XmlRpcDecoder) := do
  let name := d.ahead.takeWhile isNameChar
  let d ← d.skipWhile isNameChar "element name"
  let d ← d.skipBlanks
  .ok (name, d)

/-- The character that ends a tag. -/
def takeEnd (d : XmlRpcDecoder) (chr : UInt8) (value : String) : Call XmlRpcDecoder := do
  let c ← d.peek
  if c ≠ chr then .raise (.invalidFormatException "end tag" value) else .ok (d.skip 1)

/-- The end tag that an empty tag stands for. -/
def emptyElement (d : XmlRpcDecoder) (start : Nat) : Call (XmlRpcElement × XmlRpcDecoder) := do
  let (name, d) ← takeName { d with pos := start, empty_el := none }
  let d ← d.takeEnd 47 "/"
  let d ← d.skipBlanks
  let d ← d.takeEnd 62 ">"
  .ok (⟨true, name⟩, d)

/-- `memcmp` with the octets at `pos`. -/
def memcmp (d : XmlRpcDecoder) (octets : Blob) : Call Bool :=
  if d.pos + octets.length > d.theEnd then .fault else .ok (d.ahead.take octets.length = octets)

/-- The place of the first "-->". -/
def commentEnd : Blob → Option Nat
  | a :: b :: c :: rest =>
    if a = 45 ∧ b = 45 ∧ c = 62 then some 0 else (commentEnd (b :: c :: rest)).map (· + 1)
  | _ => none

/-- A comment from its "!" on. -/
def skipComment (d : XmlRpcDecoder) : Call XmlRpcDecoder := do
  let d := d.skip 1
  if ← d.memcmp (ascii "--") then
    let d := d.skip 2
    match commentEnd d.ahead with
    | some n => .ok (d.skip (n + 3))
    | none => .raise (.endOfDataException "char" "element")
  else .raise (.invalidFormatException "comment" "--")

/-- An end tag from the octet behind "/" on. -/
def endElement (d : XmlRpcDecoder) : Call (XmlRpcElement × XmlRpcDecoder) := do
  let d ← d.skipBlanks
  let (name, d) ← d.takeName
  let d ← d.takeEnd 62 ">"
  .ok (⟨true, name⟩, d)

/-- A start tag from its name on. -/
def startElement (d : XmlRpcDecoder) : Call (XmlRpcElement × XmlRpcDecoder) := do
  let start := d.pos
  let (name, d) ← d.takeName
  let d ← if (← d.peek) = 47 then ({ d with empty_el := some start } : XmlRpcDecoder).skip 1 |>.skipBlanks
    else .ok d
  let d ← d.takeEnd 62 ">"
  .ok (⟨false, name⟩, d)

/-- The loop of `moveToNextElement`; a pass takes a comment. -/
def nextElement : Nat → XmlRpcDecoder → Call (XmlRpcElement × XmlRpcDecoder)
  | 0, _ => .outOfFuel
  | fuel + 1, d => do
    let d ← d.skipBlanks
    if (← d.peek) = 60 then
      let d ← (d.skip 1).skipBlanks
      match ← d.peek with
      | 47 => endElement (d.skip 1)
      | 33 =>
        let d ← d.skipComment
        nextElement fuel d
      | _ => startElement d
    else .raise (.invalidFormatException "xml" "unexpected character")

def moveToNextElement (d : XmlRpcDecoder) : Call (XmlRpcElement × XmlRpcDecoder) :=
  match d.empty_el with
  | some start => d.emptyElement start
  | none => nextElement (d.theEnd + 1) d

/-- The loop of `moveToNextValue`: the type of a value. -/
def nextValue : Nat → XmlRpcDecoder → Call (Blob × XmlRpcDecoder)
  | 0, _ => .outOfFuel
  | fuel + 1, d => do
    let (el, d) ← d.moveToNextElement
    if el.isEnd then .raise (.invalidFormatException "xmlrpc::value" (latin d.ahead))
    else if el.name = ascii "value" then
      let (el, d) ← d.moveToNextElement
      if el.isEnd then .raise (.invalidFormatException "xmlrpc::value" (latin el.name))
      else .ok (el.name, d)
    else if el.name = ascii "param" then nextValue fuel d
    else .raise (.invalidFormatException "xmlrpc::value" (latin el.name))

def moveToNextValue (d : XmlRpcDecoder) : Call (Blob × XmlRpcDecoder) := nextValue (d.theEnd + 1) d

def moveToNextElementReqStart (d : XmlRpcDecoder) (tag_name : String) : Call XmlRpcDecoder := do
  let (el, d) ← d.moveToNextElement
  if el = ⟨false, ascii tag_name⟩ then .ok d
  else .raise (.invalidFormatException "xmlrpc" tag_name)

def moveToNextElementReqEnd (d : XmlRpcDecoder) (tag_name : String) : Call XmlRpcDecoder := do
  let (el, d) ← d.moveToNextElement
  if el = ⟨true, ascii tag_name⟩ then .ok d
  else .raise (.invalidFormatException "xmlrpc" tag_name)

/-- The end of `skipValueEnd`: the end of a parameter is taken, anything else is left. -/
def skipParamEnd (d : XmlRpcDecoder) : Call XmlRpcDecoder := do
  let (el, d') ← d.moveToNextElement
  .ok (if el = ⟨true, ascii "param"⟩ then d' else { d' with pos := d.pos })

/-- `skipValueEnd`. The type is not used. -/
def skipValueEnd (d : XmlRpcDecoder) : Call XmlRpcDecoder := do
  let (el, d) ← d.moveToNextElement
  if el.isEnd then
    let d ← d.moveToNextElementReqEnd "value"
    d.skipParamEnd
  else .raise (.invalidFormatException "xmlrpc" "endvalue")

/-- `readContent`: the content from `cont_start` on, and `cont_length`. -/
def readContent (d : XmlRpcDecoder) : (Blob × Nat) × XmlRpcDecoder :=
  let cont_length := if d.empty_el = none then (d.ahead.takeWhile (· ≠ 60)).length else 0
  ((d.ahead, cont_length), d.skip cont_length)

/-- What the reads of leaves have in common: the content of an element of some type. -/
def readLeaf (d : XmlRpcDecoder) (types : List String) (format_type : String) :
    Call ((Blob × Nat) × XmlRpcDecoder) := do
  let (type, d) ← d.moveToNextValue
  if type ∈ types.map ascii then
    let (cont, d) := d.readContent
    let d ← d.skipValueEnd
    .ok (cont, d)
  else .raise (.invalidFormatException format_type (latin type))

/-- The character reference at `str`, behind "&": the octet, and how many octets it takes. -/
def reference (str : Blob) : Call (UInt8 × Nat) :=
  let memcmp (octets : Blob) : Call Bool :=
    if str.length < octets.length then .fault else .ok (str.take octets.length = octets)
  do
    if ← memcmp (ascii "lt;") then .ok (60, 3)
    else if ← memcmp (ascii "gt;") then .ok (62, 3)
    else if ← memcmp (ascii "quo") then .ok (34, 5)
    else if ← memcmp (ascii "amp") then .ok (38, 4)
    else if str.head? = some 35 then
      let (number, stro) := strtol 0 (str.drop 1)
      match (str.drop 1)[stro]? with
      | some 59 => .ok (UInt8.ofNat (number % 256).toNat, stro + 2)
      | some _ => .raise (.invalidFormatException "xmlchr" "&")
      | none => .fault
    else .raise (.invalidFormatException "xmlspecial" "&")

/-- The loop of `convertToString`, with `len` octets to go; a pass takes one at least. -/
def convertFrom : Nat → Nat → Blob → Call Blob
  | 0, _, _ => .ok []
  | _ + 1, 0, _ => .ok []
  | _ + 1, _ + 1, [] => .fault
  | fuel + 1, len + 1, c :: str => do
    if c = 38 then
      let (o, taken) ← reference str
      let out ← convertFrom fuel (len - taken) (str.drop taken)
      .ok (o :: out)
    else
      let out ← convertFrom fuel len str
      .ok (c :: out)

def convertToString (str : Blob) (len : Nat) : Call DrString := do
  let out ← convertFrom len len str
  .ok (.bytes out)

/-- The type of a value by the name of its tag. -/
def typeOfTag (name : Blob) : Call RpcType :=
  if name = ascii "i4" ∨ name = ascii "i8" ∨ name = ascii "int" then .ok .rtInt
  else if name = ascii "boolean" then .ok .rtBool
  else if name = ascii "double" then .ok .rtDouble
  else if name = ascii "string" then .ok .rtString
  else if name = ascii "dateTime.iso8601" then .ok .rtTime
  else if name = ascii "base64" then .ok .rtBinary
  else if name = ascii "struct" then .ok .rtStruct
  else if name = ascii "array" then .ok .rtArray
  else if name = ascii "methodCall" then .ok .rtMethodName
  else .raise (.invalidFormatException "xmlrpc" (latin name))

/-- The loop of `readCheckType`; a pass takes a "param" tag. -/
def checkType : Nat → XmlRpcDecoder → Call (RpcType × XmlRpcDecoder)
  | 0, _ => .outOfFuel
  | fuel + 1, d =>
    let save : XmlRpcDecoder := { d with empty_el := none }
    let invalid : Call (RpcType × XmlRpcDecoder) :=
      .raise (.invalidFormatException "xmlrpc" "value")
    if d.pos ≥ d.theEnd then .ok (.rtEnd, d)
    else do
      let (el, d) ← d.moveToNextElement
      if el.isEnd then
        if el.name = ascii "params" ∨ el.name = ascii "fault" then .ok (.rtEnd, d) else invalid
      else if el.name = ascii "param" then checkType fuel d
      else if el.name = ascii "value" then
        let (el, d) ← d.moveToNextElement
        if el.isEnd then invalid
        else if el.name = ascii "methodResponse" then
          let (el, _) ← d.moveToNextElement
          if el.isEnd then .raise (.invalidFormatException "xmlrpc" "header")
          else if el.name = ascii "fault" then .ok (.rtFaultResponse, save)
          else .ok (.rtMethodResponse, save)
        else
          let type ← typeOfTag el.name
          .ok (type, save)
      else invalid

def readCheckType (d : XmlRpcDecoder) : Call (RpcType × XmlRpcDecoder) := checkType (d.theEnd + 1) d

def readMethodName (d : XmlRpcDecoder) : Call (DrString × XmlRpcDecoder) := do
  let d ← d.moveToNextElementReqStart "methodCall"
  let d ← d.moveToNextElementReqStart "methodName"
  let ((str, len), d) := d.readContent
  let d ← d.moveToNextElementReqEnd "methodName"
  let d ← d.moveToNextElementReqStart "params"
  let name ← convertToString str len
  .ok (name, d)

def readMethodResponse (d : XmlRpcDecoder) : Call XmlRpcDecoder := do
  let d ← d.moveToNextElementReqStart "methodResponse"
  d.moveToNextElementReqStart "params"

/-- The number of `readInt32`. The sign is passed before the digits. -/
def int32Of (str : Blob) (cont_length : Nat) : Int32 :=
  let digits := str.take cont_length
  if str.head? = some 45 then
    digits.tail.foldl (fun val c => val * 10 - (c.toInt8.toInt32 - 48)) 0
  else digits.foldl (fun val c => val * 10 + c.toInt8.toInt32 - 48) 0

def readInt32 (d : XmlRpcDecoder) : Call (Int32 × XmlRpcDecoder) := do
  let ((str, cont_length), d) ← d.readLeaf ["i4", "i8", "int"] "rpc::int::code"
  .ok (int32Of str cont_length, d)

/-- `*cont_start++-'0'` of a `char`, which has a sign. -/
def digitOf (c : UInt8) : Int64 := c.toInt8.toInt64 - 48

/-- The number of `readInt64`. The sign is the first of the digits of a negative number, and the
last one is left. An empty content has no sign, since a tag follows. -/
def int64Of (str : Blob) (cont_length : Nat) : Int64 :=
  let digits := str.take cont_length
  if str.head? = some 45 then digits.dropLast.foldl (fun val c => val * 10 - digitOf c) 0
  else digits.foldl (fun val c => val * 10 + digitOf c) 0

def readInt64 (d : XmlRpcDecoder) : Call (Int64 × XmlRpcDecoder) := do
  let ((str, cont_length), d) ← d.readLeaf ["i4", "i8", "int"] "rpc::int::code"
  .ok (int64Of str cont_length, d)

/-- The value of `readBool`. -/
def boolOf (content : Blob) : Call Bool :=
  if content = ascii "true" then .ok true
  else if content = ascii "false" then .ok false
  else if content = ascii "0" then .ok false
  else if content = ascii "1" then .ok true
  else .raise (.invalidFormatException "rpc::bool::content" (latin content))

def readBool (d : XmlRpcDecoder) : Call (Bool × XmlRpcDecoder) := do
  let ((str, cont_length), d) ← d.readLeaf ["boolean"] "rpc::bool::code"
  let value ← boolOf (str.take cont_length)
  .ok (value, d)

def readDouble (lib : XmlRpcLibrary) (d : XmlRpcDecoder) : Call (UInt64 × XmlRpcDecoder) := do
  let ((str, _), d) ← d.readLeaf ["double"] "rpc::double::code"
  .ok (lib.strtod str, d)

def readString (d : XmlRpcDecoder) : Call (DrString × XmlRpcDecoder) := do
  let ((str, cont_length), d) ← d.readLeaf ["string"] "rpc::string::code"
  let value ← convertToString str cont_length
  .ok (value, d)

def readBinary (d : XmlRpcDecoder) : Call (Blob × XmlRpcDecoder) := do
  let ((str, cont_length), d) ← d.readLeaf ["base64"] "rpc::base64::code"
  let value ← MemBase64.decodeBase64 (cont_length * 2 / 3 + 2) str cont_length
  .ok (value, d)

/-- A number of at most `n` digits at the start of a text, and what is behind them. -/
def timeField (n : Nat) (text : Blob) : Int × Blob :=
  let digits := (text.take n).takeWhile isdigit
  ((numeral 10 digits : Nat), text.drop digits.length)

/-- A text without one of these characters at its start. -/
def withoutMark (marks : Blob) : Blob → Blob
  | [] => []
  | c :: text => if c ∈ marks then text else c :: text

/-- `if (cont_length < 1 || !isdigit(*cont_start)) xthrownew(…)`. -/
def requireDigit (text : Blob) : Call Unit :=
  match text with
  | c :: _ =>
    if isdigit c then .ok () else .raise (.invalidFormatException "rpc::date::format" (latin text))
  | [] => .raise (.invalidFormatException "rpc::date::format" "")

/-- The fields behind the date: hour, minute, second and zone. -/
def clockOf (text : Blob) : Call (Int × Int × Int × Int) :=
  if text = [] then .ok (0, 0, 0, 0)
  else do
    requireDigit text
    let (hour, text) := timeField 2 text
    let text := withoutMark (ascii ":") text
    if text = [] then .ok (hour, 0, 0, 0)
    else
      requireDigit text
      let (min, text) := timeField 2 text
      let text := withoutMark (ascii ":") text
      let (sec, text) ← if text = [] then .ok (0, text) else do
        requireDigit text
        let (sec, text) := timeField 2 text
        .ok (sec, withoutMark (ascii ":") text)
      let tz := (Int32.ofInt (strtol 10 text).1).toInt
      .ok (hour, min, sec, tz - 40 * tz.tdiv 100)

/-- The value of `readTime`. -/
def timeOf (time : RpcTime) (text : Blob) : Call Int64 := do
  requireDigit text
  let (year, text) := timeField 4 text
  let text := withoutMark (ascii "-") text
  requireDigit text
  let (mon, text) := timeField 2 text
  let text := withoutMark (ascii "-") text
  requireDigit text
  let (mday, text) := timeField 2 text
  let (hour, min, sec, tz) ← clockOf (withoutMark (ascii "Tt ") text)
  .ok (time.convertUtcTime year (mon - 1) (mday - 1) hour min sec (-tz))

def readTime (lib : XmlRpcLibrary) (d : XmlRpcDecoder) : Call (Int64 × XmlRpcDecoder) := do
  let ((str, cont_length), d) ← d.readLeaf ["dateTime.iso8601"] "rpc::bool::code"
  let value ← timeOf lib.time (str.take cont_length)
  .ok (value, d)

/-- `readStructLength`. The length is not known. -/
def readStructLength (d : XmlRpcDecoder) : Call XmlRpcDecoder := do
  let (type, d) ← d.moveToNextValue
  if type = ascii "struct" then .ok d
  else .raise (.invalidFormatException "rpc::struct::code" (latin type))

/-- `readArrayLength`. The length is not known. -/
def readArrayLength (d : XmlRpcDecoder) : Call XmlRpcDecoder := do
  let (type, d) ← d.moveToNextValue
  if type = ascii "array" then d.moveToNextElementReqStart "data"
  else .raise (.invalidFormatException "rpc::array::code" (latin type))

def readMemberName (d : XmlRpcDecoder) : Call (DrString × XmlRpcDecoder) := do
  let d ← d.moveToNextElementReqStart "member"
  let d ← d.moveToNextElementReqStart "name"
  let ((str, cont_length), d) := d.readContent
  let d ← d.moveToNextElementReqEnd "name"
  .ok (.bytes (str.take cont_length), d)

def checkArrayNext (d : XmlRpcDecoder) : Call (Bool × XmlRpcDecoder) := do
  let (el, d') ← d.moveToNextElement
  if el = ⟨true, ascii "data"⟩ then
    let d ← d'.skipValueEnd
    .ok (false, d)
  else .ok (true, { d' with pos := d.pos })

/-- The case of a start tag in `checkStructNext`. A tag of six letters other than "member" is
passed. -/
def structStart (save_pos : Nat) (el : XmlRpcElement) (d : XmlRpcDecoder) :
    Call (Bool × XmlRpcDecoder) :=
  let rest (save_pos : Nat) (el : XmlRpcElement) (d : XmlRpcDecoder) : Call (Bool × XmlRpcDecoder) :=
    if el.name ≠ ascii "struct" then .ok (true, { d with pos := save_pos })
    else .raise (.invalidFormatException "rpc::struct::code" (latin el.name))
  if el.name.length = 6 ∧ el.name ≠ ascii "member" then do
    let (el, d') ← d.moveToNextElement
    if el.isEnd then rest d.pos el d' else .ok (true, { d' with pos := d.pos })
  else rest save_pos el d

/-- The loop of `checkStructNext`; a pass takes the end of a member. -/
def checkMember : Nat → XmlRpcDecoder → Call (Bool × XmlRpcDecoder)
  | 0, _ => .outOfFuel
  | fuel + 1, d => do
    let (el, d') ← d.moveToNextElement
    if el.isEnd then
      if el.name = ascii "member" then checkMember fuel d'
      else if el.name = ascii "struct" then
        let d ← ({ d' with pos := d.pos } : XmlRpcDecoder).skipValueEnd
        .ok (false, d)
      else .raise (.invalidFormatException "rpc::struct::code" (latin el.name))
    else structStart d.pos el d'

def checkStructNext (d : XmlRpcDecoder) : Call (Bool × XmlRpcDecoder) := checkMember (d.theEnd + 1) d

/-- `RpcHelper::StructMapper`: the readers of the members of a struct, by their names. -/
abbrev StructMapper (α : Type) :=
  List (DrString × (α → XmlRpcDecoder → Call (α × XmlRpcDecoder)))

/-- A reader in its `xtry`. -/
def readMapped {α : Type} (reader : α → XmlRpcDecoder → Call (α × XmlRpcDecoder)) (name : DrString)
    (struc : α) (d : XmlRpcDecoder) : Call (α × XmlRpcDecoder) :=
  match reader struc d with
  | .raise ex => .raise (.rpcException ex ("failed to read " ++ latin name.utf8))
  | result => result

/-- The loop of `RpcHelper::readStruct`; a pass takes a member. -/
def readStructMembers {α : Type} (mapper : StructMapper α) :
    Nat → α → XmlRpcDecoder → Call (α × XmlRpcDecoder)
  | 0, _, _ => .outOfFuel
  | fuel + 1, struc, d => do
    let (more, d) ← d.checkStructNext
    if more then
      let (name, d) ← d.readMemberName
      match mapper.lookup name with
      | some reader =>
        let (struc, d) ← readMapped reader name struc d
        readStructMembers mapper fuel struc d
      | none => .raise (.invalidFormatException "rpc::unknown_member" (latin name.utf8))
    else .ok (struc, d)

/-- `RpcHelper::readStruct`. -/
def readStruct {α : Type} (mapper : StructMapper α) (struc : α) (d : XmlRpcDecoder) :
    Call (α × XmlRpcDecoder) := do
  let d ← d.readStructLength
  readStructMembers mapper (d.theEnd + 1) struc d

/-- `Fault_rpc`. -/
structure FaultRpc where
  faultCode : Int32
  faultString : DrString
  deriving DecidableEq, Repr

/-- `getReader<Sint32>()` at the code. -/
def FaultRpc.readCode (fault : FaultRpc) (d : XmlRpcDecoder) : Call (FaultRpc × XmlRpcDecoder) := do
  let (value, d) ← d.readInt32
  .ok ({ fault with faultCode := value }, d)

/-- `RpcHelper::readString` at the message. -/
def FaultRpc.readMessage (fault : FaultRpc) (d : XmlRpcDecoder) : Call (FaultRpc × XmlRpcDecoder) := do
  let (value, d) ← d.readString
  .ok ({ fault with faultString := value }, d)

/-- `Fault_rpc::rpc_map`. -/
def FaultRpc.rpcMap : StructMapper FaultRpc :=
  [(.bytes (ascii "faultCode"), readCode), (.bytes (ascii "faultString"), readMessage)]

/-- `readFaultResponse`: the code and the message. `faultCode` is what the code is before it is read;
it is not initialized. -/
def readFaultResponse (faultCode : Int32) (d : XmlRpcDecoder) :
    Call ((Int64 × DrString) × XmlRpcDecoder) := do
  let d ← d.moveToNextElementReqStart "methodResponse"
  let d ← d.moveToNextElementReqStart "fault"
  let (fault, d) ← d.readStruct FaultRpc.rpcMap ⟨faultCode, .bytes []⟩
  let d ← d.moveToNextElementReqEnd "fault"
  let d ← d.moveToNextElementReqEnd "methodResponse"
  .ok ((fault.faultCode.toInt64, fault.faultString), d)

mutual

/-- `RpcDecoder::readVariant`. -/
def readVariant (lib : XmlRpcLibrary) : Nat → XmlRpcDecoder → Call (Variant × XmlRpcDecoder)
  | 0, _ => .outOfFuel
  | fuel + 1, d => do
    let (type, d) ← d.readCheckType
    match type with
    | .rtEnd => .raise (.endOfDataException "type" "type")
    | .rtInt =>
      let (v, d) ← d.readInt64
      .ok (.int v, d)
    | .rtBool =>
      let (v, d) ← d.readBool
      .ok (.bool v, d)
    | .rtDouble =>
      let (v, d) ← d.readDouble lib
      .ok (.double v, d)
    | .rtString =>
      let (s, d) ← d.readString
      .ok (.string s, d)
    | .rtTime =>
      let (t, d) ← d.readTime lib
      .ok (.time t, d)
    | .rtBinary =>
      let (b, d) ← d.readBinary
      .ok (.binary b, d)
    | .rtStruct =>
      let d ← d.readStructLength
      let (struc, d) ← readMembers lib fuel [] d
      .ok (.struct struc, d)
    | .rtArray =>
      let d ← d.readArrayLength
      let (list, d) ← readElements lib fuel [] d
      .ok (.array list, d)
    | .rtMethodName | .rtMethodResponse | .rtFaultResponse => .ok (.null, d)

/-- `while (checkStructNext(&num_members))`. -/
def readMembers (lib : XmlRpcLibrary) : Nat → List (DrString × Variant) → XmlRpcDecoder →
    Call (List (DrString × Variant) × XmlRpcDecoder)
  | 0, _, _ => .outOfFuel
  | fuel + 1, struc, d => do
    let (more, d) ← d.checkStructNext
    if more then
      let (member_name, d) ← d.readMemberName
      let (member_value, d) ← readVariant lib fuel d
      let struc ← createMember struc member_name member_value
      readMembers lib fuel struc d
    else .ok (struc, d)

/-- `while (checkArrayNext(&num_members))`. -/
def readElements (lib : XmlRpcLibrary) : Nat → List Variant → XmlRpcDecoder →
    Call (List Variant × XmlRpcDecoder)
  | 0, _, _ => .outOfFuel
  | fuel + 1, list, d => do
    let (more, d) ← d.checkArrayNext
    if more then
      let (member_value, d) ← readVariant lib fuel d
      readElements lib fuel (RArray.append list member_value) d
    else .ok (list, d)

end

mutual

/-- `readSkip`. No type has the numbers 7 and 8 that are skipped as integers too. -/
def readSkip (lib : XmlRpcLibrary) : Nat → XmlRpcDecoder → Call XmlRpcDecoder
  | 0, _ => .outOfFuel
  | fuel + 1, d => do
    let (type, d) ← d.readCheckType
    match type with
    | .rtInt => do let (_, d) ← d.readInt64; .ok d
    | .rtBool => do let (_, d) ← d.readBool; .ok d
    | .rtDouble => do let (_, d) ← d.readDouble lib; .ok d
    | .rtString => do let (_, d) ← d.readString; .ok d
    | .rtTime => do let (_, d) ← d.readTime lib; .ok d
    | .rtBinary => do let (_, d) ← d.readBinary; .ok d
    | .rtStruct =>
      let d ← d.readStructLength
      skipMembers lib fuel d
    | .rtArray =>
      -- the length of a struct is read for an array, too
      let d ← d.readStructLength
      skipElements lib fuel d
    | .rtMethodName => do let (_, d) ← d.readMethodName; .ok d
    | .rtMethodResponse => d.readMethodResponse
    -- the code and the message are dropped
    | .rtFaultResponse => do let (_, d) ← d.readFaultResponse 0; .ok d
    | .rtEnd => .raise (.invalidFormatException "rpc::type" "unknown type")

/-- `while (checkStructNext(&sc))`. -/
def skipMembers (lib : XmlRpcLibrary) : Nat → XmlRpcDecoder → Call XmlRpcDecoder
  | 0, _ => .outOfFuel
  | fuel + 1, d => do
    let (more, d) ← d.checkStructNext
    if more then
      let (_, d) ← d.readMemberName
      let d ← readSkip lib fuel d
      skipMembers lib fuel d
    else .ok d

/-- `while (checkArrayNext(&ac))`. -/
def skipElements (lib : XmlRpcLibrary) : Nat → XmlRpcDecoder → Call XmlRpcDecoder
  | 0, _ => .outOfFuel
  | fuel + 1, d => do
    let (more, d) ← d.checkArrayNext
    if more then
      let d ← readSkip lib fuel d
      skipElements lib fuel d
    else .ok d

end

end XmlRpcDecoder

end Drt
