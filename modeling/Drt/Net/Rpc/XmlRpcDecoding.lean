import Drt.Lib.Keeping
import Drt.Net.Rpc.XmlRpcDecoder

/-!
# XML-RPC tags one after the other

A function of `XmlRpcDecoder` that raises an exception leaves `pos` and `empty_el` where it has
set them. Here the decoder is kept also then, so that any functions may follow.
-/

namespace Drt

/-- Code that works on a decoder, and the decoder after it. -/
abbrev XmlDecoding (α : Type) : Type := Keeping XmlRpcDecoder Exception α

namespace XmlDecoding

open Keeping XmlRpcDecoder

/-- The decoder as it is. -/
def get : XmlDecoding XmlRpcDecoder := fun d => (.ok d, d)

/-- An assignment to its fields. -/
def modify (f : XmlRpcDecoder → XmlRpcDecoder) : XmlDecoding Unit := fun d => (.ok (), f d)

/-- `pos += n`. -/
def skip (n : Nat) : XmlDecoding Unit := modify fun d => d.skip n

/-- `*pos`. -/
def peek : XmlDecoding UInt8 := lift fun d => d.peek >>= fun c => .ok (c, d)

/-- `memcmp` with the octets at `pos`. -/
def memcmp (octets : Blob) : XmlDecoding Bool :=
  lift fun d => d.memcmp octets >>= fun same => .ok (same, d)

/-- A loop that passes characters and raises an exception at the end. -/
def skipWhile (p : UInt8 → Bool) (value_name : String) : XmlDecoding Unit := fun d =>
  if d.pos > d.theEnd then (.fault, d)
  else
    let d := d.skip (d.ahead.takeWhile p).length
    if d.pos = d.theEnd then (.raise (.endOfDataException "char" value_name), d) else (.ok (), d)

/-- The blanks up to something else. -/
def skipBlanks : XmlDecoding Unit := skipWhile isspace "element"

/-- A name, and the blanks behind it. -/
def takeName : XmlDecoding Blob := do
  let d ← get
  skipWhile isNameChar "element name"
  skipBlanks
  pure (d.ahead.takeWhile isNameChar)

/-- The character that ends a tag. -/
def takeEnd (chr : UInt8) (value : String) : XmlDecoding Unit := do
  let c ← peek
  if c ≠ chr then throw (.invalidFormatException "end tag" value) else skip 1

/-- The end tag that an empty tag stands for. -/
def emptyElement (start : Nat) : XmlDecoding XmlRpcElement := do
  modify fun d => { d with pos := start, empty_el := none }
  let name ← takeName
  takeEnd 47 "/"
  skipBlanks
  takeEnd 62 ">"
  pure ⟨true, name⟩

/-- The loop that looks for the end of a comment. -/
def skipToCommentEnd : XmlDecoding Unit := fun d =>
  match commentEnd d.ahead with
  | some n => (.ok (), d.skip (n + 3))
  | none =>
    (.raise (.endOfDataException "char" "element"), { d with pos := max d.pos (d.theEnd - 2) })

/-- A comment from its "!" on. -/
def skipComment : XmlDecoding Unit := do
  skip 1
  if ← memcmp (ascii "--") then
    skip 2
    skipToCommentEnd
  else throw (.invalidFormatException "comment" "--")

/-- An end tag from the octet behind "/" on. -/
def endElement : XmlDecoding XmlRpcElement := do
  skipBlanks
  let name ← takeName
  takeEnd 62 ">"
  pure ⟨true, name⟩

/-- The "/" of an empty tag with the blanks behind it, and `empty_el` set to the name. -/
def skipSlash (start : Nat) : XmlDecoding Unit := do
  let c ← peek
  if c = 47 then
    modify fun d => { d with empty_el := some start }
    skip 1
    skipBlanks
  else pure ()

/-- A start tag from its name on. -/
def startElement : XmlDecoding XmlRpcElement := do
  let d ← get
  let name ← takeName
  skipSlash d.pos
  takeEnd 62 ">"
  pure ⟨false, name⟩

/-- The loop of `moveToNextElement`; a pass takes a comment. -/
def nextElement : Nat → XmlDecoding XmlRpcElement
  | 0 => outOfFuel
  | fuel + 1 => do
    skipBlanks
    let c ← peek
    if c = 60 then
      skip 1
      skipBlanks
      let c ← peek
      if c = 47 then
        skip 1
        endElement
      else if c = 33 then
        skipComment
        nextElement fuel
      else startElement
    else throw (.invalidFormatException "xml" "unexpected character")

def moveToNextElement : XmlDecoding XmlRpcElement := do
  let d ← get
  match d.empty_el with
  | some start => emptyElement start
  | none => nextElement (d.theEnd + 1)

/-- The loop of `moveToNextValue`: the type of a value. -/
def nextValue : Nat → XmlDecoding Blob
  | 0 => outOfFuel
  | fuel + 1 => do
    let el ← moveToNextElement
    if el.isEnd then
      let d ← get
      throw (.invalidFormatException "xmlrpc::value" (latin d.ahead))
    else if el.name = ascii "value" then
      let el ← moveToNextElement
      if el.isEnd then throw (.invalidFormatException "xmlrpc::value" (latin el.name))
      else pure el.name
    else if el.name = ascii "param" then nextValue fuel
    else throw (.invalidFormatException "xmlrpc::value" (latin el.name))

def moveToNextValue : XmlDecoding Blob := do
  let d ← get
  nextValue (d.theEnd + 1)

/-- What `moveToNextElementReqStart` and `moveToNextElementReqEnd` have in common. -/
def requireElement (isEnd : Bool) (tag_name : String) : XmlDecoding Unit := do
  let el ← moveToNextElement
  if el = ⟨isEnd, ascii tag_name⟩ then pure ()
  else throw (.invalidFormatException "xmlrpc" tag_name)

def moveToNextElementReqStart (tag_name : String) : XmlDecoding Unit :=
  requireElement false tag_name

def moveToNextElementReqEnd (tag_name : String) : XmlDecoding Unit := requireElement true tag_name

/-- The end of `skipValueEnd`: the end of a parameter is taken, anything else is left. -/
def skipParamEnd : XmlDecoding Unit := do
  let save ← get
  let el ← moveToNextElement
  if el = ⟨true, ascii "param"⟩ then pure () else modify fun d => { d with pos := save.pos }

/-- `skipValueEnd`. The type is not used. -/
def skipValueEnd : XmlDecoding Unit := do
  let el ← moveToNextElement
  if el.isEnd then
    moveToNextElementReqEnd "value"
    skipParamEnd
  else throw (.invalidFormatException "xmlrpc" "endvalue")

/-- The loop of `readCheckType`; a pass takes a "param" tag. -/
def checkType : Nat → XmlDecoding RpcType
  | 0 => outOfFuel
  | fuel + 1 => do
    let save ← get
    let back : XmlDecoding Unit := modify fun _ => { save with empty_el := none }
    if save.pos ≥ save.theEnd then pure .rtEnd
    else
      let el ← moveToNextElement
      if el.isEnd then
        if el.name = ascii "params" ∨ el.name = ascii "fault" then pure .rtEnd
        else throw (.invalidFormatException "xmlrpc" "value")
      else if el.name = ascii "param" then checkType fuel
      else if el.name = ascii "value" then
        let el ← moveToNextElement
        if el.isEnd then throw (.invalidFormatException "xmlrpc" "value")
        else if el.name = ascii "methodResponse" then
          let el ← moveToNextElement
          if el.isEnd then throw (.invalidFormatException "xmlrpc" "header")
          else
            back
            pure (if el.name = ascii "fault" then .rtFaultResponse else .rtMethodResponse)
        else
          back
          ofOutcome (typeOfTag el.name)
      else throw (.invalidFormatException "xmlrpc" "value")

def readCheckType : XmlDecoding RpcType := do
  let d ← get
  checkType (d.theEnd + 1)

def checkArrayNext : XmlDecoding Bool := do
  let save ← get
  let el ← moveToNextElement
  if el = ⟨true, ascii "data"⟩ then
    skipValueEnd
    pure false
  else
    modify fun d => { d with pos := save.pos }
    pure true

/-- The case of a start tag in `checkStructNext`. A tag of six letters other than "member" is
passed. -/
def structStart (save_pos : Nat) (el : XmlRpcElement) : XmlDecoding Bool :=
  let rest (save_pos : Nat) (el : XmlRpcElement) : XmlDecoding Bool :=
    if el.name ≠ ascii "struct" then do
      modify fun d => { d with pos := save_pos }
      pure true
    else throw (.invalidFormatException "rpc::struct::code" (latin el.name))
  if el.name.length = 6 ∧ el.name ≠ ascii "member" then do
    let save ← get
    let el ← moveToNextElement
    if el.isEnd then rest save.pos el
    else
      modify fun d => { d with pos := save.pos }
      pure true
  else rest save_pos el

/-- The loop of `checkStructNext`; a pass takes the end of a member. -/
def checkMember : Nat → XmlDecoding Bool
  | 0 => outOfFuel
  | fuel + 1 => do
    let save ← get
    let el ← moveToNextElement
    if el.isEnd then
      if el.name = ascii "member" then checkMember fuel
      else if el.name = ascii "struct" then
        modify fun d => { d with pos := save.pos }
        skipValueEnd
        pure false
      else throw (.invalidFormatException "rpc::struct::code" (latin el.name))
    else structStart save.pos el

def checkStructNext : XmlDecoding Bool := do
  let d ← get
  checkMember (d.theEnd + 1)

/-- `readContent`: the content from `cont_start` on, and `cont_length`. -/
def readContent : XmlDecoding (Blob × Nat) := fun d => (.ok d.readContent.1, d.readContent.2)

/-- The end of `readHeader`: what the message is, by its first tags. -/
def headerType : XmlDecoding Nat := do
  let el ← moveToNextElement
  if el = ⟨false, ascii "methodCall"⟩ then pure 0
  else if el = ⟨false, ascii "methodResponse"⟩ then
    let el ← moveToNextElement
    if el = ⟨false, ascii "params"⟩ then pure 1
    else if el = ⟨false, ascii "fault"⟩ then pure 2
    else throw (.invalidFormatException "xmlrpc" "header")
  else throw (.invalidFormatException "xmlrpc" "header")

/-- The XML declaration at the start of `readHeader`. -/
def skipDeclaration : XmlDecoding Unit := fun d =>
  if d.pos + 5 ≥ d.theEnd then
    (.raise (.invalidFormatException "rpc::header" "incorrect length"), d)
  else if d.ahead.take 5 ≠ ascii "<?xml" then
    (.raise (.invalidFormatException "rpc::header" "unexpected header"), d)
  else
    let d := d.skip 5
    let d := d.skip (d.ahead.takeWhile (· ≠ 62)).length
    if d.pos ≥ d.theEnd then
      (.raise (.invalidFormatException "rpc::header" "missing end of element"), d)
    else (.ok (), d.skip 1)

/-- `readHeader`. The tags behind the XML declaration are only looked at; `empty_el` is not set
back. -/
def readHeader : XmlDecoding Nat := do
  skipDeclaration
  let save ← get
  let type ← headerType
  modify fun d => { d with pos := save.pos }
  pure type

end XmlDecoding

end Drt
