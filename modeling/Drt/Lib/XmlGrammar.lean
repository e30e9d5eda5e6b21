import Mathlib.Data.List.Basic

/-!
# Well-formed XML

The grammar of XML documents without attributes, comments and declarations of a type, over
octets. Character data has no markup in it but references to the characters that markup is
made of; content is character data and elements, each with its end tag behind its content.
-/

namespace XmlGrammar

/-- A character that a name may start with. -/
def isNameStart (c : UInt8) : Bool :=
  65 ≤ c && c ≤ 90 || 97 ≤ c && c ≤ 122 || c = 95 || c = 58

/-- A character that may follow in a name. -/
def isNameChar (c : UInt8) : Bool := isNameStart c || 48 ≤ c && c ≤ 57 || c = 45 || c = 46

/-- A name of an element. -/
def isName : List UInt8 → Bool
  | [] => false
  | c :: name => isNameStart c && name.all isNameChar

/-- `<name>`. -/
def startTag (name : List UInt8) : List UInt8 := 60 :: (name ++ [62])

/-- `</name>`. -/
def endTag (name : List UInt8) : List UInt8 := 60 :: 47 :: (name ++ [62])

/-- An element with some content. -/
def element (name body : List UInt8) : List UInt8 := startTag name ++ (body ++ endTag name)

/-- The names of the entities that need no declaration. -/
def predefined : List (List UInt8) :=
  [[97, 109, 112], [108, 116], [103, 116], [113, 117, 111, 116], [97, 112, 111, 115]]

/-- A character that is not part of markup. -/
def isPlain (c : UInt8) : Bool := c ≠ 60 && c ≠ 62 && c ≠ 38

/-- Text without markup. -/
inductive CharData : List UInt8 → Prop where
  | nil : CharData []
  | char {c : UInt8} {text : List UInt8} (plain : isPlain c) (data : CharData text) :
      CharData (c :: text)
  | reference {name text : List UInt8} (known : name ∈ predefined) (data : CharData text) :
      CharData (38 :: (name ++ 59 :: text))

/-- What may stand between a start tag and its end tag. -/
inductive Content : List UInt8 → Prop where
  | nil : Content []
  | text {data rest : List UInt8} (isData : CharData data) (content : Content rest) :
      Content (data ++ rest)
  | element {name body rest : List UInt8} (named : isName name) (inner : Content body)
      (content : Content rest) : Content (element name body ++ rest)

/-- `<?xml version="1.0"?>`. -/
def declaration : List UInt8 :=
  [60, 63, 120, 109, 108, 32, 118, 101, 114, 115, 105, 111, 110, 61, 34, 49, 46, 48, 34, 63, 62]

/-- What may stand in front of the outermost element: a declaration of the version, and blanks. -/
def IsProlog (prolog : List UInt8) : Prop :=
  ∃ first blanks : List UInt8, prolog = first ++ blanks ∧ (first = [] ∨ first = declaration) ∧
    ∀ c ∈ blanks, c = 32 ∨ c = 9 ∨ c = 13 ∨ c = 10

/-- A whole document. -/
def Document (document : List UInt8) : Prop :=
  ∃ prolog name body, document = prolog ++ element name body ∧ IsProlog prolog ∧ isName name ∧
    Content body

variable {text text' body body' name : List UInt8}

theorem CharData.of_plain (h : ∀ c ∈ text, isPlain c) : CharData text := by
  induction text with
  | nil => exact .nil
  | cons c text ih =>
    obtain ⟨hc, h⟩ := List.forall_mem_cons.mp h
    exact .char hc (ih h)

theorem CharData.append (h : CharData text) (h' : CharData text') : CharData (text ++ text') := by
  induction h with
  | nil => exact h'
  | char plain _ ih => exact .char plain ih
  | @reference name text known _ ih =>
    have hassoc : 38 :: (name ++ 59 :: text) ++ text' = 38 :: (name ++ 59 :: (text ++ text')) := by
      rw [List.cons_append, List.append_assoc, List.cons_append]
    rw [hassoc]
    exact .reference known ih

theorem CharData.flatMap {f : UInt8 → List UInt8} (h : ∀ c, CharData (f c)) :
    CharData (text.flatMap f) := by
  induction text with
  | nil => exact .nil
  | cons c text ih =>
    rw [List.flatMap_cons]
    exact (h c).append ih

theorem CharData.content (h : CharData text) : Content text := by
  have hcontent := Content.text h .nil
  rwa [List.append_nil] at hcontent

theorem Content.append (h : Content body) (h' : Content body') : Content (body ++ body') := by
  induction h with
  | nil => exact h'
  | text isData _ ih =>
    rw [List.append_assoc]
    exact .text isData ih
  | element named inner _ _ ih =>
    rw [List.append_assoc]
    exact .element named inner ih

theorem Content.of_element (named : isName name) (inner : Content body) :
    Content (XmlGrammar.element name body) := by
  have hcontent := Content.element named inner .nil
  rwa [List.append_nil] at hcontent

end XmlGrammar
