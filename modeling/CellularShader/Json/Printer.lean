/- # JSON text

A document is what is to be written: members stand in the order in which they are written, and a
number carries its text. It is written without blanks, or indented with one element or member on
each line.

A float is written by its shortest digits, with an exponent when it is very large or very small.
What is not a number, and infinity, have no JSON form and are written `null`.
-/

import CellularShader.Decimal
import CellularShader.Json.Value

namespace CellularShader

namespace Json

/-- A document to be written. -/
inductive Document where
  | null
  | bool (b : Bool)
  | number (text : String)
  | string (text : String)
  | array (elements : List Document)
  | object (members : List (String × Document))

/-- The powers of ten of the leading digit between which a float is written without an exponent. -/
structure FloatStyle where
  least : Int
  greatest : Int

namespace FloatStyle

def double : FloatStyle := ⟨-5, 15⟩

def single : FloatStyle := ⟨-6, 12⟩

variable {F : Format}

/-- The text of a finite magnitude. A number halfway between two shortest decimals is written as the
one with an even last digit. -/
def magnitudeText (style : FloatStyle) (x : Binary F) : String :=
  if x.isZero then "0.0"
  else
    let d := Decimal.shortest .even x
    if style.least ≤ d.magnitude ∧ d.magnitude ≤ style.greatest then d.pointed else d.scientific

/-- The text of a finite number; negative zero keeps its sign. -/
def text (style : FloatStyle) (x : Binary F) : String :=
  if x.negative then "-" ++ style.magnitudeText x else style.magnitudeText x

/-- A number as a document. -/
def document (style : FloatStyle) (x : Binary F) : Document :=
  if x.isFinite then .number (style.text x) else .null

end FloatStyle

/-- The two hexadecimal digits of a control character. -/
def hexPair (n : Nat) : String := String.ofList [Nat.digitChar (n / 16), Nat.digitChar (n % 16)]

/-- A character inside a written string. -/
def escapeChar (c : Char) : String :=
  if c = '"' then "\\\""
  else if c = '\\' then "\\\\"
  else if c = '\x08' then "\\b"
  else if c = '\x0c' then "\\f"
  else if c = '\n' then "\\n"
  else if c = '\r' then "\\r"
  else if c = '\t' then "\\t"
  else if c.toNat < 0x20 then "\\u00" ++ hexPair c.toNat
  else c.toString

/-- A written string. -/
def stringText (text : String) : String :=
  "\"" ++ String.join (text.toList.map escapeChar) ++ "\""

namespace Number

/-- The text of a number. -/
def text : Number → String
  | integer n _ => n.repr
  | float x _ => FloatStyle.double.text x

end Number

namespace Value

mutual

/-- A value as a document. -/
def document : Value → Document
  | null => .null
  | bool b => .bool b
  | number n => .number n.text
  | string text => .string text
  | array elements => .array (elementDocuments elements)
  | object members => .object (memberDocuments members)

def elementDocuments : List Value → List Document
  | [] => []
  | v :: vs => v.document :: elementDocuments vs

def memberDocuments : List (String × Value) → List (String × Document)
  | [] => []
  | (key, v) :: rest => (key, v.document) :: memberDocuments rest

end

end Value

namespace Document

mutual

/-- A document without blanks. -/
def compact : Document → String
  | null => "null"
  | bool b => if b then "true" else "false"
  | number text => text
  | string text => stringText text
  | array elements => "[" ++ ",".intercalate (compactElements elements) ++ "]"
  | object members => "\x7b" ++ ",".intercalate (compactMembers members) ++ "\x7d"

def compactElements : List Document → List String
  | [] => []
  | d :: ds => d.compact :: compactElements ds

def compactMembers : List (String × Document) → List String
  | [] => []
  | (key, d) :: rest => (stringText key ++ ":" ++ d.compact) :: compactMembers rest

end

/-- Lines between brackets, each indented by one level more than the brackets. -/
def bracketed (indent opening closing : String) (lines : List String) : String :=
  if lines.isEmpty then opening ++ closing
  else
    let inner := "\n" ++ indent ++ "  "
    opening ++ inner ++ ("," ++ inner).intercalate lines ++ "\n" ++ indent ++ closing

mutual

/-- A document with one element or member on each line, two blanks deeper on each level. -/
def indented (indent : String) : Document → String
  | null => "null"
  | bool b => if b then "true" else "false"
  | number text => text
  | string text => stringText text
  | array elements => bracketed indent "[" "]" (indentedElements (indent ++ "  ") elements)
  | object members => bracketed indent "\x7b" "\x7d" (indentedMembers (indent ++ "  ") members)

def indentedElements (indent : String) : List Document → List String
  | [] => []
  | d :: ds => indented indent d :: indentedElements indent ds

def indentedMembers (indent : String) : List (String × Document) → List String
  | [] => []
  | (key, d) :: rest => (stringText key ++ ": " ++ indented indent d) :: indentedMembers indent rest

end

/-- A document for people to read. -/
def pretty (d : Document) : String := indented "" d

end Document

end Json

end CellularShader
