/- # What is wrong with a JSON text

Reading stops at the first fault from left to right. A fault of syntax says what the text should
have gone on with; a fault of content says what was found and what was wanted.
-/

import CellularShader.Json.Printer
import CellularShader.Text.Quotation

namespace CellularShader

namespace Json

/-- A value found where another was wanted. What is inside a list or an object does not matter. -/
inductive Found where
  | null
  | bool (b : Bool)
  | integer (n : Int)
  | float (x : Double)
  | string (text : String)
  | sequence
  | map
deriving DecidableEq

/-- What a reader wants. -/
inductive Wanted where
  | int32
  | double
  | single
  | boolean
  | string
  | sequence
  | map
  /-- Three numbers. -/
  | offset
  /-- A list with no more elements than a record has fields. -/
  | fewerElements
  /-- A record by its name. -/
  | record (name : String)
  /-- A record by its name, from a list of the given length. -/
  | recordOf (name : String) (length : Nat)
deriving DecidableEq

/-- The reason why a text is refused. -/
inductive Fault where
  | unfinishedList
  | unfinishedObject
  | unfinishedString
  | unfinishedValue
  | expectedColon
  | expectedCommaOrBracket
  | expectedCommaOrBrace
  | expectedIdent
  | expectedValue
  | invalidEscape
  | invalidNumber
  | numberOutOfRange
  | controlCharacter
  | keyNotString
  | keyNotNumeric
  | loneSurrogate
  | unfinishedSurrogate
  | trailingComma
  | trailingCharacters
  | tooDeep
  | wrongType (found : Found) (wanted : Wanted)
  | wrongValue (found : Found) (wanted : Wanted)
  | wrongLength (length : Nat) (wanted : Wanted)
  | missingField (name : String)
  | duplicateField (name : String)
  /-- Neither a string nor a number where an edge policy is wanted. -/
  | notAnEdge
deriving DecidableEq

namespace Found

def text : Found → String
  | null => "null"
  | bool b => "boolean `" ++ (if b then "true" else "false") ++ "`"
  | integer n => "integer `" ++ n.repr ++ "`"
  | float x => "floating point `" ++ FloatStyle.double.text x ++ "`"
  | string text => "string " ++ Text.quote text
  | sequence => "sequence"
  | map => "map"

end Found

namespace Wanted

def text : Wanted → String
  | int32 => "i32"
  | double => "f64"
  | single => "f32"
  | boolean => "a boolean"
  | string => "a string"
  | sequence => "a sequence"
  | map => "a map"
  | offset => "a sequence of 3 f32 values"
  | fewerElements => "fewer elements in array"
  | record name => "struct " ++ name
  | recordOf name length => "struct " ++ name ++ " with " ++ length.repr ++ " elements"

end Wanted

namespace Fault

/-- The wording of a fault. -/
def message : Fault → String
  | unfinishedList => "EOF while parsing a list"
  | unfinishedObject => "EOF while parsing an object"
  | unfinishedString => "EOF while parsing a string"
  | unfinishedValue => "EOF while parsing a value"
  | expectedColon => "expected `:`"
  | expectedCommaOrBracket => "expected `,` or `]`"
  | expectedCommaOrBrace => "expected `,` or `\x7d`"
  | expectedIdent => "expected ident"
  | expectedValue => "expected value"
  | invalidEscape => "invalid escape"
  | invalidNumber => "invalid number"
  | numberOutOfRange => "number out of range"
  | controlCharacter => "control character (\\u0000-\\u001F) found while parsing a string"
  | keyNotString => "key must be a string"
  | keyNotNumeric => "invalid value: expected key to be a number in quotes"
  | loneSurrogate => "lone leading surrogate in hex escape"
  | unfinishedSurrogate => "unexpected end of hex escape"
  | trailingComma => "trailing comma"
  | trailingCharacters => "trailing characters"
  | tooDeep => "recursion limit exceeded"
  | wrongType found wanted => "invalid type: " ++ found.text ++ ", expected " ++ wanted.text
  | wrongValue found wanted => "invalid value: " ++ found.text ++ ", expected " ++ wanted.text
  | wrongLength length wanted => "invalid length " ++ length.repr ++ ", expected " ++ wanted.text
  | missingField name => "missing field `" ++ name ++ "`"
  | duplicateField name => "duplicate field `" ++ name ++ "`"
  | notAnEdge => "data did not match any variant of untagged enum RawOutOfBound"

end Fault

namespace Value

/-- What a value counts as when something else was wanted. -/
def found : Value → Found
  | null => .null
  | bool b => .bool b
  | number (.integer n _) => .integer n
  | number (.float x _) => .float x
  | string text => .string text
  | array _ => .sequence
  | object _ => .map

end Value

end Json

end CellularShader
