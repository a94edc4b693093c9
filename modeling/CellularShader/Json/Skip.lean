/- # Skipping JSON values

A value that nobody wants is passed over with looser rules than a value that is read: it may nest to
any depth, its numbers may be of any size, and its strings may hold half a surrogate pair. The
brackets that are still open are kept in a list.
-/

import CellularShader.Json.Reader

namespace CellularShader

namespace Json

/-! ## Numbers and strings -/

/-- At least one digit, even at the end of the text. -/
def skipDigits : Reader Unit := fun text =>
  match Numeral.digits text with
  | ([], _) => .error .invalidNumber
  | (_, rest) => .ok ((), rest)

/-- The exponent, if there is one. -/
def skipExponent : Reader Unit
  | 'e' :: rest | 'E' :: rest =>
    (do
      let _ ← Numeral.readExponentSign
      skipDigits) rest
  | text => .ok ((), text)

/-- The digits after the point, if there is one. -/
def skipFraction : Reader Unit
  | '.' :: rest => skipDigits rest
  | text => .ok ((), text)

/-- The digits before the point. -/
def skipWhole : Reader Unit
  | '0' :: c :: rest => if c.isDigit then .error .invalidNumber else .ok ((), c :: rest)
  | text => skipDigits text

def skipNumber : Reader Unit := do
  let _ ← Numeral.readSign
  skipWhole
  skipFraction
  skipExponent

/-- The characters that a backslash may stand before, `u` and its digits apart. -/
def isEscapable (c : Char) : Bool := ['"', '\\', '/', 'b', 'f', 'n', 'r', 't'].contains c

/-- A string after its opening quote. The digits of an escape are looked at once and then passed
over like other characters. -/
def skipString : Reader Unit
  | [] | ['\\'] => .error .unfinishedString
  | '"' :: rest => .ok ((), rest)
  | '\\' :: 'u' :: rest =>
    match readHex rest with
    | .ok _ => skipString rest
    | .error fault => .error fault
  | '\\' :: c :: rest => if isEscapable c then skipString rest else .error .invalidEscape
  | c :: rest => if c.toNat < 0x20 then .error .controlCharacter else skipString rest

/-! ## Lists and objects -/

/-- An open bracket. -/
inductive Bracket where
  | list
  | object
deriving DecidableEq

namespace Bracket

/-- The fault of a text that ends inside the bracket. -/
def unfinished : Bracket → Fault
  | list => .unfinishedList
  | object => .unfinishedObject

/-- The fault of an element that is followed by neither a comma nor the closing bracket. -/
def expectedCommaOrEnd : Bracket → Fault
  | list => .expectedCommaOrBracket
  | object => .expectedCommaOrBrace

def closing : Bracket → Char
  | list => ']'
  | object => '}'

/-- What stands before a value inside the bracket: nothing, or a key and a colon. -/
def skipKey : Bracket → Reader Unit
  | list => pure ()
  | object => fun text =>
    match skipBlanks text with
    | [] => .error .unfinishedObject
    | '"' :: rest =>
      (do
        skipString
        readColon) rest
    | _ => .error .keyNotString

end Bracket

/-- What a value starts with: it is a scalar and has been passed over, or it opens a bracket. -/
def skipScalar : Reader (Option Bracket) := fun text =>
  match skipBlanks text with
  | [] => .error .unfinishedValue
  | 'n' :: rest => ((fun _ => none) <$> readWord ['u', 'l', 'l']) rest
  | 't' :: rest => ((fun _ => none) <$> readWord ['r', 'u', 'e']) rest
  | 'f' :: rest => ((fun _ => none) <$> readWord ['a', 'l', 's', 'e']) rest
  | '"' :: rest => ((fun _ => none) <$> skipString) rest
  | '[' :: rest => .ok (some .list, rest)
  | '{' :: rest => .ok (some .object, rest)
  | c :: rest =>
    if c = '-' || c.isDigit then ((fun _ => none) <$> skipNumber) (c :: rest)
    else .error .expectedValue

/-- Passes over a scalar or enters a bracket. Gives the brackets that are open then, and whether the
innermost one has just been opened. -/
def startValue (brackets : List Bracket) : Reader (Bool × List Bracket) := do
  match ← skipScalar with
  | none => return (false, brackets)
  | some bracket => return (true, bracket :: brackets)

/-- Passes over text until every open bracket is closed. Every step takes up text, so there are no
more of them than the bound has characters. -/
def skipUntilClosed : List Char → Bool → List Bracket → Reader Unit
  | _, _, [] => pure ()
  | [], _, bracket :: _ => throw bracket.unfinished
  | _ :: bound, opened, bracket :: outer => fun text =>
    let goOn : Reader Unit := do
      bracket.skipKey
      let (opened, brackets) ← startValue (bracket :: outer)
      skipUntilClosed bound opened brackets
    match skipBlanks text with
    | [] => .error bracket.unfinished
    | c :: rest =>
      if c = bracket.closing then skipUntilClosed bound false outer rest
      else if opened then goOn (c :: rest)
      else if c = ',' then goOn rest
      else .error bracket.expectedCommaOrEnd

/-- Passes over one value. -/
def skipValue : Reader Unit := fun text =>
  (do
    let (opened, brackets) ← startValue []
    skipUntilClosed text opened brackets) text

end Json

end CellularShader
