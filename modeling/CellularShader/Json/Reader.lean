/- # Reading JSON text

Readers for the pieces of a text: blanks, words, strings, the commas and brackets of lists and
objects, and whole values. The limit on nesting is the structure of the recursion: a value may hold
others only while the limit is positive, and those have a lower one. A sequence of pieces is bounded
by the text it is read from, since every piece takes up text.
-/

import CellularShader.Json.Numeral

namespace CellularShader

namespace Json

/-! ## Words and strings -/

def isBlank (c : Char) : Bool := c = ' ' || c = '\n' || c = '\t' || c = '\r'

/-- The text after its leading blanks. -/
def skipBlanks (text : List Char) : List Char := text.dropWhile isBlank

/-- The remaining letters of a word. -/
def readWord : List Char → Reader Unit
  | [], rest => .ok ((), rest)
  | _ :: _, [] => .error .unfinishedValue
  | expected :: more, c :: rest =>
    if c = expected then readWord more rest else .error .expectedIdent

/-- The value of a hexadecimal digit. -/
def hexDigit? (c : Char) : Option Nat :=
  if c.isDigit then some (c.toNat - '0'.toNat)
  else if 'a' ≤ c ∧ c ≤ 'f' then some (c.toNat - 'a'.toNat + 10)
  else if 'A' ≤ c ∧ c ≤ 'F' then some (c.toNat - 'A'.toNat + 10)
  else none

/-- The number of four hexadecimal digits. -/
def hexValue? (ds : List Char) : Option Nat :=
  if ds.length = 4 then
    ds.foldlM (fun n c => (hexDigit? c).map (16 * n + ·)) 0
  else none

/-- The length of a text in bytes. -/
def byteLength (text : List Char) : Nat := text.foldl (fun n c => n + c.utf8Size) 0

/-- The four digits of an escape. The text breaks off when fewer than four bytes are left. -/
def readHex : Reader Nat := fun text =>
  match hexValue? (text.take 4) with
  | some n => .ok (n, text.drop 4)
  | none => .error (if byteLength (text.take 4) < 4 then .unfinishedString else .invalidEscape)

def isHighSurrogate (n : Nat) : Bool := 0xD800 ≤ n && n ≤ 0xDBFF

def isLowSurrogate (n : Nat) : Bool := 0xDC00 ≤ n && n ≤ 0xDFFF

/-- The character that a pair of surrogates encodes. -/
def joinSurrogates (high low : Nat) : Char :=
  Char.ofNat ((high - 0xD800) * 0x400 + (low - 0xDC00) + 0x10000)

/-- The start of the escape that has to follow a high surrogate. -/
def readSecondEscape : Reader Unit
  | [] | ['\\'] => .error .unfinishedString
  | '\\' :: 'u' :: rest => .ok ((), rest)
  | _ => .error .unfinishedSurrogate

/-- A character by its code units. -/
def readCodeUnits : Reader Char := do
  let n ← readHex
  if isLowSurrogate n then throw .loneSurrogate
  else if isHighSurrogate n then
    readSecondEscape
    let low ← readHex
    if isLowSurrogate low then return joinSurrogates n low else throw .loneSurrogate
  else return Char.ofNat n

/-- The character of an escape after its backslash. -/
def readEscape : Reader Char
  | [] => .error .unfinishedString
  | '"' :: rest => .ok ('"', rest)
  | '\\' :: rest => .ok ('\\', rest)
  | '/' :: rest => .ok ('/', rest)
  | 'b' :: rest => .ok ('\x08', rest)
  | 'f' :: rest => .ok ('\x0c', rest)
  | 'n' :: rest => .ok ('\n', rest)
  | 'r' :: rest => .ok ('\r', rest)
  | 't' :: rest => .ok ('\t', rest)
  | 'u' :: rest => readCodeUnits rest
  | _ => .error .invalidEscape

/-- The characters up to the closing quote, no more than the bound has. -/
def readCharacters : List Char → Reader (List Char)
  | [] => throw .unfinishedString
  | _ :: bound => fun text =>
    match text with
    | [] => .error .unfinishedString
    | '"' :: rest => .ok ([], rest)
    | '\\' :: rest =>
      (do
        let c ← readEscape
        let cs ← readCharacters bound
        return c :: cs) rest
    | c :: rest =>
      if c.toNat < 0x20 then .error .controlCharacter
      else (List.cons c <$> readCharacters bound) rest

/-- A string after its opening quote. -/
def readString : Reader String := fun text => (String.ofList <$> readCharacters text) text

/-! ## Lists -/

/-- Goes to the next element of a list, and says whether there is one. -/
def nextElement (first : Bool) : Reader Bool := fun text =>
  match skipBlanks text with
  | [] => .error .unfinishedList
  | ']' :: rest => .ok (false, ']' :: rest)
  | c :: rest =>
    if first then .ok (true, c :: rest)
    else if c = ',' then
      match skipBlanks rest with
      | [] => .error .unfinishedValue
      | ']' :: _ => .error .trailingComma
      | element => .ok (true, element)
    else .error .expectedCommaOrBracket

/-- The closing bracket of a list from which no further element is wanted. -/
def closeList : Reader Unit := fun text =>
  match skipBlanks text with
  | [] => .error .unfinishedList
  | ']' :: rest => .ok ((), rest)
  | ',' :: rest =>
    match skipBlanks rest with
    | ']' :: _ => .error .trailingComma
    | _ => .error .trailingCharacters
  | _ => .error .trailingCharacters

variable {α σ : Type}

/-- The elements of a list, no more than the bound has characters. -/
def readElements (item : Reader α) : List Char → Bool → Reader (List α)
  | [], _ => throw .unfinishedList
  | _ :: bound, first => do
    if ← nextElement first then
      let x ← item
      let xs ← readElements item bound false
      return x :: xs
    else return []

/-- A list after its opening bracket. -/
def readList (item : Reader α) : Reader (List α) := fun text =>
  (do
    let xs ← readElements item text true
    closeList
    return xs) text

/-! ## Objects -/

/-- Goes to the next key of an object, past its opening quote, and says whether there is one. -/
def nextKey (first : Bool) : Reader Bool := fun text =>
  match skipBlanks text with
  | [] => .error .unfinishedObject
  | '}' :: rest => .ok (false, rest)
  | '"' :: rest => if first then .ok (true, rest) else .error .expectedCommaOrBrace
  | c :: rest =>
    if first then .error .keyNotString
    else if c = ',' then
      match skipBlanks rest with
      | [] => .error .unfinishedValue
      | '"' :: key => .ok (true, key)
      | '}' :: _ => .error .trailingComma
      | _ => .error .keyNotString
    else .error .expectedCommaOrBrace

/-- The colon between key and value. -/
def readColon : Reader Unit := fun text =>
  match skipBlanks text with
  | [] => .error .unfinishedObject
  | ':' :: rest => .ok ((), rest)
  | _ => .error .expectedColon

/-- The members of an object, no more than the bound has characters. Each is taken in by a function
of its key and what was read before, which reads the colon and the value. -/
def readMembers (member : String → σ → Reader σ) : List Char → Bool → σ → Reader σ
  | [], _, _ => throw .unfinishedObject
  | _ :: bound, first, state => do
    if ← nextKey first then
      let key ← readString
      let state ← member key state
      readMembers member bound false state
    else return state

/-- An object after its opening brace. -/
def readObject (member : String → σ → Reader σ) (initial : σ) : Reader σ := fun text =>
  readMembers member text true initial text

/-! ## Values -/

/-- The reader of a value's elements, if the value may have any. -/
def readValueWith (nested : Option (Reader Value)) : Reader Value := fun text =>
  match skipBlanks text with
  | [] => .error .unfinishedValue
  | 'n' :: rest => ((fun _ => .null) <$> readWord ['u', 'l', 'l']) rest
  | 't' :: rest => ((fun _ => .bool true) <$> readWord ['r', 'u', 'e']) rest
  | 'f' :: rest => ((fun _ => .bool false) <$> readWord ['a', 'l', 's', 'e']) rest
  | '"' :: rest => (Value.string <$> readString) rest
  | '[' :: rest =>
    match nested with
    | none => .error .tooDeep
    | some item => (Value.array <$> readList item) rest
  | '{' :: rest =>
    match nested with
    | none => .error .tooDeep
    | some item =>
      let member (key : String) (members : List (String × Value)) := do
        readColon
        return SortedMap.insertEntry key (← item) members
      (Value.object <$> readObject member []) rest
  | c :: rest =>
    if c = '-' || c.isDigit then (Value.number <$> readNumber) (c :: rest)
    else .error .expectedValue

/-- A value in which lists and objects nest no deeper than the number says. -/
def readValue : Nat → Reader Value
  | 0 => readValueWith none
  | limit + 1 => readValueWith (some (readValue limit))

/-- How deep lists and objects may nest in a text. -/
def nestingLimit : Nat := 127

/-- The fault of finding another value than the wanted one. A scalar is read to its end first; a
list or an object is not entered. -/
def mismatch (wanted : Wanted) (text : List Char) : Fault :=
  match skipBlanks text with
  | '[' :: _ => .wrongType .sequence wanted
  | '{' :: _ => .wrongType .map wanted
  | scalar =>
    match readValueWith none scalar with
    | .ok (value, _) => .wrongType value.found wanted
    | .error fault => fault

/-- Reads a whole text: nothing but blanks may follow. -/
def readText (reader : Reader α) (text : String) : Except Fault α := do
  let (result, rest) ← reader text.toList
  if (skipBlanks rest).isEmpty then return result else throw .trailingCharacters

/-- The value of a text. -/
def parse (text : String) : Except Fault Value := readText (readValue nestingLimit) text

end Json

end CellularShader
