/- # Reading JSON numbers

A numeral is taken apart into its digits first and given a value after that. A whole numeral in the
range of 64-bit words is an integer. Any other numeral is a float, made in a few rounded steps: as
many leading digits as fit into a 64-bit word become a float, which is then multiplied or divided by
a power of ten. The result can therefore differ from the float nearest to the numeral in its last
place.
-/

import CellularShader.Json.Fault

namespace CellularShader

namespace Json

/-- A reader takes its result from the start of a text and leaves the rest. -/
abbrev Reader := StateT (List Char) (Except Fault)

/-- A numeral as written. -/
structure Numeral where
  negative : Bool
  /-- The digits before the point. -/
  whole : List Char
  /-- The digits after the point, none when there is no point. -/
  fraction : List Char
  /-- The sign and the digits of the exponent. -/
  exponent : Option (Bool × List Char)
deriving DecidableEq

namespace Numeral

/-- Splits off the digits at the start of a text. -/
def digits (text : List Char) : List Char × List Char := text.span Char.isDigit

/-- The fault of a numeral that breaks off before the given text. -/
def broken (rest : List Char) : Fault := if rest.isEmpty then .unfinishedValue else .invalidNumber

/-- At least one digit. -/
def someDigits : Reader (List Char) := fun text =>
  match digits text with
  | ([], rest) => .error (broken rest)
  | (ds, rest) => .ok (ds, rest)

/-- The digits before the point: a single zero, or digits that do not start with zero. -/
def readWhole : Reader (List Char)
  | '0' :: c :: rest => if c.isDigit then .error .invalidNumber else .ok (['0'], c :: rest)
  | text => someDigits text

/-- The digits after the point, if there is one. -/
def readFraction : Reader (List Char)
  | '.' :: rest => someDigits rest
  | text => .ok ([], text)

/-- Whether an exponent has a minus sign. -/
def readExponentSign : Reader Bool
  | '+' :: rest => .ok (false, rest)
  | '-' :: rest => .ok (true, rest)
  | text => .ok (false, text)

/-- The sign and the digits of an exponent after its mark. -/
def readExponentDigits : Reader (Bool × List Char) := do
  let negative ← readExponentSign
  let ds ← someDigits
  return (negative, ds)

/-- The exponent, if there is one. -/
def readExponent : Reader (Option (Bool × List Char))
  | 'e' :: rest | 'E' :: rest => (some <$> readExponentDigits) rest
  | text => .ok (none, text)

/-- The sign of a numeral, true for minus. -/
def readSign : Reader Bool
  | '-' :: rest => .ok (true, rest)
  | text => .ok (false, text)

/-- Reads a numeral. -/
def read : Reader Numeral := do
  let negative ← readSign
  let whole ← readWhole
  let fraction ← readFraction
  let exponent ← readExponent
  return ⟨negative, whole, fraction, exponent⟩

/-- The number that decimal digits denote. -/
def natOfDigits (ds : List Char) : Nat := Nat.ofDigitChars 10 ds 0

/-- The least number that does not fit into a 64-bit word. -/
def wordBound : Nat := UInt64.size

/-- Appends digits to a word while it has room, and counts the digits appended. The first digit
without room ends it. -/
def gather : Nat → List Char → Nat × Nat
  | word, [] => (word, 0)
  | word, c :: rest =>
    let extended := 10 * word + (c.toNat - '0'.toNat)
    if extended < wordBound then
      let (word, count) := gather extended rest
      (word, count + 1)
    else (word, 0)

/-- The leading digits that fit into a word, with the power of ten that puts them in their place. A
whole digit left out counts as a zero; a fraction digit left out is lost. -/
def significand (numeral : Numeral) : Nat × Int :=
  let (word, kept) := gather 0 numeral.whole
  let (word, places) := gather word numeral.fraction
  (word, (numeral.whole.length - kept : Nat) - (places : Int))

/-- The greatest power of ten that a float is scaled by in one step. -/
def scaleLimit : Nat := 308

def powerOfTen (n : Nat) : Double := .ofInt .double (Nat.pow 10 n)

/-- A float times a power of ten. Far below the limit two divisions are needed, and further below
that nothing is left. -/
def scale (x : Double) (exponent : Int) : Except Fault Double :=
  let limit : Int := scaleLimit
  if x.isZero then .ok x
  else if limit < exponent then .error .numberOutOfRange
  else if 0 ≤ exponent then
    let scaled := x.mul (powerOfTen exponent.toNat)
    if scaled.isFinite then .ok scaled else .error .numberOutOfRange
  else if -limit ≤ exponent then .ok (x.div (powerOfTen (-exponent).toNat))
  else if -(2 * limit) ≤ exponent then
    .ok ((x.div (powerOfTen scaleLimit)).div (powerOfTen (-exponent - limit).toNat))
  else .ok (.ofInt .double 0)

/-- The greatest written exponent that is taken at its value. -/
def exponentLimit : Nat := 2147483647

/-- The magnitude of a numeral as a float. -/
def magnitude (numeral : Numeral) : Except Fault Double :=
  let (word, places) := numeral.significand
  let x : Double := .ofInt .double word
  match numeral.exponent with
  | none => scale x places
  | some (negative, ds) =>
    let written := natOfDigits ds
    if written ≤ exponentLimit then
      scale x (if negative then places - written else places + written)
    else if word = 0 ∨ negative then .ok (.ofInt .double 0)
    else .error .numberOutOfRange

/-- The integer that a numeral denotes, when it is written as one. Minus zero is no integer. -/
def integer? (numeral : Numeral) : Option Int :=
  let n := natOfDigits numeral.whole
  if !numeral.fraction.isEmpty || numeral.exponent.isSome then none
  else if numeral.negative then if n = 0 then none else some (-n)
  else some n

/-- The value of a numeral. An integer that fits into no word counts as a float. -/
def value (numeral : Numeral) : Except Fault Number :=
  match numeral.integer?.bind Number.ofInt? with
  | some n => .ok n
  | none => do
    let x ← numeral.magnitude
    match Number.ofDouble? (if numeral.negative then x.neg else x) with
    | some n => return n
    | none => throw .numberOutOfRange

end Numeral

/-- Reads a number. -/
def readNumber : Reader Number := do
  let numeral ← Numeral.read
  numeral.value

end Json

end CellularShader
