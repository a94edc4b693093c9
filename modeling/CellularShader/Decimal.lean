/- # Decimals

A decimal is a coefficient scaled by a power of ten. It is read as the nearest number of a format,
and a number is written as the shortest decimal that reads back.

The multiples of a power of ten form a grid, and a coarser grid means fewer digits. Going from
coarse grids to fine ones, the search stops at the first grid with a point that reads back as the
number. Only the two grid points around the number need a look, since the decimals that read back
form an interval around it. Of two such points the nearer one is taken. The search ends: every
number is a point of the grid of its format's smallest number.
-/

import CellularShader.Binary.Rounding

namespace CellularShader

/-- The number `coefficient * 10 ^ exponent`. -/
structure Decimal where
  coefficient : Nat
  exponent : Int
deriving DecidableEq, Repr

namespace Decimal

/-- The power of ten of a natural exponent, or one when the exponent is negative. -/
def scaleUp (exponent : Int) : Nat := Nat.pow 10 exponent.toNat

/-- The power of ten that a negative exponent divides by, or one. -/
def scaleDown (exponent : Int) : Nat := Nat.pow 10 (-exponent).toNat

/-- The number of format `F` nearest to a decimal under a sign. -/
def toBinary (F : Format) (negative : Bool) (d : Decimal) : Binary F :=
  .ofRatio F negative (d.coefficient * scaleUp d.exponent) (scaleDown d.exponent)

/-- The decimal digits of the coefficient, without leading zeros. -/
def digits (d : Decimal) : List Char := Nat.toDigits 10 d.coefficient

/-- The power of ten of the leading digit. -/
def magnitude (d : Decimal) : Int := d.digits.length - 1 + d.exponent

/-! ## Notation

Positional notation writes every digit in its place. Scientific notation puts the point after the
leading digit and names its power of ten. -/

/-- Zeros to fill places with. -/
def zeros (count : Nat) : String := String.ofList (List.replicate count '0')

/-- The whole part and the fraction digits of positional notation; the fraction of a whole number
is empty. -/
def places (d : Decimal) : String × String :=
  let digits := d.digits
  if 0 ≤ d.exponent then
    (String.ofList digits ++ zeros d.exponent.toNat, "")
  else
    let fractionLength := (-d.exponent).toNat
    if fractionLength < digits.length then
      let split := digits.length - fractionLength
      (String.ofList (digits.take split), String.ofList (digits.drop split))
    else
      ("0", zeros (fractionLength - digits.length) ++ String.ofList digits)

/-- Positional notation, with a point only before a fraction. -/
def positional (d : Decimal) : String :=
  let (whole, fraction) := d.places
  if fraction = "" then whole else whole ++ "." ++ fraction

/-- Positional notation with at least one fraction digit. -/
def pointed (d : Decimal) : String :=
  let (whole, fraction) := d.places
  whole ++ "." ++ if fraction = "" then "0" else fraction

/-- Scientific notation, the sign of the exponent always written. -/
def scientific (d : Decimal) : String :=
  let leading := String.ofList (d.digits.take 1)
  let following := String.ofList (d.digits.drop 1)
  let mantissa := if following = "" then leading else leading ++ "." ++ following
  let sign := if d.magnitude < 0 then "-" else "+"
  mantissa ++ "e" ++ sign ++ d.magnitude.natAbs.repr

end Decimal

/-! ## Shortest decimals -/

/-- Which of two decimals is taken when the number lies halfway between them. -/
inductive Tie where
  /-- The one further from zero. -/
  | up
  /-- The one with an even last digit. -/
  | even
deriving DecidableEq

namespace Decimal

variable {F : Format}

/-- Whether a decimal, given the sign of `x`, is read as `x`. -/
def readsAs (x : Binary F) (d : Decimal) : Bool := d.toBinary F x.negative == x

/-- The point nearest to `x` among its two neighbours on the grid of `10 ^ exponent` that read back
as `x`. -/
def onGrid? (tie : Tie) (x : Binary F) (exponent : Int) : Option Decimal :=
  let numerator := x.units * scaleDown exponent
  let denominator := Nat.pow 2 F.unitScale * scaleUp exponent
  let below : Decimal := ⟨numerator / denominator, exponent⟩
  let above : Decimal := ⟨numerator / denominator + 1, exponent⟩
  let doubled := 2 * (numerator % denominator)
  let keepBelow :=
    doubled < denominator || (doubled == denominator && tie == .even && below.coefficient % 2 == 0)
  match below.readsAs x, above.readsAs x with
  | true, true => some (if keepBelow then below else above)
  | true, false => some below
  | false, true => some above
  | false, false => none

/-- Tries the grids of `10 ^ exponent` and finer ones, as many as the first argument says. -/
def searchGrids (tie : Tie) (x : Binary F) : Nat → Int → Decimal
  | 0, _ => ⟨x.units * Nat.pow 5 F.unitScale, -F.unitScale⟩
  | tries + 1, exponent =>
    match onGrid? tie x exponent with
    | some d => d
    | none => searchGrids tie x tries (exponent - 1)

/-- An exponent whose grid is too coarse for any number below `2 ^ bound`. -/
def coarseExponent (bound : Int) : Int :=
  if 0 ≤ bound then bound / 3 + 1 else bound * 3 / 10 + 1

/-- The decimal with the fewest digits that reads back as a finite nonzero number, under its
sign. -/
def shortest (tie : Tie) (x : Binary F) : Decimal :=
  let start := coarseExponent (x.units.log2 + 1 - F.unitScale)
  searchGrids tie x (start + F.unitScale).toNat start

end Decimal

end CellularShader
