/- # Rounding to nearest

One function rounds a quotient of natural numbers to the nearest number of a format, a tie going to
the even pattern. Integers, decimals, products, quotients and changes of format all go through it,
so each is rounded once and correctly.
-/

import CellularShader.Binary.Format

namespace CellularShader

/-- The quotient rounded to the nearest natural number, a tie going to the even one. -/
def divNearest (numerator denominator : Nat) : Nat :=
  let quotient := numerator / denominator
  let doubled := 2 * (numerator % denominator)
  if doubled < denominator ∨ doubled = denominator ∧ quotient % 2 = 0 then quotient
  else quotient + 1

namespace Binary

variable {F G : Format}

/-- The pattern nearest to a quotient. Bits below the fraction are dropped in one division; when the
rounded fraction overflows, the carry moves into the exponent field by itself. -/
def nearestPattern (F : Format) (numerator denominator : Nat) : Nat :=
  let scaled := numerator * Nat.pow 2 F.unitScale
  let dropped := (scaled / denominator).log2 - F.fractionBits
  min F.infinity
    (dropped * Nat.pow 2 F.fractionBits + divNearest scaled (denominator * Nat.pow 2 dropped))

theorem nearestPattern_lt_patterns (F : Format) (numerator denominator : Nat) :
    nearestPattern F numerator denominator < F.patterns :=
  Nat.lt_of_le_of_lt (Nat.min_le_left _ _) F.infinity_lt_patterns

/-- The number of format `F` nearest to a signed quotient; infinity when the quotient is too
large. -/
def ofRatio (F : Format) (negative : Bool) (numerator denominator : Nat) : Binary F where
  negative := negative
  pattern := ⟨nearestPattern F numerator denominator, nearestPattern_lt_patterns ..⟩

/-- The nearest number to an integer. -/
def ofInt (F : Format) (n : Int) : Binary F :=
  ofRatio F (n < 0) n.natAbs 1

/-- Negation flips the sign bit. -/
def neg (x : Binary F) : Binary F := { x with negative := !x.negative }

/-- The rounded product of two finite numbers. -/
def mul (x y : Binary F) : Binary F :=
  ofRatio F (x.negative != y.negative) (x.units * y.units) (Nat.pow 2 (2 * F.unitScale))

/-- The rounded quotient of a finite number by a finite nonzero one. -/
def div (x y : Binary F) : Binary F :=
  ofRatio F (x.negative != y.negative) x.units y.units

/-- A finite number rounded to another format. -/
def convert (G : Format) (x : Binary F) : Binary G :=
  ofRatio G x.negative x.units (Nat.pow 2 F.unitScale)

end Binary

end CellularShader
