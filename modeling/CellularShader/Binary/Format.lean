/- # Binary floating-point numbers

A number is kept as the bits of its word: the sign, and the remaining bits read as one natural
number, its *pattern*. Patterns grow with the magnitude of the number they encode, so the pattern
above all finite ones is infinity and every pattern beyond that is not a number.

Every finite number is a whole multiple of the smallest positive one. `Binary.units` is that
multiple, so comparisons and roundings are statements about natural numbers.
-/

namespace CellularShader

/-- A binary interchange format, given by the widths of its two fields below the sign. -/
structure Format where
  exponentBits : Nat
  fractionBits : Nat
deriving DecidableEq

namespace Format

/-- The 32-bit format. -/
def single : Format := ⟨8, 23⟩

/-- The 64-bit format. -/
def double : Format := ⟨11, 52⟩

variable (F : Format)

/-- How many patterns there are under one sign. -/
def patterns : Nat := Nat.pow 2 (F.exponentBits + F.fractionBits)

/-- The pattern of infinity: every exponent bit set and no fraction bit. -/
def infinity : Nat := (Nat.pow 2 F.exponentBits - 1) * Nat.pow 2 F.fractionBits

/-- The smallest positive number of the format is `2 ^ -unitScale`. -/
def unitScale : Nat := Nat.pow 2 (F.exponentBits - 1) - 2 + F.fractionBits

theorem infinity_lt_patterns : F.infinity < F.patterns := by
  have hexponent : Nat.pow 2 F.exponentBits - 1 < Nat.pow 2 F.exponentBits :=
    Nat.sub_lt (Nat.two_pow_pos _) Nat.one_pos
  have hpatterns : F.patterns = Nat.pow 2 F.exponentBits * Nat.pow 2 F.fractionBits :=
    Nat.pow_add 2 _ _
  rw [hpatterns]
  exact Nat.mul_lt_mul_of_pos_right hexponent (Nat.two_pow_pos _)

end Format

/-- A floating-point number of format `F`, bit for bit. -/
structure Binary (F : Format) where
  negative : Bool
  pattern : Fin F.patterns
deriving DecidableEq

namespace Binary

variable {F : Format}

/-- Reads a word: the sign is the bit above the pattern. -/
def ofBits (F : Format) (word : Nat) : Binary F where
  negative := word / F.patterns % 2 = 1
  pattern := ⟨word % F.patterns, Nat.mod_lt _ (Nat.two_pow_pos _)⟩

/-- The word of a number. -/
def toBits (x : Binary F) : Nat :=
  (if x.negative then F.patterns else 0) + x.pattern.val

def isNaN (x : Binary F) : Bool := F.infinity < x.pattern.val

def isFinite (x : Binary F) : Bool := x.pattern.val < F.infinity

/-- The magnitude in multiples of the smallest positive number. Infinity counts as the number that
would follow the largest finite one. -/
def units (x : Binary F) : Nat :=
  let exponent := x.pattern.val / Nat.pow 2 F.fractionBits
  let fraction := x.pattern.val % Nat.pow 2 F.fractionBits
  if exponent = 0 then fraction
  else (Nat.pow 2 F.fractionBits + fraction) * Nat.pow 2 (exponent - 1)

/-- The signed multiple of the smallest positive number. -/
def value (x : Binary F) : Int :=
  if x.negative then -(x.units : Int) else x.units

/-- Numerical equality: the two zeros are equal, and what is not a number equals nothing. -/
def equals (x y : Binary F) : Bool :=
  !x.isNaN && !y.isNaN && x.value == y.value

/-- Whether a number is greater than zero. -/
def isPositive (x : Binary F) : Bool :=
  !x.isNaN && 0 < x.value

def isZero (x : Binary F) : Bool := x.pattern.val == 0

/-- Whether a number is finite and has no fractional part. -/
def isWhole (x : Binary F) : Bool :=
  x.isFinite && x.units % Nat.pow 2 F.unitScale == 0

end Binary

/-- The 32-bit numbers, in which offsets are measured. -/
abbrev Single := Binary .single

/-- The 64-bit numbers, in which chances are measured. -/
abbrev Double := Binary .double

end CellularShader
