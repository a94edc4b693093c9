/- # Shading language syntax

The part of the shading language that generated shaders are written in. Expressions are concrete
syntax: parentheses stand in the tree where they stand in the text, so a tree determines its text
and nothing is left to a printer's judgement. A chain of `&&` or of `||` is one node with all its
operands.

A whole number is written as an integer, exactly and however large. Any other number is written by
its shortest digits in positional notation, for shader text has no use for an exponent.
-/

import CellularShader.Decimal
import CellularShader.Glsl.Token

namespace CellularShader

/-! ## Numbers -/

namespace Literal

variable {F : Format}

/-- The literal of a finite magnitude. A number halfway between two shortest decimals is written as
the larger one. -/
def ofMagnitude (x : Binary F) : String :=
  if x.isWhole then Nat.repr (x.units / Nat.pow 2 F.unitScale)
  else (Decimal.shortest .up x).positional

/-- The literal of a number. Both zeros are written `0`. -/
def ofBinary (x : Binary F) : String :=
  if x.isNaN then "NaN"
  else
    let magnitude := if x.isFinite then ofMagnitude x else "inf"
    if x.negative && !x.isZero then "-" ++ magnitude else magnitude

/-- The literal of an integer. -/
def ofInt (n : Int) : String := n.repr

/-- The number that the digits of an integer denote. Digits behind a leading zero are octal. -/
def natOfDigits? : List Char → Option Nat
  | [] => none
  | '0' :: octal =>
    if octal.all (fun c => c.isDigit && c < '8') then some (Nat.ofDigitChars 8 octal 0) else none
  | digits => if digits.all Char.isDigit then some (Nat.ofDigitChars 10 digits 0) else none

end Literal

/-! ## Programs -/

namespace Glsl

/-- The types that generated routines declare. -/
inductive Ty where
  | int
  | float
  | vec3
deriving DecidableEq

/-- Arithmetic operators. -/
inductive Arith where
  | add
  | sub
  | mul
deriving DecidableEq

/-- Comparison operators. -/
inductive Comparison where
  | eq
  | lt
  | le
  | gt
  | ge
deriving DecidableEq

/-- Expressions. -/
inductive Expr where
  | name (identifier : String)
  /-- A number as written, its sign included. -/
  | numeral (text : String)
  /-- Text taken over as it is, for an expression that the user supplies. -/
  | verbatim (text : String)
  /-- The tokens of an expression that is none of the others. -/
  | foreign (tokens : List Token)
  | component (vector : Expr) (selector : String)
  | element (array : Expr) (position : Nat)
  | call (function : String) (arguments : List Expr)
  | paren (inner : Expr)
  | arith (operator : Arith) (left right : Expr)
  | compare (operator : Comparison) (left right : Expr)
  /-- A chain of `&&`. -/
  | all (operands : List Expr)
  /-- A chain of `||`. -/
  | any (operands : List Expr)
  /-- The conditional `condition ? yes : no`. -/
  | choice (condition yes no : Expr)

namespace Expr

/-- The constant `false`. -/
def never : Expr := name "false"

/-- An integer constant. -/
def int (n : Int) : Expr := numeral (Literal.ofInt n)

/-- A floating-point constant. -/
def float {F : Format} (x : Binary F) : Expr := numeral (Literal.ofBinary x)

end Expr

/-- A test with the value returned when it holds. -/
structure Arm where
  guard : Expr
  result : Expr

/-- Statements. -/
inductive Stmt where
  | declare (type : Ty) (name : String) (value : Expr)
  | assign (name : String) (value : Expr)
  /-- `name += value;` -/
  | increase (name : String) (value : Expr)
  | give (value : Expr)
  /-- Returns the result of the first arm whose guard holds; when none does, the fallback, or
  nothing without one. -/
  | giveFirst (first : Arm) (others : List Arm) (fallback : Option Expr)

/-- A parameter, passed as `const in` when it is `fixed`. -/
structure Param where
  fixed : Bool
  type : Ty
  name : String
deriving DecidableEq

/-- A routine. Its statements come in paragraphs, which an empty line sets apart in the text. -/
structure Routine where
  result : Ty
  name : String
  params : List Param
  paragraphs : List (List Stmt)

namespace Routine

/-- The statements of a routine. -/
def body (r : Routine) : List Stmt := r.paragraphs.flatten

end Routine

end Glsl

end CellularShader
