/- # The meaning of shader text

Integers are unbounded and floating-point numbers exact; only a literal is rounded, to the format
that it was written from: the components of a vector to 32 bits, all else to 64. What the language
leaves undefined has no value here, and neither has a call of an unknown function. What an
expression beyond the syntax stands for is up to the host, which may call the functions that the
expression names.

A routine means a function of its arguments. It may call the functions known before it, so routines
are defined one after the other.
-/

import CellularShader.Glsl.Reader

namespace CellularShader

namespace Binary

variable {F : Format}

/-- The exact value of a finite number. -/
def toRat (x : Binary F) : Rat := mkRat x.value (Nat.pow 2 F.unitScale)

end Binary

namespace Decimal

/-- The decimal that digits denote, with a point among them or without. -/
def ofText? (text : List Char) : Option Decimal :=
  match text.span Char.isDigit with
  | ([], _) => none
  | (whole, []) => some ⟨Nat.ofDigitChars 10 whole 0, 0⟩
  | (whole, '.' :: fraction) =>
    if fraction.all Char.isDigit then
      some ⟨Nat.ofDigitChars 10 (whole ++ fraction) 0, -fraction.length⟩
    else none
  | _ => none

end Decimal

namespace Glsl

/-- A point or displacement in space. -/
structure Vec where
  x : Rat
  y : Rat
  z : Rat
deriving DecidableEq

namespace Vec

/-- Applies an operation to each axis. -/
def zipWith (f : Rat → Rat → Rat) (a b : Vec) : Vec := ⟨f a.x b.x, f a.y b.y, f a.z b.z⟩

end Vec

/-- Values. -/
inductive Value where
  | int (n : Int)
  | float (x : Rat)
  | bool (b : Bool)
  | vec3 (v : Vec)
  /-- An array of floating-point numbers. -/
  | floats (elements : List Rat)
deriving DecidableEq

/-- The number without its fractional part. -/
def truncate (x : Rat) : Int := if 0 ≤ x then x.floor else x.ceil

/-- The remainder of a division rounded down. A divisor of zero leaves it undefined. -/
def floorMod? (x y : Rat) : Option Rat := if y = 0 then none else some (x - y * (x / y).floor)

/-- The number between two bounds that is nearest to `x`. Bounds that cross leave it undefined. -/
def clamp? (x low high : Rat) : Option Rat :=
  if high < low then none else if x < low then some low else if high < x then some high else some x

namespace Value

/-- A number as a floating-point number. -/
def toFloat? : Value → Option Rat
  | int n => some n
  | float x => some x
  | _ => none

def toBool? : Value → Option Bool
  | bool b => some b
  | _ => none

/-- The value of the digits of a literal under a sign. -/
def ofSigned? (F : Format) (negative : Bool) (digits : List Char) : Option Value :=
  if '.' ∈ digits then
    (Decimal.ofText? digits).map fun d => float (d.toBinary F negative).toRat
  else (Literal.natOfDigits? digits).map fun n => int (if negative then -n else n)

/-- The value of a literal in a format. -/
def ofNumeral? (F : Format) (text : String) : Option Value :=
  match text.toList with
  | '-' :: digits => ofSigned? F true digits
  | digits => ofSigned? F false digits

/-- A value as the type of a variable, an integer counting as a floating-point number. -/
def as? : Ty → Value → Option Value
  | .int, int n => some (int n)
  | .float, v => v.toFloat?.map float
  | .vec3, vec3 v => some (vec3 v)
  | _, _ => none

/-- The type of a variable that holds the value. -/
def type? : Value → Option Ty
  | int _ => some .int
  | float _ => some .float
  | vec3 _ => some .vec3
  | _ => none

/-- A component of a vector. -/
def component? : Value → String → Option Value
  | vec3 v, "x" => some (float v.x)
  | vec3 v, "y" => some (float v.y)
  | vec3 v, "z" => some (float v.z)
  | _, _ => none

/-- An element of an array. -/
def element? : Value → Nat → Option Value
  | floats elements, position => elements[position]?.map float
  | _, _ => none

end Value

namespace Arith

def onInt : Arith → Int → Int → Int
  | add, m, n => m + n
  | sub, m, n => m - n
  | mul, m, n => m * n

def onRat : Arith → Rat → Rat → Rat
  | add, x, y => x + y
  | sub, x, y => x - y
  | mul, x, y => x * y

/-- The result of an operator. -/
def result? (operator : Arith) : Value → Value → Option Value
  | .int m, .int n => some (.int (operator.onInt m n))
  | .vec3 a, .vec3 b => some (.vec3 (a.zipWith operator.onRat b))
  | a, b => do return .float (operator.onRat (← a.toFloat?) (← b.toFloat?))

end Arith

namespace Comparison

/-- Whether a comparison of two numbers holds. -/
def holds : Comparison → Rat → Rat → Bool
  | eq, x, y => x = y
  | lt, x, y => x < y
  | le, x, y => x ≤ y
  | gt, x, y => y < x
  | ge, x, y => y ≤ x

end Comparison

/-- What a function does with its arguments. -/
abbrev Function := List Value → Option Value

/-- The functions of the language. -/
def builtin? : String → Option Function
  | "int" => some fun
    | [.int n] => some (.int n)
    | [.float x] => some (.int (truncate x))
    | _ => none
  | "float" => some fun
    | [v] => v.toFloat?.map .float
    | _ => none
  | "vec3" => some fun
    | [a] => do
      let x ← a.toFloat?
      return .vec3 ⟨x, x, x⟩
    | [a, b, c] => do return .vec3 ⟨← a.toFloat?, ← b.toFloat?, ← c.toFloat?⟩
    | _ => none
  | "mod" => some fun
    | [.vec3 a, .vec3 b] => do
      return .vec3 ⟨← floorMod? a.x b.x, ← floorMod? a.y b.y, ← floorMod? a.z b.z⟩
    | [a, b] => do return .float (← floorMod? (← a.toFloat?) (← b.toFloat?))
    | _ => none
  | "clamp" => some fun
    | [.vec3 a, .vec3 b, .vec3 c] => do
      return .vec3 ⟨← clamp? a.x b.x c.x, ← clamp? a.y b.y c.y, ← clamp? a.z b.z c.z⟩
    | [a, b, c] => do return .float (← clamp? (← a.toFloat?) (← b.toFloat?) (← c.toFloat?))
    | _ => none
  | _ => none

/-- What names stand for. -/
structure Environment where
  functions : String → Option Function
  values : String → Option Value
  /-- The value of an expression beyond the syntax, from the functions that it names and the values
  of names. -/
  foreign : List Token → (String → Function) → (String → Option Value) → Option Value :=
    fun _ _ _ => none

namespace Environment

/-- Gives a variable a value. -/
def assign (env : Environment) (name : String) (value : Value) : Environment :=
  { env with values := fun n => if n = name then some value else env.values n }

/-- Calls a function. -/
def call (env : Environment) (function : String) (arguments : List Value) : Option Value := do
  let f ← (builtin? function).or (env.functions function)
  f arguments

/-- The value of an expression beyond the syntax. -/
def evalForeign (env : Environment) (tokens : List Token) : Option Value :=
  env.foreign tokens (fun f => if .word f.toList ∈ tokens then env.call f else fun _ => none)
    env.values

/-- The value of a name. -/
def lookup (env : Environment) (name : String) : Option Value :=
  if name = "true" then some (.bool true)
  else if name = "false" then some (.bool false)
  else env.values name

end Environment

namespace Expr

/-- The format that literals among the arguments of a function are written from. -/
def literalFormat (outer : Format) (function : String) : Format :=
  if function = "vec3" then .single else outer

mutual

/-- The value of an expression, its literals being written from format `F`. -/
def eval (env : Environment) (F : Format) : Expr → Option Value
  | name identifier => env.lookup identifier
  | numeral text => Value.ofNumeral? F text
  | verbatim _ => none
  | foreign tokens => env.evalForeign tokens
  | component vector selector => do (← vector.eval env F).component? selector
  | element array position => do (← array.eval env F).element? position
  | call function arguments => do
    env.call function (← evalEach env (literalFormat F function) arguments)
  | paren inner => inner.eval env F
  | arith operator left right => do operator.result? (← left.eval env F) (← right.eval env F)
  | compare operator left right => do
    let x ← (← left.eval env F).toFloat?
    let y ← (← right.eval env F).toFloat?
    return .bool (operator.holds x y)
  | all operands => do return .bool (← evalAll env F operands)
  | any operands => do return .bool (← evalAny env F operands)
  | choice condition yes no => do
    if ← (← condition.eval env F).toBool? then yes.eval env F else no.eval env F

/-- The values of several expressions. -/
def evalEach (env : Environment) (F : Format) : List Expr → Option (List Value)
  | [] => some []
  | e :: es => do return (← e.eval env F) :: (← evalEach env F es)

/-- Whether every expression holds; those behind one that does not are not evaluated. -/
def evalAll (env : Environment) (F : Format) : List Expr → Option Bool
  | [] => some true
  | e :: es => do
    if ← (← e.eval env F).toBool? then evalAll env F es else return false

/-- Whether some expression holds; those behind one that does are not evaluated. -/
def evalAny (env : Environment) (F : Format) : List Expr → Option Bool
  | [] => some false
  | e :: es => do
    if ← (← e.eval env F).toBool? then return true else evalAny env F es

end

/-- The value of an expression. -/
def value (env : Environment) (e : Expr) : Option Value := e.eval env .double

/-- Whether a condition holds. -/
def holds? (env : Environment) (e : Expr) : Option Bool := do (← e.value env).toBool?

end Expr

namespace Arm

/-- The result expression of the first arm whose guard holds. -/
def firstHolding (env : Environment) : List Arm → Option (Option Expr)
  | [] => some none
  | arm :: arms => do
    if ← arm.guard.holds? env then return some arm.result else firstHolding env arms

end Arm

namespace Stmt

/-- The value that statements return. -/
def run (env : Environment) : List Stmt → Option Value
  | [] => none
  | declare type name value :: rest => do
    run (env.assign name (← (← value.value env).as? type)) rest
  | assign name value :: rest => do
    let type ← (← env.values name).type?
    run (env.assign name (← (← value.value env).as? type)) rest
  | increase name value :: rest => do
    let old ← env.values name
    let new ← Arith.add.result? old (← value.value env)
    run (env.assign name (← new.as? (← old.type?))) rest
  | give value :: _ => value.value env
  | giveFirst first others fallback :: rest => do
    match (← Arm.firstHolding env (first :: others)).or fallback with
    | some result => result.value env
    | none => run env rest

end Stmt

namespace Environment

/-- Passes arguments to parameters. -/
def pass (env : Environment) : List Param → List Value → Option Environment
  | [], [] => some env
  | p :: ps, v :: vs => do pass (env.assign p.name (← v.as? p.type)) ps vs
  | _, _ => none

end Environment

namespace Routine

/-- What a routine does with its arguments. -/
def meaning (r : Routine) (env : Environment) : Function := fun arguments => do
  (← Stmt.run (← env.pass r.params arguments) r.body).as? r.result

end Routine

namespace Environment

/-- Defines a routine. A function that is known already keeps its meaning, so what the host provides
comes first. -/
def define (env : Environment) (r : Routine) : Environment :=
  { env with
    functions := fun name =>
      (env.functions name).or (if name = r.name then some (r.meaning env) else none) }

/-- Defines the routines of a text. -/
def load (env : Environment) (text : String) : Option Environment := do
  return (← Routine.ofText? text).foldl define env

end Environment

end Glsl

end CellularShader
