/- # Shading language text

Expressions are printed as they stand. Statements take one line each, except a chain of guarded
returns, which takes two lines for each arm and one to close it. An empty line separates paragraphs
and sections. Where routines differ in spacing, a layout says how each is written.
-/

import CellularShader.Glsl.Syntax

namespace CellularShader

namespace Glsl

def Ty.text : Ty → String
  | .int => "int"
  | .float => "float"
  | .vec3 => "vec3"

def Arith.text : Arith → String
  | .add => "+"
  | .sub => "-"
  | .mul => "*"

def Comparison.text : Comparison → String
  | .eq => "=="
  | .lt => "<"
  | .le => "<="
  | .gt => ">"
  | .ge => ">="

namespace Expr

mutual

/-- The text of an expression. -/
def text : Expr → String
  | name identifier => identifier
  | numeral digits => digits
  | verbatim source => source
  | foreign tokens => " ".intercalate (tokens.map Token.text)
  | component vector selector => vector.text ++ "." ++ selector
  | element array position => array.text ++ "[" ++ position.repr ++ "]"
  | call function arguments => function ++ "(" ++ ", ".intercalate (texts arguments) ++ ")"
  | paren inner => "(" ++ inner.text ++ ")"
  | arith operator left right => left.text ++ " " ++ operator.text ++ " " ++ right.text
  | compare operator left right => left.text ++ " " ++ operator.text ++ " " ++ right.text
  | all operands => " && ".intercalate (texts operands)
  | any operands => " || ".intercalate (texts operands)
  | choice condition yes no => condition.text ++ " ? " ++ yes.text ++ " : " ++ no.text

/-- The texts of several expressions. -/
def texts : List Expr → List String
  | [] => []
  | e :: es => e.text :: texts es

end

end Expr

/-- Where a routine's text has a blank that the language does not need. -/
structure Layout where
  /-- Between the name of the routine and its parameters. -/
  afterName : Bool := false
  /-- Between `if` and its guard. -/
  afterIf : Bool := true
  /-- Before the semicolon of a declaration. -/
  afterDeclaration : Bool := false

/-- A blank where one is wanted. -/
def gap (wanted : Bool) : String := if wanted then " " else ""

namespace Arm

/-- The line that opens an arm and the line that returns its result. -/
def lines (opening : String) (arm : Arm) : List String :=
  ["  " ++ opening ++ "(" ++ arm.guard.text ++ ") \x7b", "    return " ++ arm.result.text ++ ";"]

end Arm

namespace Stmt

/-- The lines of a fallback, the line that closes the chain apart. -/
def fallbackLines : Option Expr → List String
  | none => []
  | some value => ["  \x7d else \x7b", "    return " ++ value.text ++ ";"]

/-- The lines of a statement inside a routine. -/
def lines (layout : Layout) : Stmt → List String
  | declare type name value =>
    ["  " ++ type.text ++ " " ++ name ++ " = " ++ value.text ++ gap layout.afterDeclaration ++ ";"]
  | assign name value => ["  " ++ name ++ " = " ++ value.text ++ ";"]
  | increase name value => ["  " ++ name ++ " += " ++ value.text ++ ";"]
  | give value => ["  return " ++ value.text ++ ";"]
  | giveFirst first others fallback =>
    let keyword := "if" ++ gap layout.afterIf
    first.lines keyword ++ others.flatMap (Arm.lines ("\x7d else " ++ keyword)) ++
      fallbackLines fallback ++ ["  \x7d"]

end Stmt

namespace Param

def text (p : Param) : String :=
  (if p.fixed then "const in " else "") ++ p.type.text ++ " " ++ p.name

end Param

namespace Routine

/-- Result type, name and parameters. -/
def signature (layout : Layout) (r : Routine) : String :=
  r.result.text ++ " " ++ r.name ++ gap layout.afterName ++ "(" ++
    ", ".intercalate (r.params.map Param.text) ++ ")"

/-- The lines of the body, an empty one between paragraphs. -/
def bodyLines (layout : Layout) (r : Routine) : List String :=
  [""].intercalate (r.paragraphs.map (·.flatMap (Stmt.lines layout)))

/-- The text of a routine. -/
def text (layout : Layout) (r : Routine) : String :=
  "\n".intercalate ((r.signature layout ++ " \x7b") :: r.bodyLines layout ++ ["\x7d"])

end Routine

/-- The text of sections, separated by empty lines. -/
def joinSections (sections : List String) : String := "\n\n".intercalate sections

end Glsl

end CellularShader
