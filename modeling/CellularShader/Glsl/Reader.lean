/- # Reading shader text

The text of routines is read back into syntax. Operators bind as usual: products tighter than sums,
these tighter than comparisons, order before equality, then `&&`, then `||`, and the conditional
last. An expression in front of a semicolon may go beyond this syntax, and then it is kept as its
tokens. Of its layout a routine keeps nothing: its statements come back as one paragraph.
-/

import CellularShader.Glsl.Syntax

namespace CellularShader

namespace Glsl

/-- A reader takes its result from the start of the tokens and leaves the rest. -/
abbrev Reader := StateT (List Token) Option

namespace Reader

variable {α : Type}

/-- Runs a reader that is bounded in its steps with a bound that no text exceeds: every step takes a
token. -/
def bounded (reader : Nat → Reader α) : Reader α := fun tokens => reader (tokens.length + 1) tokens

/-- Takes a given token if it comes next. -/
def accept (token : Token) : Reader Bool
  | t :: rest => if t = token then some (true, rest) else some (false, t :: rest)
  | [] => some (false, [])

/-- Takes a given token, which has to come next. -/
def expect (token : Token) : Reader Unit := do
  guard (← accept token)

def acceptSymbol (text : String) : Reader Bool := accept (.symbol text.toList)

def acceptWord (text : String) : Reader Bool := accept (.word text.toList)

def expectSymbol (text : String) : Reader Unit := expect (.symbol text.toList)

def expectWord (text : String) : Reader Unit := expect (.word text.toList)

/-- Takes a word. -/
def word : Reader String
  | .word text :: rest => some (String.ofList text, rest)
  | _ => none

/-- Takes one item or more with a separator between them. -/
def separated (separator : String) (item : Reader α) : Nat → Reader (List α)
  | 0 => failure
  | steps + 1 => do
    let first ← item
    if ← acceptSymbol separator then return first :: (← separated separator item steps)
    else return [first]

/-- Takes items until a symbol closes them. -/
def closedBy (symbol : String) (item : Reader α) : Nat → Reader (List α)
  | 0 => failure
  | steps + 1 => do
    if ← acceptSymbol symbol then return []
    else
      let first ← item
      return first :: (← closedBy symbol item steps)

/-- Takes a list in parentheses, which may be empty. -/
def listed (item : Reader α) : Reader (List α) := do
  if ← acceptSymbol ")" then return []
  else
    let items ← bounded (separated "," item)
    expectSymbol ")"
    return items

/-- Takes operators and right operands, grouping to the left. -/
def grouped (operator? : Token → Option (Expr → Expr → Expr)) (operand : Reader Expr) :
    Nat → Expr → Reader Expr
  | 0, _ => failure
  | steps + 1, left => do
    match (← get).head?.bind operator? with
    | none => return left
    | some combine =>
      modify List.tail
      let right ← operand
      grouped operator? operand steps (combine left right)

/-- Takes operands with left-grouping operators between them. -/
def operation (operator? : Token → Option (Expr → Expr → Expr)) (operand : Reader Expr) :
    Reader Expr := do
  let left ← operand
  bounded fun steps => grouped operator? operand steps left

/-- Takes operands of `&&` or `||`; a single one stands for itself. -/
def connected (symbol : String) (node : List Expr → Expr) (operand : Reader Expr) :
    Reader Expr := do
  match ← bounded (separated symbol operand) with
  | [single] => return single
  | operands => return node operands

/-- Takes what selects a part of a value: components and elements. -/
def selections : Expr → List Token → Expr × List Token
  | e, .symbol ['.'] :: .word selector :: rest =>
    selections (.component e (String.ofList selector)) rest
  | e, .symbol ['['] :: .number digits :: .symbol [']'] :: rest =>
    match Literal.natOfDigits? digits with
    | some position => selections (.element e position) rest
    | none => (e, .symbol ['['] :: .number digits :: .symbol [']'] :: rest)
  | e, rest => (e, rest)

/-- Takes the arguments of a function, after the parenthesis that opens them. -/
def application (nested : Reader Expr) (function : List Char) : Reader Expr := do
  return .call (String.ofList function) (← listed nested)

/-- Takes an expression and the parenthesis that closes it. -/
def parenthesised (nested : Reader Expr) : Reader Expr := do
  let inner ← nested
  expectSymbol ")"
  return .paren inner

/-- Takes an operand without selections. -/
def atom (nested : Reader Expr) : Reader Expr
  | .word function :: .symbol ['('] :: rest => application nested function rest
  | .word name :: rest => some (.name (String.ofList name), rest)
  | .number digits :: rest => some (.numeral (String.ofList digits), rest)
  | .symbol ['-'] :: .number digits :: rest => some (.numeral (String.ofList ('-' :: digits)), rest)
  | .symbol ['('] :: rest => parenthesised nested rest
  | _ => none

/-- Takes an operand. -/
def operand (nested : Reader Expr) : Reader Expr := do
  let e ← atom nested
  modifyGet (selections e)

def product? : Token → Option (Expr → Expr → Expr)
  | .symbol ['*'] => some (.arith .mul)
  | _ => none

def sum? : Token → Option (Expr → Expr → Expr)
  | .symbol ['+'] => some (.arith .add)
  | .symbol ['-'] => some (.arith .sub)
  | _ => none

def order? : Token → Option (Expr → Expr → Expr)
  | .symbol ['<'] => some (.compare .lt)
  | .symbol ['<', '='] => some (.compare .le)
  | .symbol ['>'] => some (.compare .gt)
  | .symbol ['>', '='] => some (.compare .ge)
  | _ => none

def equality? : Token → Option (Expr → Expr → Expr)
  | .symbol ['=', '='] => some (.compare .eq)
  | _ => none

/-- Takes an expression without a conditional. -/
def disjunction (nested : Reader Expr) : Reader Expr :=
  connected "||" .any <| connected "&&" .all <| operation equality? <| operation order? <|
    operation sum? <| operation product? <| operand nested

/-- Takes an expression nested at most as deep as the bound. -/
def nestedExpression : Nat → Reader Expr
  | 0 => failure
  | depth + 1 => do
    let nested := nestedExpression depth
    let condition ← disjunction nested
    if ← acceptSymbol "?" then
      let yes ← nested
      expectSymbol ":"
      let no ← nested
      return .choice condition yes no
    else return condition

/-- Takes an expression. -/
def expression : Reader Expr := bounded nestedExpression

/-- The expression that tokens make up as a whole. -/
def wholeExpression (tokens : List Token) : Option Expr :=
  match expression tokens with
  | some (e, []) => some e
  | _ => if Token.outlineExpression tokens then some (.foreign tokens) else none

/-- Takes an expression and the semicolon behind it. -/
def terminated : Reader Expr := fun tokens =>
  match tokens.span (· ≠ .symbol [';']) with
  | (taken, _ :: rest) => (wholeExpression taken).map (·, rest)
  | (_, []) => none

/-- Takes a block that only returns a value. -/
def block : Reader Expr := do
  expectSymbol "\x7b"
  expectWord "return"
  let value ← terminated
  expectSymbol "\x7d"
  return value

/-- Takes a guard and its block. -/
def arm : Reader Arm := do
  expectSymbol "("
  let guard ← expression
  expectSymbol ")"
  return ⟨guard, ← block⟩

/-- Takes what follows the first arm of a chain. -/
def otherwise : Nat → Reader (List Arm × Option Expr)
  | 0 => failure
  | steps + 1 => do
    if ← acceptWord "else" then
      if ← acceptWord "if" then
        let next ← arm
        let (others, fallback) ← otherwise steps
        return (next :: others, fallback)
      else return ([], some (← block))
    else return ([], none)

/-- The type that a word names. -/
def type? : String → Option Ty
  | "int" => some .int
  | "float" => some .float
  | "vec3" => some .vec3
  | _ => none

/-- Takes a statement. -/
def statement : Reader Stmt := do
  let head ← word
  if head = "return" then return .give (← terminated)
  else if head = "if" then
    let first ← arm
    let (others, fallback) ← bounded otherwise
    return .giveFirst first others fallback
  else
    match type? head with
    | some type =>
      let name ← word
      expectSymbol "="
      return .declare type name (← terminated)
    | none =>
      if ← acceptSymbol "=" then return .assign head (← terminated)
      else
        expectSymbol "+="
        return .increase head (← terminated)

/-- Takes a type that has to come next. -/
def typeName : Reader Ty := do
  let name ← word
  match type? name with
  | some type => return type
  | none => failure

/-- Takes a parameter. -/
def param : Reader Param := do
  let fixed ← acceptWord "const"
  if fixed then expectWord "in"
  return ⟨fixed, ← typeName, ← word⟩

/-- Takes a routine. -/
def routine : Reader Routine := do
  let result ← typeName
  let name ← word
  expectSymbol "("
  let params ← listed param
  expectSymbol "\x7b"
  let body ← bounded (closedBy "\x7d" statement)
  return ⟨result, name, params, [body]⟩

/-- Takes routines up to the end. -/
def routines : Nat → Reader (List Routine)
  | 0 => failure
  | steps + 1 => do
    if (← get).isEmpty then return []
    else
      let first ← routine
      return first :: (← routines steps)

/-- Runs a reader on a whole text. -/
def run (reader : Reader α) (text : String) : Option α :=
  match reader (tokens text) with
  | some (result, []) => some result
  | _ => none

end Reader

namespace Expr

/-- The expression that a text denotes. -/
def ofText? (text : String) : Option Expr := Reader.expression.run text

end Expr

namespace Routine

/-- The routines that a text defines, in order. -/
def ofText? (text : String) : Option (List Routine) := (Reader.bounded Reader.routines).run text

end Routine

end Glsl

end CellularShader
