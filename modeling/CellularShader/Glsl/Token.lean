/- # Tokens of shader text

A comment runs from `/*` to the next `*/`, or from `//` to the end of the line. It counts as one
blank.

The text around comments is cut into words, numbers and symbols. A token goes on for as long as the
next character can extend it, and blanks separate tokens without being one.
-/

namespace CellularShader

namespace Glsl

/-! ## Comments -/

mutual

/-- Text with a blank in the place of each comment. -/
def withoutComments : List Char → List Char
  | '/' :: '*' :: rest => ' ' :: afterBlock rest
  | '/' :: '/' :: rest => ' ' :: afterLine rest
  | c :: rest => c :: withoutComments rest
  | [] => []

/-- Goes on behind the end of a block comment, if it has one. -/
def afterBlock : List Char → List Char
  | '*' :: '/' :: rest => withoutComments rest
  | _ :: rest => afterBlock rest
  | [] => []

/-- Goes on at the end of the line. -/
def afterLine : List Char → List Char
  | '\n' :: rest => '\n' :: withoutComments rest
  | _ :: rest => afterLine rest
  | [] => []

end

/-! ## Tokens -/

/-- The smallest pieces of shader text. -/
inductive Token where
  /-- A keyword or a name. -/
  | word (text : List Char)
  /-- Digits, with a point or without. -/
  | number (text : List Char)
  | symbol (text : List Char)
deriving DecidableEq

namespace Token

/-- Whether a character can stand at the start of a word. -/
def startsWord (c : Char) : Bool := c.isAlpha || c = '_'

/-- Whether a character can stand inside a word. -/
def continuesWord (c : Char) : Bool := startsWord c || c.isDigit

/-- The symbols of two characters. -/
def pairs : List (Char × Char) :=
  ['=', '!', '<', '>', '+', '-', '*', '/', '%', '&', '|', '^'].map (·, '=') ++
    ['&', '|', '^', '<', '>', '+', '-'].map fun c => (c, c)

/-- The token that a character starts. -/
def start (c : Char) : Token :=
  if startsWord c then word [c] else if c.isDigit then number [c] else symbol [c]

/-- The token with one more character, if that belongs to it. -/
def extend? : Token → Char → Option Token
  | word text, c => if continuesWord c then some (word (text ++ [c])) else none
  | number text, c => if c.isDigit || c = '.' then some (number (text ++ [c])) else none
  | symbol [first], c => if (first, c) ∈ pairs then some (symbol [first, c]) else none
  | symbol _, _ => none

/-- The tokens of a text that goes on after a token begun before it, if any was. -/
def scan : Option Token → List Char → List Token
  | begun, [] => begun.toList
  | begun, c :: rest =>
    match begun.bind (·.extend? c) with
    | some token => scan (some token) rest
    | none => begun.toList ++ if c.isWhitespace then scan none rest else scan (some (start c)) rest

/-- The text of a token. -/
def text : Token → String
  | word text | number text | symbol text => String.ofList text

/-- Whether tokens close all brackets that they open and that are open before them, the innermost
first. -/
def closesBrackets : List Char → List Token → Bool
  | awaited, [] => awaited.isEmpty
  | awaited, symbol ['('] :: rest => closesBrackets (')' :: awaited) rest
  | awaited, symbol ['['] :: rest => closesBrackets (']' :: awaited) rest
  | awaited, t :: rest =>
    if t = symbol [')'] ∨ t = symbol [']'] then
      match awaited with
      | [] => false
      | c :: outer => t = symbol [c] && closesBrackets outer rest
    else closesBrackets awaited rest

/-- The tokens that an expression never contains. -/
def statementMarks : List Token := [symbol [';'], symbol ['\x7b'], symbol ['\x7d']]

/-- Whether tokens have the outline of an expression: there are some, none of them belongs to a
statement, and brackets match. -/
def outlineExpression (tokens : List Token) : Bool :=
  !tokens.isEmpty && tokens.all (· ∉ statementMarks) && closesBrackets [] tokens

end Token

/-- The tokens of a text, comments left out. -/
def tokens (text : String) : List Token := Token.scan none (withoutComments text.toList)

end Glsl

end CellularShader
