/- # The tokens of syntax

Each piece of syntax has a list of tokens, which its text consists of whatever the layout. Not every
tree is what its tokens are read as: an operand that binds looser than its operator would need
parentheses. The trees that are read back are described by how tightly they bind.
-/

import CellularShader.Glsl.Printer
import CellularShader.Glsl.Token
import CellularShader.Proofs.Literal

namespace CellularShader

namespace Glsl

namespace Token

/-- Whether text is a word as a whole. -/
def isWord : List Char → Bool
  | [] => false
  | c :: rest => startsWord c && rest.all continuesWord

end Token

open Token (isWord)

/-- How tightly an expression binds, loosest first. -/
inductive Level where
  | choice
  | disjunction
  | conjunction
  | equality
  | order
  | sum
  | product
  | operand
deriving DecidableEq

namespace Level

/-- The place of a level from loose to tight. -/
def rank : Level → Nat
  | choice => 1
  | disjunction => 2
  | conjunction => 3
  | equality => 4
  | order => 5
  | sum => 6
  | product => 7
  | operand => 8

end Level

namespace Arith

def token : Arith → Token
  | add => .symbol ['+']
  | sub => .symbol ['-']
  | mul => .symbol ['*']

/-- The level of an operation with the operator. -/
def level : Arith → Level
  | add | sub => .sum
  | mul => .product

/-- The level that its right operand has at least. -/
def rightLevel : Arith → Level
  | add | sub => .product
  | mul => .operand

end Arith

namespace Comparison

def token : Comparison → Token
  | eq => .symbol ['=', '=']
  | lt => .symbol ['<']
  | le => .symbol ['<', '=']
  | gt => .symbol ['>']
  | ge => .symbol ['>', '=']

def level : Comparison → Level
  | eq => .equality
  | lt | le | gt | ge => .order

def rightLevel : Comparison → Level
  | eq => .order
  | lt | le | gt | ge => .sum

end Comparison

/-- The tokens of a number. A minus sign is a token of its own. -/
def numeralTokens : List Char → List Token
  | '-' :: digits => [.symbol ['-'], .number digits]
  | digits => [.number digits]

namespace Expr

mutual

/-- The tokens of an expression. -/
def tokens : Expr → List Token
  | name identifier => [.word identifier.toList]
  | numeral text => numeralTokens text.toList
  | verbatim text => Glsl.tokens text
  | foreign toks => toks
  | component vector selector => vector.tokens ++ [.symbol ['.'], .word selector.toList]
  | element array position =>
    array.tokens ++ [.symbol ['['], .number (Nat.toDigits 10 position), .symbol [']']]
  | call function arguments =>
    .word function.toList :: .symbol ['('] ::
      [.symbol [',']].intercalate (tokenLists arguments) ++ [.symbol [')']]
  | paren inner => .symbol ['('] :: inner.tokens ++ [.symbol [')']]
  | arith operator left right => left.tokens ++ operator.token :: right.tokens
  | compare operator left right => left.tokens ++ operator.token :: right.tokens
  | all operands => [.symbol ['&', '&']].intercalate (tokenLists operands)
  | any operands => [.symbol ['|', '|']].intercalate (tokenLists operands)
  | choice condition yes no =>
    condition.tokens ++ .symbol ['?'] :: yes.tokens ++ .symbol [':'] :: no.tokens

/-- The tokens of several expressions. -/
def tokenLists : List Expr → List (List Token)
  | [] => []
  | e :: es => e.tokens :: tokenLists es

end

theorem tokenLists_eq_map (es : List Expr) : tokenLists es = es.map tokens := by
  induction es with
  | nil => rfl
  | cons e es ih => rw [tokenLists, ih, List.map_cons]

theorem texts_eq_map (es : List Expr) : texts es = es.map text := by
  induction es with
  | nil => rfl
  | cons e es ih => rw [texts, ih, List.map_cons]

/-- The expressions whose text, as an operand of the given level, is read as the expression. -/
inductive Fits : Level → Expr → Prop
  | name {level : Level} {identifier : String} (word : isWord identifier.toList = true) :
    Fits level (.name identifier)
  | numeral {level : Level} {text : String} (signed : IsSigned text.toList) :
    Fits level (.numeral text)
  | component {level : Level} {identifier selector : String}
    (word : isWord identifier.toList = true) (selectorWord : isWord selector.toList = true) :
    Fits level (.component (.name identifier) selector)
  | element {level : Level} {identifier : String} {position : Nat}
    (word : isWord identifier.toList = true) : Fits level (.element (.name identifier) position)
  | call {level : Level} {function : String} {arguments : List Expr}
    (word : isWord function.toList = true) (each : ∀ e ∈ arguments, Fits .choice e) :
    Fits level (.call function arguments)
  | paren {level : Level} {inner : Expr} (fits : Fits .choice inner) : Fits level (.paren inner)
  | arith {level : Level} {operator : Arith} {left right : Expr}
    (loose : level.rank ≤ operator.level.rank) (leftFits : Fits operator.level left)
    (rightFits : Fits operator.rightLevel right) : Fits level (.arith operator left right)
  | compare {level : Level} {operator : Comparison} {left right : Expr}
    (loose : level.rank ≤ operator.level.rank) (leftFits : Fits operator.level left)
    (rightFits : Fits operator.rightLevel right) : Fits level (.compare operator left right)
  | all {level : Level} {operands : List Expr} (loose : level.rank ≤ Level.conjunction.rank)
    (several : 2 ≤ operands.length) (each : ∀ e ∈ operands, Fits .equality e) :
    Fits level (.all operands)
  | any {level : Level} {operands : List Expr} (loose : level.rank ≤ Level.disjunction.rank)
    (several : 2 ≤ operands.length) (each : ∀ e ∈ operands, Fits .conjunction e) :
    Fits level (.any operands)
  | choice {condition yes no : Expr} (conditionFits : Fits .disjunction condition)
    (yesFits : Fits .choice yes) (noFits : Fits .choice no) :
    Fits .choice (.choice condition yes no)

/-- What fits a level fits every looser one. -/
theorem Fits.mono {tight level : Level} {e : Expr} (h : Fits tight e)
    (hrank : level.rank ≤ tight.rank) : Fits level e := by
  cases h with
  | name word => exact .name word
  | numeral signed => exact .numeral signed
  | component word selectorWord => exact .component word selectorWord
  | element word => exact .element word
  | call word each => exact .call word each
  | paren fits => exact .paren fits
  | arith loose leftFits rightFits => exact .arith (hrank.trans loose) leftFits rightFits
  | compare loose leftFits rightFits => exact .compare (hrank.trans loose) leftFits rightFits
  | all loose several each => exact .all (hrank.trans loose) several each
  | any loose several each => exact .any (hrank.trans loose) several each
  | choice conditionFits yesFits noFits =>
    have hlevel : level = .choice := by
      revert hrank
      cases level <;> decide
    exact hlevel ▸ .choice conditionFits yesFits noFits

theorem fits_call {level : Level} {function : String} {arguments : List Expr}
    (hword : isWord function.toList = true) (h : arguments.Forall (Fits .choice)) :
    Fits level (.call function arguments) :=
  .call hword (List.forall_iff_forall_mem.1 h)

theorem fits_int {level : Level} (n : Int) : Fits level (int n) :=
  .numeral (Literal.isSigned_ofInt n)

theorem fits_float {level : Level} {F : Format} {x : Binary F} (hx : x.isFinite = true) :
    Fits level (float x) :=
  .numeral (Literal.isSigned_ofBinary hx)

end Expr

/-- The tokens of a block that only returns a value. -/
def blockTokens (value : Expr) : List Token :=
  .symbol ['{'] :: .word "return".toList :: value.tokens ++ [.symbol [';'], .symbol ['}']]

namespace Arm

/-- The tokens of an arm behind its keyword. -/
def tokens (arm : Arm) : List Token :=
  .symbol ['('] :: arm.guard.tokens ++ .symbol [')'] :: blockTokens arm.result

/-- The arms that are read back. -/
def Legible (arm : Arm) : Prop := arm.guard.Fits .choice ∧ arm.result.Fits .choice

end Arm

namespace Stmt

/-- The tokens of a fallback. -/
def fallbackTokens : Option Expr → List Token
  | none => []
  | some value => .word "else".toList :: blockTokens value

def tokens : Stmt → List Token
  | declare type name value =>
    .word type.text.toList :: .word name.toList :: .symbol ['='] :: value.tokens ++ [.symbol [';']]
  | assign name value => .word name.toList :: .symbol ['='] :: value.tokens ++ [.symbol [';']]
  | increase name value =>
    .word name.toList :: .symbol ['+', '='] :: value.tokens ++ [.symbol [';']]
  | give value => .word "return".toList :: value.tokens ++ [.symbol [';']]
  | giveFirst first others fallback =>
    .word "if".toList :: first.tokens ++
      others.flatMap (fun arm => .word "else".toList :: .word "if".toList :: arm.tokens) ++
      fallbackTokens fallback

/-- The words that no variable is named by. -/
def reserved : List String := ["return", "if", "else", "int", "float", "vec3"]

/-- The statements that are read back. -/
def Legible : Stmt → Prop
  | declare _ name value => isWord name.toList = true ∧ value.Fits .choice
  | assign name value | increase name value =>
    isWord name.toList = true ∧ name ∉ reserved ∧ value.Fits .choice
  | give value => value.Fits .choice
  | giveFirst first others fallback =>
    first.Legible ∧ (∀ arm ∈ others, arm.Legible) ∧ ∀ value ∈ fallback, value.Fits .choice

end Stmt

namespace Param

def tokens (p : Param) : List Token :=
  (if p.fixed then [.word "const".toList, .word "in".toList] else []) ++
    [.word p.type.text.toList, .word p.name.toList]

end Param

namespace Routine

def tokens (r : Routine) : List Token :=
  .word r.result.text.toList :: .word r.name.toList :: .symbol ['('] ::
    [.symbol [',']].intercalate (r.params.map Param.tokens) ++
    .symbol [')'] :: .symbol ['{'] :: r.body.flatMap Stmt.tokens ++ [.symbol ['}']]

/-- The routines that are read back. -/
structure Legible (r : Routine) : Prop where
  name : isWord r.name.toList = true
  params : ∀ p ∈ r.params, isWord p.name.toList = true
  body : ∀ s ∈ r.body, s.Legible

/-- A routine without its division into paragraphs. -/
def joined (r : Routine) : Routine := { r with paragraphs := [r.body] }

@[simp] theorem body_joined (r : Routine) : r.joined.body = r.body := by simp [joined, body]

end Routine

end Glsl

end CellularShader
