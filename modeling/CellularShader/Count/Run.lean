/- # Runs of consecutive counts

A set of neighbour counts is tested run by run: one test covers a whole run of consecutive counts,
however long. The runs of a list are maximal, come in ascending order, and do not depend on the
order of the list or on repetitions in it.
-/

import CellularShader.Glsl.Syntax

namespace CellularShader

/-- The counts from `first` to `last`, both included. -/
structure Run where
  first : Int32
  last : Int32
deriving DecidableEq

namespace Run

/-- The run of one count. -/
def single (count : Int32) : Run := ⟨count, count⟩

/-- Whether a run covers more than one count. -/
def isRange (r : Run) : Bool := r.first < r.last

/-- Inserts a count into an ascending list unless it is there. -/
def insertCount (count : Int32) : List Int32 → List Int32
  | [] => [count]
  | c :: rest =>
    if count < c then count :: c :: rest
    else if c < count then c :: insertCount count rest
    else c :: rest

/-- The distinct counts of a list in ascending order. -/
def distinct (counts : List Int32) : List Int32 := counts.foldr insertCount []

/-- Whether one count follows directly after another. The comparison is made in the integers, where
the largest count has a successor too. -/
def Follows (later earlier : Int32) : Prop := earlier.toInt + 1 = later.toInt

instance (later earlier : Int32) : Decidable (Follows later earlier) :=
  inferInstanceAs (Decidable (_ = _))

/-- Puts a count before runs, extending the first one when it starts directly after the count. -/
def prepend (count : Int32) : List Run → List Run
  | [] => [single count]
  | r :: rest =>
    if Follows r.first count then ⟨count, r.last⟩ :: rest else single count :: r :: rest

/-- The maximal runs of an ascending list of counts. -/
def group (ascending : List Int32) : List Run := ascending.foldr prepend []

/-- The maximal runs of the counts in a list. -/
def cover (counts : List Int32) : List Run := group (distinct counts)

open Glsl

/-- The comparisons that together place a counter in the run. -/
def bounds (r : Run) (counter : String) : List Expr :=
  if r.isRange then
    [.compare .ge (.name counter) (.int r.first.toInt),
      .compare .le (.name counter) (.int r.last.toInt)]
  else [.compare .eq (.name counter) (.int r.first.toInt)]

/-- The test that a counter lies in the run, safe as an operand of `&&` and `||`. -/
def test (r : Run) (counter : String) : Expr :=
  match r.bounds counter with
  | [comparison] => comparison
  | comparisons => .paren (.all comparisons)

end Run

namespace Glsl.Expr

/-- The test that one of several clauses holds, safe as an operand of `&&`. Of no clause, none
holds. -/
def oneOf : List Expr → Expr
  | [] => never
  | [clause] => clause
  | clauses => paren (any clauses)

/-- The test that a counter is one of the given counts. -/
def isCount (counts : List Int32) (counter : String) : Expr :=
  oneOf ((Run.cover counts).map (·.test counter))

end Glsl.Expr

end CellularShader
