/- # Chances by neighbour count

In a stochastic rule every neighbour count has a chance to fire. Neighbouring counts with
numerically equal chances share one test. A count that is certain needs no draw, and one that cannot
fire needs no test.
-/

import CellularShader.Count.Run
import CellularShader.SortedMap

namespace CellularShader

/-- The chance of each count that has one. -/
abbrev Chances := SortedMap Int32 Double

/-- A run of counts with one chance. -/
structure ChanceRun where
  run : Run
  chance : Double
deriving DecidableEq

namespace ChanceRun

open Glsl

/-- Puts a count before runs. It joins the first run when that starts directly after the count and
has a numerically equal chance; the joined run keeps the chance of the count. -/
def prepend (entry : Int32 × Double) : List ChanceRun → List ChanceRun
  | [] => [⟨.single entry.1, entry.2⟩]
  | r :: rest =>
    if Run.Follows r.run.first entry.1 ∧ entry.2.equals r.chance then
      ⟨⟨entry.1, r.run.last⟩, entry.2⟩ :: rest
    else ⟨.single entry.1, entry.2⟩ :: r :: rest

/-- The maximal runs of equal chances, in ascending order. -/
def cover (chances : Chances) : List ChanceRun := chances.entries.foldr prepend []

/-- The chance of a count that always fires. -/
def certain : Double := .ofInt .double 1

/-- The draw from the unit interval at a position. -/
def draw (position : String) : Expr := .call "rand" [.name position, .numeral "1."]

/-- The test that a sum lies in the run and the draw at a position falls below the chance. There is
none when the run can never fire. -/
def test? (r : ChanceRun) (sum position : String) : Option Expr :=
  if r.chance.equals certain then some (r.run.test sum)
  else if r.chance.isPositive then
    some (.paren (.all (r.run.bounds sum ++ [.compare .lt (draw position) (.float r.chance)])))
  else none

end ChanceRun

namespace Glsl.Expr

/-- The test that the count in `sum` fires at a position. -/
def fires (chances : Chances) (sum position : String) : Expr :=
  oneOf ((ChanceRun.cover chances).filterMap (·.test? sum position))

end Glsl.Expr

end CellularShader
