/- # Counting neighbours in a shader

A tally routine samples every offset in order and adds one for each neighbour that passes a test.
There are two: one counts the neighbours in any nonzero state, the other those in a given state.
-/

import CellularShader.Glsl.Printer
import CellularShader.Neighbourhood.Shape

namespace CellularShader

open Glsl

/-- What a tally counts. -/
inductive Tally where
  /-- Neighbours in a nonzero state. -/
  | live
  /-- Neighbours in the state passed to the routine. -/
  | matching
deriving DecidableEq

namespace Offset

/-- An offset as a vector. -/
def vector (o : Offset) : Expr := .call "vec3" [.float o.x, .float o.y, .float o.z]

end Offset

namespace Tally

def name : Tally → String
  | live => "getNeighbourhood"
  | matching => "getNeighbourhoodCond"

def params : Tally → List Param
  | live => [⟨true, .vec3, "currentPos"⟩]
  | matching => [⟨true, .vec3, "currentPos"⟩, ⟨true, .int, "desiredValue"⟩]

/-- The test that a sampled state is counted. -/
def counts (state : Expr) : Tally → Expr
  | live => .compare .gt state (.int 0)
  | matching => .compare .eq state (.name "desiredValue")

/-- The state of the neighbour at an offset. -/
def sample (o : Offset) : Expr := .call "getVoxel" [.name "currentPos", o.vector]

/-- The statement that counts the neighbour at an offset. -/
def step (t : Tally) (o : Offset) : Stmt :=
  .increase "sum" (.choice (t.counts (sample o)) (.int 1) (.int 0))

/-- The routine that counts over a neighbourhood. -/
def routine (t : Tally) (neighbourhood : Neighbourhood) : Routine where
  result := .int
  name := t.name
  params := t.params
  paragraphs :=
    [[.declare .int "sum" (.int 0)], neighbourhood.map t.step, [.give (.name "sum")]]

/-- The text of the routine. -/
def text (t : Tally) (neighbourhood : Neighbourhood) : String :=
  (t.routine neighbourhood).text { afterName := true }

end Tally

end CellularShader
