/- # The transition of a rule in a shader

A rule becomes the routine `process`, which maps the state of a voxel and its position to its next
state, after the routines it calls: the tally of neighbours, and the source of draws for a
stochastic rule.
-/

import CellularShader.Neighbourhood.Tally
import CellularShader.Rule.Basic

namespace CellularShader

open Glsl

/-- The state before the step. -/
def currentValue : Expr := .name "currentValue"

/-- The comparison of a name with an integer. -/
def compareInt (operator : Comparison) (left : Expr) (right : Int) : Expr :=
  .compare operator left (.int right)

/-- The next state of a voxel that is alive: one, plus a share of the neighbour count that the user
chooses. -/
def grown : Expr :=
  .arith .add (.int 1) (.call "int" [.arith .mul (.call "float" [.name "sum"]) (.name "sumAdd")])

/-- The declaration of the user's share, between zero and one. -/
def declareShare : Stmt :=
  .declare .float "sumAdd"
    (.call "clamp" [.element (.name "iArgs") 0, .numeral "0.", .numeral "1."])

/-- The state a number of steps ahead in a cycle. -/
def advanced (steps cycle : Int) : Expr :=
  .call "int" [.call "mod" [.call "float" [.arith .add currentValue (.int steps)], .int cycle]]

/-- The comparisons that place the sum between two bounds, both included. -/
def withinBounds (low high : Int32) : List Expr :=
  [compareInt .ge (.name "sum") low.toInt, compareInt .le (.name "sum") high.toInt]

/-- A transition routine with the given body. -/
def processRoutine (body : List Stmt) : Routine where
  result := .int
  name := "process"
  params := [⟨true, .int, "currentValue"⟩, ⟨true, .vec3, "position"⟩]
  paragraphs := [body]

namespace Tally

/-- A call of the tally at the voxel's position. -/
def atPosition (t : Tally) (others : List Expr) : Expr := .call t.name (.name "position" :: others)

end Tally

/-- A dead voxel is born and a live one survives, each under its own conditions; either then has a
value that grows with its neighbourhood. -/
def lifeBody (birth survival : List Expr) : List Stmt :=
  [.declare .int "sum" (Tally.live.atPosition []),
    declareShare,
    .giveFirst ⟨.all (compareInt .eq currentValue 0 :: birth), grown⟩
      [⟨.all (compareInt .gt currentValue 0 :: survival), grown⟩] none,
    .give (.int 0)]

/-- The declaration of the number of neighbours in state one. -/
def declareExcited : Stmt := .declare .int "sum" (Tally.matching.atPosition [.int 1])

namespace GenerationsRule

def body (r : GenerationsRule) : List Stmt :=
  [declareExcited,
    .giveFirst ⟨.all [compareInt .eq currentValue 0, .isCount r.birth "sum"], .int 1⟩
      [⟨.all [compareInt .eq currentValue 1, .isCount r.survival "sum"], .int 1⟩,
        ⟨compareInt .gt currentValue 0, advanced 1 r.stateCount.toInt⟩] none,
    .give (.int 0)]

end GenerationsRule

namespace VoteRule

def body (r : VoteRule) : List Stmt :=
  [.declare .int "sum"
      (.arith .add (Tally.live.atPosition [])
        (.paren (.choice (compareInt .gt currentValue 0) (.int 1) (.int 0)))),
    declareShare,
    .giveFirst ⟨.isCount r.vote "sum", grown⟩ [] none,
    .give (.int 0)]

end VoteRule

namespace NlukyRule

/-- The length of the decay cycle. -/
def cycle (r : NlukyRule) : Int := 2 + 2 * r.stateCount.toInt

/-- The phase that decay starts with: two, reduced by the length of the cycle. A cycle of length
zero has no phase two. -/
def decayPhase (r : NlukyRule) : Int := if r.cycle = 0 then 0 else Int.tmod 2 r.cycle

def body (r : NlukyRule) : List Stmt :=
  [declareExcited,
    .giveFirst
      ⟨.all (compareInt .eq currentValue 0 :: withinBounds r.lowBirth r.highBirth), .int 1⟩
      [⟨.all (compareInt .eq currentValue 1 :: withinBounds r.lowSurvival r.highSurvival), .int 1⟩,
        ⟨compareInt .eq currentValue 1, .int r.decayPhase⟩,
        ⟨compareInt .ge currentValue 2, advanced 2 r.cycle⟩] none,
    .give (.int 0)]

end NlukyRule

namespace CyclicRule

/-- The test that a voxel advances. -/
def advances (r : CyclicRule) : Expr :=
  let enough := compareInt .ge (.name "sum") r.threshold.toInt
  if r.greenbergHastings then .any [enough, compareInt .gt currentValue 0] else enough

def body (r : CyclicRule) : List Stmt :=
  [.declare .int "nextValue" (advanced 1 r.stateCount.toInt),
    .declare .int "sum" (Tally.matching.atPosition [.name "nextValue"]),
    .giveFirst ⟨r.advances, .name "nextValue"⟩ [] none,
    .give currentValue]

end CyclicRule

namespace Rule

/-- The tally that a rule works with. -/
def tally : Rule → Tally
  | life _ | extendedLife _ | extendedStochastic _ | vote _ | luky _ => .live
  | generations _ | extendedGenerations _ | nluky _ | cyclic _ => .matching

/-- The body of the transition. -/
def body : Rule → List Stmt
  | life r | extendedLife r => lifeBody [.isCount r.birth "sum"] [.isCount r.survival "sum"]
  | extendedStochastic r =>
    lifeBody [.fires r.birth "sum" "position"] [.fires r.survival "sum" "position"]
  | generations r | extendedGenerations r => r.body
  | vote r => r.body
  | luky r =>
    lifeBody (withinBounds r.lowBirth r.highBirth) (withinBounds r.lowSurvival r.highSurvival)
  | nluky r => r.body
  | cyclic r => r.body

/-- The draw at a position, from the host's random numbers and a seed. The constants decide which
voxels fire. -/
def randomSource : String :=
  "\n".intercalate
    ["float rand(vec3 co, float seed) \x7b",
      "  co = co + vec3(fract(sin(dot(vec2(iRand.x * 4. * 5.9898, seed * 78.5453), " ++
        "vec2(12.9898,78.233))) * 43758.5453));",
      "  return fract(sin(dot(co.xy + vec2(length(co.yz) * 24.0316), vec2(12.9898,78.233)) + " ++
        "dot(co.yz + vec2(length(co.zx) * 24.0316), vec2(12.9898,78.233)) + " ++
        "dot(co.zx + vec2(length(co.xy) * 24.0316), vec2(12.9898,78.233))) * 43758.5453);",
      "\x7d"]

/-- The routine that makes one step. -/
def process (rule : Rule) : Routine := processRoutine rule.body

/-- The sections of a rule over a neighbourhood. -/
def sections (rule : Rule) (neighbourhood : Neighbourhood) : List String :=
  (if rule.isStochastic then [randomSource] else []) ++
    [rule.tally.text neighbourhood, rule.process.text {}]

/-- The text of a rule over a neighbourhood. -/
def text (rule : Rule) (neighbourhood : Neighbourhood) : String :=
  joinSections (rule.sections neighbourhood)

end Rule

end CellularShader
