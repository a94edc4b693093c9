/- # The step of an automaton

What a rule says, without a shader: the next state of a voxel as a function of its own state and the
states that it sees. States are integers, of which zero is dead.
-/

import CellularShader.Glsl.Semantics
import CellularShader.Rule.Process

namespace CellularShader

/-- What the next state of a voxel depends on. -/
structure View where
  state : Int
  /-- The states at the offsets of the neighbourhood. -/
  neighbours : List Int
  /-- How much of the neighbour count a live voxel adds to its state, cut to the unit interval. -/
  share : Rat
  /-- The draw at the voxel. -/
  draw : Rat

namespace View

/-- How many neighbours are alive. -/
def live (v : View) : Nat := v.neighbours.countP (0 < ·)

/-- How many neighbours are in a state. -/
def inState (v : View) (state : Int) : Nat := v.neighbours.count state

/-- The state of a live voxel that has counted `total`. -/
def grown (v : View) (total : Nat) : Int :=
  1 + (total * if v.share < 0 then 0 else if 1 < v.share then 1 else v.share : Rat).floor

end View

/-- Whether a number is among counts. -/
def amongCounts (counts : List Int32) (n : Nat) : Bool := counts.any (·.toInt = n)

/-- Whether a number lies between two bounds, both included. -/
def betweenBounds (low high : Int32) (n : Nat) : Bool := low.toInt ≤ n && n ≤ high.toInt

namespace Chances

/-- Whether a count fires under a draw. -/
def fire (chances : Chances) (n : Nat) (draw : Rat) : Bool :=
  chances.entries.any fun (count, chance) =>
    count.toInt = n && (chance.equals ChanceRun.certain || chance.isPositive && draw < chance.toRat)

end Chances

/-- The step of a rule with birth and survival. -/
def lifeStep (v : View) (birth survival : Nat → Bool) : Int :=
  if v.state = 0 ∧ birth v.live ∨ 0 < v.state ∧ survival v.live then v.grown v.live else 0

namespace Rule

/-- The next state. In a cycle of length zero it is of no significance. -/
def next (v : View) : Rule → Int
  | life r | extendedLife r => lifeStep v (amongCounts r.birth) (amongCounts r.survival)
  | extendedStochastic r =>
    lifeStep v (Chances.fire r.birth · v.draw) (Chances.fire r.survival · v.draw)
  | luky r =>
    lifeStep v (betweenBounds r.lowBirth r.highBirth) (betweenBounds r.lowSurvival r.highSurvival)
  | vote r =>
    let total := v.live + if 0 < v.state then 1 else 0
    if amongCounts r.vote total then v.grown total else 0
  | generations r | extendedGenerations r =>
    let excited := v.inState 1
    if v.state = 0 ∧ amongCounts r.birth excited ∨
        v.state = 1 ∧ amongCounts r.survival excited then 1
    else if 0 < v.state then Int.fmod (v.state + 1) r.stateCount.toInt
    else 0
  | nluky r =>
    let excited := v.inState 1
    if v.state = 0 ∧ betweenBounds r.lowBirth r.highBirth excited ∨
        v.state = 1 ∧ betweenBounds r.lowSurvival r.highSurvival excited then 1
    else if v.state = 1 then if r.stateCount.toInt = -2 ∨ r.stateCount.toInt = 0 then 0 else 2
    else if 2 ≤ v.state then Int.fmod (v.state + 2) r.cycle
    else 0
  | cyclic r =>
    let following := Int.fmod (v.state + 1) r.stateCount.toInt
    if r.threshold.toInt ≤ v.inState following ∨ r.greenbergHastings ∧ 0 < v.state then following
    else v.state

end Rule

end CellularShader
