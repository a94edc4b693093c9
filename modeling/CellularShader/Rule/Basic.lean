/- # Rules

A rule is a family together with the parameters of that family. Each family has a tag under which
its rules are written down. Parameters are taken as they come: a set of counts may be empty, bounds
may exclude everything, and a state count may be zero or negative.
-/

import CellularShader.Count.Chance

namespace CellularShader

/-- The families of automata. -/
inductive Family where
  | life
  | extendedLife
  | extendedStochastic
  | generations
  | extendedGenerations
  | vote
  | luky
  | nluky
  | cyclic
deriving DecidableEq

namespace Family

/-- All families, in the order in which they are listed to users. -/
def all : List Family :=
  [life, extendedLife, extendedStochastic, generations, extendedGenerations, vote, luky,
    nluky, cyclic]

/-- The tag of a family. -/
def tag : Family → String
  | life => "life"
  | extendedLife => "extended-life"
  | extendedStochastic => "extended-stochastic"
  | generations => "generations"
  | extendedGenerations => "extended-generations"
  | vote => "vote"
  | luky => "luky"
  | nluky => "nluky"
  | cyclic => "cyclic"

/-- The family with a given tag. -/
def ofTag? (tag : String) : Option Family := all.find? (·.tag = tag)

end Family

/-- Neighbour counts under which a dead voxel is born and a live one survives. -/
structure LifeRule where
  birth : List Int32 := []
  survival : List Int32 := []
deriving DecidableEq

/-- For each neighbour count, the chance of a birth and of a survival. -/
structure StochasticRule where
  birth : Chances := .empty
  survival : Chances := .empty

/-- Birth and survival counts, and the number of states that a voxel passes through before it is
dead again. -/
structure GenerationsRule where
  birth : List Int32 := []
  survival : List Int32 := []
  stateCount : Int32 := 0
deriving DecidableEq

/-- Totals of live voxels, the voxel itself included, under which it lives. -/
structure VoteRule where
  vote : List Int32 := []
deriving DecidableEq

/-- Inclusive bounds on the neighbour count for survival and birth. -/
structure LukyRule where
  lowSurvival : Int32 := 0
  highSurvival : Int32 := 0
  lowBirth : Int32 := 0
  highBirth : Int32 := 0
deriving DecidableEq

/-- Inclusive bounds for survival and birth, and the number of phases of a decay in steps of two. -/
structure NlukyRule where
  stateCount : Int32 := 0
  lowSurvival : Int32 := 0
  highSurvival : Int32 := 0
  lowBirth : Int32 := 0
  highBirth : Int32 := 0
deriving DecidableEq

/-- A cycle of states, and how many neighbours in the next state make a voxel advance. Under the
Greenberg–Hastings model a voxel that has left state zero advances in any case. -/
structure CyclicRule where
  stateCount : Int32 := 0
  threshold : Int32 := 0
  greenbergHastings : Bool := false
deriving DecidableEq

/-- A rule of one of the families. -/
inductive Rule where
  | life (rule : LifeRule)
  | extendedLife (rule : LifeRule)
  | extendedStochastic (rule : StochasticRule)
  | generations (rule : GenerationsRule)
  | extendedGenerations (rule : GenerationsRule)
  | vote (rule : VoteRule)
  | luky (rule : LukyRule)
  | nluky (rule : NlukyRule)
  | cyclic (rule : CyclicRule)

namespace Chances

/-- Whether two maps have the same counts with numerically equal chances. -/
def equals (a b : Chances) : Bool :=
  a.keys = b.keys && (a.entries.zip b.entries).all fun (x, y) => x.2.equals y.2

end Chances

namespace Rule

def family : Rule → Family
  | life _ => .life
  | extendedLife _ => .extendedLife
  | extendedStochastic _ => .extendedStochastic
  | generations _ => .generations
  | extendedGenerations _ => .extendedGenerations
  | vote _ => .vote
  | luky _ => .luky
  | nluky _ => .nluky
  | cyclic _ => .cyclic

/-- Whether the outcome of the rule depends on a draw. -/
def isStochastic (rule : Rule) : Bool := rule.family = .extendedStochastic

/-- Equality of rules, chances being compared numerically. -/
def equals : Rule → Rule → Bool
  | life a, life b => a = b
  | extendedLife a, extendedLife b => a = b
  | extendedStochastic a, extendedStochastic b =>
    Chances.equals a.birth b.birth && Chances.equals a.survival b.survival
  | generations a, generations b => a = b
  | extendedGenerations a, extendedGenerations b => a = b
  | vote a, vote b => a = b
  | luky a, luky b => a = b
  | nluky a, nluky b => a = b
  | cyclic a, cyclic b => a = b
  | _, _ => false

end Rule

end CellularShader
