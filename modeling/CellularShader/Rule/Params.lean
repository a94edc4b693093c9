/- # Rule parameters in JSON

The parameters of each family as a record. A rule is read from its family and a JSON value, and its
parameters are written as the members of an object.
-/

import CellularShader.Json.Decode
import CellularShader.Rule.Basic

namespace CellularShader

open Json (Slot Fault Value Wanted)

/-- Why a rule record does not describe a rule. -/
inductive RuleError where
  /-- No family has the tag. -/
  | unsupportedFamily (tag : String)
  /-- The parameters do not have the shape of the family's record. -/
  | invalidParameters (family : Family) (fault : Fault)
deriving DecidableEq

namespace RuleError

def message : RuleError → String
  | unsupportedFamily tag => "Unsupported rule format: " ++ tag
  | invalidParameters family fault =>
    "Invalid parameters for rule format " ++ family.tag ++ ": " ++ fault.message

/-- The fault behind an error. -/
def cause : RuleError → Option Fault
  | unsupportedFamily _ => none
  | invalidParameters _ fault => some fault

end RuleError

namespace Family

/-- The family with a tag, or the error that there is none. -/
def ofTag (tag : String) : Except RuleError Family :=
  match ofTag? tag with
  | some family => .ok family
  | none => .error (.unsupportedFamily tag)

end Family

namespace LifeRule

def fields : List (Slot LifeRule) :=
  [.int32s "birth" birth fun r v => { r with birth := v },
    .int32s "survival" survival fun r v => { r with survival := v }]

end LifeRule

namespace StochasticRule

def fields : List (Slot StochasticRule) :=
  [.doubles "birth" birth fun r v => { r with birth := v },
    .doubles "survival" survival fun r v => { r with survival := v }]

end StochasticRule

namespace GenerationsRule

def fields : List (Slot GenerationsRule) :=
  [.int32s "birth" birth fun r v => { r with birth := v },
    .int32s "survival" survival fun r v => { r with survival := v },
    .int32 "stateCount" stateCount fun r v => { r with stateCount := v }]

end GenerationsRule

namespace VoteRule

def fields : List (Slot VoteRule) :=
  [.int32s "vote" vote fun r v => { r with vote := v }]

end VoteRule

namespace LukyRule

def fields : List (Slot LukyRule) :=
  [.int32 "lowSurvival" lowSurvival fun r v => { r with lowSurvival := v },
    .int32 "highSurvival" highSurvival fun r v => { r with highSurvival := v },
    .int32 "lowBirth" lowBirth fun r v => { r with lowBirth := v },
    .int32 "highBirth" highBirth fun r v => { r with highBirth := v }]

end LukyRule

namespace NlukyRule

def fields : List (Slot NlukyRule) :=
  [.int32 "stateCount" stateCount fun r v => { r with stateCount := v },
    .int32 "lowSurvival" lowSurvival fun r v => { r with lowSurvival := v },
    .int32 "highSurvival" highSurvival fun r v => { r with highSurvival := v },
    .int32 "lowBirth" lowBirth fun r v => { r with lowBirth := v },
    .int32 "highBirth" highBirth fun r v => { r with highBirth := v }]

end NlukyRule

namespace CyclicRule

def fields : List (Slot CyclicRule) :=
  [.int32 "stateCount" stateCount fun r v => { r with stateCount := v },
    .int32 "threshold" threshold fun r v => { r with threshold := v },
    .bool "greenbergHastingsModel" greenbergHastings fun r v => { r with greenbergHastings := v }]

end CyclicRule

namespace Rule

/-- The rule of a family that a value describes. -/
def readParams (params : Value) : Family → Except Fault Rule
  | .life => life <$> Slot.decode (.record "LifeParams") LifeRule.fields {} params
  | .extendedLife => extendedLife <$> Slot.decode (.record "LifeParams") LifeRule.fields {} params
  | .extendedStochastic =>
    extendedStochastic <$>
      Slot.decode (.record "StochasticParams") StochasticRule.fields {} params
  | .generations =>
    generations <$> Slot.decode (.record "GenerationsParams") GenerationsRule.fields {} params
  | .extendedGenerations =>
    extendedGenerations <$>
      Slot.decode (.record "GenerationsParams") GenerationsRule.fields {} params
  | .vote => vote <$> Slot.decode (.record "VoteParams") VoteRule.fields {} params
  | .luky => luky <$> Slot.decode (.record "LukyParams") LukyRule.fields {} params
  | .nluky => nluky <$> Slot.decode (.record "NlukyParams") NlukyRule.fields {} params
  | .cyclic => cyclic <$> Slot.decode (.record "CyclicParams") CyclicRule.fields {} params

/-- The rule of a family with parameters from JSON. -/
def ofParams (family : Family) (params : Value) : Except RuleError Rule :=
  (readParams params family).mapError (.invalidParameters family)

/-- The parameters of a rule as members of an object. -/
def params : Rule → List (String × Value)
  | life r | extendedLife r => Slot.encode LifeRule.fields r
  | extendedStochastic r => Slot.encode StochasticRule.fields r
  | generations r | extendedGenerations r => Slot.encode GenerationsRule.fields r
  | vote r => Slot.encode VoteRule.fields r
  | luky r => Slot.encode LukyRule.fields r
  | nluky r => Slot.encode NlukyRule.fields r
  | cyclic r => Slot.encode CyclicRule.fields r

end Rule

end CellularShader
