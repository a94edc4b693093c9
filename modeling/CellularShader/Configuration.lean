/- # Configurations

A configuration holds everything for one shader: a rule record, a neighbourhood, and optionally what
lies beyond the edge. It is kept in files as JSON.
-/

import CellularShader.Json.Skip
import CellularShader.Record
import CellularShader.Store

namespace CellularShader

open Json (Document Fault FloatStyle Reader Value Wanted)

/-- Everything needed for one shader. -/
structure Configuration where
  rule : Record := {}
  neighbourhood : Neighbourhood := []
  edge : Option Edge := none

/-- Why a configuration cannot be loaded, saved or used. -/
inductive ConfigurationError where
  | file (error : FileError)
  | json (fault : Fault)
  | rule (error : RuleError)
deriving DecidableEq

namespace ConfigurationError

/-- The wording of what lies behind an error. -/
def cause : ConfigurationError → String
  | file error => error.message
  | json fault => fault.message
  | rule error => error.message

def message (e : ConfigurationError) : String :=
  match e with
  | file _ => "Failed to access config file: " ++ e.cause
  | json _ => "Failed to parse config: " ++ e.cause
  | rule _ => "Failed to generate shader: " ++ e.cause

end ConfigurationError

namespace Edge

/-- The policy that a value stands for: a string names it, and a number stands for itself. -/
def ofValue : Value → Except Fault Edge
  | .string text => .ok (ofText text)
  | .number n => .ok (literal n.text)
  | _ => .error .notAnEdge

/-- Reads a policy. The value is read to its end before it is judged. -/
def read (limit : Nat) : Reader Edge := do
  ofValue (← Json.readValue limit)

/-- The policy of a text. -/
def parse (text : String) : Except Fault Edge := Json.readText (read Json.nestingLimit) text

def document (edge : Edge) : Document := .string edge.text

end Edge

namespace Offset

/-- A component: an integer and a float alike are rounded to the nearest 32-bit number. -/
def component : Json.Number → Single
  | .integer n _ => .ofInt .single n
  | .float x _ => x.convert .single

/-- Reads a component. -/
def readComponent : Reader Single := fun text =>
  match Json.skipBlanks text with
  | [] => .error .unfinishedValue
  | c :: rest =>
    if c = '-' || c.isDigit then (component <$> Json.readNumber) (c :: rest)
    else .error (Json.mismatch .single (c :: rest))

/-- The component at a position of a list. -/
def readComponentAt (position : Nat) : Reader Single := do
  if ← Json.nextElement (position = 0) then readComponent
  else throw (.wrongLength position .offset)

/-- The three components of a list. -/
def readComponents : Reader Offset := do
  let x ← readComponentAt 0
  let y ← readComponentAt 1
  let z ← readComponentAt 2
  Json.closeList
  return ⟨x, y, z⟩

/-- Reads an offset: a list of three components. -/
def read : Reader Offset := fun text =>
  match Json.skipBlanks text with
  | '[' :: rest => readComponents rest
  | other => .error (Json.mismatch .offset other)

def document (o : Offset) : Document :=
  .array [FloatStyle.single.document o.x, FloatStyle.single.document o.y,
    FloatStyle.single.document o.z]

end Offset

namespace Neighbourhood

/-- Reads a list of offsets. -/
def read : Reader Neighbourhood := fun text =>
  match Json.skipBlanks text with
  | '[' :: rest => Json.readList Offset.read rest
  | other => .error (Json.mismatch .sequence other)

def document (n : Neighbourhood) : Document := .array (n.map Offset.document)

end Neighbourhood

namespace Configuration

/-- Equality of configurations, numbers being compared numerically. -/
def equals (a b : Configuration) : Bool :=
  a.rule.equals b.rule && a.neighbourhood.equals b.neighbourhood && a.edge = b.edge

/-! ## Reading -/

/-- How deep the values inside a configuration may nest. -/
def innerLimit : Nat := Json.nestingLimit - 1

def readRule : Reader Record := Record.read (innerLimit - 1)

/-- A policy, or `null` for none. -/
def readEdge : Reader (Option Edge) := fun text =>
  match Json.skipBlanks text with
  | 'n' :: rest => ((fun _ => none) <$> Json.readWord ['u', 'l', 'l']) rest
  | other => (some <$> Edge.read innerLimit) other

/-- What has been read of a configuration. -/
structure Draft where
  rule : Option Record := none
  neighbourhood : Option Neighbourhood := none
  edge : Option (Option Edge) := none

/-- Takes in a member. One that is there already is refused before its value is read, and the value
of an unknown one is passed over. -/
def readMember (key : String) (c : Draft) : Reader Draft := do
  if key = "rule" then
    if c.rule.isSome then throw (.duplicateField key)
    Json.readColon
    return { c with rule := some (← readRule) }
  else if key = "neighbourhood" then
    if c.neighbourhood.isSome then throw (.duplicateField key)
    Json.readColon
    return { c with neighbourhood := some (← Neighbourhood.read) }
  else if key = "outOfBoundValue" then
    if c.edge.isSome then throw (.duplicateField key)
    Json.readColon
    return { c with edge := some (← readEdge) }
  else
    Json.readColon
    Json.skipValue
    return c

/-- A configuration from the members of an object. -/
def readMembers : Reader Configuration := do
  let c ← Json.readObject readMember {}
  match c.rule with
  | none => throw (.missingField "rule")
  | some rule => return ⟨rule, c.neighbourhood.getD [], c.edge.getD none⟩

/-- A configuration from the elements of a list, of which all but the rule may be left out. -/
def readElements : Reader Configuration := do
  if ← Json.nextElement true then
    let rule ← readRule
    let neighbourhood ← if ← Json.nextElement false then Neighbourhood.read else pure []
    let edge ← if ← Json.nextElement false then readEdge else pure none
    Json.closeList
    return ⟨rule, neighbourhood, edge⟩
  else throw (.wrongLength 0 (.recordOf "ShaderConfig" 3))

/-- Reads a configuration. -/
def read : Reader Configuration := fun text =>
  match Json.skipBlanks text with
  | '{' :: rest => readMembers rest
  | '[' :: rest => readElements rest
  | other => .error (Json.mismatch (.record "ShaderConfig") other)

/-- The configuration of a text. -/
def parse (text : String) : Except ConfigurationError Configuration :=
  (Json.readText read text).mapError .json

/-! ## Writing -/

/-- The policy is written only when there is one. -/
def document (c : Configuration) : Document :=
  .object <|
    [("rule", c.rule.document), ("neighbourhood", c.neighbourhood.document)] ++
      (c.edge.map fun edge => ("outOfBoundValue", edge.document)).toList

/-! ## Files -/

/-- Saves a configuration under a name. -/
def save (c : Configuration) (store : Store) (name : String) : Except ConfigurationError Store :=
  (store.write name c.document.pretty.toUTF8).mapError .file

/-- Loads the configuration under a name. -/
def load (store : Store) (name : String) : Except ConfigurationError Configuration := do
  parse (← (store.readText name).mapError .file)

/-! ## Generating -/

/-- The shader of a configuration. -/
def toShader (c : Configuration) : Except RuleError Shader := do
  return Shader.ofRule (← c.rule.toRule)
    |>.withLabel c.rule.label
    |>.withNeighbourhood c.neighbourhood
    |>.withEdge (c.edge.getD default)

/-- The text of a configuration's shader. -/
def generate (c : Configuration) : Except RuleError String := do
  return (← c.toShader).text

/-- The reports on generating a configuration's shader. There are none on a rule that is refused. -/
def events (c : Configuration) : List Event :=
  match c.toShader with
  | .ok shader => shader.events
  | .error _ => []

end Configuration

end CellularShader
