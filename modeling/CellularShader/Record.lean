/- # Rule records

A rule record is a rule written down: the tag of its family, its notation, and its parameters as
loose JSON members. Tag and parameters are checked only when the record is turned into a rule, so a
record with an unknown tag can be read, kept and written.
-/

import CellularShader.Rule.Params
import CellularShader.Shader

namespace CellularShader

open Json (Document Fault Reader Value)

/-- A rule as written down. -/
structure Record where
  family : String := ""
  label : String := ""
  params : SortedMap String Value := .empty

namespace Record

/-- The record of a rule. -/
def ofRule (rule : Rule) (label : String) : Record :=
  ⟨rule.family.tag, label, .ofList rule.params⟩

/-- The rule that a record describes. -/
def toRule (r : Record) : Except RuleError Rule := do
  Rule.ofParams (← Family.ofTag r.family) (.object r.params.entries)

/-- Equality of records, floats being compared numerically. -/
def equals (a b : Record) : Bool :=
  a.family = b.family && a.label = b.label && Value.equalMembers a.params.entries b.params.entries

/-! ## Reading -/

/-- What has been read of a record. -/
structure Draft where
  family : Option String := none
  label : Option String := none
  params : SortedMap String Value := .empty

/-- A string after a colon. -/
def readText : Reader String := do
  Json.readColon
  fun text =>
    match Json.skipBlanks text with
    | '"' :: rest => Json.readString rest
    | other => .error (Json.mismatch .string other)

/-- Takes in a member. A tag or notation that is there already is refused before its value is
read. -/
def readMember (limit : Nat) (key : String) (r : Draft) : Reader Draft := do
  if key = "ruleFormat" then
    if r.family.isSome then throw (.duplicateField key)
    return { r with family := some (← readText) }
  else if key = "ruleString" then
    if r.label.isSome then throw (.duplicateField key)
    return { r with label := some (← readText) }
  else
    Json.readColon
    return { r with params := r.params.insert key (← Json.readValue limit) }

/-- A record from the members of an object. -/
def readMembers (limit : Nat) : Reader Record := do
  let r ← Json.readObject (readMember limit) {}
  match r.family with
  | none => throw (.missingField "ruleFormat")
  | some family => return ⟨family, r.label.getD "", r.params⟩

/-- Reads a record whose parameters nest no deeper than the number says. -/
def read (limit : Nat) : Reader Record := fun text =>
  match Json.skipBlanks text with
  | '{' :: rest => readMembers limit rest
  | other => .error (Json.mismatch (.record "RuleDescriptor") other)

/-- The record of a text. -/
def parse (text : String) : Except Fault Record :=
  Json.readText (read (Json.nestingLimit - 1)) text

/-! ## Writing -/

/-- Tag and notation first, then the parameters by key. -/
def document (r : Record) : Document :=
  .object <|
    [("ruleFormat", .string r.family), ("ruleString", .string r.label)] ++
      Value.memberDocuments r.params.entries

/-! ## Generating -/

/-- The shader of a record, in its surroundings. -/
def toShader (r : Record) (neighbourhood : Neighbourhood) (edge : Option Edge) :
    Except RuleError Shader := do
  let rule ← r.toRule
  return Shader.ofRule rule
    |>.withLabel r.label
    |>.withNeighbourhood neighbourhood
    |>.withEdge (edge.getD default)

/-- The text of a record's shader. -/
def generate (r : Record) (neighbourhood : Neighbourhood) (edge : Option Edge) :
    Except RuleError String := do
  return (← r.toShader neighbourhood edge).text

/-- The reports on generating a record's shader. -/
def events (r : Record) (neighbourhood : Neighbourhood) (edge : Option Edge) : List Event :=
  match r.toShader neighbourhood edge with
  | .ok shader => shader.events
  | .error e => [.rejected r.family e.message]

end Record

end CellularShader
