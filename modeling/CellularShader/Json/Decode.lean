/- # Decoding JSON values

A record is described once by its fields, in declaration order, and is read from and written to JSON
through that description. It is read from an object, whose members are visited in key order and may
be missing or unknown, or from a list of its leading fields.
-/

import CellularShader.Json.Reader

namespace CellularShader

namespace Json

namespace Value

/-- A 32-bit integer. A float never counts as one. -/
def toInt32 : Value → Except Fault Int32
  | number (.integer n _) =>
    if Int32.minValue.toInt ≤ n ∧ n ≤ Int32.maxValue.toInt then .ok (Int32.ofInt n)
    else .error (.wrongValue (.integer n) .int32)
  | v => .error (.wrongType v.found .int32)

/-- A float; an integer counts as the nearest one. -/
def toDouble : Value → Except Fault Double
  | number n => .ok n.toDouble
  | v => .error (.wrongType v.found .double)

def toBool : Value → Except Fault Bool
  | bool b => .ok b
  | v => .error (.wrongType v.found .boolean)

variable {α : Type}

/-- A list of items. -/
def toList (item : Value → Except Fault α) : Value → Except Fault (List α)
  | array elements => elements.mapM item
  | v => .error (.wrongType v.found .sequence)

end Value

/-- A 32-bit integer in a key. -/
def int32OfKey (key : String) : Except Fault Int32 := do
  match key.toList with
  | [] => throw .keyNotNumeric
  | c :: rest =>
    if c = '-' || c.isDigit then
      let (n, leftover) ← readNumber (c :: rest)
      let count ← (Value.number n).toInt32
      if leftover.isEmpty then return count else throw .keyNotNumeric
    else throw .keyNotNumeric

namespace Value

variable {α : Type}

/-- A map from integers. Members are visited in key order, each key before its value. -/
def toIntMap (item : Value → Except Fault α) : Value → Except Fault (SortedMap Int32 α)
  | object members =>
    members.foldlM
      (fun m (key, v) => do
        let count ← int32OfKey key
        return m.insert count (← item v))
      .empty
  | v => .error (.wrongType v.found .map)

/-- A number as a value; `null` when it is not finite. -/
def ofDouble (x : Double) : Value :=
  match Number.ofDouble? x with
  | some n => number n
  | none => null

def ofInt32 (n : Int32) : Value := number (.integer n.toInt (isWord_toInt n))

def ofInt32s (counts : List Int32) : Value := array (counts.map ofInt32)

/-- An object of the given members. -/
def ofMembers (members : List (String × Value)) : Value :=
  object (SortedMap.insertEntries [] members)

/-- A map from integers as an object. -/
def ofIntMap (item : α → Value) (m : SortedMap Int32 α) : Value :=
  ofMembers (m.entries.map fun (count, x) => (count.toInt.repr, item x))

end Value

/-- A field of a record, with the value it has and the record after it is set. -/
structure Slot (ρ : Type) where
  name : String
  get : ρ → Value
  set : ρ → Value → Except Fault ρ

namespace Slot

variable {ρ : Type}

def int32 (name : String) (get : ρ → Int32) (set : ρ → Int32 → ρ) : Slot ρ where
  name := name
  get r := .ofInt32 (get r)
  set r v := return set r (← v.toInt32)

def bool (name : String) (get : ρ → Bool) (set : ρ → Bool → ρ) : Slot ρ where
  name := name
  get r := .bool (get r)
  set r v := return set r (← v.toBool)

def int32s (name : String) (get : ρ → List Int32) (set : ρ → List Int32 → ρ) : Slot ρ where
  name := name
  get r := .ofInt32s (get r)
  set r v := return set r (← v.toList Value.toInt32)

def doubles (name : String) (get : ρ → SortedMap Int32 Double)
    (set : ρ → SortedMap Int32 Double → ρ) : Slot ρ where
  name := name
  get r := .ofIntMap .ofDouble (get r)
  set r v := return set r (← v.toIntMap Value.toDouble)

/-- Sets the field with the name of a member; a member that names none is passed over. -/
def setMember (fields : List (Slot ρ)) (r : ρ) (member : String × Value) : Except Fault ρ :=
  match fields.find? (·.name = member.1) with
  | some field => field.set r member.2
  | none => .ok r

/-- Sets the leading fields from the elements of a list. -/
def setElements (r : ρ) (fields : List (Slot ρ)) (elements : List Value) : Except Fault ρ :=
  (fields.zip elements).foldlM (fun r (field, v) => field.set r v) r

/-- The record that a value describes, on top of the defaults. -/
def decode (wanted : Wanted) (fields : List (Slot ρ)) (defaults : ρ) : Value → Except Fault ρ
  | .object members => members.foldlM (setMember fields) defaults
  | .array elements => do
    let r ← setElements defaults fields elements
    if elements.length ≤ fields.length then return r
    else throw (.wrongLength elements.length .fewerElements)
  | v => .error (.wrongType v.found wanted)

/-- The members of a record, in key order. -/
def encode (fields : List (Slot ρ)) (r : ρ) : List (String × Value) :=
  SortedMap.insertEntries [] (fields.map fun field => (field.name, field.get r))

end Slot

end Json

end CellularShader
