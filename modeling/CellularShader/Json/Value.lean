/- # JSON values

A number is an integer of a 64-bit word or a finite 64-bit float; the two kinds are never equal. An
object is the list of its members in ascending key order, one for each key.
-/

import CellularShader.Binary.Rounding
import CellularShader.SortedMap

namespace CellularShader

namespace Json

/-- The integers of a signed or an unsigned 64-bit word. -/
def IsWord (n : Int) : Prop := Int64.minValue.toInt ≤ n ∧ n < UInt64.size

instance : DecidablePred IsWord := fun _ => inferInstanceAs (Decidable (_ ∧ _))

theorem isWord_toInt (n : Int32) : IsWord n.toInt := by
  have hlow : Int64.minValue.toInt ≤ Int32.minValue.toInt := by decide
  have hhigh : Int32.maxValue.toInt < UInt64.size := by decide
  exact ⟨Int.le_trans hlow n.minValue_le_toInt, Int.lt_of_le_of_lt n.toInt_le hhigh⟩

/-- A JSON number. -/
inductive Number where
  | integer (n : Int) (word : IsWord n)
  | float (x : Double) (finite : x.isFinite = true)
deriving DecidableEq

/-- A JSON value. -/
inductive Value where
  | null
  | bool (b : Bool)
  | number (n : Number)
  | string (text : String)
  | array (elements : List Value)
  | object (members : List (String × Value))

namespace Number

/-- An integer as a number, if it fits into a word. -/
def ofInt? (n : Int) : Option Number := if h : IsWord n then some (integer n h) else none

/-- A float as a number, if it is finite. -/
def ofDouble? (x : Double) : Option Number :=
  if h : x.isFinite = true then some (float x h) else none

/-- The float that a number counts as. -/
def toDouble : Number → Double
  | integer n _ => .ofInt .double n
  | float x _ => x

/-- Equality of numbers, floats being compared numerically. -/
def equals : Number → Number → Bool
  | integer a _, integer b _ => a = b
  | float x _, float y _ => x.equals y
  | _, _ => false

end Number

namespace Value

mutual

/-- Equality of values, floats being compared numerically. -/
def equals : Value → Value → Bool
  | null, null => true
  | bool a, bool b => a = b
  | number a, number b => a.equals b
  | string a, string b => a = b
  | array a, array b => equalElements a b
  | object a, object b => equalMembers a b
  | _, _ => false

/-- Equality element by element. -/
def equalElements : List Value → List Value → Bool
  | [], [] => true
  | a :: as, b :: bs => a.equals b && equalElements as bs
  | _, _ => false

/-- Equality member by member. -/
def equalMembers : List (String × Value) → List (String × Value) → Bool
  | [], [] => true
  | (k, a) :: as, (l, b) :: bs => k = l && a.equals b && equalMembers as bs
  | _, _ => false

end

end Value

end Json

end CellularShader
