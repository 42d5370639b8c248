import LetCalc.Decimal

/-!
# Values

A **value** is a 32-bit integer, a real (a double) or a truth value.  The types do not mix: no
integer is taken for a real.
-/

namespace LetCalc

/-- The types of value. -/
inductive ValueType where
  | int
  | real
  | bool
  deriving DecidableEq, Repr

/-- The name of a type. -/
def ValueType.name : ValueType → String
  | int => "int"
  | real => "real"
  | bool => "bool"

/-- Values.  Two values are equal (`==`) if they have one type and are equal in it; a NaN differs
from itself, and the two zeros are equal. -/
inductive Value where
  | int (n : Int32)
  | real (x : Float)
  | bool (b : Bool)
  deriving BEq

namespace Value

/-- The type of a value. -/
def type : Value → ValueType
  | int _ => .int
  | real _ => .real
  | bool _ => .bool

/-- Whether a value is an integer or a real. -/
def isNumber : Value → Bool
  | int _ => true
  | real _ => true
  | bool _ => false

/-- The integer that a value is. -/
def int? : Value → Option Int32
  | int n => some n
  | _ => none

/-- The real that a value is. -/
def real? : Value → Option Float
  | real x => some x
  | _ => none

/-- The truth value that a value is. -/
def bool? : Value → Option Bool
  | bool b => some b
  | _ => none

/-- A value as text. -/
def text : Value → String
  | int n => toString n.toInt
  | real x => realText x
  | bool true => "true"
  | bool false => "false"

end Value

end LetCalc
