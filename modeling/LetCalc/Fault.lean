import LetCalc.Operator
import LetCalc.Value

/-!
# Faults

A **fault** is a reason why an expression has no value.  An **evaluation error** is a fault with the
line of the node that has it.
-/

namespace LetCalc

/-- Why a node has no value. -/
inductive Fault where
  /-- An integer and a real are operands of one operator. -/
  | mixedNumbers
  /-- An arithmetic operator on operands of these types, of which one is not a number. -/
  | arithOperands (left right : ValueType)
  /-- A comparison of values of these types, of which exactly one is not a number. -/
  | compareOperands (left right : ValueType)
  /-- A logic operator on a number. -/
  | logicOperands
  /-- The operator `not` on a value of this type. -/
  | notOperand (type : ValueType)
  /-- The sign `-` on a value of this type. -/
  | negOperand (type : ValueType)
  /-- The remainder of reals. -/
  | modOnReals
  /-- A comparison by size of truth values. -/
  | orderOnBools (op : Comparison)
  /-- An integer divided by zero. -/
  | divisionByZero
  /-- A name without a value. -/
  | unbound (name : String)
  /-- A literal whose text is not that of a value. -/
  | malformed (text : String)
  deriving DecidableEq, Repr

/-- The sorts of fault. -/
inductive FaultSort where
  | typeMismatch
  | invalidOperation
  | arithmetic
  | unbound
  | malformed
  deriving DecidableEq, Repr

/-- The sort of a fault. -/
def Fault.sort : Fault → FaultSort
  | mixedNumbers => .typeMismatch
  | arithOperands .. => .typeMismatch
  | compareOperands .. => .typeMismatch
  | logicOperands => .typeMismatch
  | notOperand _ => .typeMismatch
  | negOperand _ => .typeMismatch
  | modOnReals => .invalidOperation
  | orderOnBools _ => .invalidOperation
  | divisionByZero => .arithmetic
  | unbound _ => .unbound
  | malformed _ => .malformed

/-- A pair of types in words. -/
def typesText (left right : ValueType) : String :=
  "(" ++ left.name ++ ", " ++ right.name ++ ")"

/-- A fault and the line of its node. -/
structure EvalError where
  fault : Fault
  line : Nat
  deriving DecidableEq, Repr

/-- The error in words. -/
def EvalError.message (e : EvalError) : String :=
  let line := "at line " ++ toString e.line
  let mismatch (detail : String) := "type mismatch " ++ line ++ ": " ++ detail
  let invalid (detail : String) := "invalid operation " ++ line ++ ": " ++ detail
  match e.fault with
  | .mixedNumbers => mismatch "mixed numeric types"
  | .arithOperands l r =>
    mismatch ("arithmetic operator on non-numeric operands " ++ typesText l r)
  | .compareOperands l r =>
    mismatch ("relational operator on non-numeric operands " ++ typesText l r)
  | .logicOperands => mismatch "boolean operator on non-boolean operand"
  | .notOperand t => mismatch ("'not' on non-boolean operand (" ++ t.name ++ ")")
  | .negOperand t => mismatch ("'-' on non-numeric operand (" ++ t.name ++ ")")
  | .modOnReals => invalid "'mod' is not defined on real operands"
  | .orderOnBools op => invalid ("'" ++ op.symbol ++ "' is not defined on boolean operands")
  | .divisionByZero => "arithmetic error " ++ line ++ ": division by zero"
  | .unbound name => "unbound identifier '" ++ name ++ "' " ++ line
  | .malformed text => "malformed literal '" ++ text ++ "' " ++ line

end LetCalc
