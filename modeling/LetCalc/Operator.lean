/-!
# Operators

The binary operators fall into three families by what they take and give: arithmetic on numbers,
logic on truth values, and comparison, which always gives a truth value.  Each operator has one
symbol.
-/

namespace LetCalc

/-- Arithmetic on two numbers of one type. -/
inductive ArithOp where
  | add
  | sub
  | mul
  | div
  | mod
  deriving DecidableEq, Repr

/-- Logic on two truth values. -/
inductive LogicOp where
  | and
  | or
  deriving DecidableEq, Repr

/-- Comparison of two values of one type. -/
inductive Comparison where
  | lt
  | le
  | gt
  | ge
  | eq
  | ne
  deriving DecidableEq, Repr

/-- The binary operators by family. -/
inductive BinaryOp where
  | arith (op : ArithOp)
  | logic (op : LogicOp)
  | compare (op : Comparison)
  deriving DecidableEq, Repr

/-- The unary operators. -/
inductive UnaryOp where
  | neg
  | not
  deriving DecidableEq, Repr

/-- The symbol of an arithmetic operator. -/
def ArithOp.symbol : ArithOp → String
  | add => "+"
  | sub => "-"
  | mul => "*"
  | div => "/"
  | mod => "mod"

/-- The symbol of a logic operator. -/
def LogicOp.symbol : LogicOp → String
  | and => "and"
  | or => "or"

/-- The symbol of a comparison. -/
def Comparison.symbol : Comparison → String
  | lt => "<"
  | le => "<="
  | gt => ">"
  | ge => ">="
  | eq => "="
  | ne => "!="

/-- The symbol of a binary operator. -/
def BinaryOp.symbol : BinaryOp → String
  | arith op => op.symbol
  | logic op => op.symbol
  | compare op => op.symbol

/-- The symbol of a unary operator. -/
def UnaryOp.symbol : UnaryOp → String
  | neg => "-"
  | not => "not"

end LetCalc
