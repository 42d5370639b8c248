import LetCalc.Fault

/-!
# Operators on values

Integers are 32-bit words in two's complement: sums, differences, products and signs wrap around.
Division goes toward zero and a remainder has the sign of the dividend, so that the two belong
together.  Reals follow the rules for doubles, where nothing fails.  Numbers are compared as
reals, since every 32-bit integer is one.
-/

namespace LetCalc

namespace ArithOp

/-- Arithmetic on integers. -/
def onInts (op : ArithOp) (a b : Int32) : Except Fault Int32 :=
  match op with
  | add => .ok (a + b)
  | sub => .ok (a - b)
  | mul => .ok (a * b)
  | div => if b = 0 then .error .divisionByZero else .ok (a / b)
  | mod => if b = 0 then .error .divisionByZero else .ok (a % b)

/-- Arithmetic on reals. -/
def onReals (op : ArithOp) (x y : Float) : Except Fault Float :=
  match op with
  | add => .ok (x + y)
  | sub => .ok (x - y)
  | mul => .ok (x * y)
  | div => .ok (x / y)
  | mod => .error .modOnReals

/-- Arithmetic on values. -/
def apply (op : ArithOp) : Value → Value → Except Fault Value
  | .int a, .int b => (op.onInts a b).map .int
  | .real x, .real y => (op.onReals x y).map .real
  | .int _, .real _ => .error .mixedNumbers
  | .real _, .int _ => .error .mixedNumbers
  | l, r => .error (.arithOperands l.type r.type)

end ArithOp

/-- Logic on values.  Both operands must be truth values, whatever the first one is. -/
def LogicOp.apply (op : LogicOp) : Value → Value → Except Fault Value
  | .bool a, .bool b =>
    match op with
    | and => .ok (.bool (a && b))
    | or => .ok (.bool (a || b))
  | _, _ => .error .logicOperands

namespace Comparison

/-- Whether a comparison holds between reals. -/
def onReals (op : Comparison) (x y : Float) : Bool :=
  match op with
  | lt => x < y
  | le => x ≤ y
  | gt => x > y
  | ge => x ≥ y
  | eq => x == y
  | ne => x != y

/-- Whether a comparison holds between truth values, which have no order. -/
def onBools (op : Comparison) (a b : Bool) : Except Fault Bool :=
  match op with
  | eq => .ok (a == b)
  | ne => .ok (a != b)
  | lt | le | gt | ge => .error (.orderOnBools op)

/-- Comparison of values. -/
def apply (op : Comparison) : Value → Value → Except Fault Value
  | .bool a, .bool b => (op.onBools a b).map .bool
  | .int a, .int b =>
    .ok (.bool (op.onReals (Binary64.ofInt a.toInt) (Binary64.ofInt b.toInt)))
  | .real x, .real y => .ok (.bool (op.onReals x y))
  | .int _, .real _ => .error .mixedNumbers
  | .real _, .int _ => .error .mixedNumbers
  | l, r => .error (.compareOperands l.type r.type)

end Comparison

/-- A binary operator on values. -/
def BinaryOp.apply : BinaryOp → Value → Value → Except Fault Value
  | arith op => op.apply
  | logic op => op.apply
  | compare op => op.apply

/-- A unary operator on a value. -/
def UnaryOp.apply : UnaryOp → Value → Except Fault Value
  | neg, .int a => .ok (.int (-a))
  | neg, .real x => .ok (.real (-x))
  | neg, .bool _ => .error (.negOperand .bool)
  | not, .bool b => .ok (.bool (!b))
  | not, v => .error (.notOperand v.type)

end LetCalc
