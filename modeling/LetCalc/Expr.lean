import LetCalc.Operator
import LetCalc.Token

/-!
# Expressions and programs

An **expression** is a tree whose leaves are tokens.  Inner nodes carry the line on which they end.
`val` binds a name for what follows it; at the top of an expression it makes a statement.  A
**program** is a list of statements.

`Expr.text` and `Program.text` write them back as source text, with parentheses around every inner
node below a statement, so that no precedence has to be known to read it.
-/

namespace LetCalc

/-- Expressions, and the declaration `val`. -/
inductive Expr where
  /-- The declaration `val name := value`. -/
  | val (name : String) (value : Expr) (line : Nat)
  /-- The expression `let name := bound in body`. -/
  | letIn (name : String) (bound body : Expr) (line : Nat)
  | binary (op : BinaryOp) (left right : Expr) (line : Nat)
  | unary (op : UnaryOp) (operand : Expr) (line : Nat)
  | literal (token : Token)
  | ident (token : Token)
  deriving DecidableEq, Repr

namespace Expr

/-- The line of a node. -/
def line : Expr → Nat
  | val _ _ line => line
  | letIn _ _ _ line => line
  | binary _ _ _ line => line
  | unary _ _ line => line
  | literal token => token.line
  | ident token => token.line

/-- An expression as source text. -/
def text : Expr → String
  | val name value _ => "val " ++ name ++ " := " ++ value.text
  | letIn name bound body _ =>
    "(let " ++ name ++ " := " ++ bound.text ++ " in " ++ body.text ++ ")"
  | binary op left right _ => "(" ++ left.text ++ " " ++ op.symbol ++ " " ++ right.text ++ ")"
  | unary .neg operand _ => "(-" ++ operand.text ++ ")"
  | unary .not operand _ => "(not " ++ operand.text ++ ")"
  | literal token => token.text
  | ident token => token.text

end Expr

/-- Statements in order, and the line on which the program ends. -/
structure Program where
  statements : List Expr
  line : Nat
  deriving DecidableEq, Repr

/-- A program as source text: one statement a line. -/
def Program.text (p : Program) : String :=
  "\n".intercalate (p.statements.map fun s => s.text ++ ";")

end LetCalc
