import LetCalc.Apply
import LetCalc.Environment
import LetCalc.Expr
import LetCalc.Literal

/-!
# Evaluation

Evaluation takes an expression and an environment to an **outcome**: a value or an error, and the
environment as it is left.  Operands are evaluated from left to right, and both always are.  A
`val` binds its name in the environment that it is evaluated in.  The body of a `let` has an
environment of its own, which is dropped when the body is done; what it binds is seen nowhere
else.  An error leaves the bindings made before it.
-/

namespace LetCalc

/-! ### Outcomes -/

/-- What an evaluation gives, and the environment that it leaves. -/
structure Outcome (α : Type) where
  result : Except EvalError α
  env : Environment

/-- Goes on with the value and the environment of an outcome.  An error stays as it is. -/
def Outcome.andThen {α β : Type} (o : Outcome α) (f : α → Environment → Outcome β) : Outcome β :=
  match o.result with
  | .ok a => f a o.env
  | .error e => ⟨.error e, o.env⟩

/-- Puts a line to a fault. -/
def atLine {α : Type} (line : Nat) (r : Except Fault α) : Except EvalError α :=
  r.mapError (⟨·, line⟩)

/-! ### Expressions and programs -/

/-- Evaluates an expression in an environment. -/
def Expr.eval : Expr → Environment → Outcome Value
  | val name value _, env =>
    (value.eval env).andThen fun v env => ⟨.ok v, env.bind name v⟩
  | letIn name bound body _, env =>
    (bound.eval env).andThen fun v env => ⟨(body.eval (env.bind name v)).result, env⟩
  | binary op left right line, env =>
    (left.eval env).andThen fun a env =>
      (right.eval env).andThen fun b env => ⟨atLine line (op.apply a b), env⟩
  | unary op operand line, env =>
    (operand.eval env).andThen fun a env => ⟨atLine line (op.apply a), env⟩
  | literal t, env =>
    match t.value? with
    | some v => ⟨.ok v, env⟩
    | none => ⟨.error ⟨.malformed t.text, t.line⟩, env⟩
  | ident t, env =>
    match env.lookup t.text with
    | some v => ⟨.ok v, env⟩
    | none => ⟨.error ⟨.unbound t.text, t.line⟩, env⟩

/-- Evaluates statements in order and gives the value of the last one, or `last` if there is
none. -/
def evalAll : List Expr → Option Value → Environment → Outcome (Option Value)
  | [], last, env => ⟨.ok last, env⟩
  | s :: ss, _, env => (s.eval env).andThen fun v env => evalAll ss (some v) env

/-- Runs a program: the value of its last statement, if it has any. -/
def Program.run (p : Program) (env : Environment) : Outcome (Option Value) :=
  evalAll p.statements none env

end LetCalc
