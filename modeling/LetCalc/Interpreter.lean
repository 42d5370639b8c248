import LetCalc.Eval
import LetCalc.Parse

/-!
# The interpreter

`run` takes a source text to the value of its last statement.  It can fail in two ways: the text
is no program, or the program has no value.
-/

namespace LetCalc

/-- Why a source text has no value. -/
inductive Error where
  | reading (error : SyntaxError)
  | running (error : EvalError)
  deriving DecidableEq, Repr

namespace Error

/-- The line of an error. -/
def line : Error → Nat
  | reading error => error.line
  | running error => error.line

/-- The error in words. -/
def message : Error → String
  | reading error => error.message
  | running error => error.message

end Error

/-- The value of the last statement of a source text, run in an empty environment. -/
def run (s : String) : Except Error (Option Value) :=
  match parse s with
  | .error e => .error (.reading e)
  | .ok p => (p.run .empty).result.mapError .running

/-- A text has no value because it is no program, or because the program fails; otherwise its value
is that of the program. -/
theorem run_stages (s : String) :
    (∃ e, parse s = .error e ∧ run s = .error (.reading e)) ∨
    (∃ p err, parse s = .ok p ∧ (p.run .empty).result = .error err ∧
      run s = .error (.running err)) ∨
    (∃ p v, parse s = .ok p ∧ (p.run .empty).result = .ok v ∧ run s = .ok v) := by
  rw [run]
  cases hparse : parse s with
  | error e => exact .inl ⟨e, rfl, rfl⟩
  | ok p =>
    cases hrun : (p.run .empty).result with
    | error err =>
      exact .inr (.inl ⟨p, err, rfl, hrun, congrArg (Except.mapError Error.running) hrun⟩)
    | ok v => exact .inr (.inr ⟨p, v, rfl, hrun, congrArg (Except.mapError Error.running) hrun⟩)

end LetCalc
