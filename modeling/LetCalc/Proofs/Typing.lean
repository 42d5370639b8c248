import LetCalc.Eval

/-!
# Types are settled before values

The type of an expression can be found from the types of the names in it, with no values at hand
(`Expr.typing`), and so can its error, if it has one.  What values decide, besides themselves, is only
whether an integer is divided by zero, and then the evaluation ends there (`Expr.eval_follows`):

* a value has the type that was found, and so has each name in the environment that is left;
* an error is the one that was found, on its line, or an arithmetic error.

So the same expression, over other values of the same types, cannot have another type, and cannot have
a value where it had a type mismatch.

Main statement: `eval_types_eq`.
-/

namespace LetCalc

/-! ### Types of names -/

/-- The types of names, for those that have one. -/
def Context := String → Option ValueType

/-- Gives a name a type. -/
def Context.bind (Γ : Context) (name : String) (τ : ValueType) : Context :=
  fun x => if x = name then some τ else Γ x

/-- The types of the names with a value. -/
def Environment.types (env : Environment) : Context :=
  fun x => (env.lookup x).map Value.type

theorem Environment.types_bind (env : Environment) (name : String) (v : Value) :
    (env.bind name v).types = env.types.bind name v.type := by
  funext x
  rw [types, Context.bind, lookup_bind]
  by_cases hx : x = name
  · rw [if_pos hx, if_pos hx]
    rfl
  · rw [if_neg hx, if_neg hx]
    rfl

/-! ### Types of operators -/

/-- The type that arithmetic gives on operands of these types. -/
def ArithOp.resultType (op : ArithOp) : ValueType → ValueType → Except Fault ValueType
  | .int, .int => .ok .int
  | .real, .real =>
    match op with
    | add | sub | mul | div => .ok .real
    | mod => .error .modOnReals
  | .int, .real => .error .mixedNumbers
  | .real, .int => .error .mixedNumbers
  | σ, τ => .error (.arithOperands σ τ)

/-- The type that logic gives on operands of these types. -/
def LogicOp.resultType : ValueType → ValueType → Except Fault ValueType
  | .bool, .bool => .ok .bool
  | _, _ => .error .logicOperands

/-- The type that a comparison gives on operands of these types. -/
def Comparison.resultType (op : Comparison) : ValueType → ValueType → Except Fault ValueType
  | .bool, .bool =>
    match op with
    | eq | ne => .ok .bool
    | lt | le | gt | ge => .error (.orderOnBools op)
  | .int, .int => .ok .bool
  | .real, .real => .ok .bool
  | .int, .real => .error .mixedNumbers
  | .real, .int => .error .mixedNumbers
  | σ, τ => .error (.compareOperands σ τ)

/-- The type that a binary operator gives on operands of these types. -/
def BinaryOp.resultType : BinaryOp → ValueType → ValueType → Except Fault ValueType
  | arith op => op.resultType
  | logic _ => LogicOp.resultType
  | compare op => op.resultType

/-- The type that a unary operator gives on an operand of this type. -/
def UnaryOp.resultType : UnaryOp → ValueType → Except Fault ValueType
  | neg, .int => .ok .int
  | neg, .real => .ok .real
  | neg, .bool => .error (.negOperand .bool)
  | not, .bool => .ok .bool
  | not, τ => .error (.notOperand τ)

/-- Integers have a result unless one is divided by zero. -/
theorem ArithOp.onInts_cases (op : ArithOp) (a b : Int32) :
    op.onInts a b = .error .divisionByZero ∨ ∃ n, op.onInts a b = .ok n := by
  cases op with
  | add | sub | mul => exact .inr ⟨_, rfl⟩
  | div | mod =>
      by_cases hb : b = 0
      · exact .inl (if_pos hb)
      · exact .inr ⟨_, if_neg hb⟩

theorem ArithOp.type_apply (op : ArithOp) (a b : Value) :
    op.apply a b = .error .divisionByZero ∨
      (op.apply a b).map Value.type = op.resultType a.type b.type := by
  cases a with
  | int a =>
      cases b with
      | int b =>
          have happly : op.apply (.int a) (.int b) = (op.onInts a b).map .int := rfl
          rcases op.onInts_cases a b with hzero | ⟨n, hn⟩
          · rw [happly, hzero]
            exact .inl rfl
          · rw [happly, hn]
            exact .inr rfl
      | real y => exact .inr rfl
      | bool b => exact .inr rfl
  | real x =>
      cases b with
      | int b => exact .inr rfl
      | real y => cases op <;> exact .inr rfl
      | bool b => exact .inr rfl
  | bool a => cases b <;> exact .inr rfl

theorem LogicOp.type_apply (op : LogicOp) (a b : Value) :
    (op.apply a b).map Value.type = LogicOp.resultType a.type b.type := by
  cases a with
  | int a => cases b <;> rfl
  | real x => cases b <;> rfl
  | bool a =>
      cases b with
      | int b => rfl
      | real y => rfl
      | bool b => cases op <;> rfl

theorem Comparison.type_apply (op : Comparison) (a b : Value) :
    (op.apply a b).map Value.type = op.resultType a.type b.type := by
  cases a with
  | int a => cases b <;> rfl
  | real x => cases b <;> rfl
  | bool a =>
      cases b with
      | int b => rfl
      | real y => rfl
      | bool b => cases op <;> rfl

/-- An operator gives what it should by the types of its operands, unless it divides by zero. -/
theorem BinaryOp.type_apply (op : BinaryOp) (a b : Value) :
    op.apply a b = .error .divisionByZero ∨
      (op.apply a b).map Value.type = op.resultType a.type b.type := by
  cases op with
  | arith op => exact op.type_apply a b
  | logic op => exact .inr (op.type_apply a b)
  | compare op => exact .inr (op.type_apply a b)

theorem UnaryOp.type_apply (op : UnaryOp) (a : Value) :
    (op.apply a).map Value.type = op.resultType a.type := by
  cases op with
  | neg => cases a <;> rfl
  | not => cases a <;> rfl

/-! ### Types of expressions -/

/-- The type of an expression and the types of names behind it, or the error that it has. -/
def Expr.typing : Expr → Context → Except EvalError (ValueType × Context)
  | val name value _, Γ => do
    let (τ, Γ) ← value.typing Γ
    return (τ, Γ.bind name τ)
  | letIn name bound body _, Γ => do
    let (σ, Γ) ← bound.typing Γ
    let (τ, _) ← body.typing (Γ.bind name σ)
    return (τ, Γ)
  | binary op left right line, Γ => do
    let (σ, Γ) ← left.typing Γ
    let (τ, Γ) ← right.typing Γ
    let ρ ← atLine line (op.resultType σ τ)
    return (ρ, Γ)
  | unary op operand line, Γ => do
    let (σ, Γ) ← operand.typing Γ
    let τ ← atLine line (op.resultType σ)
    return (τ, Γ)
  | literal t, Γ =>
    match t.value? with
    | some v => .ok (v.type, Γ)
    | none => .error ⟨.malformed t.text, t.line⟩
  | ident t, Γ =>
    match Γ t.text with
    | some τ => .ok (τ, Γ)
    | none => .error ⟨.unbound t.text, t.line⟩

/-- `Follows o r`: the outcome `o` is what the typing `r` says, or it is an arithmetic error. -/
inductive Follows : Outcome Value → Except EvalError (ValueType × Context) → Prop where
  | ok {v : Value} {env : Environment} : Follows ⟨.ok v, env⟩ (.ok (v.type, env.types))
  | error {err : EvalError} {env : Environment} : Follows ⟨.error err, env⟩ (.error err)
  | arithmetic {err : EvalError} {env : Environment} {r : Except EvalError (ValueType × Context)}
      (h : err.fault.sort = .arithmetic) : Follows ⟨.error err, env⟩ r

namespace Follows

variable {o : Outcome Value} {r : Except EvalError (ValueType × Context)}

/-- One step: what follows a typing can be gone on with by types. -/
theorem andThen {f : Value → Environment → Outcome Value}
    {k : ValueType × Context → Except EvalError (ValueType × Context)} (h : Follows o r)
    (hf : ∀ v env, Follows (f v env) (k (v.type, env.types))) : Follows (o.andThen f) (r >>= k) := by
  cases h with
  | ok => exact hf _ _
  | error => exact .error
  | arithmetic h => exact .arithmetic h

/-- The environment of an inner evaluation can be dropped. -/
theorem within (h : Follows o r) (env : Environment) :
    Follows ⟨o.result, env⟩ (r >>= fun p => pure (p.1, env.types)) := by
  cases h with
  | ok => exact .ok
  | error => exact .error
  | arithmetic h => exact .arithmetic h

/-- What an operator gives follows what it should give by types. -/
theorem of_type_eq {given : Except Fault Value} {due : Except Fault ValueType}
    (h : given = .error .divisionByZero ∨ given.map Value.type = due) (line : Nat)
    (env : Environment) :
    Follows ⟨atLine line given, env⟩ (atLine line due >>= fun τ => pure (τ, env.types)) := by
  rcases h with rfl | rfl
  · exact .arithmetic rfl
  · cases given with
    | ok v => exact .ok
    | error e => exact .error

/-- A value shows what the typing was. -/
theorem eq_of_ok {v : Value} {env : Environment} (h : Follows ⟨.ok v, env⟩ r) :
    r = .ok (v.type, env.types) := by
  cases h
  rfl

/-- An error shows what the typing was, if it is not arithmetic. -/
theorem eq_of_error {err : EvalError} {env : Environment} (h : Follows ⟨.error err, env⟩ r)
    (herr : err.fault.sort ≠ .arithmetic) : r = .error err := by
  cases h with
  | error => rfl
  | arithmetic hsort => exact absurd hsort herr

/-- Where the typing has an error there is no value. -/
theorem exists_error {err : EvalError} (h : Follows o (.error err)) :
    ∃ err' env, o = ⟨.error err', env⟩ ∧ (err' = err ∨ err'.fault.sort = .arithmetic) := by
  cases h with
  | error => exact ⟨err, _, rfl, .inl rfl⟩
  | arithmetic hsort => exact ⟨_, _, rfl, .inr hsort⟩

end Follows

/-- **Evaluation keeps to the types.**  It gives what was found from the types of the names alone, or
an arithmetic error. -/
theorem Expr.eval_follows (e : Expr) (env : Environment) :
    Follows (e.eval env) (e.typing env.types) := by
  induction e generalizing env with
  | val name value line ih =>
      refine (ih env).andThen fun v env₁ => ?_
      have hok : Follows ⟨.ok v, env₁.bind name v⟩ _ := .ok
      rw [Environment.types_bind] at hok
      exact hok
  | letIn name bound body line ihbound ihbody =>
      refine (ihbound env).andThen fun v env₁ => ?_
      have hbody := (ihbody (env₁.bind name v)).within env₁
      rw [Environment.types_bind] at hbody
      exact hbody
  | binary op left right line ihleft ihright =>
      refine (ihleft env).andThen fun a env₁ => ?_
      refine (ihright env₁).andThen fun b env₂ => ?_
      exact .of_type_eq (op.type_apply a b) line env₂
  | unary op operand line ih =>
      refine (ih env).andThen fun a env₁ => ?_
      exact .of_type_eq (.inr (op.type_apply a)) line env₁
  | literal t =>
      rw [eval, typing]
      cases t.value? with
      | some v => exact .ok
      | none => exact .error
  | ident t =>
      rw [eval, typing, Environment.types]
      cases env.lookup t.text with
      | some v => exact .ok
      | none => exact .error

/-- **Types do not depend on data.**  Let two environments have the same names, with values of the
same types.  If an expression has a value in both, then the two values have one type, and the same
names are left with values of the same types.  If it has an error in one that is not arithmetic, then
it has the same error in the other, on the same line, or an arithmetic error; so one that has a type
mismatch over some data has no value over any other data of the same types. -/
theorem eval_types_eq (e : Expr) {env env' : Environment} (h : env.types = env'.types) :
    (∀ v v' env₁ env₁', e.eval env = ⟨.ok v, env₁⟩ → e.eval env' = ⟨.ok v', env₁'⟩ →
      v.type = v'.type ∧ env₁.types = env₁'.types) ∧
    (∀ err env₁, e.eval env = ⟨.error err, env₁⟩ → err.fault.sort ≠ .arithmetic →
      ∃ err' env₁', e.eval env' = ⟨.error err', env₁'⟩ ∧
        (err' = err ∨ err'.fault.sort = .arithmetic)) ∧
    (∀ err env₁, e.eval env = ⟨.error err, env₁⟩ → err.fault.sort = .typeMismatch →
      ∀ v' env₁', e.eval env' ≠ ⟨.ok v', env₁'⟩) := by
  -- both outcomes follow one typing
  have hleft := e.eval_follows env
  have hright := e.eval_follows env'
  rw [← h] at hright
  have hfails : ∀ err env₁, e.eval env = ⟨.error err, env₁⟩ → err.fault.sort ≠ .arithmetic →
      ∃ err' env₁', e.eval env' = ⟨.error err', env₁'⟩ ∧
        (err' = err ∨ err'.fault.sort = .arithmetic) := by
    intro err env₁ herror hsort
    rw [herror] at hleft
    rw [hleft.eq_of_error hsort] at hright
    exact hright.exists_error
  refine ⟨?_, hfails, ?_⟩
  · intro v v' env₁ env₁' hok hok'
    rw [hok] at hleft
    rw [hok'] at hright
    have hsame := hleft.eq_of_ok.symm.trans hright.eq_of_ok
    exact Prod.mk.inj (Except.ok.inj hsame)
  · intro err env₁ herror hsort v' env₁' hok
    have harith : err.fault.sort ≠ .arithmetic := by
      rw [hsort]
      decide
    obtain ⟨err', env₂, herror', -⟩ := hfails err env₁ herror harith
    rw [hok] at herror'
    cases herror'

/-- The sum `6 / x + true` has a type mismatch where `x` is `2`.  Where `x` is `0` the division comes
first, and there is no value either. -/
theorem eval_types_eq_division :
    let e : Expr := .binary (.arith .add)
      (.binary (.arith .div) (.literal ⟨.intLit, "6", 1⟩) (.ident ⟨.ident, "x", 1⟩) 1)
      (.literal ⟨.trueLit, "true", 2⟩) 2
    let two := Environment.empty.bind "x" (.int 2)
    let zero := Environment.empty.bind "x" (.int 0)
    two.types = zero.types ∧ e.eval two = ⟨.error ⟨.arithOperands .int .bool, 2⟩, two⟩ ∧
      e.eval zero = ⟨.error ⟨.divisionByZero, 1⟩, zero⟩ ∧ ∀ v env, e.eval zero ≠ ⟨.ok v, env⟩ := by
  intro e two zero
  have htypes : two.types = zero.types := by
    rw [Environment.types_bind, Environment.types_bind]
    rfl
  have hmismatch : e.eval two = ⟨.error ⟨.arithOperands .int .bool, 2⟩, two⟩ := rfl
  obtain ⟨-, -, hnone⟩ := eval_types_eq e htypes
  exact ⟨htypes, hmismatch, rfl, hnone _ _ hmismatch rfl⟩

end LetCalc
