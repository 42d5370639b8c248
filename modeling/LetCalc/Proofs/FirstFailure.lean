import LetCalc.Proofs.Scope

/-!
# The first node that fails

An evaluation works through the nodes of a tree in **post-order**: the parts of a node before the
node, and its parts from left to right.  Each node has a step of its own, which takes the values of
its parts and gives one value for them.  Here this is a machine that keeps the values of the nodes
that are done until the node above them takes them, and the environments around it while it is in
the body of a `let` (`Machine`, `Step.perform`).

The machine knows nothing of trees; it is given the steps in a row (`Expr.steps`).  So it is plain
which node is the first whose step fails: those before it in the row have been performed, and its
own cannot be (`Halts`).  The evaluation of a tree gives exactly the error of this node, and a value
if there is none (`Expr.eval_reaches`).

Main statement: `eval_first_failure`.
-/

namespace LetCalc

/-! ### Steps of an evaluation -/

/-- A step of an evaluation. -/
inductive Step where
  /-- A node does its own part, when all below it is done. -/
  | node (e : Expr)
  /-- The body of a `let` begins, in a scope where the name is bound. -/
  | enter (name : String)

/-- The steps of an evaluation: the nodes of the tree in post-order, and a mark between the two
parts of a `let`. -/
def Expr.steps : Expr → List Step
  | val name value line => value.steps ++ [.node (.val name value line)]
  | letIn name bound body line =>
    bound.steps ++ .enter name :: (body.steps ++ [.node (.letIn name bound body line)])
  | binary op left right line =>
    left.steps ++ (right.steps ++ [.node (.binary op left right line)])
  | unary op operand line => operand.steps ++ [.node (.unary op operand line)]
  | literal token => [.node (.literal token)]
  | ident token => [.node (.ident token)]

/-- What an evaluation holds between two steps: the values that are not yet taken, the last one
first, the environment of the scope that it is in, and those of the scopes around it. -/
structure Machine where
  values : List Value
  scope : Environment
  outer : List Environment

/-- Nothing is done yet. -/
def Machine.start (env : Environment) : Machine :=
  ⟨[], env, []⟩

/-- Puts a value on top, if there is one. -/
def Machine.push (m : Machine) (r : Except EvalError Value) : Except EvalError Machine :=
  r.map fun v => { m with values := v :: m.values }

/-- Performs a step, or fails.  There is neither if a value or a scope that the step needs is
missing. -/
def Step.perform : Step → Machine → Option (Except EvalError Machine)
  | enter name, ⟨v :: vs, env, outer⟩ => some (.ok ⟨vs, env.bind name v, env :: outer⟩)
  | node (.val name _ _), ⟨v :: vs, env, outer⟩ => some (.ok ⟨v :: vs, env.bind name v, outer⟩)
  | node (.letIn ..), ⟨vs, _, env :: outer⟩ => some (.ok ⟨vs, env, outer⟩)
  | node (.binary op _ _ line), ⟨b :: a :: vs, env, outer⟩ =>
    some (Machine.push ⟨vs, env, outer⟩ (atLine line (op.apply a b)))
  | node (.unary op _ line), ⟨a :: vs, env, outer⟩ =>
    some (Machine.push ⟨vs, env, outer⟩ (atLine line (op.apply a)))
  | node (.literal t), m =>
    match t.value? with
    | some v => some (m.push (.ok v))
    | none => some (.error ⟨.malformed t.text, t.line⟩)
  | node (.ident t), m =>
    match m.scope.lookup t.text with
    | some v => some (m.push (.ok v))
    | none => some (.error ⟨.unbound t.text, t.line⟩)
  | _, _ => none

/-- The steps of `let x := 1 in x + y`. -/
example :
    let one : Expr := .literal ⟨.intLit, "1", 1⟩
    let x : Expr := .ident ⟨.ident, "x", 1⟩
    let y : Expr := .ident ⟨.ident, "y", 1⟩
    let sum : Expr := .binary (.arith .add) x y 1
    (Expr.letIn "x" one sum 1).steps =
      [.node one, .enter "x", .node x, .node y, .node sum, .node (.letIn "x" one sum 1)] :=
  rfl

/-! ### Steps in a row -/

/-- `Performs ss m m'`: the machine `m` performs all of the steps `ss` in turn, and is `m'` then. -/
inductive Performs : List Step → Machine → Machine → Prop where
  | nil {m : Machine} : Performs [] m m
  | cons {s : Step} {ss : List Step} {m m₁ m' : Machine} (h : s.perform m = some (.ok m₁))
      (hs : Performs ss m₁ m') : Performs (s :: ss) m m'

/-- `Halts ss m before e m' err`: of the steps `ss` the machine `m` performs those in `before`, and
is `m'` then; the next one is that of the node `e`, and fails with `err`. -/
structure Halts (ss : List Step) (m : Machine) (before : List Step) (e : Expr) (m' : Machine)
    (err : EvalError) : Prop where
  place : ∃ after, ss = before ++ .node e :: after
  performs : Performs before m m'
  fails : (Step.node e).perform m' = some (.error err)

namespace Performs

variable {ss ts : List Step} {m m₁ m₂ m' : Machine}

theorem single {s : Step} (h : s.perform m = some (.ok m')) : Performs [s] m m' :=
  .cons h .nil

theorem append (h : Performs ss m m₁) (h' : Performs ts m₁ m') : Performs (ss ++ ts) m m' := by
  induction h with
  | nil => exact h'
  | cons hs hss ih => exact .cons hs (ih h')

/-- All steps are performed, or none is the first that fails. -/
theorem not_halts (h : Performs ss m m₁) {before : List Step} {e : Expr} {err : EvalError} :
    ¬ Halts ss m before e m₂ err := by
  rintro ⟨⟨after, rfl⟩, hbefore, hfails⟩
  induction hbefore with
  | nil =>
      obtain _ | ⟨hs, -⟩ := h
      rw [hs] at hfails
      cases hfails
  | cons hs' hss ih =>
      obtain _ | ⟨hs, hrest⟩ := h
      rw [hs'] at hs
      cases hs
      exact ih hfails hrest

end Performs

namespace Halts

variable {ss ts before before' : List Step} {m m₁ m₂ m' : Machine} {e e' : Expr}
  {err err' : EvalError}

theorem single (h : (Step.node e).perform m = some (.error err)) : Halts [.node e] m [] e m err :=
  ⟨⟨[], rfl⟩, .nil, h⟩

/-- What follows a step that fails has no part in it. -/
theorem append (h : Halts ss m before e m' err) (ts : List Step) :
    Halts (ss ++ ts) m before e m' err := by
  obtain ⟨⟨after, rfl⟩, hbefore, hfails⟩ := h
  exact ⟨⟨after ++ ts, by simp⟩, hbefore, hfails⟩

theorem behind (hss : Performs ss m m₁) (h : Halts ts m₁ before e m' err) :
    Halts (ss ++ ts) m (ss ++ before) e m' err := by
  obtain ⟨⟨after, rfl⟩, hbefore, hfails⟩ := h
  exact ⟨⟨after, by simp⟩, hss.append hbefore, hfails⟩

/-- Only one step is the first that fails. -/
theorem unique (h : Halts ss m before e m₁ err) (h' : Halts ss m before' e' m₂ err') :
    before' = before ∧ e' = e ∧ m₂ = m₁ ∧ err' = err := by
  obtain ⟨⟨after, rfl⟩, hbefore, hfails⟩ := h
  induction hbefore generalizing before' with
  | nil =>
      obtain ⟨⟨after', hplace⟩, hbefore', hfails'⟩ := h'
      cases hbefore' with
      | nil =>
          cases hplace
          rw [hfails] at hfails'
          cases hfails'
          exact ⟨rfl, rfl, rfl, rfl⟩
      | cons hs hss =>
          cases hplace
          rw [hfails] at hs
          cases hs
  | cons hs hss ih =>
      obtain ⟨⟨after', hplace⟩, hbefore', hfails'⟩ := h'
      cases hbefore' with
      | nil =>
          cases hplace
          rw [hs] at hfails'
          cases hfails'
      | cons hs' hss' =>
          obtain ⟨rfl, hrest⟩ := List.cons.inj hplace
          rw [hs] at hs'
          cases hs'
          obtain ⟨rfl, hsame⟩ := ih hfails ⟨⟨after', hrest⟩, hss', hfails'⟩
          exact ⟨rfl, hsame⟩

end Halts

/-! ### Which node has which error -/

/-- The operands of an operator.  Other nodes have none. -/
def Expr.operands : Expr → List Expr
  | binary _ left right _ => [left, right]
  | unary _ operand _ => [operand]
  | _ => []

/-- `e.Explains vs err`: the error `err` is one that the node `e` has on operands with the values
`vs`, and it names the text and the line of the node. -/
inductive Expr.Explains : Expr → List Value → EvalError → Prop where
  | malformed {t : Token} (h : t.value? = none) :
      Explains (.literal t) [] ⟨.malformed t.text, t.line⟩
  | unbound {t : Token} : Explains (.ident t) [] ⟨.unbound t.text, t.line⟩
  | divisionByZero {op : ArithOp} {left right : Expr} {line : Nat} {n : Int32}
      (h : op = .div ∨ op = .mod) :
      Explains (.binary (.arith op) left right line) [.int n, .int 0] ⟨.divisionByZero, line⟩
  | modOnReals {left right : Expr} {line : Nat} {x y : Float} :
      Explains (.binary (.arith .mod) left right line) [.real x, .real y] ⟨.modOnReals, line⟩
  | orderOnBools {op : Comparison} {left right : Expr} {line : Nat} {a b : Bool}
      (h : op = .lt ∨ op = .le ∨ op = .gt ∨ op = .ge) :
      Explains (.binary (.compare op) left right line) [.bool a, .bool b] ⟨.orderOnBools op, line⟩
  | binary {op : BinaryOp} {left right : Expr} {line : Nat} {a b : Value} {f : Fault}
      (h : f.sort = .typeMismatch) : Explains (.binary op left right line) [a, b] ⟨f, line⟩
  | unary {op : UnaryOp} {operand : Expr} {line : Nat} {a : Value} {f : Fault}
      (h : f.sort = .typeMismatch) : Explains (.unary op operand line) [a] ⟨f, line⟩

theorem error_of_map {ε α β : Type} {r : Except ε α} {g : α → β} {e : ε}
    (h : r.map g = .error e) : r = .error e := by
  cases r with
  | ok a => cases h
  | error e' =>
      cases h
      rfl

namespace Expr.Explains

variable {left right : Expr} {a b : Value} {f : Fault} {line : Nat}

/-- Integers fail only when one is divided by zero. -/
theorem of_ints {op : ArithOp} {n d : Int32} (h : op.onInts n d = .error f) :
    Explains (.binary (.arith op) left right line) [.int n, .int d] ⟨f, line⟩ := by
  have hop : op = .div ∨ op = .mod := by
    cases op with
    | add | sub | mul => cases h
    | div => exact .inl rfl
    | mod => exact .inr rfl
  by_cases hd : d = 0
  · have hf : op.onInts n d = .error .divisionByZero := by
      rcases hop with rfl | rfl <;> exact if_pos hd
    rw [h] at hf
    cases hf
    rw [hd]
    exact .divisionByZero hop
  · have hok : ∃ k, op.onInts n d = .ok k := by
      rcases hop with rfl | rfl <;> exact ⟨_, if_neg hd⟩
    obtain ⟨k, hk⟩ := hok
    rw [h] at hk
    cases hk

theorem of_arith {op : ArithOp} (h : op.apply a b = .error f) :
    Explains (.binary (.arith op) left right line) [a, b] ⟨f, line⟩ := by
  cases a with
  | int n =>
      cases b with
      | int d => exact of_ints (error_of_map h)
      | real | bool =>
          cases h
          exact .binary rfl
  | real x =>
      cases b with
      | real y =>
          cases op with
          | add | sub | mul | div => cases h
          | mod =>
              cases h
              exact .modOnReals
      | int | bool =>
          cases h
          exact .binary rfl
  | bool a => cases b <;> cases h <;> exact .binary rfl

theorem of_logic {op : LogicOp} (h : op.apply a b = .error f) :
    Explains (.binary (.logic op) left right line) [a, b] ⟨f, line⟩ := by
  cases a with
  | bool a =>
      cases b with
      | bool b => cases op <;> cases h
      | int | real =>
          cases h
          exact .binary rfl
  | int | real => cases b <;> cases h <;> exact .binary rfl

theorem of_compare {op : Comparison} (h : op.apply a b = .error f) :
    Explains (.binary (.compare op) left right line) [a, b] ⟨f, line⟩ := by
  cases a with
  | bool a =>
      cases b with
      | bool b =>
          cases op with
          | eq | ne => cases h
          | lt | le | gt | ge =>
              cases h
              exact .orderOnBools (by decide)
      | int | real =>
          cases h
          exact .binary rfl
  | int | real => cases b <;> cases h <;> exact .binary rfl

/-- Whatever error an operator has, its operands explain it. -/
theorem of_binary {op : BinaryOp} (h : op.apply a b = .error f) :
    Explains (.binary op left right line) [a, b] ⟨f, line⟩ := by
  cases op with
  | arith op => exact of_arith h
  | logic op => exact of_logic h
  | compare op => exact of_compare h

end Expr.Explains

/-- `e.AccountsFor m err`: the operands of the node `e` have been evaluated one after the other,
their values are on top in the machine `m`, and they explain the error `err`. -/
def Expr.AccountsFor (e : Expr) (m : Machine) (err : EvalError) : Prop :=
  ∃ env vs rest, Succeed e.operands env vs m.scope ∧ m.values = vs.reverse ++ rest ∧
    e.Explains vs err

/-! ### Evaluation works through the steps -/

/-- `Reaches ss m rest outer o`: the steps `ss` take the machine `m` to the outcome `o`.  If it is a
value, it is put on top of the values `rest`, in the scope that is left.  If it is an error, it is
that of the first node whose step fails. -/
inductive Reaches (ss : List Step) (m : Machine) (rest : List Value) (outer : List Environment) :
    Outcome Value → Prop where
  | ok {v : Value} {env : Environment} (h : Performs ss m ⟨v :: rest, env, outer⟩) :
      Reaches ss m rest outer ⟨.ok v, env⟩
  | error {before : List Step} {e : Expr} {m' : Machine} {err : EvalError} {env : Environment}
      (h : Halts ss m before e m' err) (he : e.AccountsFor m' err) :
      Reaches ss m rest outer ⟨.error err, env⟩

namespace Reaches

variable {ss ts : List Step} {m : Machine} {rest rest' : List Value}
  {outer outer' : List Environment} {o : Outcome Value}

/-- What is gone on with from a value goes on from the machine that holds it. -/
theorem andThen {f : Value → Environment → Outcome Value} (h : Reaches ss m rest outer o)
    (hf : ∀ v env, o = ⟨.ok v, env⟩ → Reaches ts ⟨v :: rest, env, outer⟩ rest' outer' (f v env)) :
    Reaches (ss ++ ts) m rest' outer' (o.andThen f) := by
  cases h with
  | error hhalts he => exact .error (hhalts.append ts) he
  | @ok v env hss =>
      obtain ⟨result, env', hfv⟩ : ∃ result env', f v env = ⟨result, env'⟩ := ⟨_, _, rfl⟩
      have hts := hf v env rfl
      show Reaches _ _ _ _ (f v env)
      rw [hfv] at hts ⊢
      cases hts with
      | ok hts => exact .ok (hss.append hts)
      | error hhalts he => exact .error (.behind hss hhalts) he

/-- The body of a `let` has a scope of its own, which is left behind it. -/
theorem within {name : String} {bound body : Expr} {line : Nat} {env : Environment} {v : Value}
    (h : Reaches ss ⟨rest, env.bind name v, env :: outer⟩ rest (env :: outer) o) :
    Reaches (.enter name :: (ss ++ [.node (.letIn name bound body line)])) ⟨v :: rest, env, outer⟩
      rest outer ⟨o.result, env⟩ := by
  have henter : Performs [.enter name] ⟨v :: rest, env, outer⟩
      ⟨rest, env.bind name v, env :: outer⟩ := .single rfl
  cases h with
  | error hhalts he => exact .error (.behind henter (hhalts.append _)) he
  | ok hss => exact .ok (henter.append (hss.append (.single rfl)))

end Reaches

/-- **An evaluation works through the steps of its tree.**  It does so from any machine, whatever
values wait in it and whatever scopes are around. -/
theorem Expr.eval_reaches (e : Expr) (env : Environment) (rest : List Value)
    (outer : List Environment) : Reaches e.steps ⟨rest, env, outer⟩ rest outer (e.eval env) := by
  induction e generalizing env rest outer with
  | val name value line ih =>
      refine (ih env rest outer).andThen fun v env₁ hvalue => ?_
      exact .ok (.single rfl)
  | letIn name bound body line ihbound ihbody =>
      refine (ihbound env rest outer).andThen fun v env₁ hbound => ?_
      exact (ihbody (env₁.bind name v) rest (env₁ :: outer)).within
  | binary op left right line ihleft ihright =>
      refine (ihleft env rest outer).andThen fun a env₁ hleft => ?_
      refine (ihright env₁ (a :: rest) outer).andThen fun b env₂ hright => ?_
      have hstep : (Step.node (.binary op left right line)).perform ⟨b :: a :: rest, env₂, outer⟩ =
          some (Machine.push ⟨rest, env₂, outer⟩ (atLine line (op.apply a b))) := rfl
      cases happly : op.apply a b with
      | ok v =>
          rw [happly] at hstep
          exact .ok (.single hstep)
      | error f =>
          rw [happly] at hstep
          refine .error (.single hstep) ⟨env, [a, b], rest, ?_, rfl, .of_binary happly⟩
          exact .cons hleft (.cons hright .nil)
  | unary op operand line ih =>
      refine (ih env rest outer).andThen fun a env₁ hoperand => ?_
      have hstep : (Step.node (.unary op operand line)).perform ⟨a :: rest, env₁, outer⟩ =
          some (Machine.push ⟨rest, env₁, outer⟩ (atLine line (op.apply a))) := rfl
      cases happly : op.apply a with
      | ok v =>
          rw [happly] at hstep
          exact .ok (.single hstep)
      | error f =>
          rw [happly] at hstep
          refine .error (.single hstep) ⟨env, [a], rest, .cons hoperand .nil, rfl, ?_⟩
          exact .unary (UnaryOp.sort_of_error happly)
  | literal t =>
      rw [eval]
      cases hvalue : t.value? with
      | some v =>
          refine .ok (.single ?_)
          rw [Step.perform, hvalue]
          rfl
      | none =>
          refine .error (.single ?_) ⟨env, [], rest, .nil, rfl, .malformed hvalue⟩
          rw [Step.perform, hvalue]
  | ident t =>
      rw [eval]
      cases hlookup : env.lookup t.text with
      | some v =>
          refine .ok (.single ?_)
          rw [Step.perform, hlookup]
          rfl
      | none =>
          refine .error (.single ?_) ⟨env, [], rest, .nil, rfl, .unbound⟩
          rw [Step.perform, hlookup]

/-- **The first node that fails gives the error.**  If an evaluation fails, then its error is that
of a node whose step fails when the steps of all nodes before it in post-order have been performed.
It is a malformed literal or an unbound name with the text and the line of that leaf, a division by
zero on the line of a `/` or `mod` whose operands have come out as an integer and zero, an invalid
operation on the line of a `mod` on two reals or of a comparison by size of two truth values, or a
type mismatch on the line of an operator.  Conversely, the error of such a node is that of the
evaluation.  If there is no such node, then all steps are performed, and the evaluation has a
value. -/
theorem eval_first_failure (e : Expr) (env : Environment) :
    (∀ err, (e.eval env).result = .error err →
      ∃ before s m, Halts e.steps (.start env) before s m err ∧ s.AccountsFor m err) ∧
    (∀ before s m err, Halts e.steps (.start env) before s m err →
      (e.eval env).result = .error err) ∧
    ((∀ before s m err, ¬ Halts e.steps (.start env) before s m err) →
      ∃ v env', e.eval env = ⟨.ok v, env'⟩ ∧
        Performs e.steps (.start env) ⟨[v], env', []⟩) := by
  obtain ⟨result, env', heval⟩ : ∃ result env', e.eval env = ⟨result, env'⟩ := ⟨_, _, rfl⟩
  have hreaches := e.eval_reaches env [] []
  rw [heval] at hreaches ⊢
  cases hreaches with
  | @ok v _ hall =>
      refine ⟨?_, ?_, fun _ => ⟨v, env', rfl, hall⟩⟩
      · intro err herror
        cases herror
      · intro before s m err hhalts
        exact absurd hhalts hall.not_halts
  | @error before s m err _ hhalts hs =>
      refine ⟨?_, ?_, fun hnone => absurd hhalts (hnone before s m err)⟩
      · intro err' herror
        cases herror
        exact ⟨before, s, m, hhalts, hs⟩
      · intro before' s' m' err' hhalts'
        obtain ⟨-, -, -, rfl⟩ := hhalts.unique hhalts'
        rfl

end LetCalc
