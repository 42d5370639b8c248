import LetCalc.Proofs.Reprinting

/-!
# Statements succeed or fail as a whole

A run goes through its statements until one fails.  What it leaves is the environment it started
from, with one binding for each declaration that was reached **and succeeded**: a statement that
fails leaves nothing behind, not even if it is a declaration.

This is not so for all trees.  An evaluation works on one environment, and an error leaves the
bindings made before it, so a declaration inside a sum would outlive the failure of the sum.  But
the reader never puts a declaration below the top of a statement (`Derivation.admits`), and without
one an evaluation leaves its environment alone (`Expr.env_eval_of_isPure`).

Main statement: `run_cases`.
-/

namespace LetCalc

/-! ### Programs that have been read have no inner declarations -/

/-- Whether a tree has no declaration in it. -/
def Expr.isPure : Expr → Bool
  | val .. => false
  | letIn _ bound body _ => bound.isPure && body.isPure
  | binary _ left right _ => left.isPure && right.isPure
  | unary _ operand _ => operand.isPure
  | literal _ => true
  | ident _ => true

/-- Whether a tree has no declaration in it but at the top. -/
def Expr.isFlat : Expr → Bool
  | val _ value _ => value.isPure
  | e => e.isPure

/-- A tree without any declaration is flat. -/
theorem Expr.isFlat_of_isPure {e : Expr} (he : e.isPure = true) : e.isFlat = true := by
  cases e with
  | val name value line => cases he
  | letIn | binary | unary | literal | ident => exact he

/-- Whether the declarations of a tree stand where a phrase allows them. -/
def Phrase.admits : Phrase → Expr → Bool
  | statement, e => e.isFlat
  | _, e => e.isPure

theorem Level.Operand.admits_eq {l : Level} {p : Phrase} (hp : l.Operand p) (e : Expr) :
    p.admits e = e.isPure := by
  cases hp <;> rfl

/-- What has a derivation has its declarations where they are allowed. -/
theorem Derivation.admits {p : Phrase} {w : List Token} {k : Token.Kind} {e : Expr}
    (h : Derivation p w k e) : p.admits e = true := by
  induction h with
  | val hword hname hassign value ih => exact ih
  | bare whole ih => exact Expr.isFlat_of_isPure ih
  | letIn hword hname hassign hsep bound body ihbound ihbody =>
      exact (Bool.and_eq_true _ _).mpr ⟨ihbound, ihbody⟩
  | logical whole ih => exact ih
  | single hp whole ih =>
      rw [hp.admits_eq] at ih
      exact ih
  | grow hp hop left right ihleft ihright =>
      rw [hp.admits_eq] at ihright
      exact (Bool.and_eq_true _ _).mpr ⟨ihleft, ihright⟩
  | sum whole ih => exact ih
  | comparison hop left right ihleft ihright => exact (Bool.and_eq_true _ _).mpr ⟨ihleft, ihright⟩
  | negation hword operand hend ih => exact ih
  | product whole ih => exact ih
  | sign hop operand ih => exact ih
  | group hopening hclosing inner ih => exact ih
  | literal ht => rfl
  | name ht => rfl

/-- What is read has declarations at the top only. -/
theorem ProgramDerivation.isFlat {w : List Token} {es : List Expr} (h : ProgramDerivation w es) :
    ∀ e ∈ es, e.isFlat = true := by
  induction h with
  | nil => exact List.forall_mem_nil _
  | cons hsep first others ih => exact List.forall_mem_cons.mpr ⟨first.admits, ih⟩

/-- Whether a program has been read, from wherever in a list of tokens. -/
def Program.IsRead (p : Program) : Prop :=
  ∃ c : Cursor, c.program.1 = .ok p

/-- What is read from a text is read from its tokens. -/
theorem Program.isRead_of_parse {s : String} {p : Program} (h : parse s = .ok p) : p.IsRead := by
  rw [parse, bind_eq_ok] at h
  obtain ⟨c, -, hc⟩ := h
  exact ⟨c, hc⟩

/-- A program that has been read has a derivation. -/
theorem Program.IsRead.exists_derivation {p : Program} (h : p.IsRead) :
    ∃ w, ProgramDerivation w p.statements := by
  obtain ⟨c, hc⟩ := h
  have hprogram : c.program = (.ok p, c.program.2) := Prod.ext hc rfl
  obtain ⟨-, hderivation, -⟩ := Cursor.program_ok_iff.mp hprogram
  exact ⟨c.ahead, hderivation⟩

theorem Program.IsRead.isFlat {p : Program} (h : p.IsRead) : ∀ e ∈ p.statements, e.isFlat = true := by
  obtain ⟨w, hderivation⟩ := h.exists_derivation
  exact hderivation.isFlat

/-! ### What an evaluation leaves -/

/-- Two steps in a row keep the environment if each of them does. -/
theorem Outcome.env_andThen {α β : Type} {o : Outcome α} {f : α → Environment → Outcome β}
    {env : Environment} (ho : o.env = env) (hf : ∀ a, (f a env).env = env) :
    (o.andThen f).env = env := by
  obtain ⟨result, env₁⟩ := o
  subst ho
  cases result with
  | ok a => exact hf a
  | error e => rfl

/-- Without declarations an evaluation leaves its environment alone, whether it succeeds or fails.
-/
theorem Expr.env_eval_of_isPure {e : Expr} (he : e.isPure = true) (env : Environment) :
    (e.eval env).env = env := by
  induction e with
  | val name value line ih => cases he
  | letIn name bound body line ihbound ihbody =>
      obtain ⟨hbound, -⟩ := (Bool.and_eq_true _ _).mp he
      exact Outcome.env_andThen (ihbound hbound) fun _ => rfl
  | binary op left right line ihleft ihright =>
      obtain ⟨hleft, hright⟩ := (Bool.and_eq_true _ _).mp he
      exact Outcome.env_andThen (ihleft hleft) fun _ =>
        Outcome.env_andThen (ihright hright) fun _ => rfl
  | unary op operand line ih => exact Outcome.env_andThen (ih he) fun _ => rfl
  | literal t =>
      rw [eval]
      split <;> rfl
  | ident t =>
      rw [eval]
      split <;> rfl

/-- A declaration inside a sum outlives the failure of the sum. -/
example : ((Expr.binary (.arith .add) (.val "x" (.literal ⟨.intLit, "1", 1⟩) 1)
    (.ident ⟨.ident, "y", 1⟩) 1).eval .empty).env.lookup "x" = some (.int 1) :=
  rfl

/-- A tree without a declaration has a result, and leaves the environment as it is. -/
theorem Expr.exists_eval_of_isPure {e : Expr} (he : e.isPure = true) (env : Environment) :
    ∃ r, e.eval env = ⟨r, env⟩ := by
  obtain ⟨r, env₁, heval⟩ : ∃ r env₁, e.eval env = ⟨r, env₁⟩ := ⟨_, _, rfl⟩
  have henv := env_eval_of_isPure he env
  rw [heval] at henv
  exact ⟨r, henv ▸ heval⟩

/-! ### What a statement leaves -/

/-- The binding that a statement makes when it has a value: only a declaration makes one. -/
def Expr.binding? : Expr → Value → Option Binding
  | val name _ _, v => some (name, v)
  | _, _ => none

/-- An environment with bindings made in order. -/
def Environment.bindAll (env : Environment) (bs : List Binding) : Environment :=
  bs.foldl (fun env b => env.bind b.1 b.2) env

/-- Bindings can be made in two parts. -/
theorem Environment.bindAll_append (env : Environment) (bs cs : List Binding) :
    env.bindAll (bs ++ cs) = (env.bindAll bs).bindAll cs :=
  List.foldl_append

/-- A statement either succeeds and leaves its binding, or fails and leaves nothing. -/
theorem Expr.eval_cases {e : Expr} (he : e.isFlat = true) (env : Environment) :
    (∃ v, e.eval env = ⟨.ok v, env.bindAll (e.binding? v).toList⟩) ∨
      ∃ err, e.eval env = ⟨.error err, env⟩ := by
  cases e with
  | val name value line =>
      obtain ⟨r, hvalue⟩ := exists_eval_of_isPure (e := value) he env
      rw [eval, hvalue]
      cases r with
      | ok v => exact .inl ⟨v, rfl⟩
      | error err => exact .inr ⟨err, rfl⟩
  | letIn | binary | unary | literal | ident =>
      obtain ⟨r, heval⟩ := exists_eval_of_isPure he env
      cases r with
      | ok v => exact .inl ⟨v, heval⟩
      | error err => exact .inr ⟨err, heval⟩

/-- A statement with a value binds what it declares, and nothing else. -/
theorem Expr.env_eq_of_ok {e : Expr} {env env' : Environment} {v : Value} (he : e.isFlat = true)
    (h : e.eval env = ⟨.ok v, env'⟩) : env' = env.bindAll (e.binding? v).toList := by
  rcases eval_cases he env with ⟨v', hok⟩ | ⟨err, herror⟩
  · rw [h] at hok
    cases hok
    rfl
  · rw [h] at herror
    cases herror

/-- A statement that fails binds nothing. -/
theorem Expr.env_eq_of_error {e : Expr} {env env' : Environment} {err : EvalError}
    (he : e.isFlat = true) (h : e.eval env = ⟨.error err, env'⟩) : env' = env := by
  rcases eval_cases he env with ⟨v, hok⟩ | ⟨err', herror⟩
  · rw [h] at hok
    cases hok
  · rw [h] at herror
    cases herror
    rfl

/-! ### What a run leaves -/

/-- `Succeed es env vs env'`: the statements `es`, run from `env`, all succeed in turn, with the
values `vs`, and leave `env'`. -/
inductive Succeed : List Expr → Environment → List Value → Environment → Prop where
  | nil {env : Environment} : Succeed [] env [] env
  | cons {e : Expr} {es : List Expr} {env env₁ env' : Environment} {v : Value} {vs : List Value}
      (h : e.eval env = ⟨.ok v, env₁⟩) (hs : Succeed es env₁ vs env') :
      Succeed (e :: es) env (v :: vs) env'

/-- The bindings that statements make, in order, when they have these values. -/
def declared : List Expr → List Value → List Binding
  | e :: es, v :: vs => (e.binding? v).toList ++ declared es vs
  | _, _ => []

namespace Succeed

variable {es : List Expr} {env env' : Environment} {vs : List Value}

/-- There is a value for each statement. -/
theorem length_eq (h : Succeed es env vs env') : vs.length = es.length := by
  induction h with
  | nil => rfl
  | cons heval hs ih => rw [List.length_cons, List.length_cons, ih]

/-- Statements that succeed leave the bindings of their declarations, and nothing else. -/
theorem env_eq (h : Succeed es env vs env') (hes : ∀ e ∈ es, e.isFlat = true) :
    env' = env.bindAll (declared es vs) := by
  induction h with
  | nil => rfl
  | @cons e es env env₁ env' v vs heval hs ih =>
      obtain ⟨he, hes⟩ := List.forall_mem_cons.mp hes
      rw [ih hes, Expr.env_eq_of_ok he heval, ← Environment.bindAll_append]
      rfl

/-- What is behind statements that succeed is run from what they leave. -/
theorem evalAll_append (h : Succeed es env vs env') (fs : List Expr) (last : Option Value) :
    evalAll (es ++ fs) last env = evalAll fs (vs.getLast?.or last) env' := by
  induction h generalizing last with
  | nil => rfl
  | @cons e es env env₁ env' v vs heval hs ih =>
      rw [List.cons_append, evalAll_cons_of_ok heval, ih, List.getLast?_cons]
      cases vs.getLast? with
      | none => rfl
      | some u => rfl

/-- The value of a run is that of its last statement. -/
theorem evalAll_eq (h : Succeed es env vs env') : evalAll es none env = ⟨.ok vs.getLast?, env'⟩ := by
  have hrun := h.evalAll_append [] none
  rw [List.append_nil, Option.or_none] at hrun
  exact hrun

end Succeed

namespace FailsAt

variable {es : List Expr} {env env₁ env₂ : Environment} {k k' : Nat} {err err' : EvalError}

/-- Only one statement is the first that fails. -/
theorem unique (h : FailsAt es env k err env₁) (h' : FailsAt es env k' err' env₂) :
    k' = k ∧ err' = err ∧ env₂ = env₁ := by
  induction h generalizing k' with
  | here heval =>
      cases h' with
      | here heval' =>
          rw [heval] at heval'
          cases heval'
          exact ⟨rfl, rfl, rfl⟩
      | later heval' =>
          rw [heval] at heval'
          cases heval'
  | later heval hs ih =>
      cases h' with
      | here heval' =>
          rw [heval] at heval'
          cases heval'
      | later heval' hs' =>
          rw [heval] at heval'
          cases heval'
          obtain ⟨rfl, hsame⟩ := ih hs'
          exact ⟨rfl, hsame⟩

/-- The statements before the first that fails have succeeded. -/
theorem exists_before (h : FailsAt es env k err env₁) :
    ∃ before s after vs env', es = before ++ s :: after ∧ k = before.length + 1 ∧
      Succeed before env vs env' ∧ s.eval env' = ⟨.error err, env₁⟩ := by
  induction h with
  | here heval => exact ⟨[], _, _, [], _, rfl, rfl, .nil, heval⟩
  | later heval hs ih =>
      obtain ⟨before, s, after, vs, env', rfl, rfl, hbefore, hs⟩ := ih
      exact ⟨_ :: before, s, after, _ :: vs, env', rfl, rfl, .cons heval hbefore, hs⟩

end FailsAt

/-- All statements succeed, or one is the first that fails. -/
theorem succeed_or_failsAt (es : List Expr) (env : Environment) :
    (∃ vs env', Succeed es env vs env') ∨ ∃ k err env', FailsAt es env k err env' := by
  induction es generalizing env with
  | nil => exact .inl ⟨[], env, .nil⟩
  | cons e es ih =>
      obtain ⟨result, env₁, heval⟩ : ∃ result env₁, e.eval env = ⟨result, env₁⟩ := ⟨_, _, rfl⟩
      cases result with
      | error err => exact .inr ⟨1, err, env₁, .here heval⟩
      | ok v =>
          rcases ih env₁ with ⟨vs, env', hs⟩ | ⟨k, err, env', hs⟩
          · exact .inl ⟨v :: vs, env', .cons heval hs⟩
          · exact .inr ⟨k + 1, err, env', .later heval hs⟩

/-- In a run that has a value all statements succeed. -/
theorem Program.exists_succeed {p : Program} {env : Environment} {v : Option Value}
    (h : (p.run env).result = .ok v) :
    ∃ vs, Succeed p.statements env vs (p.run env).env ∧ v = vs.getLast? := by
  rcases succeed_or_failsAt p.statements env with ⟨vs, env', hall⟩ | ⟨k, err, env', hfails⟩
  · have hrun : p.run env = ⟨.ok vs.getLast?, env'⟩ := hall.evalAll_eq
    rw [hrun] at h ⊢
    exact ⟨vs, hall, (Except.ok.inj h).symm⟩
  · rw [run, hfails.evalAll_eq none] at h
    cases h

/-- In a run that has an error one statement is the first that fails. -/
theorem Program.exists_failsAt {p : Program} {env : Environment} {err : EvalError}
    (h : (p.run env).result = .error err) :
    ∃ k, FailsAt p.statements env k err (p.run env).env := by
  rcases succeed_or_failsAt p.statements env with ⟨vs, env', hall⟩ | ⟨k, err', env', hfails⟩
  · rw [run, hall.evalAll_eq] at h
    cases h
  · have hrun : p.run env = ⟨.error err', env'⟩ := hfails.evalAll_eq none
    rw [hrun] at h ⊢
    cases h
    exact ⟨k, hfails⟩

/-- **A run stops at its first failure, and keeps what was declared before.**  Either all statements
of a program succeed in turn; then its value is that of the last statement, and it has none only if
there is no statement.  Or there is exactly one statement that fails when all before it have
succeeded; then its error is that of the run, whatever follows it.  In both cases the run leaves the
environment it was started from with the bindings, in order, of the declarations that succeeded. -/
theorem run_cases {p : Program} (hp : p.IsRead) (env : Environment) :
    (∃ vs env', Succeed p.statements env vs env' ∧
      (∀ k err env₁, ¬ FailsAt p.statements env k err env₁) ∧
      p.run env = ⟨.ok vs.getLast?, env'⟩ ∧ (vs.getLast? = none ↔ p.statements = []) ∧
      env' = env.bindAll (declared p.statements vs)) ∨
    (∃ before s after vs env' err, p.statements = before ++ s :: after ∧
      Succeed before env vs env' ∧ s.eval env' = ⟨.error err, env'⟩ ∧
      (∀ k err' env₁, FailsAt p.statements env k err' env₁ ↔
        k = before.length + 1 ∧ err' = err ∧ env₁ = env') ∧
      p.run env = ⟨.error err, env'⟩ ∧
      (∀ later line, Program.run ⟨before ++ s :: later, line⟩ env = p.run env) ∧
      env' = env.bindAll (declared before vs)) := by
  have hflat := hp.isFlat
  rcases succeed_or_failsAt p.statements env with ⟨vs, env', hall⟩ | ⟨k, err, env₁, hfails⟩
  · left
    have hrun := hall.evalAll_eq
    refine ⟨vs, env', hall, ?_, hrun, ?_, hall.env_eq hflat⟩
    · intro k err env₁ hfails
      rw [hfails.evalAll_eq none] at hrun
      cases hrun
    · rw [List.getLast?_eq_none_iff, ← List.length_eq_zero_iff, hall.length_eq,
        List.length_eq_zero_iff]
  · right
    obtain ⟨before, s, after, vs, env', hes, rfl, hbefore, hs⟩ := hfails.exists_before
    have hrun := hfails.evalAll_eq none
    rw [hes] at hflat
    obtain ⟨hflatBefore, hflatAfter⟩ := List.forall_mem_append.mp hflat
    obtain ⟨hflatStatement, -⟩ := List.forall_mem_cons.mp hflatAfter
    have henv := Expr.env_eq_of_error hflatStatement hs
    subst henv
    refine ⟨before, s, after, vs, env₁, err, hes, hbefore, hs, ?_, hrun, ?_,
      hbefore.env_eq hflatBefore⟩
    · intro k err' env₂
      constructor
      · intro hfails'
        exact hfails.unique hfails'
      · rintro ⟨rfl, rfl, rfl⟩
        exact hfails
    · intro later line
      have hlater := hbefore.evalAll_append (s :: later) none
      rw [evalAll_cons_of_error hs] at hlater
      exact hlater.trans hrun.symm

/-- The declaration before the division by zero is kept, and the one behind it has no part. -/
theorem run_cases_division :
    ∃ p, parse "val x := 7;\nval y := x / 0;\nval x := 9;" = .ok p ∧
      p.run .empty = ⟨.error ⟨.divisionByZero, 2⟩, Environment.empty.bind "x" (.int 7)⟩ ∧
      ∀ k err env', FailsAt p.statements .empty k err env' ↔
        k = 2 ∧ err = ⟨.divisionByZero, 2⟩ ∧ env' = Environment.empty.bind "x" (.int 7) := by
  obtain ⟨p, hp, hfails⟩ : ∃ p, parse "val x := 7;\nval y := x / 0;\nval x := 9;" = .ok p ∧
      FailsAt p.statements .empty 2 ⟨.divisionByZero, 2⟩ (Environment.empty.bind "x" (.int 7)) :=
    ⟨⟨[.val "x" (.literal ⟨.intLit, "7", 1⟩) 1,
        .val "y" (.binary (.arith .div) (.ident ⟨.ident, "x", 2⟩) (.literal ⟨.intLit, "0", 2⟩) 2) 2,
        .val "x" (.literal ⟨.intLit, "9", 3⟩) 3], 3⟩,
      by decide +kernel, .later rfl (.here rfl)⟩
  refine ⟨p, hp, ?_⟩
  rcases run_cases (Program.isRead_of_parse hp) .empty with
    ⟨vs, env', -, hnone, -⟩ | ⟨before, s, after, vs, env', err, -, -, -, hunique, hrun, -, -⟩
  · exact absurd hfails (hnone _ _ _)
  · obtain ⟨hk, rfl, rfl⟩ := (hunique _ _ _).mp hfails
    rw [← hk] at hunique
    exact ⟨hrun, hunique⟩

end LetCalc
