import LetCalc.Eval
import LetCalc.Proofs.RoundTrip

/-!
# Printing keeps the meaning

A program that has been read can be written and read again, and the two programs **run alike**: they
bind the same names, and they have the same value or fail with the same fault.  Only the line of the
error is another, and it is known: a fault of the `k`-th statement is on line `k` in the second
program.

Two facts carry the proof.  What is read is well formed (`Program.isWellFormed_of_parse`), so that
`RoundTrip` applies to it.  And lines have no part in evaluation, except that an error is on the
line of its node (`Expr.eval_mapLine`).

Main statement: `run_reparsed`.
-/

namespace LetCalc

/-! ### What is read is well formed -/

/-- A token that is spelled as a name has an identifier as its text. -/
theorem Token.isIdentifier_of_isSpelled {t : Token} (hk : t.kind = .ident)
    (ht : t.isSpelled = true) : isIdentifier t.text.toList = true := by
  rw [isSpelled, hk] at ht
  exact ht

/-- An expression that can be written is a statement that can be. -/
theorem Expr.isStatement_of_isPlain {e : Expr} (he : e.isPlain = true) : e.isStatement = true := by
  cases e with
  | val name value line => cases he
  | letIn | binary | unary | literal | ident => exact he

/-- Whether a tree can be written where a phrase is wanted.  Only a statement may be a
declaration. -/
def Phrase.isWritable : Phrase → Expr → Bool
  | statement, e => e.isStatement
  | _, e => e.isPlain

theorem Level.Operand.isWritable_eq {l : Level} {p : Phrase} (hp : l.Operand p) (e : Expr) :
    p.isWritable e = e.isPlain := by
  cases hp <;> rfl

/-- A derivation from spelled tokens has a tree that can be written. -/
theorem Derivation.isWritable {p : Phrase} {w : List Token} {k : Token.Kind} {e : Expr}
    (h : Derivation p w k e) (hw : ∀ t ∈ w, t.isSpelled = true) : p.isWritable e = true := by
  induction h with
  | val hword hname hassign value ih =>
      simp only [List.forall_mem_cons] at hw
      obtain ⟨-, hspelled, -, hw⟩ := hw
      have hident := Token.isIdentifier_of_isSpelled hname hspelled
      exact (Bool.and_eq_true _ _).mpr ⟨hident, ih hw⟩
  | bare whole ih => exact Expr.isStatement_of_isPlain (ih hw)
  | letIn hword hname hassign hsep bound body ihbound ihbody =>
      simp only [List.forall_mem_cons, List.forall_mem_append] at hw
      obtain ⟨-, hspelled, -, hw, -, hv⟩ := hw
      have hident := Token.isIdentifier_of_isSpelled hname hspelled
      have hbound := (Bool.and_eq_true _ _).mpr ⟨hident, ihbound hw⟩
      exact (Bool.and_eq_true _ _).mpr ⟨hbound, ihbody hv⟩
  | logical whole ih => exact ih hw
  | single hp whole ih =>
      have hoperand := ih hw
      rwa [hp.isWritable_eq] at hoperand
  | grow hp hop left right ihleft ihright =>
      simp only [List.forall_mem_cons, List.forall_mem_append] at hw
      have hright := ihright hw.2.2
      rw [hp.isWritable_eq] at hright
      exact (Bool.and_eq_true _ _).mpr ⟨ihleft hw.1, hright⟩
  | sum whole ih => exact ih hw
  | comparison hop left right ihleft ihright =>
      simp only [List.forall_mem_cons, List.forall_mem_append] at hw
      exact (Bool.and_eq_true _ _).mpr ⟨ihleft hw.1, ihright hw.2.2⟩
  | negation hword operand hend ih => exact ih (List.forall_mem_cons.mp hw).2
  | product whole ih => exact ih hw
  | sign hop operand ih => exact ih (List.forall_mem_cons.mp hw).2
  | group hopening hclosing inner ih =>
      simp only [List.forall_mem_cons, List.forall_mem_append] at hw
      exact ih hw.2.1
  | literal ht => simpa [Phrase.isWritable, Expr.isPlain, ht] using hw
  | name ht => simpa [Phrase.isWritable, Expr.isPlain, ht] using hw

/-- What is read from spelled tokens can be written as statements. -/
theorem ProgramDerivation.isStatement {w : List Token} {es : List Expr}
    (h : ProgramDerivation w es) (hw : ∀ t ∈ w, t.isSpelled = true) :
    ∀ e ∈ es, e.isStatement = true := by
  induction h with
  | nil => exact List.forall_mem_nil _
  | cons hsep first others ih =>
      simp only [List.forall_mem_cons, List.forall_mem_append] at hw
      exact List.forall_mem_cons.mpr ⟨first.isWritable hw.1, ih hw.2.2⟩

/-- A program that has been read from a text is well formed. -/
theorem Program.isWellFormed_of_parse {s : String} {p : Program} (h : parse s = .ok p) :
    p.isWellFormed = true := by
  obtain ⟨w, n, htokens, hderivation, -⟩ := parse_ok_iff.mp h
  obtain ⟨w', n', heq, hspelled⟩ := Source.tokens_spelled htokens
  obtain ⟨rfl, -⟩ := List.append_inj' heq rfl
  exact List.all_eq_true.mpr (hderivation.isStatement fun t ht => (hspelled t ht).1)

/-! ### Lines have no part in evaluation -/

/-- An outcome with the line of its error sent through a function. -/
def Outcome.mapLine {α : Type} (f : Nat → Nat) (o : Outcome α) : Outcome α :=
  ⟨o.result.mapError fun e => ⟨e.fault, f e.line⟩, o.env⟩

/-- The lines of two steps in a row can be moved in each of them. -/
theorem Outcome.mapLine_andThen {α β : Type} (f : Nat → Nat) (o : Outcome α)
    (g : α → Environment → Outcome β) :
    (o.andThen g).mapLine f = (o.mapLine f).andThen fun a env => (g a env).mapLine f := by
  obtain ⟨result, env⟩ := o
  cases result with
  | ok a => rfl
  | error e => rfl

/-- A fault that is put on a line is moved with the line. -/
theorem mapLine_atLine {α : Type} (f : Nat → Nat) (line : Nat) (r : Except Fault α)
    (env : Environment) : Outcome.mapLine f ⟨atLine line r, env⟩ = ⟨atLine (f line) r, env⟩ := by
  cases r with
  | ok a => rfl
  | error e => rfl

/-- A tree on other lines has the same outcome, with its error on the other line. -/
theorem Expr.eval_mapLine (f : Nat → Nat) (e : Expr) (env : Environment) :
    (e.mapLine f).eval env = (e.eval env).mapLine f := by
  induction e generalizing env with
  | val name value line ih =>
      rw [mapLine, eval, eval, Outcome.mapLine_andThen, ih]
      rfl
  | letIn name bound body line ihbound ihbody =>
      simp only [mapLine, eval, Outcome.mapLine_andThen, ihbound, ihbody]
      rfl
  | binary op left right line ihleft ihright =>
      simp only [mapLine, eval, Outcome.mapLine_andThen, ihleft, ihright, mapLine_atLine]
  | unary op operand line ih =>
      simp only [mapLine, eval, Outcome.mapLine_andThen, ih, mapLine_atLine]
  | literal t =>
      have hvalue : (t.mapLine f).value? = t.value? := rfl
      simp only [mapLine, eval, hvalue]
      cases t.value? with
      | none => rfl
      | some v => rfl
  | ident t =>
      simp only [mapLine, eval, Token.text_mapLine]
      cases env.lookup t.text with
      | none => rfl
      | some v => rfl

/-- On other lines a tree has the same value. -/
theorem Expr.eval_onLine_of_ok {e : Expr} {env env' : Environment} {v : Value}
    (h : e.eval env = ⟨.ok v, env'⟩) (n : Nat) : (e.onLine n).eval env = ⟨.ok v, env'⟩ := by
  rw [onLine, eval_mapLine, h]
  rfl

/-- On one line all faults of a tree are on that line. -/
theorem Expr.eval_onLine_of_error {e : Expr} {env env' : Environment} {err : EvalError}
    (h : e.eval env = ⟨.error err, env'⟩) (n : Nat) :
    (e.onLine n).eval env = ⟨.error ⟨err.fault, n⟩, env'⟩ := by
  rw [onLine, eval_mapLine, h]
  rfl

/-! ### Runs -/

/-- `FailsAt es env k err env'`: of the statements `es`, run from `env`, all before the `k`-th
succeed and the `k`-th fails with the error `err`, which leaves `env'`.  The first statement is
number 1. -/
inductive FailsAt : List Expr → Environment → Nat → EvalError → Environment → Prop where
  | here {e : Expr} {es : List Expr} {env env' : Environment} {err : EvalError}
      (h : e.eval env = ⟨.error err, env'⟩) : FailsAt (e :: es) env 1 err env'
  | later {e : Expr} {es : List Expr} {env env₁ env' : Environment} {v : Value} {k : Nat}
      {err : EvalError} (h : e.eval env = ⟨.ok v, env₁⟩) (hs : FailsAt es env₁ k err env') :
      FailsAt (e :: es) env (k + 1) err env'

/-- Behind a statement with a value the next one is run. -/
theorem evalAll_cons_of_ok {e : Expr} {env env₁ : Environment} {v : Value}
    (h : e.eval env = ⟨.ok v, env₁⟩) (es : List Expr) (last : Option Value) :
    evalAll (e :: es) last env = evalAll es (some v) env₁ := by
  rw [evalAll, h]
  rfl

/-- Behind a statement that fails nothing is run. -/
theorem evalAll_cons_of_error {e : Expr} {env env' : Environment} {err : EvalError}
    (h : e.eval env = ⟨.error err, env'⟩) (es : List Expr) (last : Option Value) :
    evalAll (e :: es) last env = ⟨.error err, env'⟩ := by
  rw [evalAll, h]
  rfl

/-- A run succeeds, or one of its statements is the first that fails. -/
theorem evalAll_cases (es : List Expr) (last : Option Value) (env : Environment) :
    (∃ v env', evalAll es last env = ⟨.ok v, env'⟩) ∨ ∃ k err env', FailsAt es env k err env' := by
  induction es generalizing last env with
  | nil => exact .inl ⟨last, env, rfl⟩
  | cons e es ih =>
      obtain ⟨result, env₁, heval⟩ : ∃ result env₁, e.eval env = ⟨result, env₁⟩ := ⟨_, _, rfl⟩
      cases result with
      | error err => exact .inr ⟨1, err, env₁, .here heval⟩
      | ok v =>
          rw [evalAll_cons_of_ok heval]
          rcases ih (some v) env₁ with hok | ⟨k, err, env', hfails⟩
          · exact .inl hok
          · exact .inr ⟨k + 1, err, env', .later heval hfails⟩

/-- A run whose `k`-th statement fails has its error. -/
theorem FailsAt.evalAll_eq {es : List Expr} {env env' : Environment} {k : Nat} {err : EvalError}
    (h : FailsAt es env k err env') (last : Option Value) :
    evalAll es last env = ⟨.error err, env'⟩ := by
  induction h generalizing last with
  | here heval => exact evalAll_cons_of_error heval _ last
  | later heval hs ih =>
      rw [evalAll_cons_of_ok heval]
      exact ih _

/-- A run that succeeds does the same on other lines. -/
theorem evalAll_numbered {es : List Expr} {last v : Option Value} {env env' : Environment}
    (h : evalAll es last env = ⟨.ok v, env'⟩) (n : Nat) :
    evalAll (numbered n es) last env = ⟨.ok v, env'⟩ := by
  induction es generalizing last env n with
  | nil => exact h
  | cons e es ih =>
      obtain ⟨result, env₁, heval⟩ : ∃ result env₁, e.eval env = ⟨result, env₁⟩ := ⟨_, _, rfl⟩
      rw [numbered_cons]
      cases result with
      | error err =>
          rw [evalAll_cons_of_error heval] at h
          cases h
      | ok u =>
          rw [evalAll_cons_of_ok heval] at h
          rw [evalAll_cons_of_ok (Expr.eval_onLine_of_ok heval n)]
          exact ih h (n + 1)

/-- A run that fails does so on other lines too, at the same statement and with the same fault. -/
theorem FailsAt.numbered {es : List Expr} {env env' : Environment} {k : Nat} {err : EvalError}
    (h : FailsAt es env k err env') (n : Nat) :
    FailsAt (numbered (n + 1) es) env k ⟨err.fault, n + k⟩ env' := by
  induction h generalizing n with
  | here heval =>
      rw [numbered_cons]
      exact .here (Expr.eval_onLine_of_error heval (n + 1))
  | @later e es env env₁ env' v k err heval hs ih =>
      have hline : n + 1 + k = n + (k + 1) := by omega
      have hlater := ih (n + 1)
      rw [hline] at hlater
      rw [numbered_cons]
      exact .later (Expr.eval_onLine_of_ok heval (n + 1)) hlater

/-- The programs `p` and `q` **run alike**, and an error of `q` is on the line with the number of its
statement.  From every environment, either both succeed with the same value and the same bindings,
or both fail at the same statement, the `k`-th, with the same fault and the same bindings, and then
the error of `q` is on line `k`. -/
def RunsAlike (p q : Program) : Prop :=
  ∀ env : Environment,
    (∃ v env', p.run env = ⟨.ok v, env'⟩ ∧ q.run env = ⟨.ok v, env'⟩) ∨
    (∃ k err env',
      FailsAt p.statements env k err env' ∧ p.run env = ⟨.error err, env'⟩ ∧
      FailsAt q.statements env k ⟨err.fault, k⟩ env' ∧
        q.run env = ⟨.error ⟨err.fault, k⟩, env'⟩)

/-- **Printing keeps the meaning.**  The text of a program that has been read is read as a program
that runs alike. -/
theorem run_reparsed {s : String} {p : Program} (hp : parse s = .ok p) :
    ∃ q, parse p.text = .ok q ∧ RunsAlike p q := by
  have hes : ∀ e ∈ p.statements, e.isStatement = true :=
    List.all_eq_true.mp (Program.isWellFormed_of_parse hp)
  have hparse : parse p.text = .ok ⟨numbered 1 p.statements, _⟩ := parse_ok_iff.mpr
    ⟨_, _, tokens_statements hes 1, programDerivation_statementWords hes 1, rfl⟩
  refine ⟨_, hparse, ?_⟩
  intro env
  rcases evalAll_cases p.statements none env with ⟨v, env', hok⟩ | ⟨k, err, env', hfails⟩
  · exact .inl ⟨v, env', hok, evalAll_numbered hok 1⟩
  · have hnumbered := hfails.numbered 0
    rw [Nat.zero_add, Nat.zero_add] at hnumbered
    exact .inr ⟨k, err, env', hfails, hfails.evalAll_eq none, hnumbered, hnumbered.evalAll_eq none⟩

/-- The second of these statements starts on line 3 and divides by zero on line 4. -/
theorem run_reparsed_division :
    ∃ p q, parse "val n := 0;\n\n 1 +\n 2 / n\n; n;" = .ok p ∧
      (p.run .empty).result = .error ⟨.divisionByZero, 4⟩ ∧
      parse p.text = .ok q ∧ RunsAlike p q := by
  have hp : parse "val n := 0;\n\n 1 +\n 2 / n\n; n;" =
      .ok ⟨[.val "n" (.literal ⟨.intLit, "0", 1⟩) 1,
        .binary (.arith .add) (.literal ⟨.intLit, "1", 3⟩)
          (.binary (.arith .div) (.literal ⟨.intLit, "2", 4⟩) (.ident ⟨.ident, "n", 4⟩) 4) 4,
        .ident ⟨.ident, "n", 5⟩], 5⟩ := by
    decide +kernel
  obtain ⟨q, hq, halike⟩ := run_reparsed hp
  exact ⟨_, q, hp, rfl, hq, halike⟩

end LetCalc
