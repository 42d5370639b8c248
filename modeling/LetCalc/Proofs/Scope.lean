import LetCalc.Proofs.Atomicity
import LetCalc.Proofs.Typing

/-!
# Scope

Which names a program needs can be seen from its text.  A name occurs **free** in a tree if no `let`
around it binds it, and a program is **scoped** in an environment if every name that occurs free in
a statement has a value there or is declared by a statement before it.

A run agrees with this in both directions.  That a scoped program never lacks a name is one
(`Expr.exists_free_of_unbound`).  The other is that a program which is not scoped never succeeds,
and it rests on evaluation being strict: every part of a tree is evaluated, so a tree that has a
value has had all its names looked up (`Expr.contains_of_ok`).

That is also all that an environment is used for: two that agree on the free names of a tree give it
the same value, or the same error (`Expr.result_congr`).

Main statement: `run_scoping`.
-/

namespace LetCalc

/-! ### Free names -/

/-- The tokens of the names that occur free in a tree, from left to right.  A `let` binds its name
in its body only, and the name of a declaration is not in scope in its own value. -/
def Expr.freeTokens : Expr → List Token
  | val _ value _ => value.freeTokens
  | letIn name bound body _ => bound.freeTokens ++ body.freeTokens.filter (·.text != name)
  | binary _ left right _ => left.freeTokens ++ right.freeTokens
  | unary _ operand _ => operand.freeTokens
  | literal _ => []
  | ident token => [token]

/-- In a tree that has been derived, names are tokens of identifiers. -/
theorem Derivation.kind_freeTokens {p : Phrase} {w : List Token} {k : Token.Kind} {e : Expr}
    (h : Derivation p w k e) : ∀ t ∈ e.freeTokens, t.kind = .ident := by
  induction h with
  | val hword hname hassign value ih => exact ih
  | bare whole ih => exact ih
  | letIn hword hname hassign hsep bound body ihbound ihbody =>
      refine List.forall_mem_append.mpr ⟨ihbound, ?_⟩
      intro t ht
      exact ihbody t (List.mem_filter.mp ht).1
  | logical whole ih => exact ih
  | single hp whole ih => exact ih
  | grow hp hop left right ihleft ihright => exact List.forall_mem_append.mpr ⟨ihleft, ihright⟩
  | sum whole ih => exact ih
  | comparison hop left right ihleft ihright =>
      exact List.forall_mem_append.mpr ⟨ihleft, ihright⟩
  | negation hword operand hend ih => exact ih
  | product whole ih => exact ih
  | sign hop operand ih => exact ih
  | group hopening hclosing inner ih => exact ih
  | literal ht => exact List.forall_mem_nil _
  | name ht => exact List.forall_mem_singleton.mpr ht

/-- The free tokens of the statements that are read are names. -/
theorem ProgramDerivation.kind_freeTokens {w : List Token} {es : List Expr}
    (h : ProgramDerivation w es) : ∀ e ∈ es, ∀ t ∈ e.freeTokens, t.kind = .ident := by
  induction h with
  | nil => exact List.forall_mem_nil _
  | cons hsep first others ih => exact List.forall_mem_cons.mpr ⟨first.kind_freeTokens, ih⟩

/-- So are those of a program that has been read. -/
theorem Program.IsRead.kind_freeTokens {p : Program} (h : p.IsRead) :
    ∀ e ∈ p.statements, ∀ t ∈ e.freeTokens, t.kind = .ident := by
  obtain ⟨w, hderivation⟩ := h.exists_derivation
  exact hderivation.kind_freeTokens

/-! ### Values of trees without declarations

Such a tree leaves its environment alone, so that its parts are all evaluated in the same one, and
the result is a plain chain of results.  -/

namespace Expr

/-- A `let` has the result of its body, with the value of its bound part for the name. -/
theorem result_letIn {bound : Expr} (hbound : bound.isPure = true) (name : String) (body : Expr)
    (line : Nat) (env : Environment) :
    ((letIn name bound body line).eval env).result =
      (bound.eval env).result >>= fun v => (body.eval (env.bind name v)).result := by
  obtain ⟨r, hr⟩ := exists_eval_of_isPure hbound env
  rw [eval, hr]
  cases r with
  | ok v => rfl
  | error err => rfl

/-- An operator has the result of its application to the values of both sides, the left one first.
-/
theorem result_binary {left right : Expr} (hleft : left.isPure = true) (op : BinaryOp) (line : Nat)
    (env : Environment) :
    ((binary op left right line).eval env).result =
      (left.eval env).result >>= fun a =>
        (right.eval env).result >>= fun b => atLine line (op.apply a b) := by
  obtain ⟨r, hr⟩ := exists_eval_of_isPure hleft env
  rw [eval, hr]
  cases r with
  | error err => rfl
  | ok a =>
      show ((right.eval env).andThen fun b env => ⟨atLine line (op.apply a b), env⟩).result = _
      obtain ⟨result, env'⟩ := right.eval env
      cases result with
      | ok b => rfl
      | error err => rfl

/-- A sign or a `not` has the result of its application to the value of its operand. -/
theorem result_unary (op : UnaryOp) (operand : Expr) (line : Nat) (env : Environment) :
    ((unary op operand line).eval env).result =
      (operand.eval env).result >>= fun a => atLine line (op.apply a) := by
  rw [eval]
  obtain ⟨result, env'⟩ := operand.eval env
  cases result with
  | ok a => rfl
  | error err => rfl

/-- A name has the value that is bound to it, if there is one. -/
theorem result_ident (t : Token) (env : Environment) :
    ((ident t).eval env).result =
      match env.lookup t.text with
      | some v => .ok v
      | none => .error ⟨.unbound t.text, t.line⟩ := by
  rw [eval]
  cases env.lookup t.text with
  | some v => rfl
  | none => rfl

end Expr

/-- Two steps in a row fail if the first one does, or if the second one does behind it. -/
theorem bind_eq_error {ε α β : Type} {x : Except ε α} {f : α → Except ε β} {e : ε} :
    x >>= f = .error e ↔ x = .error e ∨ ∃ a, x = .ok a ∧ f a = .error e := by
  cases x with
  | error e' => simp [bind, Except.bind]
  | ok a => simp [bind, Except.bind]

/-! ### A value shows that all names are bound -/

/-- Behind a binding the names are those from before, and the new one. -/
theorem Environment.contains_bind {env : Environment} {name x : String} {v : Value} :
    (env.bind name v).contains x = true ↔ x = name ∨ env.contains x = true := by
  rw [contains, lookup_bind]
  by_cases hx : x = name
  · simp [hx]
  · simp [hx, contains]

/-- In a tree that has a value every free name is bound. -/
theorem Expr.contains_of_ok {e : Expr} (he : e.isPure = true) {env : Environment} {v : Value}
    (h : (e.eval env).result = .ok v) : ∀ t ∈ e.freeTokens, env.contains t.text = true := by
  induction e generalizing env v with
  | val name value line ih => cases he
  | letIn name bound body line ihbound ihbody =>
      obtain ⟨hbound, hbody⟩ := (Bool.and_eq_true _ _).mp he
      rw [result_letIn hbound, bind_eq_ok] at h
      obtain ⟨u, hu, hv⟩ := h
      refine List.forall_mem_append.mpr ⟨ihbound hbound hu, ?_⟩
      intro t ht
      obtain ⟨ht, hne⟩ := List.mem_filter.mp ht
      have hinner := Environment.contains_bind.mp (ihbody hbody hv t ht)
      exact hinner.resolve_left (bne_iff_ne.mp hne)
  | binary op left right line ihleft ihright =>
      obtain ⟨hleft, hright⟩ := (Bool.and_eq_true _ _).mp he
      rw [result_binary hleft, bind_eq_ok] at h
      obtain ⟨a, ha, hb⟩ := h
      obtain ⟨b, hb, -⟩ := bind_eq_ok.mp hb
      exact List.forall_mem_append.mpr ⟨ihleft hleft ha, ihright hright hb⟩
  | unary op operand line ih =>
      rw [result_unary, bind_eq_ok] at h
      obtain ⟨a, ha, -⟩ := h
      exact ih he ha
  | literal t => exact List.forall_mem_nil _
  | ident t =>
      refine List.forall_mem_singleton.mpr ?_
      rw [result_ident] at h
      rw [Environment.contains]
      cases hlookup : env.lookup t.text with
      | some u => rfl
      | none =>
          rw [hlookup] at h
          cases h

/-! ### An unbound name is a free one -/

/-- By the types of its operands an operator can only be wrongly used. -/
theorem BinaryOp.sort_of_resultType {op : BinaryOp} {σ τ : ValueType} {f : Fault}
    (h : op.resultType σ τ = .error f) : f.sort = .typeMismatch ∨ f.sort = .invalidOperation := by
  cases op with
  | arith op => cases op <;> cases σ <;> cases τ <;> cases h <;> decide
  | logic op => cases σ <;> cases τ <;> cases h <;> decide
  | compare op => cases op <;> cases σ <;> cases τ <;> cases h <;> decide

/-- An operator has no fault but a wrong use or a division by zero. -/
theorem BinaryOp.sort_of_error {op : BinaryOp} {a b : Value} {f : Fault}
    (h : op.apply a b = .error f) :
    f.sort = .typeMismatch ∨ f.sort = .invalidOperation ∨ f.sort = .arithmetic := by
  rcases op.type_apply a b with hzero | htype
  · rw [h] at hzero
    cases hzero
    exact .inr (.inr rfl)
  · rw [h] at htype
    rcases sort_of_resultType htype.symm with hmismatch | hinvalid
    · exact .inl hmismatch
    · exact .inr (.inl hinvalid)

theorem UnaryOp.sort_of_error {op : UnaryOp} {a : Value} {f : Fault} (h : op.apply a = .error f) :
    f.sort = .typeMismatch := by
  cases op <;> cases a <;> cases h <;> rfl

/-- A fault that is put on a line stays the same fault. -/
theorem fault_of_atLine {α : Type} {line : Nat} {r : Except Fault α} {err : EvalError}
    (h : atLine line r = .error err) : r = .error err.fault := by
  cases r with
  | ok a => cases h
  | error f =>
      cases h
      rfl

/-- A name that is missing occurs free, and is not bound. -/
theorem Expr.exists_free_of_unbound {e : Expr} (he : e.isPure = true) {env : Environment}
    {name : String} {line : Nat} (h : (e.eval env).result = .error ⟨.unbound name, line⟩) :
    ∃ t ∈ e.freeTokens, t.text = name ∧ t.line = line ∧ env.contains name = false := by
  induction e generalizing env with
  | val name value line ih => cases he
  | letIn x bound body n ihbound ihbody =>
      obtain ⟨hbound, hbody⟩ := (Bool.and_eq_true _ _).mp he
      rw [result_letIn hbound, bind_eq_error] at h
      rcases h with hu | ⟨u, -, hv⟩
      · obtain ⟨t, ht, hfree⟩ := ihbound hbound hu
        exact ⟨t, List.mem_append_left _ ht, hfree⟩
      · obtain ⟨t, ht, rfl, hline, hunbound⟩ := ihbody hbody hv
        -- the name of the `let` is bound in its body, so it is not the one that is missing
        rw [Bool.eq_false_iff, ne_eq, Environment.contains_bind, not_or] at hunbound
        obtain ⟨hne, hunbound⟩ := hunbound
        refine ⟨t, List.mem_append_right _ ?_, rfl, hline, Bool.eq_false_iff.mpr hunbound⟩
        exact List.mem_filter.mpr ⟨ht, bne_iff_ne.mpr hne⟩
  | binary op left right n ihleft ihright =>
      obtain ⟨hleft, hright⟩ := (Bool.and_eq_true _ _).mp he
      rw [result_binary hleft, bind_eq_error] at h
      rcases h with ha | ⟨a, -, h⟩
      · obtain ⟨t, ht, hfree⟩ := ihleft hleft ha
        exact ⟨t, List.mem_append_left _ ht, hfree⟩
      · rcases bind_eq_error.mp h with hb | ⟨b, -, h⟩
        · obtain ⟨t, ht, hfree⟩ := ihright hright hb
          exact ⟨t, List.mem_append_right _ ht, hfree⟩
        · have hsort := BinaryOp.sort_of_error (fault_of_atLine h)
          exact absurd hsort (by simp [Fault.sort])
  | unary op operand n ih =>
      rw [result_unary, bind_eq_error] at h
      rcases h with ha | ⟨a, -, h⟩
      · exact ih he ha
      · have hsort := UnaryOp.sort_of_error (fault_of_atLine h)
        exact absurd hsort (by simp [Fault.sort])
  | literal t =>
      rw [eval] at h
      split at h
      · cases h
      · cases h
  | ident t =>
      rw [result_ident] at h
      cases hlookup : env.lookup t.text with
      | some v =>
          rw [hlookup] at h
          cases h
      | none =>
          rw [hlookup] at h
          cases h
          refine ⟨t, List.mem_singleton.mpr rfl, rfl, rfl, ?_⟩
          rw [Environment.contains, hlookup]
          rfl

/-! ### An environment is used for free names only -/

/-- A tree has the same value, or the same error, in two environments that agree on its free names.
-/
theorem Expr.result_congr {e : Expr} (he : e.isPure = true) {env env' : Environment}
    (h : ∀ t ∈ e.freeTokens, env.lookup t.text = env'.lookup t.text) :
    (e.eval env).result = (e.eval env').result := by
  induction e generalizing env env' with
  | val name value line ih => cases he
  | letIn name bound body line ihbound ihbody =>
      obtain ⟨hbound, hbody⟩ := (Bool.and_eq_true _ _).mp he
      obtain ⟨hfreeBound, hfreeBody⟩ := List.forall_mem_append.mp h
      rw [result_letIn hbound, result_letIn hbound, ihbound hbound hfreeBound]
      refine congrArg _ (funext fun v => ihbody hbody ?_)
      -- in the body the two agree on the name of the `let` too
      intro t ht
      rw [Environment.lookup_bind, Environment.lookup_bind]
      by_cases hname : t.text = name
      · rw [if_pos hname, if_pos hname]
      · rw [if_neg hname, if_neg hname]
        exact hfreeBody t (List.mem_filter.mpr ⟨ht, bne_iff_ne.mpr hname⟩)
  | binary op left right line ihleft ihright =>
      obtain ⟨hleft, hright⟩ := (Bool.and_eq_true _ _).mp he
      obtain ⟨hfreeLeft, hfreeRight⟩ := List.forall_mem_append.mp h
      rw [result_binary hleft, result_binary hleft, ihleft hleft hfreeLeft,
        ihright hright hfreeRight]
  | unary op operand line ih => rw [result_unary, result_unary, ih he h]
  | literal t =>
      rw [eval, eval]
      split <;> rfl
  | ident t => rw [result_ident, result_ident, h t (List.mem_singleton.mpr rfl)]

/-! ### Statements -/

/-- What a statement evaluates: of a declaration its value, otherwise the statement itself. -/
def Expr.content : Expr → Expr
  | val _ value _ => value
  | e => e

/-- The name that a statement declares. -/
def Expr.declaredName? : Expr → Option String
  | val name _ _ => some name
  | _ => none

namespace Expr

/-- The content of a statement that is read has no declaration in it. -/
theorem isPure_content {e : Expr} (he : e.isFlat = true) : e.content.isPure = true := by
  cases e with
  | val | letIn | binary | unary | literal | ident => exact he

/-- A statement has the free tokens of its content. -/
theorem freeTokens_content (e : Expr) : e.content.freeTokens = e.freeTokens := by
  cases e with
  | val | letIn | binary | unary | literal | ident => rfl

/-- A statement has the value, or the error, of what it evaluates. -/
theorem result_content (e : Expr) (env : Environment) :
    (e.content.eval env).result = (e.eval env).result := by
  cases e with
  | val name value line =>
      rw [content, eval]
      obtain ⟨result, env'⟩ := value.eval env
      cases result with
      | ok v => rfl
      | error err => rfl
  | letIn | binary | unary | literal | ident => rfl

/-- A statement that succeeds binds the name that it declares, and no other. -/
theorem contains_of_eval {e : Expr} (he : e.isFlat = true) {env env' : Environment} {v : Value}
    (h : e.eval env = ⟨.ok v, env'⟩) (x : String) :
    env'.contains x = true ↔ env.contains x = true ∨ x ∈ e.declaredName? := by
  rw [env_eq_of_ok he h]
  cases e with
  | val name value line =>
      show (env.bind name v).contains x = true ↔ _ ∨ x ∈ some name
      rw [Environment.contains_bind, Option.mem_some_iff, or_comm, @eq_comm _ x name]
  | letIn | binary | unary | literal | ident =>
      show env.contains x = true ↔ _ ∨ x ∈ none
      simp

end Expr

/-- The names that statements declare. -/
def declaredNames (es : List Expr) : List String :=
  es.filterMap Expr.declaredName?

/-- A name is declared by the first statement or by a later one. -/
theorem mem_declaredNames_cons {e : Expr} {es : List Expr} {x : String} :
    x ∈ declaredNames (e :: es) ↔ x ∈ e.declaredName? ∨ x ∈ declaredNames es := by
  rw [declaredNames, List.filterMap_cons]
  cases e.declaredName? with
  | none => simp [declaredNames]
  | some name => simp [declaredNames, eq_comm]

namespace Succeed

variable {es : List Expr} {env env' : Environment} {vs : List Value}

/-- Statements that succeed bind the names that they declare, and no others. -/
theorem contains_iff (h : Succeed es env vs env') (hes : ∀ e ∈ es, e.isFlat = true) (x : String) :
    env'.contains x = true ↔ env.contains x = true ∨ x ∈ declaredNames es := by
  induction h with
  | nil => simp [declaredNames]
  | cons heval hs ih =>
      obtain ⟨he, hes⟩ := List.forall_mem_cons.mp hes
      rw [ih hes, Expr.contains_of_eval he heval, mem_declaredNames_cons, or_assoc]

/-- Each of the statements that succeed does so behind those before it. -/
theorem exists_at (h : Succeed es env vs env') {k : Nat} (hk : k < es.length) :
    ∃ us env₁ v env₂, Succeed (es.take k) env us env₁ ∧ es[k].eval env₁ = ⟨.ok v, env₂⟩ := by
  induction h generalizing k with
  | nil => exact absurd hk (Nat.not_lt_zero k)
  | @cons e es env env₁ env' v vs heval hs ih =>
      cases k with
      | zero => exact ⟨[], env, v, env₁, .nil, heval⟩
      | succ k =>
          obtain ⟨us, env₂, u, env₃, htake, hat⟩ := ih (Nat.lt_of_succ_lt_succ hk)
          exact ⟨v :: us, env₂, u, env₃, .cons heval htake, hat⟩

end Succeed

/-- Where a run fails, the statement there fails behind those before it. -/
theorem FailsAt.exists_at {es : List Expr} {env env' : Environment} {n : Nat} {err : EvalError}
    (h : FailsAt es env n err env') :
    ∃ k, ∃ hk : k < es.length, n = k + 1 ∧
      ∃ us env₁, Succeed (es.take k) env us env₁ ∧ es[k].eval env₁ = ⟨.error err, env'⟩ := by
  induction h with
  | @here e es env env' err heval => exact ⟨0, Nat.zero_lt_succ _, rfl, [], env, .nil, heval⟩
  | @later e es env env₁ env' v n err heval hs ih =>
      obtain ⟨k, hk, rfl, us, env₂, htake, hat⟩ := ih
      exact ⟨k + 1, Nat.succ_lt_succ hk, rfl, v :: us, env₂, .cons heval htake, hat⟩

/-! ### Programs -/

/-- Whether a program is **scoped** in an environment: every name that occurs free in a statement
has a value there, or is declared by a statement before it. -/
def Program.IsScoped (p : Program) (env : Environment) : Prop :=
  ∀ k, ∀ hk : k < p.statements.length, ∀ t ∈ p.statements[k].freeTokens,
    env.contains t.text = true ∨ t.text ∈ declaredNames (p.statements.take k)

instance (p : Program) (env : Environment) : Decidable (p.IsScoped env) :=
  inferInstanceAs (Decidable (∀ k, ∀ hk : k < p.statements.length,
    ∀ t ∈ p.statements[k].freeTokens,
      env.contains t.text = true ∨ t.text ∈ declaredNames (p.statements.take k)))

/-- A program that succeeds is scoped. -/
theorem Program.isScoped_of_ok {p : Program} (hp : p.IsRead) {env : Environment} {v : Option Value}
    (h : (p.run env).result = .ok v) : p.IsScoped env := by
  intro k hk t ht
  obtain ⟨vs, hall, -⟩ := Program.exists_succeed h
  obtain ⟨us, env₁, u, env₂, htake, hat⟩ := hall.exists_at hk
  have hflat := hp.isFlat
  rw [← htake.contains_iff fun e he => hflat e (List.mem_of_mem_take he)]
  have hvalue : (p.statements[k].content.eval env₁).result = .ok u := by
    rw [Expr.result_content, hat]
  have hpure := Expr.isPure_content (hflat _ (List.getElem_mem hk))
  apply Expr.contains_of_ok hpure hvalue
  rw [Expr.freeTokens_content]
  exact ht

/-- The name that a run lacks occurs free in the statement that fails, and neither the environment
nor a statement before gives it a value. -/
theorem Program.exists_free_of_unbound {p : Program} (hp : p.IsRead) {env : Environment}
    {name : String} {line : Nat} (h : (p.run env).result = .error ⟨.unbound name, line⟩) :
    ∃ k, ∃ hk : k < p.statements.length,
      FailsAt p.statements env (k + 1) ⟨.unbound name, line⟩ (p.run env).env ∧
      (∃ t ∈ p.statements[k].freeTokens, t.kind = .ident ∧ t.text = name ∧ t.line = line) ∧
      env.contains name = false ∧ name ∉ declaredNames (p.statements.take k) := by
  obtain ⟨n, hfails⟩ := Program.exists_failsAt h
  obtain ⟨k, hk, rfl, us, env₁, htake, hat⟩ := hfails.exists_at
  have hflat := hp.isFlat
  have hmem := List.getElem_mem hk
  have herror : (p.statements[k].content.eval env₁).result = .error ⟨.unbound name, line⟩ := by
    rw [Expr.result_content, hat]
  obtain ⟨t, ht, htext, hline, hunbound⟩ :=
    Expr.exists_free_of_unbound (Expr.isPure_content (hflat _ hmem)) herror
  rw [Expr.freeTokens_content] at ht
  rw [Bool.eq_false_iff, ne_eq,
    htake.contains_iff fun e he => hflat e (List.mem_of_mem_take he), not_or] at hunbound
  exact ⟨k, hk, hfails, ⟨t, ht, hp.kind_freeTokens _ hmem t ht, htext, hline⟩,
    Bool.eq_false_iff.mpr hunbound.1, hunbound.2⟩

/-- **Scoping is exact.**  A program that is scoped in an environment never lacks a name when it is
run there, and a program that succeeds there is scoped.  The name that a run lacks occurs free in
the statement that fails, as an identifier on the line of the error, and neither the environment nor
a declaration before that statement gives it a value. -/
theorem run_scoping {p : Program} (hp : p.IsRead) (env : Environment) :
    (p.IsScoped env → ∀ name line, (p.run env).result ≠ .error ⟨.unbound name, line⟩) ∧
    (∀ v, (p.run env).result = .ok v → p.IsScoped env) ∧
    (∀ name line, (p.run env).result = .error ⟨.unbound name, line⟩ →
      ∃ k, ∃ hk : k < p.statements.length,
        FailsAt p.statements env (k + 1) ⟨.unbound name, line⟩ (p.run env).env ∧
        (∃ t ∈ p.statements[k].freeTokens, t.kind = .ident ∧ t.text = name ∧ t.line = line) ∧
        env.contains name = false ∧ name ∉ declaredNames (p.statements.take k)) := by
  refine ⟨?_, fun _ => Program.isScoped_of_ok hp, fun _ _ => Program.exists_free_of_unbound hp⟩
  intro hscoped name line herror
  obtain ⟨k, hk, -, ⟨t, ht, -, rfl, -⟩, hunbound, hundeclared⟩ :=
    Program.exists_free_of_unbound hp herror
  rcases hscoped k hk t ht with hbound | hdeclared
  · rw [hbound] at hunbound
    cases hunbound
  · exact hundeclared hdeclared

/-- The name of a `let` is not in scope behind it.  So the last of these statements lacks `y`, and
the program is scoped only where `y` has a value. -/
theorem run_scoping_behind_let :
    ∃ p, parse "val x := 1;\nval x := let y := x in\n y + x;\nx + y;" = .ok p ∧
      (p.run .empty).result = .error ⟨.unbound "y", 4⟩ ∧ ¬ p.IsScoped .empty ∧
      p.IsScoped (Environment.empty.bind "y" (.int 5)) := by
  have hp : parse "val x := 1;\nval x := let y := x in\n y + x;\nx + y;" =
      .ok ⟨[.val "x" (.literal ⟨.intLit, "1", 1⟩) 1,
        .val "x" (.letIn "y" (.ident ⟨.ident, "x", 2⟩)
          (.binary (.arith .add) (.ident ⟨.ident, "y", 3⟩) (.ident ⟨.ident, "x", 3⟩) 3) 3) 3,
        .binary (.arith .add) (.ident ⟨.ident, "x", 4⟩) (.ident ⟨.ident, "y", 4⟩) 4], 4⟩ := by
    decide +kernel
  have hread := Program.isRead_of_parse hp
  obtain ⟨hscoped, -, -⟩ := run_scoping hread .empty
  obtain ⟨-, hsucceeds, -⟩ := run_scoping hread (Environment.empty.bind "y" (.int 5))
  exact ⟨_, hp, rfl, fun h => hscoped h "y" 4 rfl, hsucceeds (some (.int 7)) rfl⟩

end LetCalc
