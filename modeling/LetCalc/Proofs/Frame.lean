import LetCalc.Proofs.Scope

/-!
# What an evaluation may change

The reader puts declarations at the top of statements only, but a tree may have them anywhere: in an
operand, in the value of another declaration, on either side of the `in` of a `let`.  An evaluation
works on one environment, which it hands on from part to part, and it may fail at any depth.  Still
it can be told from the tree which names may change.

A declaration in the body of a `let` binds in an environment that is dropped, so it changes nothing
outside.  The names of all other declarations are **exposed**.  Only exposed names change, no name
loses its value, and an evaluation that succeeds has bound every exposed name.

The first two facts hold of each step of an evaluation and go over to steps in a row, also if the
second one is never made (`Outcome.Frames.andThen`); the third needs that all steps are made.

Main statement: `eval_frame`.
-/

namespace LetCalc

/-! ### Exposed names -/

/-- The names that a tree **exposes**: those of its declarations, except in the body of a `let`, in
the order in which they are bound. -/
def Expr.exposed : Expr → List String
  | val name value _ => value.exposed ++ [name]
  | letIn _ bound _ _ => bound.exposed
  | binary _ left right _ => left.exposed ++ right.exposed
  | unary _ operand _ => operand.exposed
  | literal _ => []
  | ident _ => []

/-! ### Environments that have grown -/

/-- `env.Grows xs env'`: only the names `xs` differ in `env'`, and none has lost its value. -/
structure Environment.Grows (env : Environment) (xs : List String) (env' : Environment) :
    Prop where
  frame : ∀ x, x ∉ xs → env'.lookup x = env.lookup x
  keeps : ∀ x, env.contains x = true → env'.contains x = true

namespace Environment.Grows

variable {env env₁ env₂ : Environment} {xs ys : List String}

theorem refl (env : Environment) (xs : List String) : env.Grows xs env where
  frame := fun _ _ => rfl
  keeps := fun _ hx => hx

theorem trans (h₁ : env.Grows xs env₁) (h₂ : env₁.Grows ys env₂) : env.Grows (xs ++ ys) env₂ where
  frame := by
    intro x hx
    rw [List.mem_append, not_or] at hx
    rw [h₂.frame x hx.2, h₁.frame x hx.1]
  keeps := fun x hx => h₂.keeps x (h₁.keeps x hx)

theorem bind (env : Environment) (name : String) (v : Value) :
    env.Grows [name] (env.bind name v) where
  frame := by
    intro x hx
    rw [List.mem_singleton] at hx
    rw [lookup_bind, if_neg hx]
  keeps := fun _ hx => contains_bind.mpr (.inr hx)

end Environment.Grows

/-! ### Outcomes within a frame -/

/-- `o.Frames env xs`: the outcome `o` of an evaluation in `env` has changed the names `xs` only,
has left no name without its value, and has bound all of `xs` if it is a success. -/
structure Outcome.Frames {α : Type} (o : Outcome α) (env : Environment) (xs : List String) :
    Prop where
  grows : env.Grows xs o.env
  binds : ∀ a, o.result = .ok a → ∀ x ∈ xs, o.env.contains x = true

namespace Outcome.Frames

variable {α β : Type} {env : Environment} {xs ys : List String}

/-- An outcome that leaves the environment alone. -/
theorem same (result : Except EvalError α) (env : Environment) :
    Outcome.Frames ⟨result, env⟩ env [] where
  grows := .refl env []
  binds := fun _ _ => List.forall_mem_nil _

/-- Steps in a row change what either of them changes.  If the first one fails, then what the second
one would have changed is as it was. -/
theorem andThen {o : Outcome α} {f : α → Environment → Outcome β} (ho : o.Frames env xs)
    (hf : ∀ a, (f a o.env).Frames o.env ys) : (o.andThen f).Frames env (xs ++ ys) := by
  obtain ⟨result, env₁⟩ := o
  cases result with
  | error err => exact ⟨ho.grows.trans (.refl env₁ ys), fun _ hok => by cases hok⟩
  | ok a =>
      refine ⟨ho.grows.trans (hf a).grows, ?_⟩
      intro b hok
      refine List.forall_mem_append.mpr ⟨?_, (hf a).binds b hok⟩
      intro x hx
      exact (hf a).grows.keeps x (ho.binds a rfl x hx)

end Outcome.Frames

/-- An evaluation stays within the exposed names of its tree. -/
theorem Expr.eval_frames (e : Expr) (env : Environment) : (e.eval env).Frames env e.exposed := by
  induction e generalizing env with
  | val name value line ih =>
      refine (ih env).andThen fun v => ⟨.bind _ name v, ?_⟩
      intro _ _
      exact List.forall_mem_singleton.mpr (Environment.contains_bind.mpr (.inl rfl))
  | letIn name bound body line ihbound ihbody =>
      -- whatever the body does is done to an environment of its own
      have hframes := (ihbound env).andThen fun v =>
        .same (body.eval ((bound.eval env).env.bind name v)).result _
      rwa [List.append_nil] at hframes
  | binary op left right line ihleft ihright =>
      refine (ihleft env).andThen fun a => ?_
      have hframes := (ihright (left.eval env).env).andThen fun b =>
        .same (atLine line (op.apply a b)) _
      rwa [List.append_nil] at hframes
  | unary op operand line ih =>
      have hframes := (ih env).andThen fun a => .same (atLine line (op.apply a)) _
      rwa [List.append_nil] at hframes
  | literal t =>
      rw [eval]
      split <;> exact .same _ env
  | ident t =>
      rw [eval]
      split <;> exact .same _ env

/-- **An evaluation changes exposed names only.**  Whether it succeeds or fails, every name that the
tree does not expose has the value it had before, or none as before, and no name loses its value.
If it succeeds, every exposed name is bound.  A tree without declarations leaves the environment as
it was. -/
theorem eval_frame (e : Expr) (env : Environment) :
    (∀ x, x ∉ e.exposed → (e.eval env).env.lookup x = env.lookup x) ∧
    (∀ x, env.contains x = true → (e.eval env).env.contains x = true) ∧
    (∀ v, (e.eval env).result = .ok v → ∀ x ∈ e.exposed, (e.eval env).env.contains x = true) ∧
    (e.isPure = true → (e.eval env).env = env) := by
  have hframes := e.eval_frames env
  exact ⟨hframes.grows.frame, hframes.grows.keeps, hframes.binds,
    fun hpure => Expr.env_eval_of_isPure hpure env⟩

/-- Of `(val a := let b := (val c := 1) in (val d := 2)) + y` the names `c` and `a` are exposed, and
they outlive the error that `y` has no value. -/
example :
    let one : Expr := .val "c" (.literal ⟨.intLit, "1", 1⟩) 1
    let two : Expr := .val "d" (.literal ⟨.intLit, "2", 1⟩) 1
    let e : Expr := .binary (.arith .add) (.val "a" (.letIn "b" one two 1) 1)
      (.ident ⟨.ident, "y", 1⟩) 1
    e.exposed = ["c", "a"] ∧ (e.eval .empty).result = .error ⟨.unbound "y", 1⟩ ∧
      (e.eval .empty).env.bindings = [("a", .int 2), ("c", .int 1)] :=
  ⟨rfl, rfl, rfl⟩

end LetCalc
