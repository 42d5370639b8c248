import LetCalc.Proofs.Scope

/-!
# Bound names can be renamed

The name that a `let` binds is its own affair: with another name in its place, in the `let` and
where it is free in the body, the `let` has the same outcome.  The new name must not occur in the
body.  Outside either name may have any value, or none.

There is no chain of scopes that would make this plain.  A `let` overwrites one name in a copy of
the whole environment, so the two bodies are evaluated in environments that differ in two names: the
one has overwritten the old name, the other the new one.  What holds between them (`Renames`) is
kept by every `let` inside, up to one that binds the old name itself.  Below that one nothing is
renamed, and the two agree on all that is used there.

Main statement: `eval_letIn_rename`.
-/

namespace LetCalc

/-! ### Names in a tree -/

/-- All names that occur in a tree: where a name is used, and where one is bound. -/
def Expr.names : Expr → List String
  | val name value _ => name :: value.names
  | letIn name bound body _ => name :: (bound.names ++ body.names)
  | binary _ left right _ => left.names ++ right.names
  | unary _ operand _ => operand.names
  | literal _ => []
  | ident token => [token.text]

/-- A token with the text `z` if its text was `x`. -/
def Token.rename (x z : String) (t : Token) : Token :=
  if t.text = x then { t with text := z } else t

/-- A tree with `z` wherever `x` occurs free.  A `let` that binds `x` hides it from its body. -/
def Expr.rename (x z : String) : Expr → Expr
  | val name value line => .val name (value.rename x z) line
  | letIn name bound body line =>
    .letIn name (bound.rename x z) (if name = x then body else body.rename x z) line
  | binary op left right line => .binary op (left.rename x z) (right.rename x z) line
  | unary op operand line => .unary op (operand.rename x z) line
  | literal token => .literal token
  | ident token => .ident (token.rename x z)

/-- In `x + (let x := x in x)` two of the names are free. -/
example :
    let x : Expr := .ident ⟨.ident, "x", 1⟩
    let z : Expr := .ident ⟨.ident, "z", 1⟩
    (Expr.binary (.arith .add) x (.letIn "x" x x 1) 1).rename "x" "z" =
      .binary (.arith .add) z (.letIn "x" z x 1) 1 :=
  rfl

namespace Expr

variable {x z : String} {e : Expr}

theorem text_mem_names {t : Token} (ht : t ∈ e.freeTokens) : t.text ∈ e.names := by
  induction e with
  | val name value line ih => exact List.mem_cons_of_mem _ (ih ht)
  | letIn name bound body line ihbound ihbody =>
      refine List.mem_cons_of_mem _ (List.mem_append.mpr ?_)
      rcases List.mem_append.mp ht with hbound | hbody
      · exact .inl (ihbound hbound)
      · exact .inr (ihbody (List.mem_filter.mp hbody).1)
  | binary op left right line ihleft ihright =>
      exact List.mem_append.mpr ((List.mem_append.mp ht).imp ihleft ihright)
  | unary op operand line ih => exact ih ht
  | literal t => cases ht
  | ident t =>
      rw [List.mem_singleton.mp ht]
      exact List.mem_singleton.mpr rfl

theorem isPure_rename (he : e.isPure = true) : (e.rename x z).isPure = true := by
  induction e with
  | val name value line ih => cases he
  | letIn name bound body line ihbound ihbody =>
      obtain ⟨hbound, hbody⟩ := (Bool.and_eq_true _ _).mp he
      refine (Bool.and_eq_true _ _).mpr ⟨ihbound hbound, ?_⟩
      split
      · exact hbody
      · exact ihbody hbody
  | binary op left right line ihleft ihright =>
      obtain ⟨hleft, hright⟩ := (Bool.and_eq_true _ _).mp he
      exact (Bool.and_eq_true _ _).mpr ⟨ihleft hleft, ihright hright⟩
  | unary op operand line ih => exact ih he
  | literal t => rfl
  | ident t => rfl

end Expr

/-! ### Environments before and behind a renaming -/

/-- `Renames x z env env'`: the value of `x` in `env` is that of `z` in `env'`, and other names have
the same value in both.  Nothing is said of `z` in `env` and of `x` in `env'`. -/
structure Renames (x z : String) (env env' : Environment) : Prop where
  bound : ∃ v, env.lookup x = some v ∧ env'.lookup z = some v
  other : ∀ y, y ≠ x → y ≠ z → env'.lookup y = env.lookup y

namespace Renames

variable {x z : String} {env env' : Environment}

/-- Whatever the two names have been before. -/
theorem of_bind (x z : String) (env : Environment) (v : Value) :
    Renames x z (env.bind x v) (env.bind z v) where
  bound := ⟨v, by rw [Environment.lookup_bind, if_pos rfl],
    by rw [Environment.lookup_bind, if_pos rfl]⟩
  other := by
    intro y hx hz
    rw [Environment.lookup_bind, Environment.lookup_bind, if_neg hx, if_neg hz]

/-- A binding of any third name is one in both. -/
theorem bind (h : Renames x z env env') {name : String} (hx : name ≠ x) (hz : name ≠ z)
    (v : Value) : Renames x z (env.bind name v) (env'.bind name v) where
  bound := by
    obtain ⟨u, hu, hu'⟩ := h.bound
    refine ⟨u, ?_, ?_⟩
    · rw [Environment.lookup_bind, if_neg hx.symm, hu]
    · rw [Environment.lookup_bind, if_neg hz.symm, hu']
  other := by
    intro y hyx hyz
    rw [Environment.lookup_bind, Environment.lookup_bind, h.other y hyx hyz]

/-- A binding of the old name leaves no difference but in the new one. -/
theorem lookup_bind (h : Renames x z env env') (v : Value) {y : String} (hy : y ≠ z) :
    (env'.bind x v).lookup y = (env.bind x v).lookup y := by
  rw [Environment.lookup_bind, Environment.lookup_bind]
  by_cases hx : y = x
  · rw [if_pos hx, if_pos hx]
  · rw [if_neg hx, if_neg hx, h.other y hx hy]

end Renames

/-! ### Evaluation behind a renaming -/

/-- A tree without declarations has the same value, or the same error, when a name is renamed in it
and in the environment. -/
theorem Expr.result_rename {e : Expr} (he : e.isPure = true) {x z : String} (hz : z ∉ e.names)
    {env env' : Environment} (h : Renames x z env env') :
    ((e.rename x z).eval env').result = (e.eval env).result := by
  induction e generalizing env env' with
  | val name value line ih => cases he
  | letIn name bound body line ihbound ihbody =>
      obtain ⟨hbound, hbody⟩ := (Bool.and_eq_true _ _).mp he
      rw [names, List.mem_cons, List.mem_append, not_or, not_or] at hz
      obtain ⟨hname, hzbound, hzbody⟩ := hz
      rw [rename, result_letIn (isPure_rename hbound), result_letIn hbound,
        ihbound hbound hzbound h]
      refine congrArg _ (funext fun v => ?_)
      by_cases hx : name = x
      · -- the old name is hidden: the body is as it was, and does not use the new one
        subst hx
        rw [if_pos rfl]
        refine result_congr hbody ?_
        intro t ht
        refine h.lookup_bind v ?_
        rintro rfl
        exact hzbody (text_mem_names ht)
      · rw [if_neg hx]
        exact ihbody hbody hzbody (h.bind hx (Ne.symm hname) v)
  | binary op left right line ihleft ihright =>
      obtain ⟨hleft, hright⟩ := (Bool.and_eq_true _ _).mp he
      rw [names, List.mem_append, not_or] at hz
      rw [rename, result_binary (isPure_rename hleft), result_binary hleft, ihleft hleft hz.1 h,
        ihright hright hz.2 h]
  | unary op operand line ih => rw [rename, result_unary, result_unary, ih he hz h]
  | literal t =>
      rw [rename, eval, eval]
      split <;> rfl
  | ident t =>
      rw [names, List.mem_singleton] at hz
      rw [rename, result_ident, result_ident, Token.rename]
      by_cases hx : t.text = x
      · -- both names have a value, so that neither is named in an error
        obtain ⟨v, hv, hv'⟩ := h.bound
        rw [if_pos hx, hx, hv, hv']
      · rw [if_neg hx, h.other t.text hx (Ne.symm hz)]

/-- **A bound name can be renamed.**  Let the body of a `let` have no declaration, and let `z` not
occur in it.  Then the `let` can bind `z` instead of `x`, if `z` is put wherever `x` is free in the
body: it has the same value, or the same error, and leaves the same environment.  That holds in
every environment, and whatever expression is bound. -/
theorem eval_letIn_rename {x z : String} {body : Expr} (hbody : body.isPure = true)
    (hz : z ∉ body.names) (bound : Expr) (line : Nat) (env : Environment) :
    (Expr.letIn z bound (body.rename x z) line).eval env =
      (Expr.letIn x bound body line).eval env := by
  rw [Expr.eval, Expr.eval]
  refine congrArg _ (funext fun v => funext fun env₁ => ?_)
  rw [Expr.result_rename hbody hz (.of_bind x z env₁ v)]

/-- In `let x := (val y := 3) in x * (let x := x + y in x)` the name can be `z`, although `x` and
`z` have values outside, and `x` is bound once more inside. -/
theorem eval_letIn_rename_shadowed :
    let var (name : String) : Expr := .ident ⟨.ident, name, 1⟩
    let body (name : String) : Expr := .binary (.arith .mul) (var name)
      (.letIn "x" (.binary (.arith .add) (var name) (var "y") 1) (var "x") 1) 1
    let bound : Expr := .val "y" (.literal ⟨.intLit, "3", 1⟩) 1
    let env := (Environment.empty.bind "x" (.int 10)).bind "z" (.bool true)
    (body "x").isPure = true ∧ "z" ∉ (body "x").names ∧ (body "x").rename "x" "z" = body "z" ∧
      (Expr.letIn "z" bound (body "z") 1).eval env = ⟨.ok (.int 18), env.bind "y" (.int 3)⟩ := by
  intro var body bound env
  have hpure : (body "x").isPure = true := rfl
  have hz : "z" ∉ (body "x").names := by decide
  have hrename : (body "x").rename "x" "z" = body "z" := rfl
  have heval := eval_letIn_rename (x := "x") hpure hz bound 1 env
  rw [hrename] at heval
  exact ⟨hpure, hz, hrename, heval⟩

end LetCalc
