import LetCalc.Proofs.Scope

/-!
# Free names are all that counts, and each of them does

Without declarations a tree takes nothing from its environment but the values of its free names.
Two environments may differ in any other name, also in one that a `let` of the tree binds: the tree
has the same value in both, or the same error on the same line.

The free names cannot be made fewer.  Every part of a tree is evaluated, so a tree that has a value
has looked all of them up, and without one of them it has none.  What it lacks then is just that
name, and it lacks it where the name first occurs free (`Expr.result_of_lacks`).

Main statement: `eval_free_names`.
-/

namespace LetCalc

/-! ### An environment without a name -/

/-- `env'.Lacks x env`: the environment `env'` is `env` without a value for `x`. -/
structure Environment.Lacks (env' : Environment) (x : String) (env : Environment) : Prop where
  missing : env'.lookup x = none
  other : ∀ y, y ≠ x → env'.lookup y = env.lookup y

namespace Environment.Lacks

variable {env env' : Environment} {x : String}

/-- An environment without a name lacks what the first binding of the name adds. -/
theorem of_bind (h : env.lookup x = none) (v : Value) : env.Lacks x (env.bind x v) where
  missing := h
  other := by
    intro y hy
    rw [lookup_bind, if_neg hy]

/-- A binding of another name is one in both. -/
theorem bind (h : env'.Lacks x env) {name : String} (hname : name ≠ x) (v : Value) :
    (env'.bind name v).Lacks x (env.bind name v) where
  missing := by rw [lookup_bind, if_neg hname.symm, h.missing]
  other := by
    intro y hy
    rw [lookup_bind, lookup_bind, h.other y hy]

end Environment.Lacks

/-! ### The first free occurrence of a name -/

/-- The first free occurrence of a name in a tree. -/
def Expr.firstFree? (e : Expr) (x : String) : Option Token :=
  e.freeTokens.find? (·.text == x)

namespace Expr

variable {e : Expr} {x : String} {t : Token}

/-- If there is no first free token of a name, then there is none. -/
theorem ne_of_firstFree?_eq_none (h : e.firstFree? x = none) : ∀ t ∈ e.freeTokens, t.text ≠ x := by
  intro t ht
  have hne := List.find?_eq_none.mp h t ht
  simpa using hne

/-- A `let` hides the name that it binds from its body, and no other. -/
theorem firstFree?_letIn (name : String) (bound body : Expr) (line : Nat) :
    (letIn name bound body line).firstFree? x =
      (bound.firstFree? x).or (if name = x then none else body.firstFree? x) := by
  have hbody : (body.freeTokens.filter (·.text != name)).find? (·.text == x) =
      if name = x then none else body.firstFree? x := by
    rw [List.find?_filter]
    by_cases hname : name = x
    · rw [if_pos hname, List.find?_eq_none]
      intro t _
      simp [hname]
    · rw [if_neg hname, firstFree?]
      congr 1
      funext t
      by_cases ht : t.text = x
      · simp [ht, Ne.symm hname]
      · simp [ht]
  rw [firstFree?, freeTokens, List.find?_append, hbody]
  rfl

/-- The left side of an operator comes first. -/
theorem firstFree?_binary (op : BinaryOp) (left right : Expr) (line : Nat) :
    (binary op left right line).firstFree? x = (left.firstFree? x).or (right.firstFree? x) :=
  List.find?_append

theorem firstFree?_ident (t : Token) :
    (ident t).firstFree? x = if t.text = x then some t else none := by
  rw [firstFree?, freeTokens, List.find?_singleton]
  by_cases hx : t.text = x <;> simp [hx]

/-- A name that does not occur free can be taken away. -/
theorem result_eq_of_lacks (he : e.isPure = true) {env env' : Environment} (h : env'.Lacks x env)
    (hx : e.firstFree? x = none) : (e.eval env').result = (e.eval env).result := by
  apply result_congr he
  intro t ht
  exact h.other t.text (ne_of_firstFree?_eq_none hx t ht)

/-- A tree that has a value lacks a free name as soon as it is taken away, and it does so where the
name first occurs free. -/
theorem result_of_lacks (he : e.isPure = true) {env env' : Environment} (h : env'.Lacks x env)
    {v : Value} (hv : (e.eval env).result = .ok v) (ht : e.firstFree? x = some t) :
    (e.eval env').result = .error ⟨.unbound x, t.line⟩ := by
  induction e generalizing env env' v with
  | val name value line ih => cases he
  | letIn name bound body line ihbound ihbody =>
      obtain ⟨hbound, hbody⟩ := (Bool.and_eq_true _ _).mp he
      rw [result_letIn hbound, bind_eq_ok] at hv
      obtain ⟨u, hu, hv⟩ := hv
      rw [firstFree?_letIn] at ht
      rw [result_letIn hbound, bind_eq_error]
      cases hfirst : bound.firstFree? x with
      | some t' =>
          rw [hfirst] at ht
          cases ht
          exact .inl (ihbound hbound h hu hfirst)
      | none =>
          -- so the bound value is there, and the name is free in the body, which cannot bind it
          rw [hfirst, Option.none_or] at ht
          have hname : name ≠ x := by
            intro hname
            rw [if_pos hname] at ht
            cases ht
          rw [if_neg hname] at ht
          refine .inr ⟨u, ?_, ihbody hbody (h.bind hname u) hv ht⟩
          rw [result_eq_of_lacks hbound h hfirst, hu]
  | binary op left right line ihleft ihright =>
      obtain ⟨hleft, hright⟩ := (Bool.and_eq_true _ _).mp he
      rw [result_binary hleft, bind_eq_ok] at hv
      obtain ⟨a, ha, hv⟩ := hv
      obtain ⟨b, hb, -⟩ := bind_eq_ok.mp hv
      rw [firstFree?_binary] at ht
      rw [result_binary hleft, bind_eq_error]
      cases hfirst : left.firstFree? x with
      | some t' =>
          rw [hfirst] at ht
          cases ht
          exact .inl (ihleft hleft h ha hfirst)
      | none =>
          rw [hfirst, Option.none_or] at ht
          refine .inr ⟨a, ?_, bind_eq_error.mpr (.inl (ihright hright h hb ht))⟩
          rw [result_eq_of_lacks hleft h hfirst, ha]
  | unary op operand line ih =>
      rw [result_unary, bind_eq_ok] at hv
      obtain ⟨a, ha, -⟩ := hv
      rw [result_unary, bind_eq_error]
      exact .inl (ih he h ha ht)
  | literal t' => cases ht
  | ident t' =>
      rw [firstFree?_ident] at ht
      by_cases hx : t'.text = x
      · rw [if_pos hx] at ht
        cases ht
        rw [result_ident, hx, h.missing]
      · rw [if_neg hx] at ht
        cases ht

end Expr

/-- **An evaluation depends on free names, and on each of them.**  Let a tree have no declarations.
In every environment that agrees with `env` on the names that occur free in the tree, it has the
same value as in `env`, or the same error on the same line, and leaves that environment as it is.
But if it has a value in `env`, then without one of these names it fails for want of that name, on
the line where the name first occurs free. -/
theorem eval_free_names {e : Expr} (he : e.isPure = true) (env : Environment) :
    (∀ env', (∀ t ∈ e.freeTokens, env'.lookup t.text = env.lookup t.text) →
      e.eval env' = ⟨(e.eval env).result, env'⟩) ∧
    (∀ v x t env', (e.eval env).result = .ok v → e.firstFree? x = some t → env'.Lacks x env →
      e.eval env' = ⟨.error ⟨.unbound x, t.line⟩, env'⟩) := by
  constructor
  · intro env' hagree
    obtain ⟨r, hr⟩ := Expr.exists_eval_of_isPure he env'
    have hsame := Expr.result_congr he hagree
    rw [hr] at hsame ⊢
    rw [← hsame]
  · intro v x t env' hv ht hlacks
    obtain ⟨r, hr⟩ := Expr.exists_eval_of_isPure he env'
    have hfails := Expr.result_of_lacks he hlacks hv ht
    rw [hr] at hfails ⊢
    rw [← hfails]

/-- In `(let x := y in x * z) + y` the name `x` is hidden, so that it can be a truth value outside.
Without `z` the tree fails on line 2. -/
theorem eval_free_names_shadowed :
    let var (name : String) (line : Nat) : Expr := .ident ⟨.ident, name, line⟩
    let e : Expr := .binary (.arith .add)
      (.letIn "x" (var "y" 1) (.binary (.arith .mul) (var "x" 2) (var "z" 2) 2) 2) (var "y" 3) 3
    let lower := Environment.empty.bind "y" (.int 3)
    let env := lower.bind "z" (.int 4)
    e.isPure = true ∧ (e.eval env).result = .ok (.int 15) ∧
      e.eval (env.bind "x" (.bool true)) = ⟨.ok (.int 15), env.bind "x" (.bool true)⟩ ∧
      e.eval lower = ⟨.error ⟨.unbound "z", 2⟩, lower⟩ := by
  intro var e lower env
  have hpure : e.isPure = true := rfl
  have hvalue : (e.eval env).result = .ok (.int 15) := rfl
  obtain ⟨hagree, hlacks⟩ := eval_free_names hpure env
  refine ⟨hpure, hvalue, hagree _ ?_, ?_⟩
  · have hfree : ∀ t ∈ e.freeTokens, t.text ≠ "x" := by decide
    intro t ht
    rw [Environment.lookup_bind, if_neg (hfree t ht)]
  · exact hlacks _ "z" ⟨.ident, "z", 2⟩ _ hvalue rfl (.of_bind rfl _)

end LetCalc
