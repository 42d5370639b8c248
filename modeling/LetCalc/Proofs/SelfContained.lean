import LetCalc.Proofs.Bindings
import LetCalc.Proofs.Scope

/-!
# Programs that need no environment

A program that succeeds in an empty environment gives a value to every name before it uses it.  So
what else is bound, before or beside, has no part in it: it runs the same over any environment, and
leaves that environment with its own declarations over it.  This holds although a declaration may
bind a name again, and in terms of itself, as `val x := x + 1` does: the `x` on the right is the
program's own.

In particular, run again over what it has left, it has the same value and leaves the same.

Main statement: `run_override`.
-/

namespace LetCalc

/-- A name that the upper environment binds has the same value over any other. -/
theorem Environment.lookup_override_of_contains {upper : Environment} {x : String}
    (h : upper.contains x = true) (lower : Environment) :
    (lower.override upper).lookup x = upper.lookup x := by
  obtain ⟨v, hv⟩ := Option.isSome_iff_exists.mp h
  rw [lookup_override, hv]
  rfl

/-- One statement: what succeeds in an environment does the same over any other. -/
theorem Expr.eval_override {e : Expr} (he : e.isFlat = true) {env env' : Environment} {v : Value}
    (h : e.eval env = ⟨.ok v, env'⟩) (lower : Environment) :
    e.eval (lower.override env) = ⟨.ok v, lower.override env'⟩ := by
  have hpure := isPure_content he
  have hvalue : (e.content.eval env).result = .ok v := by rw [result_content, h]
  -- it has a value, so all its names are bound, and the two environments agree on them
  have hagree : (e.content.eval (lower.override env)).result = (e.content.eval env).result := by
    apply result_congr hpure
    intro t ht
    exact Environment.lookup_override_of_contains (contains_of_ok hpure hvalue t ht) lower
  rw [hvalue, result_content] at hagree
  rw [env_eq_of_ok he h, ← Environment.override_bindAll]
  rcases eval_cases he (lower.override env) with ⟨u, hok⟩ | ⟨err, herror⟩
  · rw [hok] at hagree
    cases hagree
    exact hok
  · rw [herror] at hagree
    cases hagree

/-- The whole run, by the step for each of its statements. -/
theorem Succeed.override {es : List Expr} {env env' : Environment} {vs : List Value}
    (h : Succeed es env vs env') (hes : ∀ e ∈ es, e.isFlat = true) (lower : Environment) :
    Succeed es (lower.override env) vs (lower.override env') := by
  induction h with
  | nil => exact .nil
  | cons heval hs ih =>
      obtain ⟨he, hes⟩ := List.forall_mem_cons.mp hes
      exact .cons (Expr.eval_override he heval lower) (ih hes)

/-- **A program that needs no environment sees none.**  If it succeeds in an empty environment, then
it succeeds in any other with the same value, and leaves it with the same bindings over its own.
Run again over what it has left, it has the same value, and leaves the same. -/
theorem run_override {p : Program} (hp : p.IsRead) {r : Option Value} {left : Environment}
    (h : p.run .empty = ⟨.ok r, left⟩) :
    (∀ env, p.run env = ⟨.ok r, env.override left⟩) ∧ p.run left = ⟨.ok r, left⟩ := by
  obtain ⟨vs, hall, rfl⟩ := Program.exists_succeed (congrArg Outcome.result h)
  rw [h] at hall
  have hover : ∀ env, p.run env = ⟨.ok vs.getLast?, env.override left⟩ := by
    intro env
    have hrun := (hall.override hp.isFlat env).evalAll_eq
    rw [Environment.override_empty] at hrun
    exact hrun
  refine ⟨hover, ?_⟩
  have hagain := hover left
  rwa [Environment.override_self] at hagain

/-- A name that is bound twice, and shadowed, over an environment in which it is a truth value. -/
theorem run_override_rebound :
    ∃ p, parse "val x := 1; val x := x + 1; let x := x * x in x + x;" = .ok p ∧
      p.run .empty = ⟨.ok (some (.int 8)), Environment.empty.bind "x" (.int 2)⟩ ∧
      p.run ((Environment.empty.bind "x" (.bool true)).bind "y" (.int 5)) =
        ⟨.ok (some (.int 8)), (Environment.empty.bind "x" (.int 2)).bind "y" (.int 5)⟩ ∧
      p.run (Environment.empty.bind "x" (.int 2)) =
        ⟨.ok (some (.int 8)), Environment.empty.bind "x" (.int 2)⟩ := by
  obtain ⟨p, hp, hrun⟩ : ∃ p, parse "val x := 1; val x := x + 1; let x := x * x in x + x;" = .ok p ∧
      p.run .empty = ⟨.ok (some (.int 8)), Environment.empty.bind "x" (.int 2)⟩ :=
    ⟨⟨[.val "x" (.literal ⟨.intLit, "1", 1⟩) 1,
        .val "x" (.binary (.arith .add) (.ident ⟨.ident, "x", 1⟩) (.literal ⟨.intLit, "1", 1⟩) 1) 1,
        .letIn "x"
          (.binary (.arith .mul) (.ident ⟨.ident, "x", 1⟩) (.ident ⟨.ident, "x", 1⟩) 1)
          (.binary (.arith .add) (.ident ⟨.ident, "x", 1⟩) (.ident ⟨.ident, "x", 1⟩) 1) 1], 1⟩,
      by decide +kernel, rfl⟩
  obtain ⟨hover, hagain⟩ := run_override (Program.isRead_of_parse hp) hrun
  exact ⟨p, hp, hrun, hover _, hagain⟩

end LetCalc
