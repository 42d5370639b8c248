import LetCalc.Proofs.Bindings
import LetCalc.Proofs.Scope

/-!
# Independent declarations commute

Two declarations in a row are **independent** if they declare different names and neither uses the
name of the other.  Then each has the value that it would have in front of both
(`Independent.succeed_iff`), so they can change places: if both succeed in one order, they do in the
other, and leave the same bindings.

What follows cannot tell the two orders apart, since a run goes on from the bindings alone
(`Succeed.rejoin`).  Only where nothing follows does it show which of the two was last.  Where one
of them fails the orders do differ: in the error, if both would fail, and in what is bound before.

Main statement: `run_swap`.
-/

namespace LetCalc

/-! ### Runs in parts -/

namespace Succeed

variable {es fs : List Expr} {env env₁ env' : Environment} {us vs : List Value}

/-- Statements that succeed one after the other succeed together. -/
theorem append (h : Succeed es env us env₁) (h' : Succeed fs env₁ vs env') :
    Succeed (es ++ fs) env (us ++ vs) env' := by
  induction h with
  | nil => exact h'
  | cons heval hs ih => exact .cons heval (ih h')

/-- If statements succeed together, the first of them do, and then the others. -/
theorem exists_parts (h : Succeed (es ++ fs) env vs env') :
    ∃ us ws env₁, vs = us ++ ws ∧ Succeed es env us env₁ ∧ Succeed fs env₁ ws env' := by
  induction es generalizing env vs with
  | nil => exact ⟨[], vs, env, rfl, .nil, h⟩
  | cons e es ih =>
      cases h with
      | @cons _ _ _ env₂ _ v vs heval hs =>
          obtain ⟨us, ws, env₁, rfl, hes, hfs⟩ := ih hs
          exact ⟨v :: us, ws, env₁, rfl, .cons heval hes, hfs⟩

/-- Statements that succeed do not fail. -/
theorem not_failsAt (h : Succeed es env vs env') {k : Nat} {err : EvalError} :
    ¬ FailsAt es env k err env₁ := by
  intro hfails
  have hrun := h.evalAll_eq
  rw [hfails.evalAll_eq none] at hrun
  cases hrun

/-- Two runs that have come to the same bindings go on alike.  If anything follows, they also have
the same value. -/
theorem rejoin (h : Succeed es env us env') (h' : Succeed fs env vs env') (after : List Expr) :
    (evalAll (fs ++ after) none env).env = (evalAll (es ++ after) none env).env ∧
    (∀ err, (evalAll (fs ++ after) none env).result = .error err ↔
      (evalAll (es ++ after) none env).result = .error err) ∧
    (after ≠ [] →
      (evalAll (fs ++ after) none env).result = (evalAll (es ++ after) none env).result) := by
  rw [h.evalAll_append, h'.evalAll_append]
  cases after with
  | nil =>
      refine ⟨rfl, ?_, fun hne => absurd rfl hne⟩
      intro err
      constructor <;> intro herror <;> cases herror
  | cons e after => exact ⟨rfl, fun err => Iff.rfl, fun _ => rfl⟩

end Succeed

namespace FailsAt

variable {es fs : List Expr} {env env₁ env' : Environment} {k : Nat} {err : EvalError}

/-- The statement that fails is one of them. -/
theorem bounds (h : FailsAt es env k err env') : 0 < k ∧ k ≤ es.length := by
  induction h with
  | here heval => exact ⟨Nat.one_pos, Nat.succ_le_succ (Nat.zero_le _)⟩
  | later heval hs ih => exact ⟨Nat.succ_pos _, Nat.succ_le_succ ih.2⟩

/-- What follows a statement that fails has no part in it. -/
theorem append (h : FailsAt es env k err env') (fs : List Expr) :
    FailsAt (es ++ fs) env k err env' := by
  induction h with
  | here heval => exact .here heval
  | later heval hs ih => exact .later heval ih

/-- Behind statements that succeed the number of the one that fails is moved up. -/
theorem behind {us : List Value} (hes : Succeed es env us env₁) (h : FailsAt fs env₁ k err env') :
    FailsAt (es ++ fs) env (es.length + k) err env' := by
  induction hes with
  | nil => simpa using h
  | @cons e es env env₂ env₁ v us heval hs ih =>
      have hlater := FailsAt.later heval (ih h)
      rwa [Nat.add_right_comm] at hlater

end FailsAt

/-- A run fails at one of some statements in a row if those before them succeed and they do not. -/
theorem exists_failsAt_within_iff (before es after : List Expr) (env : Environment) :
    (∃ k err env', before.length < k ∧ k ≤ before.length + es.length ∧
      FailsAt (before ++ (es ++ after)) env k err env') ↔
    ∃ us env₁, Succeed before env us env₁ ∧ ¬ ∃ vs env', Succeed es env₁ vs env' := by
  constructor
  · rintro ⟨k, err, env', hlow, hhigh, hfails⟩
    -- the failure is the only one, so it is not before these statements and not behind them
    rcases succeed_or_failsAt before env with ⟨us, env₁, hbefore⟩ | ⟨j, err', env₁, hbefore⟩
    · refine ⟨us, env₁, hbefore, ?_⟩
      rintro ⟨vs, env₂, hes⟩
      rcases succeed_or_failsAt after env₂ with ⟨ws, env₃, hafter⟩ | ⟨j, err', env₃, hafter⟩
      · exact (hbefore.append (hes.append hafter)).not_failsAt hfails
      · have hlate := FailsAt.behind hbefore (FailsAt.behind hes hafter)
        have hk := (hfails.unique hlate).1
        have hj := hafter.bounds
        omega
    · have hk := (hfails.unique (hbefore.append _)).1
      have hj := hbefore.bounds
      omega
  · rintro ⟨us, env₁, hbefore, hes⟩
    rcases succeed_or_failsAt es env₁ with ⟨vs, env', hall⟩ | ⟨j, err, env', hfails⟩
    · exact absurd ⟨vs, env', hall⟩ hes
    · have hj := hfails.bounds
      exact ⟨_, err, env', by omega, by omega, FailsAt.behind hbefore (hfails.append after)⟩

/-! ### Two declarations -/

/-- Bindings of different names can be made in either order. -/
theorem Environment.bind_comm {x y : String} (hxy : x ≠ y) (env : Environment) (v w : Value) :
    (env.bind x v).bind y w = (env.bind y w).bind x v := by
  apply ext_lookup
  intro z
  rw [lookup_bind, lookup_bind, lookup_bind, lookup_bind]
  by_cases hz : z = y
  · rw [if_pos hz, if_neg (hz ▸ hxy.symm), if_pos hz]
  · rw [if_neg hz, if_neg hz]

/-- A binding of a name that does not occur free makes no difference. -/
theorem Expr.result_bind {e : Expr} (he : e.isPure = true) {x : String}
    (hx : ∀ t ∈ e.freeTokens, t.text ≠ x) (env : Environment) (v : Value) :
    (e.eval (env.bind x v)).result = (e.eval env).result := by
  apply result_congr he
  intro t ht
  rw [Environment.lookup_bind, if_neg (hx t ht)]

/-- A declaration of a pure expression binds its value and does nothing else. -/
theorem Expr.eval_val_eq_ok {a : Expr} (ha : a.isPure = true) {x : String} {m : Nat}
    {env env' : Environment} {v : Value} :
    (val x a m).eval env = ⟨.ok v, env'⟩ ↔ (a.eval env).result = .ok v ∧ env' = env.bind x v := by
  obtain ⟨r, hr⟩ := exists_eval_of_isPure ha env
  rw [eval, hr]
  cases r with
  | error err => simp [Outcome.andThen]
  | ok u =>
      simp only [Outcome.andThen, Outcome.mk.injEq, Except.ok.injEq]
      constructor
      · rintro ⟨rfl, rfl⟩
        exact ⟨rfl, rfl⟩
      · rintro ⟨rfl, rfl⟩
        exact ⟨rfl, rfl⟩

/-- The declarations of `x` as `a` and of `y` as `b` are **independent**: the names differ, and
neither occurs free in the value of the other. -/
structure Independent (x : String) (a : Expr) (y : String) (b : Expr) : Prop where
  ne : x ≠ y
  left : ∀ t ∈ a.freeTokens, t.text ≠ y
  right : ∀ t ∈ b.freeTokens, t.text ≠ x

namespace Independent

variable {x y : String} {a b : Expr} {m n : Nat} {env env' : Environment} {vs : List Value}

theorem symm (h : Independent x a y b) : Independent y b x a :=
  ⟨h.ne.symm, h.right, h.left⟩

/-- Independent declarations succeed with the values that they have in front of both. -/
theorem succeed_iff (h : Independent x a y b) (ha : a.isPure = true) (hb : b.isPure = true) :
    Succeed [.val x a m, .val y b n] env vs env' ↔
      ∃ v w, (a.eval env).result = .ok v ∧ (b.eval env).result = .ok w ∧ vs = [v, w] ∧
        env' = (env.bind x v).bind y w := by
  constructor
  · rintro (_ | ⟨hx, _ | ⟨hy, _ | _⟩⟩)
    obtain ⟨hv, rfl⟩ := (Expr.eval_val_eq_ok ha).mp hx
    obtain ⟨hw, rfl⟩ := (Expr.eval_val_eq_ok hb).mp hy
    rw [Expr.result_bind hb h.right] at hw
    exact ⟨_, _, hv, hw, rfl, rfl⟩
  · rintro ⟨v, w, hv, hw, rfl, rfl⟩
    rw [← Expr.result_bind hb h.right env v] at hw
    refine .cons ((Expr.eval_val_eq_ok ha).mpr ⟨hv, rfl⟩) ?_
    exact .cons ((Expr.eval_val_eq_ok hb).mpr ⟨hw, rfl⟩) .nil

/-- If they succeed in one order, they do in the other, with the same values and the same
bindings. -/
theorem succeed_swap (h : Independent x a y b) (ha : a.isPure = true) (hb : b.isPure = true)
    (hs : Succeed [.val x a m, .val y b n] env vs env') :
    ∃ v w, vs = [v, w] ∧ Succeed [.val y b n, .val x a m] env [w, v] env' := by
  obtain ⟨v, w, hv, hw, rfl, rfl⟩ := (h.succeed_iff ha hb).mp hs
  refine ⟨v, w, rfl, (h.symm.succeed_iff hb ha).mpr ⟨w, v, hw, hv, rfl, ?_⟩⟩
  exact Environment.bind_comm h.ne env v w

/-- Independent declarations succeed in one order exactly if they do in the other. -/
theorem exists_succeed_iff (h : Independent x a y b) (ha : a.isPure = true)
    (hb : b.isPure = true) :
    (∃ vs env', Succeed [.val x a m, .val y b n] env vs env') ↔
      ∃ vs env', Succeed [.val y b n, .val x a m] env vs env' := by
  constructor
  · rintro ⟨vs, env', hs⟩
    obtain ⟨v, w, -, hswapped⟩ := h.succeed_swap ha hb hs
    exact ⟨[w, v], env', hswapped⟩
  · rintro ⟨vs, env', hs⟩
    obtain ⟨w, v, -, hswapped⟩ := h.symm.succeed_swap hb ha hs
    exact ⟨[v, w], env', hswapped⟩

end Independent

/-! ### Programs -/

/-- **Independent declarations commute.**  In a program that has been read let two declarations
stand in a row that are independent, and let another program have them in the other order.  If a run
gets to both and they succeed, then in the other order they succeed too, with the same values, and
leave the same bindings.  The whole runs then end with the same bindings, have the same error or
both have none, and have the same value if anything follows the two.  And one of the runs fails at
one of the two declarations exactly if the other one does. -/
theorem run_swap {p q : Program} (hp : p.IsRead) {before after : List Expr} {x y : String}
    {a b : Expr} {m n : Nat} (hxy : p.statements = before ++ .val x a m :: .val y b n :: after)
    (hyx : q.statements = before ++ .val y b n :: .val x a m :: after)
    (h : Independent x a y b) (env : Environment) :
    (∀ vs env', Succeed (before ++ [.val x a m, .val y b n]) env vs env' →
      (∃ us v w, vs = us ++ [v, w] ∧
        Succeed (before ++ [.val y b n, .val x a m]) env (us ++ [w, v]) env') ∧
      (q.run env).env = (p.run env).env ∧
      (∀ err, (q.run env).result = .error err ↔ (p.run env).result = .error err) ∧
      (after ≠ [] → (q.run env).result = (p.run env).result)) ∧
    ((∃ k err env', before.length < k ∧ k ≤ before.length + 2 ∧
        FailsAt p.statements env k err env') ↔
      ∃ k err env', before.length < k ∧ k ≤ before.length + 2 ∧
        FailsAt q.statements env k err env') := by
  obtain ⟨ha, hb⟩ : a.isPure = true ∧ b.isPure = true := by
    have hflat := hp.isFlat
    rw [hxy] at hflat
    exact ⟨hflat (.val x a m) (by simp), hflat (.val y b n) (by simp)⟩
  constructor
  · intro vs env' hs
    obtain ⟨us, ws, env₁, rfl, hbefore, hpair⟩ := hs.exists_parts
    obtain ⟨v, w, rfl, hswapped⟩ := h.succeed_swap ha hb hpair
    have hs' := hbefore.append hswapped
    refine ⟨⟨us, v, w, rfl, hs'⟩, ?_⟩
    have hrejoin := hs.rejoin hs' after
    rw [List.append_assoc, List.append_assoc] at hrejoin
    rw [Program.run, Program.run, hxy, hyx]
    exact hrejoin
  · -- both orders fail here if the two do not both succeed behind `before`
    have hfails := exists_failsAt_within_iff before [.val x a m, .val y b n] after env
    have hfails' := exists_failsAt_within_iff before [.val y b n, .val x a m] after env
    rw [hxy, hyx]
    refine hfails.trans (Iff.trans ?_ hfails'.symm)
    simp only [h.exists_succeed_iff ha hb]

/-- The two declarations of `x` and `y` change places, although the value of `y` has a `let` that
binds an `x` of its own. -/
theorem run_swap_shadowed :
    ∃ p q, parse "val z := 2; val x := z * 3; val y := let x := z in x + 1; x + y;" = .ok p ∧
      parse "val z := 2; val y := let x := z in x + 1; val x := z * 3; x + y;" = .ok q ∧
      (p.run .empty).result = .ok (some (.int 9)) ∧
      (q.run .empty).result = (p.run .empty).result ∧ (q.run .empty).env = (p.run .empty).env := by
  let number (text : String) : Expr := .literal ⟨.intLit, text, 1⟩
  let var (name : String) : Expr := .ident ⟨.ident, name, 1⟩
  let a : Expr := .binary (.arith .mul) (var "z") (number "3") 1
  let b : Expr := .letIn "x" (var "z") (.binary (.arith .add) (var "x") (number "1") 1) 1
  let first : Expr := .val "z" (number "2") 1
  let last : Expr := .binary (.arith .add) (var "x") (var "y") 1
  let p : Program := ⟨[first, .val "x" a 1, .val "y" b 1, last], 1⟩
  let q : Program := ⟨[first, .val "y" b 1, .val "x" a 1, last], 1⟩
  have hp : parse "val z := 2; val x := z * 3; val y := let x := z in x + 1; x + y;" = .ok p := by
    decide +kernel
  have hq : parse "val z := 2; val y := let x := z in x + 1; val x := z * 3; x + y;" = .ok q := by
    decide +kernel
  have hxy : p.statements = [first] ++ .val "x" a 1 :: .val "y" b 1 :: [last] := rfl
  have hyx : q.statements = [first] ++ .val "y" b 1 :: .val "x" a 1 :: [last] := rfl
  have hindependent : Independent "x" a "y" b := ⟨by decide, by decide, by decide⟩
  have hdeclared : Succeed [first, .val "x" a 1, .val "y" b 1] .empty [.int 2, .int 6, .int 3] _ :=
    .cons rfl (.cons rfl (.cons rfl .nil))
  have hall := hdeclared.append (.cons rfl .nil : Succeed [last] _ [.int 9] _)
  have hvalue : (p.run .empty).result = .ok (some (.int 9)) :=
    congrArg Outcome.result hall.evalAll_eq
  obtain ⟨hsame, -⟩ := run_swap (Program.isRead_of_parse hp) hxy hyx hindependent .empty
  obtain ⟨-, henv, -, hresult⟩ := hsame _ _ hdeclared
  exact ⟨p, q, hp, hq, hvalue, hresult (List.cons_ne_nil _ _), henv⟩

end LetCalc
