import LetCalc.Proofs.Scope

/-!
# Integers modulo the size of a word

An integer is kept in a word of 32 bits, and every sum, difference, product and sign wraps around.
So do the values of names, since a `let` binds a value that has already been wrapped.  Still a tree
of these operations has the value that it would have over whole numbers of any size, only wrapped
once, at the end: to wrap a number (`Int32.ofInt`) goes through all of them.

The whole numbers are found by an evaluation of their own (`Expr.whole?`), in which a name has the
number that it would have if nothing had been wrapped before.  The two evaluations go along with
each other as long as each name is kept as its own number, wrapped (`Expr.eval_whole`).

Main statement: `eval_modulo`.
-/

namespace LetCalc

/-! ### Evaluation over whole numbers -/

/-- Whole numbers of any size for names. -/
def Integers := String → Option Int

/-- Gives a name a whole number. -/
def Integers.bind (ρ : Integers) (name : String) (n : Int) : Integers :=
  fun x => if x = name then some n else ρ x

/-- The whole numbers that the integers of an environment stand for. -/
def Environment.integers (env : Environment) : Integers :=
  fun x => ((env.lookup x).bind Value.int?).map Int32.toInt

/-- Arithmetic that stays within the whole numbers. -/
def ArithOp.whole? : ArithOp → Int → Int → Option Int
  | add, a, b => some (a + b)
  | sub, a, b => some (a - b)
  | mul, a, b => some (a * b)
  | div, _, _ => none
  | mod, _, _ => none

/-- The value of a tree over whole numbers.  A tree with anything else in it has none. -/
def Expr.whole? : Expr → Integers → Option Int
  | letIn name bound body _, ρ => do
    let n ← bound.whole? ρ
    body.whole? (ρ.bind name n)
  | binary (.arith op) left right _, ρ => do
    let a ← left.whole? ρ
    let b ← right.whole? ρ
    op.whole? a b
  | unary .neg operand _, ρ => do
    let a ← operand.whole? ρ
    return -a
  | literal t, _ => if t.kind = .intLit then some (Nat.ofDigitChars 10 t.text.toList 0) else none
  | ident t, ρ => ρ t.text
  | _, _ => none

/-- Whether a tree has nothing in it but numerals of integers that fit into a word, names, `let`,
`+`, `-`, `*` and the sign `-`. -/
def Expr.isIntegral : Expr → Bool
  | letIn _ bound body _ => bound.isIntegral && body.isIntegral
  | binary (.arith .add) left right _ => left.isIntegral && right.isIntegral
  | binary (.arith .sub) left right _ => left.isIntegral && right.isIntegral
  | binary (.arith .mul) left right _ => left.isIntegral && right.isIntegral
  | unary .neg operand _ => operand.isIntegral
  | literal t =>
    t.kind == .intLit && isIntNumeral t.text.toList &&
      Nat.ofDigitChars 10 t.text.toList 0 ≤ 2147483647
  | ident _ => true
  | _ => false

/-! ### Wrapping goes through -/

/-- Arithmetic on numbers that have been wrapped gives the result wrapped. -/
theorem ArithOp.apply_ofInt {op : ArithOp} {a b n : Int} (h : op.whole? a b = some n) :
    op.apply (.int (.ofInt a)) (.int (.ofInt b)) = .ok (.int (.ofInt n)) := by
  cases op with
  | add =>
      cases h
      rw [Int32.ofInt_add]
      rfl
  | sub =>
      cases h
      rw [Int32.ofInt_sub]
      rfl
  | mul =>
      cases h
      rw [Int32.ofInt_mul]
      rfl
  | div | mod => cases h

theorem Token.value?_of_isIntNumeral {t : Token} (hkind : t.kind = .intLit)
    (htext : isIntNumeral t.text.toList = true)
    (hle : Nat.ofDigitChars 10 t.text.toList 0 ≤ 2147483647) :
    t.value? = some (.int (.ofInt (Nat.ofDigitChars 10 t.text.toList 0))) := by
  have hfits : intOfChars? t.text.toList =
      some (Int32.ofNat (Nat.ofDigitChars 10 t.text.toList 0)) := by
    rw [intOfChars?, htext, Bool.true_and, if_pos (decide_eq_true hle)]
  rw [value?, hkind, Int32.ofInt_eq_ofNat]
  show (intOfChars? t.text.toList).map Value.int = _
  rw [hfits]
  rfl

/-- `env.Wraps ρ e`: each name that occurs free in `e` has a whole number in `ρ`, and in `env` it
has this number, wrapped. -/
def Environment.Wraps (env : Environment) (ρ : Integers) (e : Expr) : Prop :=
  ∀ t ∈ e.freeTokens, ∃ n, ρ t.text = some n ∧ env.lookup t.text = some (.int (.ofInt n))

namespace Environment.Wraps

variable {env : Environment} {ρ : Integers} {name : String} {bound body left right : Expr}
  {op : BinaryOp} {line : Nat}

theorem of_ints {e : Expr} (h : ∀ t ∈ e.freeTokens, ∃ n, env.lookup t.text = some (.int n)) :
    env.Wraps env.integers e := by
  intro t ht
  obtain ⟨n, hn⟩ := h t ht
  refine ⟨n.toInt, ?_, ?_⟩
  · rw [integers, hn]
    rfl
  · rw [hn, Int32.ofInt_toInt]

theorem of_binary (h : env.Wraps ρ (.binary op left right line)) :
    env.Wraps ρ left ∧ env.Wraps ρ right :=
  List.forall_mem_append.mp h

theorem of_letIn (h : env.Wraps ρ (.letIn name bound body line)) : env.Wraps ρ bound :=
  (List.forall_mem_append.mp h).1

/-- In the body of a `let` its name has a number too, which is wrapped when it is bound. -/
theorem bind (h : env.Wraps ρ (.letIn name bound body line)) (n : Int) :
    (env.bind name (.int (.ofInt n))).Wraps (ρ.bind name n) body := by
  intro t ht
  rw [lookup_bind, Integers.bind]
  by_cases hname : t.text = name
  · exact ⟨n, if_pos hname, if_pos hname⟩
  · rw [if_neg hname, if_neg hname]
    refine (List.forall_mem_append.mp h).2 t ?_
    exact List.mem_filter.mpr ⟨ht, bne_iff_ne.mpr hname⟩

end Environment.Wraps

/-- A value is gone on with. -/
theorem Outcome.andThen_ok {α β : Type} (a : α) (env : Environment)
    (f : α → Environment → Outcome β) : Outcome.andThen ⟨.ok a, env⟩ f = f a env :=
  rfl

theorem Expr.isIntegral_binary {op : BinaryOp} {left right : Expr} {line : Nat}
    (h : (binary op left right line).isIntegral = true) :
    left.isIntegral = true ∧ right.isIntegral = true ∧
      ∃ o, op = .arith o ∧ ∀ a b, ∃ n, ArithOp.whole? o a b = some n := by
  cases op with
  | arith o =>
      cases o with
      | add | sub | mul =>
          obtain ⟨hleft, hright⟩ := (Bool.and_eq_true _ _).mp h
          exact ⟨hleft, hright, _, rfl, fun a b => ⟨_, rfl⟩⟩
      | div | mod => cases h
  | logic | compare => cases h

/-- The two evaluations go along with each other: where names are kept wrapped, the value is the
whole number of the tree, wrapped. -/
theorem Expr.eval_whole {e : Expr} (he : e.isIntegral = true) {env : Environment} {ρ : Integers}
    (h : env.Wraps ρ e) :
    ∃ n, e.whole? ρ = some n ∧ e.eval env = ⟨.ok (.int (.ofInt n)), env⟩ := by
  induction e generalizing env ρ with
  | val name value line ih => cases he
  | letIn name bound body line ihbound ihbody =>
      obtain ⟨hbound, hbody⟩ := (Bool.and_eq_true _ _).mp he
      obtain ⟨m, hm, hevalBound⟩ := ihbound hbound h.of_letIn
      obtain ⟨n, hn, hevalBody⟩ := ihbody hbody (h.bind m)
      refine ⟨n, ?_, ?_⟩
      · rw [whole?, hm]
        exact hn
      · rw [eval, hevalBound, Outcome.andThen_ok, hevalBody]
  | binary op left right line ihleft ihright =>
      obtain ⟨hleft, hright, o, rfl, hop⟩ := isIntegral_binary he
      obtain ⟨a, ha, hevalLeft⟩ := ihleft hleft h.of_binary.1
      obtain ⟨b, hb, hevalRight⟩ := ihright hright h.of_binary.2
      obtain ⟨n, hn⟩ := hop a b
      refine ⟨n, ?_, ?_⟩
      · rw [whole?, ha, hb]
        exact hn
      · rw [eval, hevalLeft, Outcome.andThen_ok, hevalRight, Outcome.andThen_ok, BinaryOp.apply,
          ArithOp.apply_ofInt hn]
        rfl
  | unary op operand line ih =>
      cases op with
      | not => cases he
      | neg =>
          obtain ⟨a, ha, hevalOperand⟩ := ih he h
          refine ⟨-a, ?_, ?_⟩
          · rw [whole?, ha]
            rfl
          · rw [eval, hevalOperand, Int32.ofInt_neg]
            rfl
  | literal t =>
      obtain ⟨hnumeral, hle⟩ := (Bool.and_eq_true _ _).mp he
      obtain ⟨hkind, htext⟩ := (Bool.and_eq_true _ _).mp hnumeral
      have hkind : t.kind = .intLit := of_decide_eq_true hkind
      refine ⟨Nat.ofDigitChars 10 t.text.toList 0, ?_, ?_⟩
      · rw [whole?, if_pos hkind]
      · rw [eval, Token.value?_of_isIntNumeral hkind htext (of_decide_eq_true hle)]
  | ident t =>
      obtain ⟨n, hn, hlookup⟩ := h t (List.mem_singleton.mpr rfl)
      refine ⟨n, hn, ?_⟩
      rw [eval, hlookup]

/-- A number that has been wrapped is the only one of a word that differs from it by a multiple of
the size of a word. -/
theorem eq_toInt_ofInt_iff (n k : Int) :
    k = (Int32.ofInt n).toInt ↔
      -2147483648 ≤ k ∧ k < 2147483648 ∧ k % 4294967296 = n % 4294967296 := by
  have hsize : n.bmod Int32.size = k ↔
      -(4294967296 / 2) ≤ k ∧ k < (4294967296 + 1) / 2 ∧ 4294967296 ∣ k - n :=
    Int.bmod_eq_iff (by decide)
  rw [Int32.toInt_ofInt, eq_comm, hsize, Int.emod_eq_emod_iff_emod_sub_eq_zero]
  omega

/-- **Integers are exact modulo the size of a word.**  Let a tree have nothing in it but numerals
that fit, names, `let`, `+`, `-`, `*` and the sign `-`, and let its free names be bound to integers.
Then it has a value over whole numbers of any size, and evaluation gives an integer: the only one
from `-2^31` to `2^31 - 1` that is congruent to that value modulo `2^32`. -/
theorem eval_modulo {e : Expr} (he : e.isIntegral = true) {env : Environment}
    (h : ∀ t ∈ e.freeTokens, ∃ n, env.lookup t.text = some (.int n)) :
    ∃ n r, e.whole? env.integers = some n ∧ e.eval env = ⟨.ok (.int r), env⟩ ∧
      ∀ k : Int, k = r.toInt ↔
        -2147483648 ≤ k ∧ k < 2147483648 ∧ k % 4294967296 = n % 4294967296 := by
  obtain ⟨n, hn, heval⟩ := Expr.eval_whole he (.of_ints h)
  exact ⟨n, .ofInt n, hn, heval, eq_toInt_ofInt_iff n⟩

/-- Over whole numbers `let y := x + x in y * y - -x` is far beyond a word where `x` is the largest
integer, and so is the value of `y`. -/
theorem eval_modulo_largest :
    let x : Expr := .ident ⟨.ident, "x", 1⟩
    let y : Expr := .ident ⟨.ident, "y", 1⟩
    let e : Expr := .letIn "y" (.binary (.arith .add) x x 1)
      (.binary (.arith .sub) (.binary (.arith .mul) y y 1) (.unary .neg x 1) 1) 1
    let env := Environment.empty.bind "x" (.int 2147483647)
    e.isIntegral = true ∧ e.whole? env.integers = some 18446744058677166083 ∧
      e.eval env = ⟨.ok (.int (-2147483645)), env⟩ ∧
      ∀ k : Int, k = -2147483645 ↔ -2147483648 ≤ k ∧ k < 2147483648 ∧
        k % 4294967296 = 18446744058677166083 % 4294967296 := by
  intro x y e env
  have he : e.isIntegral = true := rfl
  have hfree : ∀ t ∈ e.freeTokens, ∃ n, env.lookup t.text = some (.int n) := by
    have htext : ∀ t ∈ e.freeTokens, t.text = "x" := by decide
    intro t ht
    rw [htext t ht]
    exact ⟨2147483647, rfl⟩
  have hwhole : e.whole? env.integers = some 18446744058677166083 := rfl
  have heval : e.eval env = ⟨.ok (.int (-2147483645)), env⟩ := rfl
  obtain ⟨n, r, hn, hr, hunique⟩ := eval_modulo he hfree
  rw [hwhole] at hn
  rw [heval] at hr
  cases hn
  cases hr
  exact ⟨he, hwhole, heval, hunique⟩

end LetCalc
