import LetCalc.Proofs.Reprinting
import LetCalc.Proofs.Wrapping

/-!
# Numerals

What a numeral is has two definitions that know nothing of each other.  The reader cuts one off the
front of a text, digit by digit, and looks behind a point before it takes it.  Evaluation takes a
text as a whole and cuts it at its first point.  They agree: a text is a numeral for evaluation
exactly if the reader makes one token of it (`readsAs_iff`).

So the numerals of a program that has been read are never malformed by their form, only by their
size, and only those for integers.  The number of an integer is that of its digits by their places
(`digitsValue`); zeros in front do not count.

Main statement: `numerals_agree`.
-/

namespace LetCalc

/-! ### Reading a text as one token -/

/-- A text is read as one token of a kind, with the end token behind it. -/
def ReadsAs (text : String) (k : Token.Kind) : Prop :=
  ∃ token closing, (Source.ofString text).tokens.1 = .ok [token, closing] ∧
    token.kind = k ∧ token.text = text ∧ closing.kind = .endOfInput

/-- A text is read as one token of a kind exactly if it is a spelling of the kind. -/
theorem readsAs_iff {k : Token.Kind} (hk : k ≠ .endOfInput) (text : String) :
    ReadsAs text k ↔ k.spells text.toList = true := by
  constructor
  · intro h
    obtain ⟨token, closing, htokens, hkind, htext, -⟩ := h
    obtain ⟨w, n, heq, hspelled⟩ := Source.tokens_spelled htokens
    obtain ⟨rfl, -⟩ : [token] = w ∧ [closing] = [Token.endAt n] := List.append_inj' heq rfl
    have htoken := (hspelled token (List.mem_singleton.mpr rfl)).1
    rwa [Token.isSpelled, hkind, htext] at htoken
  · intro h
    have hend : k.endsBefore [] = true := rfl
    have htokens := Source.tokens_of_spells hk h hend 1
    rw [List.append_nil, String.ofList_toList, Source.tokens_nil] at htokens
    exact ⟨⟨k, text, 1⟩, Token.endAt 1, congrArg Prod.fst htokens, rfl, rfl, rfl⟩

/-! ### The literals of a tree -/

/-- The tokens of the literals in a tree, from left to right. -/
def Expr.literals : Expr → List Token
  | val _ value _ => value.literals
  | letIn _ bound body _ => bound.literals ++ body.literals
  | binary _ left right _ => left.literals ++ right.literals
  | unary _ operand _ => operand.literals
  | literal token => [token]
  | ident _ => []

/-- In a tree that can be written the literals are spelled. -/
theorem Expr.isSpelled_of_mem_literals {e : Expr} (he : e.isPlain = true) :
    ∀ t ∈ e.literals, t.isSpelled = true := by
  induction e with
  | val name value line => cases he
  | letIn name bound body line ihbound ihbody =>
      obtain ⟨hbound, hbody⟩ := (Bool.and_eq_true _ _).mp he
      have hbound := ((Bool.and_eq_true _ _).mp hbound).2
      exact List.forall_mem_append.mpr ⟨ihbound hbound, ihbody hbody⟩
  | binary op left right line ihleft ihright =>
      obtain ⟨hleft, hright⟩ := (Bool.and_eq_true _ _).mp he
      exact List.forall_mem_append.mpr ⟨ihleft hleft, ihright hright⟩
  | unary op operand line ih => exact ih he
  | literal t => exact List.forall_mem_singleton.mpr ((Bool.and_eq_true _ _).mp he).2
  | ident t => exact List.forall_mem_nil _

/-- In a program that has been read from a text the literals are spelled. -/
theorem Program.isSpelled_of_mem_literals {s : String} {p : Program} (h : parse s = .ok p) :
    ∀ e ∈ p.statements, ∀ t ∈ e.literals, t.isSpelled = true := by
  intro e he
  have hstatement := List.all_eq_true.mp (Program.isWellFormed_of_parse h) e he
  cases e with
  | val name value line =>
      exact value.isSpelled_of_mem_literals ((Bool.and_eq_true _ _).mp hstatement).2
  | letIn | binary | unary | literal | ident => exact Expr.isSpelled_of_mem_literals hstatement

/-! ### The values of numerals -/

/-- The number that digits write: each counts by the number of places behind it. -/
def digitsValue : List Char → Nat
  | [] => 0
  | c :: cs => (c.toNat - '0'.toNat) * Nat.pow 10 cs.length + digitsValue cs

/-- Reading the digits one after the other gives the same number. -/
theorem ofDigitChars_eq (cs : List Char) (n : Nat) :
    Nat.ofDigitChars 10 cs n = n * Nat.pow 10 cs.length + digitsValue cs := by
  induction cs generalizing n with
  | nil => exact (Nat.mul_one n).symm
  | cons c cs ih =>
      have hplace : Nat.pow 10 (c :: cs).length = 10 * Nat.pow 10 cs.length := Nat.pow_succ'
      rw [Nat.ofDigitChars_cons, ih, digitsValue, hplace, Nat.add_mul, Nat.add_assoc,
        ← Nat.mul_assoc, Nat.mul_comm 10 n]

theorem ofDigitChars_zero (cs : List Char) : Nat.ofDigitChars 10 cs 0 = digitsValue cs := by
  rw [ofDigitChars_eq, Nat.zero_mul, Nat.zero_add]

variable {t : Token} (env : Environment)

theorem eval_literal_of_some {v : Value} (h : t.value? = some v) :
    (Expr.literal t).eval env = ⟨.ok v, env⟩ := by
  rw [Expr.eval, h]

theorem eval_literal_of_none (h : t.value? = none) :
    (Expr.literal t).eval env = ⟨.error ⟨.malformed t.text, t.line⟩, env⟩ := by
  rw [Expr.eval, h]

/-- A numeral for an integer has its number for a value, if that fits into a word. -/
theorem eval_int_literal (hkind : t.kind = .intLit) (htext : isIntNumeral t.text.toList = true)
    (hle : digitsValue t.text.toList ≤ 2147483647) :
    ∃ n : Int32, n.toInt = digitsValue t.text.toList ∧
      (Expr.literal t).eval env = ⟨.ok (.int n), env⟩ := by
  rw [← ofDigitChars_zero] at hle ⊢
  refine ⟨_, ?_, eval_literal_of_some env (Token.value?_of_isIntNumeral hkind htext hle)⟩
  exact Int32.toInt_ofInt_of_le (by omega) (by omega)

/-- Otherwise it is malformed. -/
theorem eval_int_literal_of_lt (hkind : t.kind = .intLit)
    (hlt : 2147483647 < digitsValue t.text.toList) :
    (Expr.literal t).eval env = ⟨.error ⟨.malformed t.text, t.line⟩, env⟩ := by
  apply eval_literal_of_none env
  rw [← ofDigitChars_zero] at hlt
  have hlarge : ¬ (isIntNumeral t.text.toList &&
      decide (Nat.ofDigitChars 10 t.text.toList 0 ≤ 2147483647)) = true := by
    rw [Bool.and_eq_true, decide_eq_true_iff]
    omega
  rw [Token.value?, hkind]
  show (intOfChars? t.text.toList).map Value.int = none
  rw [intOfChars?, if_neg hlarge]
  rfl

/-- A numeral for a real always has a value. -/
theorem eval_real_literal (hkind : t.kind = .realLit)
    (htext : isRealNumeral t.text.toList = true) :
    ∃ x, (Expr.literal t).eval env = ⟨.ok (.real x), env⟩ := by
  cases hsplit : splitAtPoint? t.text.toList with
  | none =>
      rw [isRealNumeral, hsplit] at htext
      cases htext
  | some parts =>
      refine ⟨(Decimal.ofDigits parts.1 parts.2).toReal, eval_literal_of_some env ?_⟩
      rw [Token.value?, hkind]
      show (realOfChars? t.text.toList).map Value.real = _
      rw [realOfChars?, hsplit, htext]
      rfl

/-- **Reading and evaluation agree on numerals, and only an integer can be too large.**  A text is a
numeral for an integer, or for a real, exactly if it is read as one token of that kind.  So in a
program that has been read from a text every numeral for a real has a value.  A numeral for an
integer has the number of its digits for a value, if that is at most `2^31 - 1`, and otherwise it is
malformed, with its text and on its line. -/
theorem numerals_agree :
    (∀ text : String, (isIntNumeral text.toList = true ↔ ReadsAs text .intLit) ∧
      (isRealNumeral text.toList = true ↔ ReadsAs text .realLit)) ∧
    ∀ (s : String) (p : Program), parse s = .ok p →
      ∀ e ∈ p.statements, ∀ t ∈ e.literals, ∀ env : Environment,
        (t.kind = .realLit → ∃ x, (Expr.literal t).eval env = ⟨.ok (.real x), env⟩) ∧
        (t.kind = .intLit → digitsValue t.text.toList ≤ 2147483647 →
          ∃ n : Int32, n.toInt = digitsValue t.text.toList ∧
            (Expr.literal t).eval env = ⟨.ok (.int n), env⟩) ∧
        (t.kind = .intLit → 2147483647 < digitsValue t.text.toList →
          (Expr.literal t).eval env = ⟨.error ⟨.malformed t.text, t.line⟩, env⟩) := by
  refine ⟨?_, ?_⟩
  · intro text
    have hint : Token.Kind.intLit ≠ .endOfInput := by decide
    have hreal : Token.Kind.realLit ≠ .endOfInput := by decide
    exact ⟨(readsAs_iff hint text).symm, (readsAs_iff hreal text).symm⟩
  · intro s p h e he t ht env
    have hspelled : t.kind.spells t.text.toList = true :=
      Program.isSpelled_of_mem_literals h e he t ht
    refine ⟨?_, ?_, ?_⟩
    · intro hkind
      rw [hkind] at hspelled
      exact eval_real_literal env hkind hspelled
    · intro hkind hle
      rw [hkind] at hspelled
      exact eval_int_literal env hkind hspelled hle
    · intro hkind hlt
      exact eval_int_literal_of_lt env hkind hlt

/-- The largest integer behind zeros, the number above it, and a real without a whole part. -/
theorem numerals_agree_largest :
    let fits : Token := ⟨.intLit, "0002147483647", 1⟩
    let large : Token := ⟨.intLit, "2147483648", 2⟩
    let half : Token := ⟨.realLit, ".5", 2⟩
    let p : Program := ⟨[.val "x" (.literal fits) 1,
      .unary .neg (.binary (.arith .mul) (.literal large) (.literal half) 2) 2], 2⟩
    parse "val x := 0002147483647;\n-(2147483648 * .5);" = .ok p ∧
      ReadsAs "0002147483647" .intLit ∧ ReadsAs ".5" .realLit ∧ ¬ ReadsAs "5." .realLit ∧
      (∃ n : Int32, n.toInt = 2147483647 ∧
        (Expr.literal fits).eval .empty = ⟨.ok (.int n), .empty⟩) ∧
      (Expr.literal large).eval .empty = ⟨.error ⟨.malformed "2147483648", 2⟩, .empty⟩ ∧
      ∃ x, (Expr.literal half).eval .empty = ⟨.ok (.real x), .empty⟩ := by
  intro fits large half p
  have hparse : parse "val x := 0002147483647;\n-(2147483648 * .5);" = .ok p := by decide +kernel
  obtain ⟨hreads, hvalues⟩ := numerals_agree
  have hfits := hvalues _ p hparse (.val "x" (.literal fits) 1) (by decide) fits (by decide) .empty
  have hlarge := hvalues _ p hparse
    (.unary .neg (.binary (.arith .mul) (.literal large) (.literal half) 2) 2) (by decide) large
    (by decide) .empty
  have hhalf := hvalues _ p hparse
    (.unary .neg (.binary (.arith .mul) (.literal large) (.literal half) 2) 2) (by decide) half
    (by decide) .empty
  refine ⟨hparse, (hreads _).1.mp (by decide), (hreads _).2.mp (by decide), ?_, ?_, ?_, ?_⟩
  · intro h
    exact absurd ((hreads "5.").2.mpr h) (by decide)
  · have hvalue : digitsValue fits.text.toList = 2147483647 := by decide
    obtain ⟨n, hn, heval⟩ := hfits.2.1 rfl (Nat.le_of_eq hvalue)
    rw [hvalue] at hn
    exact ⟨n, hn, heval⟩
  · exact hlarge.2.2 rfl (by decide)
  · exact hhalf.1 rfl

end LetCalc
