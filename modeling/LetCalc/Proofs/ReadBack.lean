import LetCalc.Interpreter
import LetCalc.Proofs.Numerals

/-!
# Numbers read back

A number that is written out makes a statement: a numeral, with a sign before it if the number is
negative.  Read back, the sign is an operator and the numeral its operand.  So the numeral alone has
to fit into a word, and there is one integer whose numeral does not: the least, which has no
counterpart above zero.

Main statement: `run_int_text`.
-/

namespace LetCalc

open Source

/-! ### Statements that are one numeral -/

/-- Tokens of a factor, with a semicolon behind them, make a program of one statement. -/
theorem parse_factor {s : String} {w : List Token} {e : Expr}
    (htokens : (Source.ofString s).tokens.1 =
      .ok (w ++ [Token.Kind.semicolon.on 1, Token.endAt 1]))
    (h : Derivation .factor w .semicolon e) : parse s = .ok ⟨[e], 1⟩ := by
  refine parse_ok_iff.mpr ⟨w ++ [Token.Kind.semicolon.on 1], 1, ?_, ?_, ?_⟩
  · rw [List.append_assoc]
    exact htokens
  · exact .cons rfl (.bare h.expr_of_factor) .nil
  · rw [if_neg (by simp), lastLine_append (by simp)]
    rfl

section

variable {k : Token.Kind} {text : String}

theorem tokens_literal (hk : k ∈ Token.Kind.literals) (htext : k.spells text.toList = true) :
    (tokens ⟨text.toList ++ ";".toList, 1⟩).1 =
      .ok ([⟨k, text, 1⟩] ++ [Token.Kind.semicolon.on 1, Token.endAt 1]) := by
  have hend : k ≠ .endOfInput := by
    intro heq
    rw [heq] at hk
    exact absurd hk (by decide)
  have hsemicolon : tokens ⟨";".toList, 1⟩ =
      prepend [Token.Kind.semicolon.on 1] (tokens ⟨[], 1⟩) :=
    tokens_symbol (k := .semicolon) (by decide) [] 1
  have hseparates : Separates ";".toList := separates_symbol (k := .semicolon) (by decide) []
  have hleaf : tokens ⟨text.toList ++ ";".toList, 1⟩ =
      prepend [⟨k, text, 1⟩] (tokens ⟨";".toList, 1⟩) :=
    tokens_leaf (t := ⟨k, text, 1⟩) hend htext hseparates 1
  rw [hleaf, hsemicolon, tokens_nil]
  rfl

/-- A literal and a semicolon are a program. -/
theorem parse_literal (hk : k ∈ Token.Kind.literals) (htext : k.spells text.toList = true) :
    parse (text ++ ";") = .ok ⟨[.literal ⟨k, text, 1⟩], 1⟩ := by
  refine parse_factor ?_ (.literal hk)
  rw [Source.ofString, String.toList_append]
  exact tokens_literal hk htext

/-- A sign before the literal is an operator. -/
theorem parse_neg_literal (hk : k ∈ Token.Kind.literals) (htext : k.spells text.toList = true) :
    parse ("-" ++ text ++ ";") = .ok ⟨[.unary .neg (.literal ⟨k, text, 1⟩) 1], 1⟩ := by
  have hminus : tokens ⟨"-".toList ++ (text.toList ++ ";".toList), 1⟩ =
      prepend [Token.Kind.minus.on 1] (tokens ⟨text.toList ++ ";".toList, 1⟩) :=
    tokens_symbol (k := .minus) (by decide) _ 1
  have hfactor : Derivation .factor [Token.Kind.minus.on 1, ⟨k, text, 1⟩] .semicolon
      (.unary .neg (.literal ⟨k, text, 1⟩) 1) := .sign rfl (.literal hk)
  refine parse_factor ?_ hfactor
  rw [Source.ofString, String.toList_append, String.toList_append, List.append_assoc, hminus]
  exact prepend_eq_ok.mpr ⟨_, tokens_literal hk htext, rfl⟩

end

section

variable {s : String} {e : Expr} {n : Nat} {env : Environment}

/-- The value of a program of one statement is that of the statement. -/
theorem run_statement_ok {v : Value} (hparse : parse s = .ok ⟨[e], n⟩)
    (heval : e.eval .empty = ⟨.ok v, env⟩) : run s = .ok (some v) := by
  rw [run, hparse]
  show (evalAll [e] none .empty).result.mapError Error.running = .ok (some v)
  rw [evalAll_cons_of_ok heval]
  rfl

theorem run_statement_error {err : EvalError} (hparse : parse s = .ok ⟨[e], n⟩)
    (heval : e.eval .empty = ⟨.error err, env⟩) : run s = .error (.running err) := by
  rw [run, hparse]
  show (evalAll [e] none .empty).result.mapError Error.running = .error (.running err)
  rw [evalAll_cons_of_error heval]
  rfl

end

/-! ### The numeral of a number -/

theorem isIntNumeral_repr (m : Nat) : isIntNumeral m.repr.toList = true := by
  rw [Nat.toList_repr]
  refine (Bool.and_eq_true _ _).mpr ⟨?_, ?_⟩
  · cases hdigits : Nat.toDigits 10 m with
    | nil => exact absurd hdigits Nat.toDigits_ne_nil
    | cons c cs => rfl
  · refine List.all_eq_true.mpr fun c hc => ?_
    exact Nat.isDigit_of_mem_toDigits (by decide) (by decide) hc

/-- The digits of a number write this number. -/
theorem digitsValue_repr (m : Nat) : digitsValue m.repr.toList = m := by
  rw [Nat.toList_repr, ← ofDigitChars_zero]
  exact Nat.ofDigitChars_ten_toDigits

/-- An integer is written with a sign, if it is negative, and the numeral of its magnitude. -/
theorem Value.text_int (n : Int32) :
    (Value.int n).text =
      if n.toInt < 0 then "-" ++ n.toInt.natAbs.repr else n.toInt.natAbs.repr := by
  show toString n.toInt = _
  rw [Int.toString_eq_repr, Int.repr_eq_if]
  by_cases hneg : n.toInt < 0
  · have hmagnitude : (-n.toInt).toNat = n.toInt.natAbs := by omega
    rw [if_pos hneg, if_neg (by omega), hmagnitude]
  · have hmagnitude : n.toInt.toNat = n.toInt.natAbs := by omega
    rw [if_neg hneg, if_pos (by omega), hmagnitude]

/-! ### Integers -/

section

variable {m : Nat} (env : Environment)

/-- The numeral of a number that fits is a literal with this number for a value. -/
theorem eval_repr (h : m ≤ 2147483647) :
    (Expr.literal ⟨.intLit, m.repr, 1⟩).eval env = ⟨.ok (.int (.ofInt m)), env⟩ := by
  have hle : digitsValue m.repr.toList ≤ 2147483647 := by rwa [digitsValue_repr]
  obtain ⟨n, hn, heval⟩ := eval_int_literal (t := ⟨.intLit, m.repr, 1⟩) env rfl
    (isIntNumeral_repr m) hle
  have hvalue : n = .ofInt m := by
    rw [← Int32.ofInt_toInt n, hn, digitsValue_repr]
  rw [heval, hvalue]

/-- With the sign before it, it has the opposite number for a value. -/
theorem eval_neg_repr (h : m ≤ 2147483647) :
    (Expr.unary .neg (.literal ⟨.intLit, m.repr, 1⟩) 1).eval env =
      ⟨.ok (.int (.ofInt (-m))), env⟩ := by
  rw [Expr.eval, eval_repr env h, Int32.ofInt_neg]
  rfl

/-- The numeral of a number that does not fit is malformed, with a sign or without. -/
theorem eval_neg_repr_of_lt (h : 2147483647 < m) :
    (Expr.unary .neg (.literal ⟨.intLit, m.repr, 1⟩) 1).eval env =
      ⟨.error ⟨.malformed m.repr, 1⟩, env⟩ := by
  have hlt : 2147483647 < digitsValue m.repr.toList := by rwa [digitsValue_repr]
  have heval := eval_int_literal_of_lt (t := ⟨.intLit, m.repr, 1⟩) env rfl hlt
  rw [Expr.eval, heval]
  rfl

end

/-- **Integers read back.**  The text of an integer and a semicolon make a program whose value is
this integer.  The least integer alone is not read back: the numeral behind its sign is one above
the largest integer, and so it is malformed. -/
theorem run_int_text (n : Int32) :
    run ((Value.int n).text ++ ";") =
      if n.toInt = -2147483648 then .error (.running ⟨.malformed "2147483648", 1⟩)
      else .ok (some (.int n)) := by
  have hlow := n.le_toInt
  have hhigh := n.toInt_lt
  have hint : Token.Kind.intLit ∈ Token.Kind.literals := by decide
  have hnumeral := isIntNumeral_repr n.toInt.natAbs
  rw [Value.text_int]
  by_cases hneg : n.toInt < 0
  · rw [if_pos hneg]
    have hparse := parse_neg_literal hint hnumeral
    by_cases hleast : n.toInt = -2147483648
    · have heval := eval_neg_repr_of_lt (m := n.toInt.natAbs) .empty (by omega)
      rw [if_pos hleast, run_statement_error hparse heval, hleast]
      rfl
    · have hvalue : Int32.ofInt (-(n.toInt.natAbs : Int)) = n := by
        rw [show -(n.toInt.natAbs : Int) = n.toInt by omega, Int32.ofInt_toInt]
      have heval := eval_neg_repr (m := n.toInt.natAbs) .empty (by omega)
      rw [if_neg hleast, run_statement_ok hparse heval, hvalue]
  · rw [if_neg hneg, if_neg (by omega)]
    have hvalue : Int32.ofInt (n.toInt.natAbs : Int) = n := by
      rw [show (n.toInt.natAbs : Int) = n.toInt by omega, Int32.ofInt_toInt]
    have heval := eval_repr (m := n.toInt.natAbs) .empty (by omega)
    rw [run_statement_ok (parse_literal hint hnumeral) heval, hvalue]

end LetCalc
