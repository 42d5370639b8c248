import LetCalc.Proofs.Concatenation
import LetCalc.Proofs.DecimalText
import LetCalc.Proofs.Patterns
import LetCalc.Proofs.ReadBack

/-!
# Reals read back

The text of a finite real is that of its shortest decimal, with a sign.  In the notation with a
point the text is a numeral for the number of the decimal, and reading it rounds to the same
magnitude again.  In the other notation the reader cuts the text before the letter, which starts a
name, and there a semicolon is missing.  Infinities and the NaN are written as names.

Main statement: `run_real_text`.
-/

namespace LetCalc

/-! ### The text of a real -/

open Binary64

/-- The text of a finite real is that of its magnitude, with its sign before it. -/
theorem realText_toReal (negative : Bool) {p : Nat} (hp : p < infinity) :
    realText (toReal negative p) = (if negative then "-" else "") ++
      if p = 0 then "0.0" else String.ofList (Decimal.shortest p).text := by
  have hlt : p < signBit := Nat.lt_trans hp (by decide)
  have hmagnitude : (if negative then signBit + p else p) % signBit = p := by
    cases negative with
    | true => exact (Nat.add_mod_left signBit p).trans (Nat.mod_eq_of_lt hlt)
    | false => exact Nat.mod_eq_of_lt hlt
  have hsign : (if (if negative then signBit + p else p) < signBit then "" else "-") =
      if negative then "-" else "" := by
    cases negative with
    | true => exact if_neg (Nat.not_lt.mpr (Nat.le_add_right signBit p))
    | false => exact if_pos hlt
  rw [realText, toBits_toReal negative hp]
  simp only [hmagnitude, hsign]
  rw [if_neg (Nat.not_lt.mpr (Nat.le_of_lt hp)), if_neg (Nat.ne_of_lt hp)]
  by_cases hzero : p = 0
  · rw [if_pos hzero, if_pos hzero]
  · rw [if_neg hzero, if_neg hzero]

/-! ### Reading it back -/

/-- A numeral for a real has the value to which its number is rounded. -/
theorem value?_real {whole fraction : List Char} (hwhole : whole.all Char.isDigit = true)
    (hfraction : isIntNumeral fraction = true) (line : Nat) :
    Token.value? ⟨.realLit, String.ofList (whole ++ '.' :: fraction), line⟩ =
      some (.real (Decimal.ofDigits whole fraction).toReal) := by
  have hnumeral : isRealNumeral (whole ++ '.' :: fraction) = true :=
    isRealNumeral_iff.mpr ⟨whole, fraction, rfl, hwhole, hfraction⟩
  have hne : whole.all (· != '.') = true := by
    rw [List.all_eq_true] at hwhole ⊢
    intro c hc
    exact bne_iff_ne.mpr (ne_point_of_isDigit (hwhole c hc))
  have hpoint : ∀ c ∈ ('.' :: fraction).head?, (c != '.') = false := by
    intro c hc
    cases hc
    rfl
  have hsplit : splitAtPoint? (whole ++ '.' :: fraction) = some (whole, fraction) := by
    rw [splitAtPoint?, dropWhile_append_eq hne hpoint, takeWhile_append_eq hne hpoint]
  show (realOfChars? (String.ofList (whole ++ '.' :: fraction)).toList).map Value.real = _
  rw [String.toList_ofList, realOfChars?, hsplit, hnumeral]
  rfl

/-- A numeral with a semicolon behind it is a program with its value, and with a sign before it one
with the opposite value. -/
theorem run_real_numeral (negative : Bool) {text : String} {x : Float}
    (htext : isRealNumeral text.toList = true)
    (hvalue : Token.value? ⟨.realLit, text, 1⟩ = some (.real x)) :
    run ((if negative then "-" else "") ++ text ++ ";") =
      .ok (some (.real (if negative then -x else x))) := by
  have hreal : Token.Kind.realLit ∈ Token.Kind.literals := by decide
  have heval := eval_literal_of_some .empty hvalue
  cases negative with
  | true =>
      have hneg : (Expr.unary .neg (.literal ⟨.realLit, text, 1⟩) 1).eval .empty =
          ⟨.ok (.real (-x)), .empty⟩ := by
        rw [Expr.eval, heval]
        rfl
      exact run_statement_ok (parse_neg_literal hreal htext) hneg
  | false =>
      show run ("" ++ text ++ ";") = _
      rw [String.empty_append]
      exact run_statement_ok (parse_literal hreal htext) heval

theorem run_of_parse_error {s : String} {e : SyntaxError} (h : parse s = .error e) :
    run s = .error (.reading e) := by
  rw [run, h]

open Cursor in
/-- A name behind a factor stands where a semicolon is wanted. -/
theorem parse_of_stray_name {s : String} {w v : List Token} {t : Token} {e : Expr} {n : Nat}
    (htokens : (Source.ofString s).tokens.1 = .ok (w ++ t :: v ++ [Token.endAt n]))
    (h : Derivation .factor w .ident e) (ht : t.kind = .ident) :
    parse s = .error (.expected (.token .semicolon) t) := by
  have hstatement : Derivation .statement w .ident e := .bare h.expr_of_factor
  have hpass : (⟨[], w ++ t :: v, Token.endAt n, rfl⟩ : Cursor).Passes w
      ⟨w.reverse ++ [], t :: v, Token.endAt n, rfl⟩ := ⟨rfl, rfl, rfl⟩
  have hcloses : Phrase.statement.Closes .ident :=
    ⟨rfl, ⟨rfl, fun hsome => absurd rfl hsome⟩, rfl⟩
  obtain ⟨_, hread⟩ := hstatement.reads hpass ht hcloses
  have hway := statement_obeys ⟨[], w ++ t :: v, Token.endAt n, rfl⟩
  rw [hread] at hway
  have hne := hstatement.peek_kind_ne hpass (show Token.Kind.endOfInput ∉ _ by decide)
  have hlack : Leads (.token .semicolon) ⟨w.reverse ++ [], t :: v, Token.endAt n, rfl⟩
      (some (.token .semicolon)) ⟨w.reverse ++ [], t :: v, Token.endAt n, rfl⟩ := by
    refine .lack ?_
    show t.kind ≠ .semicolon
    rw [ht]
    decide
  have hleads : Leads (.rule .program) ⟨[], w ++ t :: v, Token.endAt n, rfl⟩
      (some (.token .semicolon)) ⟨w.reverse ++ [], t :: v, Token.endAt n, rfl⟩ :=
    .of_body (by decide) (.more (decide_eq_true hne) (.halt (hway.seq hlack)))
  rw [parse_of_tokens htokens, program_of_leads hleads]
  rfl

/-- No keyword starts with the letter that stands before a power of ten. -/
theorem isIdentifier_power {digits : List Char} (h : digits.all Char.isDigit = true) :
    isIdentifier ('e' :: digits) = true := by
  have hwords : ∀ k ∈ Token.Kind.keywords, k.spelling.toList.head? ≠ some 'e' := by decide
  have hchars : digits.all isWordChar = true := by
    rw [List.all_eq_true] at h ⊢
    intro c hc
    show ((c.isAlpha || c.isDigit) || c == '_') = true
    rw [h c hc, Bool.or_true, Bool.true_or]
  have hkeyword : (Token.Kind.keyword? (String.ofList ('e' :: digits))).isNone = true := by
    rw [Option.isNone_iff_eq_none]
    cases hk : Token.Kind.keyword? (String.ofList ('e' :: digits)) with
    | none => rfl
    | some k =>
        obtain ⟨hspelling, hmem⟩ := eq_spelling_of_keyword? hk
        refine absurd ?_ (hwords k hmem)
        rw [← hspelling, String.toList_ofList]
        rfl
  exact (Bool.and_eq_true _ _).mpr ⟨hchars, hkeyword⟩

section

open Source

/-- A spelling before a text adds its token, if the text does not go on with it. -/
theorem tokens_cons (k : Token.Kind) (cs : List Char) {rest : List Char} {ts : List Token}
    (hk : k ≠ .endOfInput) (hs : k.spells cs = true) (he : k.endsBefore rest = true)
    (h : (tokens ⟨rest, 1⟩).1 = .ok ts) :
    (tokens ⟨cs ++ rest, 1⟩).1 = .ok (⟨k, String.ofList cs, 1⟩ :: ts) := by
  rw [tokens_of_spells hk hs he]
  exact prepend_eq_ok.mpr ⟨ts, h, rfl⟩

theorem tokens_minus {rest : List Char} {ts : List Token} (h : (tokens ⟨rest, 1⟩).1 = .ok ts) :
    (tokens ⟨"-".toList ++ rest, 1⟩).1 = .ok (Token.Kind.minus.on 1 :: ts) := by
  have hminus : tokens ⟨"-".toList ++ rest, 1⟩ =
      prepend [Token.Kind.minus.on 1] (tokens ⟨rest, 1⟩) :=
    tokens_symbol (k := .minus) (by decide) rest 1
  rw [hminus]
  exact prepend_eq_ok.mpr ⟨ts, h, rfl⟩

theorem tokens_semicolon :
    (tokens ⟨";".toList, 1⟩).1 = .ok [Token.Kind.semicolon.on 1, Token.endAt 1] := by
  decide +kernel

/-- The power of ten of a number is cut into a name, and what may follow it. -/
theorem tokens_power (power : Int) :
    ∃ name v, (tokens ⟨'e' :: (toString power).toList ++ ";".toList, 1⟩).1 =
      .ok (⟨.ident, name, 1⟩ :: v ++ [Token.endAt 1]) := by
  have hseparates : Separates ";".toList := separates_symbol (k := .semicolon) (by decide) []
  rw [Int.toString_eq_repr, Int.repr_eq_if]
  by_cases hpos : 0 ≤ power
  · -- the digits go on with the letter
    have hdigits := ((Bool.and_eq_true _ _).mp (isIntNumeral_repr power.toNat)).2
    have hname := tokens_cons .ident _ (by decide) (isIdentifier_power hdigits)
      (hseparates .ident) tokens_semicolon
    rw [if_pos hpos]
    exact ⟨_, [Token.Kind.semicolon.on 1], hname⟩
  · -- the sign ends the name
    have hnumber := tokens_cons .intLit _ (by decide) (isIntNumeral_repr (-power).toNat)
      (hseparates .intLit) tokens_semicolon
    have hminus := tokens_minus hnumber
    have hname := tokens_cons .ident ['e'] (by decide) (by decide) rfl hminus
    rw [if_neg hpos, String.toList_append]
    exact ⟨_, [_, _, Token.Kind.semicolon.on 1], hname⟩

/-- A number with a power of ten is no program: the name that starts its power is found where the
statement should end. -/
theorem run_scientific (negative : Bool) {k : Token.Kind} {numeral : List Char} (power : Int)
    (hk : k = .intLit ∨ k = .realLit) (hs : k.spells numeral = true) :
    ∃ name, run ((if negative then "-" else "") ++
        String.ofList (numeral ++ 'e' :: (toString power).toList) ++ ";") =
      .error (.reading (.expected (.token .semicolon) ⟨.ident, name, 1⟩)) := by
  have hliteral : k ∈ Token.Kind.literals := by
    rcases hk with rfl | rfl <;> decide
  have hends : k.endsBefore ('e' :: (toString power).toList ++ ";".toList) = true := by
    rcases hk with rfl | rfl <;> rfl
  have hend : k ≠ .endOfInput := by
    rcases hk with rfl | rfl <;> decide
  obtain ⟨name, v, hpower⟩ := tokens_power power
  have htokens := tokens_cons k numeral hend hs hends hpower
  have hfactor : Derivation .factor [⟨k, String.ofList numeral, 1⟩] .ident
      (.literal ⟨k, String.ofList numeral, 1⟩) := .literal hliteral
  have hchars : (String.ofList (numeral ++ 'e' :: (toString power).toList) ++ ";").toList =
      numeral ++ ('e' :: (toString power).toList ++ ";".toList) := by
    rw [String.toList_append, String.toList_ofList, List.append_assoc]
  refine ⟨name, ?_⟩
  cases negative with
  | true =>
      have hsigned := tokens_minus htokens
      rw [← hchars, ← String.toList_append, ← String.append_assoc] at hsigned
      exact run_of_parse_error
        (parse_of_stray_name (w := [_, _]) (v := v) hsigned (.sign rfl hfactor) rfl)
  | false =>
      rw [← hchars] at htokens
      show run ("" ++ String.ofList (numeral ++ 'e' :: (toString power).toList) ++ ";") = _
      rw [String.empty_append]
      exact run_of_parse_error (parse_of_stray_name (w := [_]) (v := v) htokens hfactor rfl)

end

section

variable (negative : Bool) {p : Nat}

/-- Written with a point among its digits, a decimal is read back. -/
theorem run_positional {d : Decimal} (hd : d.nearest = p) (hp : p < infinity) :
    run ((if negative then "-" else "") ++
        String.ofList
          (Decimal.positional (Nat.toDigits 10 d.coefficient) (d.length + d.exponent)) ++ ";") =
      .ok (some (.real (toReal negative p))) := by
  obtain ⟨whole, fraction, heq, hwhole, hfraction, hvalue⟩ := d.exists_positional
  have hnearest := (Decimal.nearest_congr hvalue).trans hd
  have hnumeral : isRealNumeral (String.ofList (whole ++ '.' :: fraction)).toList = true := by
    rw [String.toList_ofList]
    exact isRealNumeral_iff.mpr ⟨whole, fraction, rfl, hwhole, hfraction⟩
  have hrun := run_real_numeral negative hnumeral (value?_real hwhole hfraction 1)
  rw [Decimal.toReal, hnearest] at hrun
  rw [heq, hrun]
  cases negative with
  | true =>
      show Except.ok (some (Value.real (-toReal false p))) = _
      rw [neg_toReal false hp]
      rfl
  | false => rfl

/-- The reals that are written without a power of ten are read back. -/
theorem run_realText_ok (hp : p < infinity)
    (h : p = 0 ∨ Decimal.nearest ⟨1, -4⟩ ≤ p ∧ p < Decimal.nearest ⟨1, 16⟩) :
    run (realText (toReal negative p) ++ ";") = .ok (some (.real (toReal negative p))) := by
  rw [realText_toReal negative hp]
  by_cases hzero : p = 0
  · subst hzero
    exact run_positional negative (d := ⟨0, 0⟩) (by decide +kernel) (by decide)
  · have hshortest := Decimal.isShortest_shortest hzero hp
    have hrange := (Decimal.isPositional_shortest_iff hzero hp).mpr (h.resolve_left hzero)
    rw [if_neg hzero, Decimal.text_eq, if_pos hrange]
    exact run_positional negative hshortest.nearest hp

/-- The others are not. -/
theorem run_realText_error (hp : p < infinity)
    (h : ¬ (p = 0 ∨ Decimal.nearest ⟨1, -4⟩ ≤ p ∧ p < Decimal.nearest ⟨1, 16⟩)) :
    ∃ name, run (realText (toReal negative p) ++ ";") =
      .error (.reading (.expected (.token .semicolon) ⟨.ident, name, 1⟩)) := by
  obtain ⟨hzero, hrange⟩ := not_or.mp h
  have hpower := mt (Decimal.isPositional_shortest_iff hzero hp).mp hrange
  obtain ⟨k, numeral, hk, hs, heq⟩ := Decimal.exists_scientific (Decimal.shortest p).coefficient
    ((Decimal.shortest p).length + (Decimal.shortest p).exponent - 1)
  rw [realText_toReal negative hp, if_neg hzero, Decimal.text_eq, if_neg hpower, heq]
  exact run_scientific negative _ hk hs

end

/-- The reals that are written without a power of ten: the zeros, and those from `0.0001` up to
below `10 ^ 16`. -/
def IsPositional (x : Float) : Prop :=
  (x == 0) = true ∨ 1e-4 ≤ x.abs ∧ x.abs < 1e16

instance (x : Float) : Decidable (IsPositional x) :=
  inferInstanceAs (Decidable ((x == 0) = true ∨ 1e-4 ≤ x.abs ∧ x.abs < 1e16))

theorem isPositional_toReal (negative : Bool) {p : Nat} (hp : p < infinity) :
    IsPositional (toReal negative p) ↔
      p = 0 ∨ Decimal.nearest ⟨1, -4⟩ ≤ p ∧ p < Decimal.nearest ⟨1, 16⟩ := by
  have hlow : (1e-4 : Float) = toReal false (Decimal.nearest ⟨1, -4⟩) := by decide +kernel
  have hhigh : (1e16 : Float) = toReal false (Decimal.nearest ⟨1, 16⟩) := by decide +kernel
  rw [IsPositional, toReal_beq_zero negative hp, decide_eq_true_iff, abs_toReal negative hp, hlow,
    hhigh, toReal_le_toReal (by decide +kernel) hp, toReal_lt_toReal hp (by decide +kernel)]

/-- An infinity is written as a name, with its sign before it. -/
theorem run_infinity (negative : Bool) :
    run (realText (toReal negative infinity) ++ ";") = .error (.running ⟨.unbound "inf", 1⟩) := by
  cases negative with
  | true =>
      have htext : realText (toReal true infinity) ++ ";" = "-inf;" := by decide +kernel
      have hparse : parse "-inf;" = .ok ⟨[.unary .neg (.ident ⟨.ident, "inf", 1⟩) 1], 1⟩ := by
        decide +kernel
      rw [htext]
      exact run_statement_error hparse rfl
  | false =>
      have htext : realText (toReal false infinity) ++ ";" = "inf;" := by decide +kernel
      have hparse : parse "inf;" = .ok ⟨[.ident ⟨.ident, "inf", 1⟩], 1⟩ := by decide +kernel
      rw [htext]
      exact run_statement_error hparse rfl

theorem run_nan : run (realText nan ++ ";") = .error (.running ⟨.unbound "NaN", 1⟩) := by
  have htext : realText nan ++ ";" = "NaN;" := by decide +kernel
  have hparse : parse "NaN;" = .ok ⟨[.ident ⟨.ident, "NaN", 1⟩], 1⟩ := by decide +kernel
  rw [htext]
  exact run_statement_error hparse rfl

/-- **Reals read back where they are written without a power of ten.**  A finite real whose text has
no power of ten makes, with a semicolon, a program whose value is this real, to the last bit and
with the sign of a zero.  Of the other finite reals the power is read as a name where the statement
should end; infinities and the NaN are names themselves, and unbound, and there are no other reals.
The text of a finite real that is not zero is the shortest decimal that is read as it, and a numeral
is read as the real to which its number is rounded. -/
theorem run_real_text :
    (∀ x : Float,
      (x.isFinite = true ∨ x.isInf = true ∨ x.isNaN = true) ∧
      (x.isFinite = true → IsPositional x →
        run ((Value.real x).text ++ ";") = .ok (some (.real x))) ∧
      (x.isFinite = true → ¬ IsPositional x →
        ∃ name, run ((Value.real x).text ++ ";") =
          .error (.reading (.expected (.token .semicolon) ⟨.ident, name, 1⟩))) ∧
      (x.isInf = true →
        run ((Value.real x).text ++ ";") = .error (.running ⟨.unbound "inf", 1⟩)) ∧
      (x.isNaN = true →
        run ((Value.real x).text ++ ";") = .error (.running ⟨.unbound "NaN", 1⟩)) ∧
      (x.isFinite = true → (x == 0) = false →
        ∃ negative p d, x = toReal negative p ∧ Decimal.IsShortest d p ∧
          (Value.real x).text = (if negative then "-" else "") ++ String.ofList d.text)) ∧
    ∀ whole fraction : List Char, whole.all Char.isDigit = true → isIntNumeral fraction = true →
      ∃ p, RoundsTo (digitsValue (whole ++ fraction) / 10 ^ fraction.length) p ∧
        ∀ line, Token.value? ⟨.realLit, String.ofList (whole ++ '.' :: fraction), line⟩ =
          some (.real (toReal false p)) := by
  refine ⟨?_, ?_⟩
  · intro x
    have hno {b : Bool} {P : Prop} (hb : b = false) (h : b = true) : P :=
      absurd (hb.symm.trans h) Bool.false_ne_true
    rcases exists_toReal x with ⟨negative, p, hp, rfl⟩ | ⟨negative, rfl⟩ | rfl
    · obtain ⟨hfinite, hinf, hnan⟩ := status_toReal negative hp
      refine ⟨.inl hfinite, ?_, ?_, hno hinf, hno hnan, ?_⟩
      · intro _ h
        exact run_realText_ok negative hp ((isPositional_toReal negative hp).mp h)
      · intro _ h
        exact run_realText_error negative hp (mt (isPositional_toReal negative hp).mpr h)
      · intro _ h
        rw [toReal_beq_zero negative hp, decide_eq_false_iff_not] at h
        refine ⟨negative, p, Decimal.shortest p, rfl, Decimal.isShortest_shortest h hp, ?_⟩
        show realText (toReal negative p) = _
        rw [realText_toReal negative hp, if_neg h]
    · obtain ⟨hfinite, hinf, hnan⟩ := status_infinity negative
      exact ⟨.inr (.inl hinf), hno hfinite, hno hfinite, fun _ => run_infinity negative, hno hnan,
        hno hfinite⟩
    · obtain ⟨hfinite, hinf, hnan⟩ := status_nan
      exact ⟨.inr (.inr hnan), hno hfinite, hno hfinite, hno hinf, fun _ => run_nan, hno hfinite⟩
  · intro whole fraction hwhole hfraction
    refine ⟨(Decimal.ofDigits whole fraction).nearest, ?_, value?_real hwhole hfraction⟩
    have hround := (Decimal.ofDigits whole fraction).roundsTo_nearest
    rwa [Decimal.value_ofDigits, Decimal.value, zpow_neg, zpow_natCast, ← div_eq_mul_inv] at hround

/-- The least magnitude that is written with a point, the first that is too large for it, an
infinity, the NaN, and a fraction that is no double. -/
theorem run_real_text_edges :
    run "-0.0001;" = .ok (some (.real (-1e-4))) ∧
      (∃ name, run "1e16;" =
        .error (.reading (.expected (.token .semicolon) ⟨.ident, name, 1⟩))) ∧
      run "-inf;" = .error (.running ⟨.unbound "inf", 1⟩) ∧
      run "NaN;" = .error (.running ⟨.unbound "NaN", 1⟩) ∧
      (∃ negative p d, (0.1 : Float) = toReal negative p ∧ Decimal.IsShortest d p ∧
        "0.1" = (if negative then "-" else "") ++ String.ofList d.text) ∧
      ∃ p, RoundsTo (1 / 10) p ∧
        ∀ line, Token.value? ⟨.realLit, "0.1", line⟩ = some (.real (toReal false p)) := by
  obtain ⟨hreals, hnumerals⟩ := run_real_text
  have hleast : (Value.real (-1e-4)).text ++ ";" = "-0.0001;" := by decide +kernel
  have hpower : (Value.real 1e16).text ++ ";" = "1e16;" := by decide +kernel
  have hinfinity : (Value.real (toReal true infinity)).text ++ ";" = "-inf;" := by decide +kernel
  have hnan : (Value.real nan).text ++ ";" = "NaN;" := by decide +kernel
  have htenth : (Value.real 0.1).text = "0.1" := by decide +kernel
  refine ⟨?_, ?_, ?_, ?_, ?_, ?_⟩
  · rw [← hleast]
    exact (hreals (-1e-4)).2.1 (by decide +kernel) (by decide +kernel)
  · rw [← hpower]
    exact (hreals 1e16).2.2.1 (by decide +kernel) (by decide +kernel)
  · rw [← hinfinity]
    exact (hreals (toReal true infinity)).2.2.2.1 (by decide +kernel)
  · rw [← hnan]
    exact (hreals nan).2.2.2.2.1 (by decide +kernel)
  · rw [← htenth]
    exact (hreals 0.1).2.2.2.2.2 (by decide +kernel) (by decide +kernel)
  · obtain ⟨p, hround, hvalue⟩ := hnumerals ['0'] ['1'] (by decide) (by decide)
    have hnumber : (digitsValue (['0'] ++ ['1']) / 10 ^ ['1'].length : ℚ) = 1 / 10 := by
      rw [show digitsValue (['0'] ++ ['1']) = 1 by decide, List.length_singleton, pow_one,
        Nat.cast_one]
    exact ⟨p, hnumber ▸ hround, hvalue⟩

end LetCalc
