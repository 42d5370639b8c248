import LetCalc.Proofs.Wrapping

/-!
# Quotients and remainders

Division of integers goes toward zero, and a remainder is what is then missing.  Over whole numbers
the two make up the dividend again.  The quotient of two words may not fit into a word: that is so
for one pair alone, the least integer divided by `-1`.  But the operations that put the parts
together wrap around in the same way, so that the dividend comes back without exception
(`div_mul_add_mod`).

Main statement: `division_remainder`.
-/

namespace LetCalc

/-! ### Words -/

/-- A quotient of words is the quotient of their numbers, wrapped. -/
theorem div_eq_ofInt_tdiv (a b : Int32) : a / b = .ofInt (a.toInt.tdiv b.toInt) := by
  rw [← Int32.toInt_inj, Int32.toInt_div, Int32.toInt_ofInt]

/-- A remainder of words is the remainder of their numbers, which always fits. -/
theorem mod_eq_ofInt_tmod (a b : Int32) : a % b = .ofInt (a.toInt.tmod b.toInt) := by
  rw [← Int32.toInt_mod, Int32.ofInt_toInt]

/-- Quotient and remainder make up the dividend, also where the quotient has been wrapped. -/
theorem div_mul_add_mod (a b : Int32) : a / b * b + a % b = a := by
  calc a / b * b + a % b
      = .ofInt (a.toInt.tdiv b.toInt) * .ofInt b.toInt + .ofInt (a.toInt.tmod b.toInt) := by
        rw [div_eq_ofInt_tdiv, mod_eq_ofInt_tmod, Int32.ofInt_toInt]
    _ = .ofInt (a.toInt.tdiv b.toInt * b.toInt + a.toInt.tmod b.toInt) := by
        rw [Int32.ofInt_add, Int32.ofInt_mul]
    _ = a := by rw [Int.tdiv_mul_add_tmod, Int32.ofInt_toInt]

/-- A remainder is closer to zero than the divisor. -/
theorem natAbs_mod_lt {a b : Int32} (hb : b ≠ 0) :
    (a % b).toInt.natAbs < b.toInt.natAbs := by
  have hpos : 0 < b.toInt.natAbs := by
    refine Int.natAbs_pos.mpr fun hzero => hb ?_
    rw [← Int32.ofInt_toInt b, hzero]
    rfl
  rw [Int32.toInt_mod, Int.natAbs_tmod]
  exact Nat.mod_lt _ hpos

/-- A remainder that is not zero has the sign of the dividend. -/
theorem mod_eq_zero_or_sign (a b : Int32) :
    a % b = 0 ∨ (a % b).toInt.sign = a.toInt.sign := by
  rw [Int32.toInt_mod, Int.sign_tmod]
  by_cases hdvd : b.toInt ∣ a.toInt
  · have hzero : (a % b).toInt = 0 := by rw [Int32.toInt_mod, Int.tmod_eq_zero_of_dvd hdvd]
    exact .inl (Int32.toInt_inj.mp hzero)
  · exact .inr (if_neg hdvd)

/-- All quotients but one fit. -/
theorem toInt_div_eq {a b : Int32} (h : ¬ (a.toInt = -2147483648 ∧ b.toInt = -1)) :
    (a / b).toInt = a.toInt.tdiv b.toInt := by
  by_cases ha : a.toInt = -2147483648
  · refine Int32.toInt_div_of_ne_right a b fun hb => h ⟨ha, ?_⟩
    rw [hb]
    rfl
  · refine Int32.toInt_div_of_ne_left a b fun hmin => ha ?_
    rw [hmin]
    rfl

/-- The quotient that does not fit is wrapped to its dividend, and nothing remains. -/
theorem div_mod_of_least {a b : Int32} (h : a.toInt = -2147483648 ∧ b.toInt = -1) :
    (a / b).toInt = -2147483648 ∧ a % b = 0 := by
  obtain rfl : a = Int32.minValue := Int32.toInt_inj.mp h.1
  obtain rfl : b = -1 := Int32.toInt_inj.mp h.2
  exact ⟨rfl, rfl⟩

/-! ### Operators -/

/-- **Quotient and remainder belong together.**  By zero both fail, with the same error, on the line
of the node.  By any other integer `b` both succeed: with `q` and `r` such that the language's own
`q * b + r` is the dividend `a` again, `r` is closer to zero than `b` and, if it is not zero, has
the sign of `a`, and `q` is `a` divided by `b` toward zero.  Only for the least integer divided by
`-1` that does not fit: there `q` is the least integer itself, and `r` is zero. -/
theorem division_remainder (a b : Int32) (line : Nat) :
    let quotient := atLine line ((BinaryOp.arith .div).apply (.int a) (.int b))
    let remainder := atLine line ((BinaryOp.arith .mod).apply (.int a) (.int b))
    (b = 0 ∧ ∃ e : EvalError, quotient = .error e ∧ remainder = .error e ∧
      e.fault.sort = .arithmetic ∧ e.line = line ∧
      e.message = "arithmetic error at line " ++ toString line ++ ": division by zero") ∨
    (b ≠ 0 ∧ ∃ q r : Int32, quotient = .ok (.int q) ∧ remainder = .ok (.int r) ∧
      ((ArithOp.mul.apply (.int q) (.int b)).bind fun p => ArithOp.add.apply p (.int r)) =
        .ok (.int a) ∧
      r.toInt.natAbs < b.toInt.natAbs ∧ (r = 0 ∨ r.toInt.sign = a.toInt.sign) ∧
      if a.toInt = -2147483648 ∧ b.toInt = -1 then q.toInt = -2147483648 ∧ r = 0
      else q.toInt = a.toInt.tdiv b.toInt) := by
  intro quotient remainder
  by_cases hb : b = 0
  · subst hb
    exact .inl ⟨rfl, ⟨.divisionByZero, line⟩, rfl, rfl, rfl, rfl, rfl⟩
  · have hdiv : ArithOp.div.onInts a b = .ok (a / b) := if_neg hb
    have hmod : ArithOp.mod.onInts a b = .ok (a % b) := if_neg hb
    refine .inr ⟨hb, a / b, a % b, ?_, ?_, ?_, natAbs_mod_lt hb, mod_eq_zero_or_sign a b, ?_⟩
    · exact congrArg (fun r => atLine line (r.map Value.int)) hdiv
    · exact congrArg (fun r => atLine line (r.map Value.int)) hmod
    · exact congrArg (fun n => Except.ok (Value.int n)) (div_mul_add_mod a b)
    · split
      · rename_i hleast
        exact div_mod_of_least hleast
      · rename_i hfits
        exact toInt_div_eq hfits

end LetCalc
