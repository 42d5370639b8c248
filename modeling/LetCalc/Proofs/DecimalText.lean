import LetCalc.Proofs.Numerals
import LetCalc.Proofs.Shortest

/-!
# Decimals as text

A decimal is written in one of two notations.  With the point among its digits the text is a numeral
for a real, and the numeral writes the same number as the decimal.  With a power of ten behind its
digits the text is no numeral: it starts with one, and a letter follows.

Which of the two is used depends on the size of the decimal alone (`point_le_iff`).  A bound that is
the text of its own magnitude divides texts as it divides magnitudes (`value_shortest_lt_iff`), so
the notation of a magnitude depends on its own size.

Main statements: `exists_positional`, `isPositional_shortest_iff`.
-/

namespace LetCalc

/-! ### Digits around a point -/

/-- The places behind some digits move them up. -/
theorem digitsValue_append (cs ds : List Char) :
    digitsValue (cs ++ ds) = digitsValue cs * Nat.pow 10 ds.length + digitsValue ds := by
  induction cs with
  | nil => exact (Nat.zero_add _).symm.trans (by rw [digitsValue, Nat.zero_mul]; rfl)
  | cons c cs ih =>
      have hpow : Nat.pow 10 (cs ++ ds).length = Nat.pow 10 cs.length * Nat.pow 10 ds.length := by
        rw [List.length_append]
        exact Nat.pow_add 10 _ _
      rw [List.cons_append, digitsValue, digitsValue, ih, hpow, Nat.add_mul, Nat.add_assoc,
        Nat.mul_assoc]

/-- Zeros have the value zero. -/
theorem digitsValue_zeros (n : Nat) : digitsValue (Decimal.zeros n) = 0 := by
  induction n with
  | zero => rfl
  | succ n ih =>
      show (0 : Nat) * _ + digitsValue (Decimal.zeros n) = 0
      rw [ih, Nat.zero_mul]

/-- A number is the value of its digits. -/
theorem digitsValue_toDigits (m : Nat) : digitsValue (Nat.toDigits 10 m) = m := by
  rw [← ofDigitChars_zero]
  exact Nat.ofDigitChars_ten_toDigits

namespace Decimal

/-- Digits with a point among them have the value of all of them, moved by those behind the point.
-/
theorem value_ofDigits (whole fraction : List Char) :
    (ofDigits whole fraction).value =
      value ⟨digitsValue (whole ++ fraction), -fraction.length⟩ := by
  rw [ofDigits, ofDigitChars_zero]

/-- A zero that is written for an empty part changes nothing. -/
theorem value_ofDigits_orZero (whole fraction : List Char) :
    (ofDigits (orZero whole) (orZero fraction)).value = (ofDigits whole fraction).value := by
  have hwhole : ∀ cs, digitsValue (orZero whole ++ cs) = digitsValue (whole ++ cs) := by
    intro cs
    cases whole with
    | nil =>
        show (0 : Nat) * _ + digitsValue cs = digitsValue cs
        rw [Nat.zero_mul, Nat.zero_add]
    | cons c whole => rfl
  rw [value_ofDigits, value_ofDigits, hwhole]
  cases fraction with
  | nil =>
      have hzero : digitsValue (whole ++ ['0']) = digitsValue (whole ++ []) * Nat.pow 10 1 := by
        rw [digitsValue_append, List.append_nil]
        rfl
      show value ⟨digitsValue (whole ++ ['0']), -1⟩ = _
      rw [hzero]
      exact (value_refine _ (-1) 1).symm
  | cons c fraction => rfl

/-- The digits before the point. -/
def wholePart (digits : List Char) (point : Int) : List Char :=
  digits.take point.toNat ++ zeros (point.toNat - digits.length)

/-- The digits behind the point. -/
def fractionPart (digits : List Char) (point : Int) : List Char :=
  zeros (-point).toNat ++ digits.drop point.toNat

/-- Wherever the point is put, the digits on both sides of it write the same number. -/
theorem value_parts (d : Decimal) :
    (ofDigits (wholePart (Nat.toDigits 10 d.coefficient) (d.length + d.exponent))
      (fractionPart (Nat.toDigits 10 d.coefficient) (d.length + d.exponent))).value = d.value := by
  obtain ⟨c, e⟩ := d
  have hvalue := digitsValue_toDigits c
  rw [value_ofDigits, length]
  generalize Nat.toDigits 10 c = digits at hvalue ⊢
  simp only [wholePart, fractionPart]
  by_cases hlow : (digits.length : Int) + e ≤ 0
  · -- zeros stand between the point and the digits
    obtain ⟨k, hk⟩ : ∃ k : Nat, (digits.length : Int) + e = -k :=
      ⟨(-(digits.length + e)).toNat, by omega⟩
    have hcount : ((zeros k ++ digits).length : Int) = k + digits.length := by
      simp [zeros]
    rw [hk, Int.neg_neg, Int.toNat_natCast, show (-(k : Int)).toNat = 0 by omega, Nat.zero_sub,
      List.take_zero, List.drop_zero]
    show value ⟨digitsValue (zeros k ++ digits), -((zeros k ++ digits).length : Int)⟩ = _
    rw [hcount, digitsValue_append, digitsValue_zeros, Nat.zero_mul, Nat.zero_add, hvalue,
      show -((k : Int) + digits.length) = e by omega]
  obtain ⟨n, hn⟩ : ∃ n : Nat, (digits.length : Int) + e = n := ⟨(digits.length + e).toNat, by omega⟩
  rw [hn, Int.toNat_natCast, show (-(n : Int)).toNat = 0 by omega]
  show value ⟨digitsValue ((digits.take n ++ zeros (n - digits.length)) ++ digits.drop n),
    -((digits.drop n).length : Int)⟩ = _
  by_cases hhigh : n < digits.length
  · rw [Nat.sub_eq_zero_of_le (Nat.le_of_lt hhigh)]
    show value ⟨digitsValue ((digits.take n ++ []) ++ digits.drop n), _⟩ = _
    rw [List.append_nil, List.take_append_drop, hvalue, List.length_drop,
      show -((digits.length - n : Nat) : Int) = e by omega]
  · -- zeros stand between the digits and the point
    rw [List.take_of_length_le (by omega), List.drop_of_length_le (by omega), List.append_nil,
      digitsValue_append, digitsValue_zeros, Nat.add_zero, hvalue, zeros, List.length_replicate]
    refine (value_refine c 0 (n - digits.length)).symm.trans ?_
    rw [show (0 : Int) + (n - digits.length : Nat) = e by omega]

/-- Zeros are digits. -/
theorem all_isDigit_zeros (n : Nat) : (zeros n).all Char.isDigit = true := by
  induction n with
  | zero => rfl
  | succ n ih => exact ih

/-- With a zero in place of nothing, digits are a numeral. -/
theorem isIntNumeral_orZero {cs : List Char} (h : cs.all Char.isDigit = true) :
    isIntNumeral (orZero cs) = true := by
  cases cs with
  | nil => rfl
  | cons c cs => exact h

theorem all_isDigit_toDigits (m : Nat) : (Nat.toDigits 10 m).all Char.isDigit = true :=
  List.all_eq_true.mpr fun _ hc => Nat.isDigit_of_mem_toDigits (by decide) (by decide) hc

/-- Written with a point among its digits, a decimal is a numeral for a real, and the numeral writes
the same number. -/
theorem exists_positional (d : Decimal) :
    ∃ whole fraction, positional (Nat.toDigits 10 d.coefficient) (d.length + d.exponent) =
        whole ++ '.' :: fraction ∧ whole.all Char.isDigit = true ∧ isIntNumeral fraction = true ∧
      (ofDigits whole fraction).value = d.value := by
  have hdigits := List.all_eq_true.mp (all_isDigit_toDigits d.coefficient)
  have hwhole : (wholePart (Nat.toDigits 10 d.coefficient) (d.length + d.exponent)).all
      Char.isDigit = true := by
    rw [wholePart, List.all_append, all_isDigit_zeros, Bool.and_true]
    exact List.all_eq_true.mpr fun c hc => hdigits c (List.mem_of_mem_take hc)
  have hfraction : (fractionPart (Nat.toDigits 10 d.coefficient) (d.length + d.exponent)).all
      Char.isDigit = true := by
    rw [fractionPart, List.all_append, all_isDigit_zeros, Bool.true_and]
    exact List.all_eq_true.mpr fun c hc => hdigits c (List.mem_of_mem_drop hc)
  refine ⟨_, _, rfl, ?_, isIntNumeral_orZero hfraction, ?_⟩
  · exact ((Bool.and_eq_true _ _).mp (isIntNumeral_orZero hwhole)).2
  · exact (value_ofDigits_orZero _ _).trans d.value_parts

/-- Written with a power of ten, a decimal starts with a numeral, and a letter follows. -/
theorem exists_scientific (c : Nat) (power : Int) :
    ∃ (k : Token.Kind) (numeral : List Char), (k = .intLit ∨ k = .realLit) ∧
      k.spells numeral = true ∧
      scientific (Nat.toDigits 10 c) power = numeral ++ 'e' :: (toString power).toList := by
  have hdigits := all_isDigit_toDigits c
  cases hcs : Nat.toDigits 10 c with
  | nil => exact absurd hcs Nat.toDigits_ne_nil
  | cons d ds =>
      rw [hcs] at hdigits
      obtain ⟨hd, hds⟩ := (Bool.and_eq_true _ _).mp hdigits
      cases ds with
      | nil => exact ⟨.intLit, [d], .inl rfl, hdigits, rfl⟩
      | cons d' ds =>
          refine ⟨.realLit, [d] ++ '.' :: d' :: ds, .inr rfl, ?_, ?_⟩
          · refine isRealNumeral_iff.mpr ⟨[d], d' :: ds, rfl, ?_, hds⟩
            exact (Bool.and_eq_true _ _).mpr ⟨hd, rfl⟩
          · simp [scientific]

/-- A decimal is written with its point in place if its size allows, and otherwise with an
exponent. -/
theorem text_eq (d : Decimal) :
    d.text = if -3 ≤ (d.length : Int) + d.exponent ∧ (d.length : Int) + d.exponent ≤ 16 then
      positional (Nat.toDigits 10 d.coefficient) (d.length + d.exponent)
    else scientific (Nat.toDigits 10 d.coefficient) (d.length + d.exponent - 1) :=
  rfl

/-! ### The range of the point -/

/-- With the same exponent decimals are in the order of their coefficients. -/
theorem value_lt_value {c c' : Nat} (e : Int) (h : c < c') : value ⟨c, e⟩ < value ⟨c', e⟩ :=
  mul_lt_mul_of_pos_right (Nat.cast_lt.mpr h) (zpow_pos (by decide) _)

/-- The point says how large a decimal is. -/
theorem point_le_iff {d : Decimal} (h : d.coefficient ≠ 0) (k : Int) :
    d.length + d.exponent ≤ k ↔ d.value < value ⟨1, k⟩ := by
  obtain ⟨n, hn⟩ : ∃ n, d.length = n + 1 :=
    ⟨d.length - 1, (Nat.sub_add_cancel d.length_pos).symm⟩
  have hlow : value ⟨1, d.exponent + n⟩ ≤ d.value := by
    rw [value_refine, Nat.one_mul]
    refine value_le_value ?_ (Int.le_refl _)
    exact pow_le_of_lt_length (Nat.pos_of_ne_zero h) (Nat.lt_of_lt_of_eq n.lt_succ_self hn.symm)
  have hhigh : d.value < value ⟨1, d.exponent + d.length⟩ := by
    rw [value_refine, Nat.one_mul]
    exact value_lt_value d.exponent d.coefficient_lt
  constructor
  · intro hle
    exact hhigh.trans_le (value_le_value (Nat.le_refl 1) (by omega))
  · intro hlt
    apply Int.not_lt.mp
    intro hgt
    have hle : value ⟨1, k⟩ ≤ value ⟨1, d.exponent + n⟩ :=
      value_le_value (Nat.le_refl 1) (by omega)
    exact absurd hlt (not_lt.mpr (hle.trans hlow))

/-- A decimal that is not rounded to zero is not zero. -/
theorem coefficient_ne_zero {d : Decimal} (h : d.nearest ≠ 0) : d.coefficient ≠ 0 := by
  intro hzero
  refine h (nearest_eq_of_value_eq (Nat.zero_le _) ?_)
  rw [value, hzero, Nat.cast_zero, zero_mul]
  exact (zero_div _).symm

/-- A decimal that is the text of its own magnitude divides the texts of others as it divides their
magnitudes. -/
theorem value_shortest_lt_iff {b : Decimal} {p : Nat} (hb : shortest b.nearest = b)
    (hzero : p ≠ 0) (hp : p < Binary64.infinity) :
    (shortest p).value < b.value ↔ p < b.nearest := by
  have hread := (isShortest_shortest hzero hp).nearest
  constructor
  · intro hlt
    have hle := nearest_le_nearest (le_of_lt hlt)
    rw [hread] at hle
    refine Nat.lt_of_le_of_ne hle ?_
    rintro rfl
    rw [hb] at hlt
    exact absurd hlt (lt_irrefl _)
  · intro hlt
    apply not_le.mp
    intro hle
    have := nearest_le_nearest hle
    omega

/-- The texts without a power of ten are those from `0.0001` up to below `10 ^ 16`. -/
theorem isPositional_shortest_iff {p : Nat} (hzero : p ≠ 0) (hp : p < Binary64.infinity) :
    (-3 ≤ ((shortest p).length : Int) + (shortest p).exponent ∧
      ((shortest p).length : Int) + (shortest p).exponent ≤ 16) ↔
    nearest ⟨1, -4⟩ ≤ p ∧ p < nearest ⟨1, 16⟩ := by
  have hread := (isShortest_shortest hzero hp).nearest
  have hc := coefficient_ne_zero (hread.trans_ne hzero)
  have hlow := (point_le_iff hc (-4)).trans (value_shortest_lt_iff (by decide +kernel) hzero hp)
  have hhigh := (point_le_iff hc 16).trans (value_shortest_lt_iff (by decide +kernel) hzero hp)
  omega

end Decimal

end LetCalc
