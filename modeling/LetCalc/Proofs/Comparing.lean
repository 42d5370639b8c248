import LetCalc.Eval
import LetCalc.Proofs.Doubles

/-!
# Comparison of integers

Integers are compared as doubles.  A mantissa has 53 bits, so a whole number of at most that many is
a double itself: nothing is rounded away when it is taken for one (`exists_ofInt_eq`).  Doubles are
compared as the numbers that they stand for, and so two integers compare as doubles in the way they
do as whole numbers.

Main statement: `compare_ints`.
-/

namespace LetCalc

namespace Binary64

/-! ### Whole numbers are doubles -/

-- the exponent is kept behind a name, as no tactic should work out a power of this size
/-- One has as many grains as a block, doubled 1022 times. -/
theorem exists_grainsInOne_eq : ∃ k, k = 1022 ∧ grainsInOne = block * Nat.pow 2 k :=
  ⟨1022, rfl, by decide +kernel⟩

theorem grainsInOne_pos : 0 < grainsInOne := by decide +kernel

/-- A number moved up until it fills a mantissa. -/
def lift (n : Nat) : Nat :=
  n * Nat.pow 2 (52 - n.log2)

section

variable {n : Nat} (hpos : n ≠ 0) (h : n < 2 * block)

include hpos h

/-- A number below two blocks has its first bit within the 53 of a mantissa. -/
theorem log2_le : n.log2 ≤ 52 :=
  Nat.lt_succ_iff.mp ((Nat.log2_lt hpos).mpr h)

/-- Moved up, the number has its first bit at the top of the mantissa. -/
theorem block_le_lift : block ≤ lift n := by
  have hsum : n.log2 + (52 - n.log2) = 52 := Nat.add_sub_of_le (log2_le hpos h)
  calc block = Nat.pow 2 (n.log2 + (52 - n.log2)) := by rw [hsum, block]
    _ = Nat.pow 2 n.log2 * Nat.pow 2 (52 - n.log2) := two_pow_add _ _
    _ ≤ lift n := Nat.mul_le_mul_right _ (Nat.log2_self_le hpos)

/-- It does not go beyond the mantissa. -/
theorem lift_lt : lift n < 2 * block := by
  have hsum : n.log2 + 1 + (52 - n.log2) = 53 := by
    have hlog := log2_le hpos h
    omega
  calc lift n < Nat.pow 2 (n.log2 + 1) * Nat.pow 2 (52 - n.log2) :=
        Nat.mul_lt_mul_of_pos_right Nat.lt_log2_self (Nat.two_pow_pos _)
    _ = Nat.pow 2 53 := by rw [← two_pow_add, hsum]

/-- The size of a whole number, with its mantissa set apart. -/
theorem mul_block_eq (k : Nat) : n * (block * Nat.pow 2 k) = lift n * Nat.pow 2 (n.log2 + k) := by
  have hsum : 52 - n.log2 + n.log2 = 52 := Nat.sub_add_cancel (log2_le hpos h)
  have hblock : block = Nat.pow 2 (52 - n.log2) * Nat.pow 2 n.log2 := by
    rw [← two_pow_add, hsum, block]
  rw [hblock, two_pow_add, lift, Nat.mul_assoc, Nat.mul_assoc]

end

/-- A whole number of at most 53 bits has the size of a finite double. -/
theorem exists_grains_eq {n : Nat} (h : n < 2 * block) :
    ∃ pattern, pattern < infinity ∧ grains pattern = n * grainsInOne := by
  by_cases hpos : n = 0
  · refine ⟨0, by decide, ?_⟩
    rw [hpos, Nat.zero_mul]
    rfl
  · have hlog := log2_le hpos h
    have hhigh := lift_lt hpos h
    obtain ⟨k, hk, hone⟩ := exists_grainsInOne_eq
    refine ⟨(n.log2 + k) * block + lift n, ?_, ?_⟩
    · rw [infinity_eq]
      rw [block_eq] at hhigh ⊢
      omega
    · rw [grains_block _ (block_le_lift hpos h) hhigh, hone, mul_block_eq hpos h]

/-- Such a number is not rounded when it is taken for a real. -/
theorem exists_ofInt_eq {n : Int} (h : n.natAbs < 2 * block) :
    ∃ negative pattern, ofInt n = toReal negative pattern ∧ pattern < infinity ∧
      signedGrains negative pattern = n * grainsInOne := by
  obtain ⟨pattern, hfinite, hgrains⟩ := exists_grains_eq h
  have hnearest : nearest n.natAbs 1 = pattern := by
    apply nearest_eq_of_grains Nat.one_pos hfinite
    rw [hgrains, Nat.mul_one]
  refine ⟨decide (n < 0), pattern, by rw [ofInt, hnearest], hfinite, ?_⟩
  by_cases hneg : n < 0
  · rw [decide_eq_true hneg, signedGrains, hgrains, Int.natCast_mul, ← Int.neg_mul]
    congr 1
    omega
  · rw [decide_eq_false hneg, signedGrains, hgrains, Int.natCast_mul]
    congr 1
    omega

/-- A positive factor on both sides does not change a comparison. -/
theorem compare_mul (a b : Int) {c : Int} (hc : 0 < c) : compare (a * c) (b * c) = compare a b := by
  rcases Int.lt_trichotomy a b with h | h | h
  · rw [Int.compare_eq_lt.mpr h, Int.compare_eq_lt.mpr (Int.mul_lt_mul_of_pos_right h hc)]
  · rw [Int.compare_eq_eq.mpr h, Int.compare_eq_eq.mpr (congrArg (· * c) h)]
  · rw [Int.compare_eq_gt.mpr h, Int.compare_eq_gt.mpr (Int.mul_lt_mul_of_pos_right h hc)]

/-- Taken for reals, whole numbers keep their order. -/
theorem compare_ofInt {a b : Int} (ha : a.natAbs < 2 * block) (hb : b.natAbs < 2 * block) :
    (ofInt a).toModel.unpack.compare (ofInt b).toModel.unpack = some (compare a b) := by
  obtain ⟨s, p, hp, hpfinite, hpgrains⟩ := exists_ofInt_eq ha
  obtain ⟨t, q, hq, hqfinite, hqgrains⟩ := exists_ofInt_eq hb
  have hone : (0 : Int) < grainsInOne := Int.ofNat_lt.mpr grainsInOne_pos
  rw [hp, hq, compare_toReal s t hpfinite hqfinite, hpgrains, hqgrains, compare_mul a b hone]

end Binary64

/-! ### Comparisons by the order of doubles -/

section

variable {x y : Float}

/-- Doubles are compared by their parts. -/
theorem real_lt_iff : x < y ↔ x.toModel.unpack.compare y.toModel.unpack = some .lt := by
  show decide ((x.toModel.unpack.compare y.toModel.unpack == some .lt) = true) = true ↔ _
  rw [decide_eq_true_iff, beq_iff_eq]

/-- The same for the order with equality. -/
theorem real_le_iff :
    x ≤ y ↔ (x.toModel.unpack.compare y.toModel.unpack).any Ordering.isLE = true := by
  show decide ((x.toModel.unpack.compare y.toModel.unpack).any Ordering.isLE = true) = true ↔ _
  rw [decide_eq_true_iff]

/-- The same for equality, which is not that of patterns: the zeros are equal. -/
theorem real_beq_eq : (x == y) = (x.toModel.unpack.compare y.toModel.unpack == some .eq) :=
  rfl

end

namespace Comparison

/-- Whether a comparison holds between whole numbers. -/
def onIntegers (op : Comparison) (a b : Int) : Bool :=
  match op with
  | lt => a < b
  | le => a ≤ b
  | gt => a > b
  | ge => a ≥ b
  | eq => a == b
  | ne => a != b

/-- Reals that are in the order of two whole numbers, on either side, compare as these do. -/
theorem onReals_eq_onIntegers {x y : Float} {a b : Int}
    (hxy : x.toModel.unpack.compare y.toModel.unpack = some (compare a b))
    (hyx : y.toModel.unpack.compare x.toModel.unpack = some (compare b a)) (op : Comparison) :
    op.onReals x y = op.onIntegers a b := by
  have hbeq : (x == y) = (a == b) := by
    rw [real_beq_eq, hxy, Bool.eq_iff_iff, beq_iff_eq, beq_iff_eq, Option.some_inj,
      Int.compare_eq_eq]
  cases op with
  | lt =>
      refine decide_eq_decide.mpr (real_lt_iff.trans ?_)
      rw [hxy, Option.some_inj, Int.compare_eq_lt]
  | le =>
      refine decide_eq_decide.mpr (real_le_iff.trans ?_)
      rw [hxy, Option.any_some, Int.isLE_compare]
  | gt =>
      refine decide_eq_decide.mpr (real_lt_iff.trans ?_)
      rw [hyx, Option.some_inj, Int.compare_eq_lt]
  | ge =>
      refine decide_eq_decide.mpr (real_le_iff.trans ?_)
      rw [hyx, Option.any_some, Int.isLE_compare]
  | eq => exact hbeq
  | ne => exact congrArg (!·) hbeq

end Comparison

/-- An integer has no more bits than a mantissa. -/
theorem natAbs_toInt_lt (a : Int32) : a.toInt.natAbs < 2 * Binary64.block := by
  have hlow := a.le_toInt
  have hhigh := a.toInt_lt
  rw [Binary64.block_eq]
  omega

/-- **Integers are compared exactly.**  The comparison of two integers, which is made between the
doubles that they are taken for, gives the truth value of the comparison between the integers
themselves. -/
theorem compare_ints (op : Comparison) (a b : Int32) (line : Nat) :
    atLine line ((BinaryOp.compare op).apply (.int a) (.int b)) =
      .ok (.bool (op.onIntegers a.toInt b.toInt)) := by
  have hab := Binary64.compare_ofInt (natAbs_toInt_lt a) (natAbs_toInt_lt b)
  have hba := Binary64.compare_ofInt (natAbs_toInt_lt b) (natAbs_toInt_lt a)
  rw [← op.onReals_eq_onIntegers hab hba]
  rfl

end LetCalc
