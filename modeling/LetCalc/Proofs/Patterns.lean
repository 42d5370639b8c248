import LetCalc.Proofs.Comparing

/-!
# Doubles by sign and pattern

A double is a sign and a pattern, or else it is the NaN, of which there is only one
(`exists_toReal`).  The bits of a finite double are those of its sign and its pattern.  Changing a
sign changes nothing else, and without signs doubles are compared as their patterns are.
-/

namespace LetCalc.Binary64

open Float.Model (Format UnpackedFloat)

/-! ### Bits -/

/-- A real is no more than its bits. -/
theorem real_ext {x y : Float} (h : x.toBits = y.toBits) : x = y := by
  obtain ⟨x, hx⟩ := x
  obtain ⟨y, hy⟩ := y
  obtain rfl : x = y := h
  rfl

section

variable (negative : Bool) {pattern : Nat}

/-- A real is put together from its parts. -/
theorem toReal_eq (h : pattern < infinity) :
    toReal negative pattern = ⟨Float.Model.pack (unpacked negative pattern)⟩ := by
  show Float.ofModel (Float.Model.pack
    (UnpackedFloat.unpack Format.binary64 (UInt64.ofNat _).toBitVec)) = _
  rw [toBitVec_eq_packed negative h, unpack_packed negative h]

/-- Its bits are the sign and the pattern. -/
theorem toBits_toReal (h : pattern < infinity) :
    (toReal negative pattern).toBits.toNat = if negative then signBit + pattern else pattern := by
  rw [toReal_eq negative h]
  show (UnpackedFloat.pack Format.binary64 (unpacked negative pattern)).toNat = _
  rw [pack_unpacked negative h, ← toBitVec_eq_packed negative h]
  rw [infinity_eq] at h
  refine Nat.mod_eq_of_lt ?_
  rw [signBit_eq]
  show _ < 18446744073709551616
  split <;> omega

/-- The opposite of a real has the other sign, also if it is a zero. -/
theorem neg_toReal (h : pattern < infinity) :
    -toReal negative pattern = toReal (!negative) pattern := by
  have hneg : (unpacked negative pattern).neg = unpacked (!negative) pattern := by
    by_cases hzero : pattern = 0
    · rw [unpacked, unpacked, dif_pos hzero, dif_pos hzero]
      cases negative <;> rfl
    · rw [unpacked, unpacked, dif_neg hzero, dif_neg hzero]
      cases negative <;> rfl
  show Float.ofModel (Float.Model.pack (toReal negative pattern).toModel.unpack.neg) = _
  rw [unpack_toReal negative h, hneg, toReal_eq _ h]

/-- The absolute value has the same pattern without a sign. -/
theorem abs_toReal (h : pattern < infinity) :
    (toReal negative pattern).abs = toReal false pattern := by
  have habs : (unpacked negative pattern).abs = unpacked false pattern := by
    by_cases hzero : pattern = 0
    · rw [unpacked, unpacked, dif_pos hzero, dif_pos hzero]
      rfl
    · rw [unpacked, unpacked, dif_neg hzero, dif_neg hzero]
      rfl
  show Float.ofModel (Float.Model.pack (toReal negative pattern).toModel.unpack.abs) = _
  rw [unpack_toReal negative h, habs, toReal_eq _ h]

/-- A pattern below infinity is that of a finite real. -/
theorem status_toReal (h : pattern < infinity) :
    (toReal negative pattern).isFinite = true ∧ (toReal negative pattern).isInf = false ∧
      (toReal negative pattern).isNaN = false := by
  show (toReal negative pattern).toModel.unpack.isFinite = true ∧
    (toReal negative pattern).toModel.unpack.isInf = false ∧
    (toReal negative pattern).toModel.unpack.isNaN = false
  rw [unpack_toReal negative h]
  by_cases hzero : pattern = 0
  · rw [unpacked, dif_pos hzero]
    exact ⟨rfl, rfl, rfl⟩
  · rw [unpacked, dif_neg hzero]
    exact ⟨rfl, rfl, rfl⟩

/-- The pattern of infinity is neither finite nor a NaN. -/
theorem status_infinity :
    (toReal negative infinity).isFinite = false ∧ (toReal negative infinity).isInf = true ∧
      (toReal negative infinity).isNaN = false := by
  cases negative <;> decide +kernel

end

/-- The NaN. -/
def nan : Float :=
  toReal false (infinity + 1)

/-- The NaN is neither finite nor infinite. -/
theorem status_nan : nan.isFinite = false ∧ nan.isInf = false ∧ nan.isNaN = true := by
  decide +kernel

/-- From infinity on, all bits of the exponent are set. -/
theorem unpackExponent_eq {b : BitVec 64} (h : infinity ≤ b.toNat % signBit) :
    @UnpackedFloat.unpackExponent Format.binary64 b = -1#11 := by
  apply BitVec.eq_of_toNat_eq
  show b.toNat >>> 52 % 2048 = 2047
  rw [infinity_eq, signBit_eq] at h
  rw [Nat.shiftRight_eq_div_pow]
  omega

/-- A pattern above that of infinity has a mantissa, which makes it a NaN. -/
theorem unpackMantissa_ne {b : BitVec 64} (h : infinity < b.toNat % signBit) :
    @UnpackedFloat.unpackMantissa Format.binary64 b ≠ 0#52 := by
  intro heq
  have hnat : b.toNat >>> 0 % 4503599627370496 = 0 := congrArg BitVec.toNat heq
  have hlt := b.isLt
  rw [infinity_eq, signBit_eq] at h
  rw [Nat.shiftRight_zero] at hnat
  omega

/-- Every double is finite, infinite or the NaN.  The patterns behind infinity all write the NaN, of
which only one is kept. -/
theorem exists_toReal (x : Float) :
    (∃ negative pattern, pattern < infinity ∧ x = toReal negative pattern) ∨
      (∃ negative, x = toReal negative infinity) ∨ x = nan := by
  obtain ⟨negative, hbits⟩ : ∃ negative : Bool, x.toBits.toNat =
      if negative then signBit + x.toBits.toNat % signBit else x.toBits.toNat % signBit := by
    have hlt : x.toBits.toNat < 18446744073709551616 := x.toBits.toNat_lt
    rw [signBit_eq]
    by_cases h : x.toBits.toNat < 9223372036854775808
    · exact ⟨false, (Nat.mod_eq_of_lt h).symm⟩
    · refine ⟨true, ?_⟩
      rw [if_pos rfl]
      omega
  rcases Nat.lt_trichotomy (x.toBits.toNat % signBit) infinity with h | h | h
  · refine .inl ⟨negative, _, h, real_ext (UInt64.toNat_inj.mp ?_)⟩
    rw [toBits_toReal negative h]
    exact hbits
  · refine .inr (.inl ⟨negative, real_ext (UInt64.toNat_inj.mp ?_)⟩)
    rw [hbits, h]
    cases negative <;> decide +kernel
  · have hnan := x.toModel.valid.eq_packedNaN (unpackExponent_eq (Nat.le_of_lt h))
      (unpackMantissa_ne h)
    refine .inr (.inr (real_ext (UInt64.toBitVec_inj.mp (hnan.trans ?_))))
    decide +kernel

/-! ### Comparisons -/

section

variable {p q : Nat}

/-- Sizes are in the order of their patterns. -/
theorem compare_grains (p q : Nat) : compare (grains p : Int) (grains q) = compare p q := by
  rcases Nat.lt_trichotomy p q with h | h | h
  · rw [Nat.compare_eq_lt.mpr h, Int.compare_eq_lt.mpr (Int.ofNat_lt.mpr (grains_lt_grains h))]
  · rw [h, Int.compare_eq_eq.mpr rfl, Nat.compare_eq_eq.mpr rfl]
  · rw [Nat.compare_eq_gt.mpr h, Int.compare_eq_gt.mpr (Int.ofNat_lt.mpr (grains_lt_grains h))]

/-- Without their signs doubles are compared as their patterns. -/
theorem toReal_le_toReal (hp : p < infinity) (hq : q < infinity) :
    toReal false p ≤ toReal false q ↔ p ≤ q := by
  rw [real_le_iff, compare_toReal false false hp hq]
  show (compare (grains p : Int) (grains q)).isLE = true ↔ p ≤ q
  rw [compare_grains, Nat.isLE_compare]

/-- The same for the strict order. -/
theorem toReal_lt_toReal (hp : p < infinity) (hq : q < infinity) :
    toReal false p < toReal false q ↔ p < q := by
  rw [real_lt_iff, compare_toReal false false hp hq]
  show some (compare (grains p : Int) (grains q)) = some .lt ↔ p < q
  rw [compare_grains, Option.some_inj, Nat.compare_eq_lt]

/-- The two zeros are equal to zero, and no other double is. -/
theorem toReal_beq_zero (negative : Bool) (hp : p < infinity) :
    (toReal negative p == 0) = decide (p = 0) := by
  have hzero : (0 : Float) = toReal false 0 := by decide +kernel
  rw [hzero, real_beq_eq, compare_toReal negative false hp (by decide)]
  by_cases h : p = 0
  · rw [h, signedGrains_zero, signedGrains_zero]
    rfl
  · rw [decide_eq_false h]
    cases negative with
    | true =>
        rw [signedGrains_zero, Int.compare_eq_lt.mpr (signedGrains_neg h)]
        rfl
    | false =>
        rw [signedGrains_zero, Int.compare_eq_gt.mpr (signedGrains_pos h)]
        rfl

end

end LetCalc.Binary64
