import LetCalc.Binary64

/-!
# Doubles and their order

A finite double has a sign, a **mantissa** and an **exponent**, and its pattern holds all three.  It
is compared by them: magnitudes by their exponents first, and by their mantissas where these agree.
That is the order of the patterns, and it is the order of the numbers that the doubles stand for as
well, since each pattern has more grains than the one below it (`grains_lt_grains`).

Main statements: `compare_toReal`, finite doubles are compared as their signed numbers of grains,
and `nearest_eq_of_grains`, a number that is a double is not rounded to another one.
-/

namespace LetCalc.Binary64

open Float.Model (Format UnpackedFloat)

/-! ### The parts of a double -/

theorem block_eq : block = 4503599627370496 := rfl

theorem infinity_eq : infinity = 9218868437227405312 := rfl

theorem signBit_eq : signBit = 9223372036854775808 := rfl

/-- The sign of a double. -/
def sign : Bool → UnpackedFloat.Sign
  | true => .negative
  | false => .positive

/-- The mantissa of a magnitude.  In the first block it is the pattern itself. -/
def mantissa (pattern : Nat) : Nat :=
  if pattern < block then pattern else block + pattern % block

/-- The power of two that the mantissa of a magnitude counts. -/
def exponent (pattern : Nat) : Int :=
  (pattern / block - 1 : Nat) - 1074

/-- Only the pattern of zero has no mantissa. -/
theorem mantissa_pos {pattern : Nat} (h : pattern ≠ 0) : 0 < mantissa pattern := by
  unfold mantissa
  rw [block_eq]
  split <;> omega

/-- A finite double by its parts. -/
def unpacked (negative : Bool) (pattern : Nat) : UnpackedFloat :=
  if h : pattern = 0 then .zero (sign negative)
  else .finite (sign negative) (mantissa pattern) (exponent pattern) (mantissa_pos h)

/-- A double as the bits of its sign, of its block and of its place there. -/
def packed (negative : Bool) (pattern : Nat) : BitVec 64 :=
  UnpackedFloat.packComponents Format.binary64 (sign negative) (.ofNat 11 (pattern / block))
    (.ofNat 52 (pattern % block))

/-- The bits of a double as a number: sign, exponent and mantissa at their places. -/
theorem toNat_packComponents (s : UnpackedFloat.Sign) (e : BitVec 11) (m : BitVec 52) :
    (UnpackedFloat.packComponents Format.binary64 s e m).toNat =
      s.toBitVec.toNat * signBit + e.toNat * block + m.toNat := by
  show (s.toBitVec ++ e ++ m).toNat = _
  rw [BitVec.toNat_append, BitVec.toNat_append, ← Nat.shiftLeft_add_eq_or_of_lt m.isLt,
    ← Nat.shiftLeft_add_eq_or_of_lt e.isLt, Nat.shiftLeft_eq, Nat.shiftLeft_eq, signBit_eq,
    block_eq]
  omega

/-- The sign can be read off the bits again. -/
theorem unpackSign_packComponents (s : UnpackedFloat.Sign) (e : BitVec 11) (m : BitVec 52) :
    UnpackedFloat.unpackSign (UnpackedFloat.packComponents Format.binary64 s e m) =
      s.toBitVec := by
  apply BitVec.eq_of_toNat_eq
  show (UnpackedFloat.packComponents Format.binary64 s e m).toNat >>> 63 % 2 = s.toBitVec.toNat
  rw [toNat_packComponents, Nat.shiftRight_eq_div_pow, signBit_eq, block_eq]
  have he : e.toNat < 2048 := e.isLt
  have hm : m.toNat < 4503599627370496 := m.isLt
  have hs : s.toBitVec.toNat < 2 := s.toBitVec.isLt
  omega

theorem ofBitVec_toBitVec (s : UnpackedFloat.Sign) :
    UnpackedFloat.Sign.ofBitVec s.toBitVec = s := by
  cases s <;> rfl

/-- The bits of a double are those that its pattern has, with the sign above them. -/
theorem toBitVec_eq_packed (negative : Bool) {pattern : Nat} (h : pattern < infinity) :
    (UInt64.ofNat (if negative then signBit + pattern else pattern)).toBitVec =
      packed negative pattern := by
  apply BitVec.eq_of_toNat_eq
  show (BitVec.ofNat 64 _).toNat = _
  rw [infinity_eq] at h
  rw [packed, toNat_packComponents, BitVec.toNat_ofNat, BitVec.toNat_ofNat, BitVec.toNat_ofNat,
    signBit_eq, block_eq]
  cases negative with
  | true =>
      show (9223372036854775808 + pattern) % 18446744073709551616 =
        1 * 9223372036854775808 + pattern / 4503599627370496 % 2048 * 4503599627370496 +
          pattern % 4503599627370496 % 4503599627370496
      omega
  | false =>
      show pattern % 18446744073709551616 =
        0 * 9223372036854775808 + pattern / 4503599627370496 % 2048 * 4503599627370496 +
          pattern % 4503599627370496 % 4503599627370496
      omega

/-! ### From bits to parts and back -/

/-- Finite doubles with the same parts are the same, whatever shows that the mantissa is not zero.
-/
theorem finite_congr {s s' : UnpackedFloat.Sign} {m m' : Nat} {e e' : Int} {hm : 0 < m}
    {hm' : 0 < m'} (hsign : s = s') (hmantissa : m = m') (hexponent : e = e') :
    UnpackedFloat.finite s m e hm = UnpackedFloat.finite s' m' e' hm' := by
  subst hsign hmantissa hexponent
  rfl

/-- In the first block there is no bit above the mantissa. -/
theorem unpack_first {s : UnpackedFloat.Sign} {m : BitVec 52} (hne : m ≠ 0#52)
    (hm : 0 < m.toNat) :
    UnpackedFloat.unpack Format.binary64 (UnpackedFloat.packComponents Format.binary64 s 0#11 m) =
      .finite s m.toNat (-1074) hm := by
  have hmantissa : UnpackedFloat.unpackMantissa
      (UnpackedFloat.packComponents Format.binary64 s 0#11 m) = m :=
    UnpackedFloat.unpackMantissa_packComponents
  have hexponent : UnpackedFloat.unpackExponent
      (UnpackedFloat.packComponents Format.binary64 s 0#11 m) = 0#11 :=
    UnpackedFloat.unpackExponent_packComponents
  refine (if_neg ?_).trans ((if_pos hexponent).trans ((dif_neg ?_).trans ?_))
  · rw [hexponent]
    decide
  · rw [hmantissa]
    exact hne
  · refine finite_congr ?_ (congrArg BitVec.toNat hmantissa) ?_
    · rw [unpackSign_packComponents, ofBitVec_toBitVec]
    · rw [hexponent]
      rfl

/-- In the other blocks there is one. -/
theorem unpack_later {s : UnpackedFloat.Sign} {e : BitVec 11} (m : BitVec 52) (hne : e ≠ 0#11)
    (hlast : e ≠ -1#11) (hm : 0 < block + m.toNat) :
    UnpackedFloat.unpack Format.binary64 (UnpackedFloat.packComponents Format.binary64 s e m) =
      .finite s (block + m.toNat) (e.toNat - 1075) hm := by
  have hexponent : UnpackedFloat.unpackExponent
      (UnpackedFloat.packComponents Format.binary64 s e m) = e :=
    UnpackedFloat.unpackExponent_packComponents
  refine (if_neg ?_).trans ((if_neg ?_).trans ?_)
  · rw [hexponent]
    exact hlast
  · rw [hexponent]
    exact hne
  · refine finite_congr ?_ ?_ ?_
    · rw [unpackSign_packComponents, ofBitVec_toBitVec]
    · rw [UnpackedFloat.unpackMantissa_packComponents, BitVec.toNat_append,
        ← Nat.shiftLeft_add_eq_or_of_lt m.isLt]
      rfl
    · rw [hexponent]
      rfl

/-- In the first block the exponent field is zero. -/
theorem pack_first (s : UnpackedFloat.Sign) {m : Nat} (hm : 0 < m) (h : m < block) :
    UnpackedFloat.pack Format.binary64 (.finite s m (-1074) hm) =
      UnpackedFloat.packComponents Format.binary64 s 0#11 (.ofNat 52 m) := by
  have hlog : m.log2 < 52 := (Nat.log2_lt (Nat.ne_of_gt hm)).mpr h
  rw [UnpackedFloat.pack.eq_def]
  refine (if_neg (by decide)).trans (if_neg ?_)
  show ¬ m.log2 + 1 = 53
  omega

/-- In a later block the first bit of the mantissa is dropped, and the field has the exponent. -/
theorem pack_later (s : UnpackedFloat.Sign) {m e : Nat} (hm : 0 < m) (hlow : block ≤ m)
    (hhigh : m < 2 * block) (he : e < 2047) :
    UnpackedFloat.pack Format.binary64 (.finite s m (e - 1075) hm) =
      UnpackedFloat.packComponents Format.binary64 s (.ofNat 11 e) (.ofNat 52 m) := by
  have hlog : m.log2 = 52 := (Nat.log2_eq_iff (Nat.ne_of_gt hm)).mpr ⟨hlow, hhigh⟩
  have hbiased : ((e : Int) - 1075 + 1023 + 52).toNat = e := by omega
  rw [UnpackedFloat.pack.eq_def]
  -- the constants of the format are put in, so that the exponent can be worked out
  show (if 2048 ≤ ((e : Int) - 1075 + 1023 + 52).toNat + 1 then _ else
    if m.log2 + 1 = 53 then
      UnpackedFloat.packComponents Format.binary64 s
        (.ofNat 11 ((e : Int) - 1075 + 1023 + 52).toNat) (.ofNat 52 m)
    else _) = _
  rw [hbiased, if_neg (by omega), if_pos (by omega)]

section

variable (negative : Bool) {pattern : Nat}

/-- A pattern of the first block is its own mantissa. -/
theorem unpacked_first (hpos : 0 < pattern) (h : pattern < block) :
    unpacked negative pattern = .finite (sign negative) pattern (-1074) hpos := by
  rw [unpacked, dif_neg (Nat.ne_of_gt hpos)]
  refine finite_congr rfl (if_pos h) ?_
  rw [exponent, Nat.div_eq_of_lt h]
  rfl

/-- A pattern of a later block has the first bit of the mantissa put back. -/
theorem unpacked_later (h : block ≤ pattern) (hpos : 0 < block + pattern % block) :
    unpacked negative pattern =
      .finite (sign negative) (block + pattern % block) ((pattern / block : Nat) - 1075) hpos := by
  have hzero : pattern ≠ 0 := by
    rw [block_eq] at h
    omega
  rw [unpacked, dif_neg hzero]
  refine finite_congr rfl (if_neg (Nat.not_lt.mpr h)) ?_
  rw [exponent]
  rw [block_eq] at h ⊢
  omega

/-- The bits of a pattern of the first block. -/
theorem packed_first (h : pattern < block) :
    packed negative pattern =
      UnpackedFloat.packComponents Format.binary64 (sign negative) 0#11 (.ofNat 52 pattern) := by
  rw [packed, Nat.div_eq_of_lt h, Nat.mod_eq_of_lt h]

/-- The parts of a double are read off its bits. -/
theorem unpack_packed (h : pattern < infinity) :
    UnpackedFloat.unpack Format.binary64 (packed negative pattern) = unpacked negative pattern := by
  rw [infinity_eq] at h
  by_cases hzero : pattern = 0
  · subst hzero
    cases negative <;> rfl
  by_cases hblock : pattern < block
  · have hnat : (BitVec.ofNat 52 pattern).toNat = pattern := Nat.mod_eq_of_lt hblock
    have hne : BitVec.ofNat 52 pattern ≠ 0#52 := by
      intro heq
      rw [heq] at hnat
      exact hzero hnat.symm
    have hpos : 0 < (BitVec.ofNat 52 pattern).toNat := by omega
    rw [packed_first negative hblock, unpack_first hne hpos,
      unpacked_first negative (Nat.pos_of_ne_zero hzero) hblock]
    exact finite_congr rfl hnat rfl
  · have hexponent : (BitVec.ofNat 11 (pattern / block)).toNat = pattern / block := by
      apply Nat.mod_eq_of_lt
      show pattern / block < 2048
      rw [block_eq]
      omega
    have hmantissa : (BitVec.ofNat 52 (pattern % block)).toNat = pattern % block :=
      Nat.mod_mod pattern block
    have hne : BitVec.ofNat 11 (pattern / block) ≠ 0#11 := by
      intro heq
      rw [heq, block_eq] at hexponent
      rw [block_eq] at hblock
      simp only [BitVec.toNat_zero] at hexponent
      omega
    have hlast : BitVec.ofNat 11 (pattern / block) ≠ -1#11 := by
      intro heq
      have hnat : 2047 = pattern / block := by
        rw [← hexponent, heq]
        rfl
      rw [block_eq] at hnat
      omega
    rw [packed, unpack_later _ hne hlast (by rw [block_eq]; omega),
      unpacked_later negative (Nat.not_lt.mp hblock) (by rw [block_eq]; omega)]
    exact finite_congr rfl (congrArg (block + ·) hmantissa) (by rw [hexponent])

/-- The bits of a double are put together from its parts. -/
theorem pack_unpacked (h : pattern < infinity) :
    UnpackedFloat.pack Format.binary64 (unpacked negative pattern) = packed negative pattern := by
  rw [infinity_eq] at h
  by_cases hzero : pattern = 0
  · subst hzero
    cases negative <;> rfl
  by_cases hblock : pattern < block
  · have hpos : 0 < pattern := Nat.pos_of_ne_zero hzero
    rw [unpacked_first negative hpos hblock, pack_first _ hpos hblock, packed_first negative hblock]
  · have hplace : pattern % block < block := Nat.mod_lt pattern (by decide)
    have hpos : 0 < block + pattern % block := by
      rw [block_eq]
      omega
    have hlast : pattern / block < 2047 := by
      rw [block_eq]
      omega
    have hlower : BitVec.ofNat 52 (block + pattern % block) = BitVec.ofNat 52 (pattern % block) :=
      BitVec.eq_of_toNat_eq (Nat.add_mod_left block (pattern % block))
    rw [unpacked_later negative (Nat.not_lt.mp hblock) hpos,
      pack_later _ hpos (by omega) (by omega) hlast, packed, hlower]

/-- A real has the parts that its sign and its pattern say. -/
theorem unpack_toReal (h : pattern < infinity) :
    (toReal negative pattern).toModel.unpack = unpacked negative pattern := by
  -- bits are made regular on the way in: they are unpacked and packed again before they are kept
  show UnpackedFloat.unpack Format.binary64 (UnpackedFloat.pack Format.binary64
    (UnpackedFloat.unpack Format.binary64 (UInt64.ofNat _).toBitVec)) = _
  rw [toBitVec_eq_packed negative h, unpack_packed negative h, pack_unpacked negative h,
    unpack_packed negative h]

end

/-! ### The order of magnitudes -/

/-- Of two patterns the greater one has the greater exponent, or the same and a greater mantissa. -/
theorem parts_lt {p q : Nat} (h : p < q) :
    exponent p < exponent q ∨ exponent p = exponent q ∧ mantissa p < mantissa q := by
  unfold exponent mantissa
  rw [block_eq]
  split <;> split <;> omega

/-- A size is the mantissa, doubled once for each block behind the second. -/
theorem grains_eq (pattern : Nat) :
    grains pattern = mantissa pattern * Nat.pow 2 (pattern / block - 1) := by
  unfold grains mantissa
  by_cases h : pattern < block
  · rw [if_pos h, if_pos h, Nat.div_eq_of_lt h]
    exact (Nat.mul_one pattern).symm
  · rw [if_neg h, if_neg h]

/-- The grains of a block stay below those that the next block starts with. -/
theorem grains_lt (pattern : Nat) : grains pattern < block * Nat.pow 2 (pattern / block) := by
  rw [grains_eq]
  by_cases h : pattern < block
  · rw [mantissa, if_pos h, Nat.div_eq_of_lt h]
    exact Nat.mul_lt_mul_of_pos_right h Nat.one_pos
  · have hexponent : pattern / block = pattern / block - 1 + 1 := by
      rw [block_eq] at h ⊢
      omega
    have hplace : pattern % block < block := Nat.mod_lt pattern (by decide)
    calc mantissa pattern * Nat.pow 2 (pattern / block - 1)
        < 2 * block * Nat.pow 2 (pattern / block - 1) := by
          rw [mantissa, if_neg h]
          exact Nat.mul_lt_mul_of_pos_right (by omega) (Nat.two_pow_pos _)
      _ = block * (Nat.pow 2 (pattern / block - 1) * 2) := by
          rw [Nat.mul_comm 2 block, Nat.mul_assoc, Nat.mul_comm 2]
      _ = block * Nat.pow 2 (pattern / block - 1 + 1) := rfl
      _ = block * Nat.pow 2 (pattern / block) := by rw [← hexponent]

/-- A double of a later block has at least the grains that the block starts with. -/
theorem le_grains {pattern : Nat} (h : block ≤ pattern) :
    block * Nat.pow 2 (pattern / block - 1) ≤ grains pattern := by
  rw [grains_eq, mantissa, if_neg (Nat.not_lt.mpr h)]
  exact Nat.mul_le_mul_right _ (Nat.le_add_right block _)

/-- A greater pattern has more grains. -/
theorem grains_lt_grains {p q : Nat} (h : p < q) : grains p < grains q := by
  by_cases hblock : p / block = q / block
  · have hexponent : exponent p = exponent q := by rw [exponent, exponent, hblock]
    have hmantissa : mantissa p < mantissa q := by
      rcases parts_lt h with hlt | ⟨-, hlt⟩
      · omega
      · exact hlt
    rw [grains_eq, grains_eq, hblock]
    exact Nat.mul_lt_mul_of_pos_right hmantissa (Nat.two_pow_pos _)
  · have hle : p / block ≤ q / block - 1 := by
      rw [block_eq] at hblock ⊢
      omega
    have hq : block ≤ q := by
      rw [block_eq] at hblock ⊢
      omega
    calc grains p < block * Nat.pow 2 (p / block) := grains_lt p
      _ ≤ block * Nat.pow 2 (q / block - 1) :=
          Nat.mul_le_mul_left block (Nat.pow_le_pow_right Nat.two_pos hle)
      _ ≤ grains q := le_grains hq

/-- Only the pattern of zero has the size zero. -/
theorem grains_pos {p : Nat} (h : p ≠ 0) : 0 < grains p :=
  grains_lt_grains (Nat.pos_of_ne_zero h)

/-- Magnitudes are compared as their numbers of grains. -/
theorem compare_parts (p q : Nat) :
    (compare (exponent p) (exponent q)).then (compare (mantissa p) (mantissa q)) =
      compare (grains p : Int) (grains q) := by
  rcases Nat.lt_trichotomy p q with h | h | h
  · rw [Int.compare_eq_lt.mpr (Int.ofNat_lt.mpr (grains_lt_grains h))]
    rcases parts_lt h with he | ⟨he, hm⟩
    · rw [Int.compare_eq_lt.mpr he]
      rfl
    · rw [Int.compare_eq_eq.mpr he, Nat.compare_eq_lt.mpr hm]
      rfl
  · subst h
    rw [Int.compare_eq_eq.mpr rfl, Int.compare_eq_eq.mpr rfl, Nat.compare_eq_eq.mpr rfl]
    rfl
  · rw [Int.compare_eq_gt.mpr (Int.ofNat_lt.mpr (grains_lt_grains h))]
    rcases parts_lt h with he | ⟨he, hm⟩
    · rw [Int.compare_eq_gt.mpr he]
      rfl
    · rw [Int.compare_eq_eq.mpr he.symm, Nat.compare_eq_gt.mpr hm]
      rfl

/-! ### The order of reals -/

/-- The number of grains of a double, below zero if its sign is. -/
def signedGrains : Bool → Nat → Int
  | true, pattern => -grains pattern
  | false, pattern => grains pattern

/-- Signs turn a comparison around. -/
theorem compare_neg (a b : Int) : compare (-a) (-b) = (compare a b).swap := by
  rcases Int.lt_trichotomy a b with h | h | h
  · rw [Int.compare_eq_lt.mpr h, Int.compare_eq_gt.mpr (Int.neg_lt_neg h)]
    rfl
  · rw [Int.compare_eq_eq.mpr h, Int.compare_eq_eq.mpr (congrArg Neg.neg h)]
    rfl
  · rw [Int.compare_eq_gt.mpr h, Int.compare_eq_lt.mpr (Int.neg_lt_neg h)]
    rfl

theorem signedGrains_zero (s : Bool) : signedGrains s 0 = 0 := by
  cases s <;> rfl

/-- A negative double is below zero. -/
theorem signedGrains_neg {p : Nat} (h : p ≠ 0) : signedGrains true p < 0 :=
  Int.neg_neg_of_pos (Int.ofNat_lt.mpr (grains_pos h))

/-- A positive double is above zero. -/
theorem signedGrains_pos {p : Nat} (h : p ≠ 0) : 0 < signedGrains false p :=
  Int.ofNat_lt.mpr (grains_pos h)

/-- Next to a zero, of either sign, a double counts by its own sign alone. -/
theorem compare_zero_unpacked (s t : Bool) (q : Nat) :
    (UnpackedFloat.zero (sign s)).compare (unpacked t q) =
      some (compare 0 (signedGrains t q)) := by
  by_cases hq : q = 0
  · rw [unpacked, dif_pos hq, hq, signedGrains_zero]
    rfl
  · rw [unpacked, dif_neg hq]
    cases t with
    | true =>
        rw [Int.compare_eq_gt.mpr (signedGrains_neg hq)]
        rfl
    | false =>
        rw [Int.compare_eq_lt.mpr (signedGrains_pos hq)]
        rfl

/-- The same with zero on the right. -/
theorem compare_unpacked_zero (s t : Bool) {p : Nat} (hp : p ≠ 0) :
    (unpacked s p).compare (UnpackedFloat.zero (sign t)) =
      some (compare (signedGrains s p) 0) := by
  rw [unpacked, dif_neg hp]
  cases s with
  | true =>
      rw [Int.compare_eq_lt.mpr (signedGrains_neg hp)]
      rfl
  | false =>
      rw [Int.compare_eq_gt.mpr (signedGrains_pos hp)]
      rfl

/-- Two doubles that are not zero differ by their signs, or else by their magnitudes.  Below zero
the order of the magnitudes is turned round. -/
theorem compare_unpacked (s t : Bool) {p q : Nat} (hp : p ≠ 0) (hq : q ≠ 0) :
    (unpacked s p).compare (unpacked t q) =
      some (compare (signedGrains s p) (signedGrains t q)) := by
  rw [unpacked, unpacked, dif_neg hp, dif_neg hq]
  cases s with
  | true =>
      cases t with
      | true =>
          rw [signedGrains, signedGrains, compare_neg, ← compare_parts]
          rfl
      | false =>
          have hlt := Int.lt_trans (signedGrains_neg hp) (signedGrains_pos hq)
          rw [Int.compare_eq_lt.mpr hlt]
          rfl
  | false =>
      cases t with
      | true =>
          have hlt := Int.lt_trans (signedGrains_neg hq) (signedGrains_pos hp)
          rw [Int.compare_eq_gt.mpr hlt]
          rfl
      | false =>
          rw [signedGrains, signedGrains, ← compare_parts]
          rfl

/-- **Finite doubles are compared as numbers.**  Their order is that of their signed numbers of
grains; the two zeros are equal. -/
theorem compare_toReal (s t : Bool) {p q : Nat} (hp : p < infinity) (hq : q < infinity) :
    (toReal s p).toModel.unpack.compare (toReal t q).toModel.unpack =
      some (compare (signedGrains s p) (signedGrains t q)) := by
  have hzero : ∀ negative, unpacked negative 0 = .zero (sign negative) := fun _ => dif_pos rfl
  rw [unpack_toReal s hp, unpack_toReal t hq]
  by_cases hp0 : p = 0
  · rw [hp0, signedGrains_zero, hzero]
    exact compare_zero_unpacked s t q
  by_cases hq0 : q = 0
  · rw [hq0, signedGrains_zero, hzero]
    exact compare_unpacked_zero s t hp0
  · exact compare_unpacked s t hp0 hq0

/-! ### Rounding -/

theorem two_pow_add (m n : Nat) : Nat.pow 2 (m + n) = Nat.pow 2 m * Nat.pow 2 n :=
  Nat.pow_add 2 m n

/-- What leaves no remainder is not rounded. -/
theorem roundDiv_mul (q : Nat) {den : Nat} (h : 0 < den) : roundDiv (q * den) den = q := by
  simp only [roundDiv, Nat.mul_div_cancel q h, Nat.mul_mod_left]
  exact if_pos (.inl h)

/-- Behind the first block a pattern is a mantissa put on top of an exponent. -/
theorem exists_exponent_mantissa {pattern : Nat} (h : block ≤ pattern) :
    ∃ e m, pattern = e * block + m ∧ block ≤ m ∧ m < 2 * block := by
  refine ⟨pattern / block - 1, block + pattern % block, ?_, ?_, ?_⟩
  all_goals
    rw [block_eq] at h ⊢
    omega

/-- The size of the pattern that a full mantissa has in a block. -/
theorem grains_block {m : Nat} (e : Nat) (hlow : block ≤ m) (hhigh : m < 2 * block) :
    grains (e * block + m) = m * Nat.pow 2 e := by
  have hlater : ¬ e * block + m < block := by
    rw [block_eq] at hlow ⊢
    omega
  have hplace : block + (e * block + m) % block = m := by
    rw [block_eq] at hlow hhigh ⊢
    omega
  have hexponent : (e * block + m) / block - 1 = e := by
    rw [block_eq] at hlow hhigh ⊢
    omega
  rw [grains, if_neg hlater, hplace, hexponent]

/-- The first bit of such a size tells the block. -/
theorem log2_mantissa {m : Nat} (e : Nat) (hlow : block ≤ m) (hhigh : m < 2 * block) :
    (m * Nat.pow 2 e).log2 = 52 + e := by
  have hpos : m * Nat.pow 2 e ≠ 0 := by
    rw [block_eq] at hlow
    exact Nat.mul_ne_zero (by omega) (Nat.ne_of_gt (Nat.two_pow_pos e))
  refine (Nat.log2_eq_iff hpos).mpr ⟨?_, ?_⟩
  · calc Nat.pow 2 (52 + e) = block * Nat.pow 2 e := two_pow_add 52 e
      _ ≤ m * Nat.pow 2 e := Nat.mul_le_mul_right _ hlow
  · calc m * Nat.pow 2 e < 2 * block * Nat.pow 2 e :=
          Nat.mul_lt_mul_of_pos_right hhigh (Nat.two_pow_pos e)
      _ = Nat.pow 2 (53 + e) := (two_pow_add 53 e).symm
      _ = Nat.pow 2 (52 + e + 1) := congrArg (Nat.pow 2) (Nat.add_right_comm 52 1 e)

/-- A fraction that has just the size of a double is rounded to this double. -/
theorem nearest_eq_of_grains {num den pattern : Nat} (hden : 0 < den) (hfinite : pattern < infinity)
    (h : num * grainsInOne = grains pattern * den) : nearest num den = pattern := by
  rw [nearest]
  simp only [h, Nat.mul_div_cancel _ hden]
  -- in the first block nothing is shifted; in the others the shift is the exponent
  by_cases hblock : pattern < block
  · have hgrains : grains pattern = pattern := if_pos hblock
    have hshift : pattern.log2 - 52 = 0 := by
      by_cases hzero : pattern = 0
      · subst hzero
        rfl
      · have hlog : pattern.log2 < 52 := (Nat.log2_lt hzero).mpr hblock
        omega
    have hround : roundDiv (pattern * den) (den * Nat.pow 2 0) = pattern := by
      rw [show den * Nat.pow 2 0 = den from Nat.mul_one den]
      exact roundDiv_mul pattern hden
    rw [hgrains, hshift, hround, Nat.zero_mul, Nat.zero_add]
    exact Nat.min_eq_left (Nat.le_of_lt hfinite)
  · obtain ⟨e, m, rfl, hlow, hhigh⟩ := exists_exponent_mantissa (Nat.not_lt.mp hblock)
    have hround : roundDiv (m * Nat.pow 2 e * den) (den * Nat.pow 2 e) = m := by
      rw [Nat.mul_assoc, Nat.mul_comm (Nat.pow 2 e) den]
      exact roundDiv_mul m (Nat.mul_pos hden (Nat.two_pow_pos e))
    rw [grains_block e hlow hhigh, log2_mantissa e hlow hhigh, Nat.add_sub_cancel_left, hround]
    exact Nat.min_eq_left (Nat.le_of_lt hfinite)

end LetCalc.Binary64
