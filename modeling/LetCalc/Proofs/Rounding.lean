import Mathlib.Algebra.Order.Field.Power
import Mathlib.Algebra.Order.Field.Rat
import Mathlib.Tactic.Linarith
import Mathlib.Tactic.Positivity
import Mathlib.Tactic.Ring
import LetCalc.Decimal
import LetCalc.Proofs.Comparing

/-!
# Correct rounding

Rounding works on whole numbers: it shifts a fraction until it fits a mantissa, and rounds once.
What it computes is said here without the shift.  Between a magnitude and the next one there is a
**middle**, and a number is rounded to `p` or below exactly if it does not pass the middle above `p`
(`nearest_le_iff`).  All else follows from this alone: rounding keeps the order of numbers, and no
magnitude is nearer to a number than the one to which it is rounded.

Numbers are fractions here, and decimals have a `value` among them.  Infinity takes part as the
magnitude that would come next, so that a number is rounded to it if it does not stay below the
middle above the largest finite magnitude.

Main statements: `Binary64.roundsTo_nearest`, `Decimal.nearest_le_nearest`.
-/

namespace LetCalc.Binary64

/-! ### Whole numbers -/

section

variable {num den m : Nat}

/-- A rounded quotient is at most `m` if the fraction lies below the middle between `m` and the next
number, or on it with `m` even. -/
theorem roundDiv_le_iff (hden : 0 < den) :
    roundDiv num den ≤ m ↔
      2 * num < (2 * m + 1) * den ∨ 2 * num = (2 * m + 1) * den ∧ m % 2 = 0 := by
  have hnum := Nat.div_add_mod' num den
  have hrest := Nat.mod_lt num hden
  have hodd : (2 * m + 1) * den = 2 * (m * den) + den := by
    rw [Nat.add_mul, Nat.one_mul, Nat.mul_assoc]
  rw [roundDiv, hodd]
  rcases Nat.lt_trichotomy m (num / den) with h | h | h
  · have hle : m * den + den ≤ num / den * den := by
      rw [← Nat.succ_mul]
      exact Nat.mul_le_mul_right den h
    split <;> omega
  · subst h
    split <;> omega
  · have hle : num / den * den + den ≤ m * den := by
      rw [← Nat.succ_mul]
      exact Nat.mul_le_mul_right den h
    split <;> omega

end

/-- Up to the next block, the grains behind an exponent are a mantissa times a power of two. -/
theorem grains_shifted {e m : Nat} (hlow : e = 0 ∨ block ≤ m) (hhigh : m ≤ 2 * block) :
    grains (e * block + m) = m * Nat.pow 2 e := by
  rcases Nat.lt_or_eq_of_le hhigh with hlt | rfl
  · by_cases hblock : block ≤ m
    · exact grains_block e hblock hlt
    · obtain rfl : e = 0 := by omega
      rw [Nat.zero_mul, Nat.zero_add, grains, if_pos (by omega)]
      exact (Nat.mul_one m).symm
  · have hnext : e * block + 2 * block = (e + 1) * block + block := by
      rw [Nat.add_mul, Nat.one_mul, Nat.add_assoc, Nat.two_mul]
    have hpow : Nat.pow 2 (e + 1) = Nat.pow 2 e * 2 := rfl
    rw [hnext, grains_block (e + 1) (Nat.le_refl block) (by decide), hpow, Nat.mul_comm 2 block,
      Nat.mul_assoc, Nat.mul_comm 2]

theorem grains_le_grains {p q : Nat} (h : p ≤ q) : grains p ≤ grains q := by
  rcases Nat.lt_or_eq_of_le h with hlt | rfl
  · exact Nat.le_of_lt (grains_lt_grains hlt)
  · exact Nat.le_refl _

/-- Below a block the middle between two neighbours is below all of its magnitudes. -/
theorem grains_add_lt {e p : Nat} (h : p < e * block + block) :
    grains p + grains (p + 1) < 2 * block * Nat.pow 2 e := by
  have hblock : grains (e * block + block) = block * Nat.pow 2 e :=
    grains_shifted (.inr (Nat.le_refl block)) (by omega)
  have hnext : grains (p + 1) ≤ grains (e * block + block) := grains_le_grains h
  have hlt := grains_lt_grains (Nat.lt_add_one p)
  rw [Nat.mul_assoc]
  omega

/-- Behind a block it is above them all. -/
theorem lt_grains_add {e p : Nat} (h : e * block + 2 * block ≤ p) :
    2 * (2 * block * Nat.pow 2 e) < grains p + grains (p + 1) := by
  have hblock : grains (e * block + 2 * block) = 2 * block * Nat.pow 2 e :=
    grains_shifted (.inr (by omega)) (Nat.le_refl _)
  have hle := grains_le_grains h
  have hlt := grains_lt_grains (Nat.lt_add_one p)
  omega

section

variable {num den p : Nat}

/-- What the shift is chosen for: counted in the shifted unit a fraction is below two blocks, and
not below one block if it is shifted at all. -/
theorem shift_bounds (hden : 0 < den) {n e : Nat} (he : e = (n / den).log2 - 52) :
    n < 2 * block * (den * Nat.pow 2 e) ∧ (e = 0 ∨ block * (den * Nat.pow 2 e) ≤ n) := by
  have hswap : ∀ k, k * (den * Nat.pow 2 e) = k * Nat.pow 2 e * den := by
    intro k
    rw [Nat.mul_comm den, Nat.mul_assoc]
  rw [hswap, hswap, ← Nat.div_lt_iff_lt_mul hden, ← Nat.le_div_iff_mul_le hden]
  generalize n / den = f at he
  constructor
  · calc f < 2 ^ (f.log2 + 1) := Nat.lt_log2_self
      _ ≤ 2 ^ (53 + e) := Nat.pow_le_pow_right Nat.two_pos (by omega)
      _ = 2 * block * Nat.pow 2 e := two_pow_add 53 e
  · by_cases hzero : e = 0
    · exact .inl hzero
    · have hf : f ≠ 0 := by
        intro hf
        rw [hf] at he
        exact hzero he
      refine .inr ?_
      calc block * Nat.pow 2 e = 2 ^ (52 + e) := (two_pow_add 52 e).symm
        _ = 2 ^ f.log2 := by rw [show 52 + e = f.log2 by omega]
        _ ≤ f := Nat.log2_self_le hf

/-- Rounding the fraction leaves neither of these bounds behind. -/
theorem roundDiv_bounds {n e : Nat} (hden : 0 < den) (hupper : n < 2 * block * den)
    (hlower : e = 0 ∨ block * den ≤ n) :
    roundDiv n den ≤ 2 * block ∧ (e = 0 ∨ block ≤ roundDiv n den) := by
  constructor
  · refine (roundDiv_le_iff hden).mpr (.inl ?_)
    rw [Nat.add_mul, Nat.mul_assoc 2]
    omega
  · rcases hlower with hzero | hlower
    · exact .inl hzero
    · refine .inr (Nat.not_lt.mp fun hlt => ?_)
      have hle : roundDiv n den ≤ block - 1 := by omega
      have hround := (roundDiv_le_iff hden).mp hle
      have hodd : (2 * (block - 1) + 1) * den + den = 2 * (block * den) := by
        rw [← Nat.succ_mul, ← Nat.mul_assoc]
        rfl
      omega

/-- **Where rounding changes.**  A fraction is rounded to `p` or below exactly if it lies below the
middle between `p` and the next magnitude, or on it with `p` even. -/
theorem nearest_le_iff (hden : 0 < den) (hp : p < infinity) :
    nearest num den ≤ p ↔
      2 * (num * grainsInOne) < (grains p + grains (p + 1)) * den ∨
        2 * (num * grainsInOne) = (grains p + grains (p + 1)) * den ∧ p % 2 = 0 := by
  rw [nearest]
  generalize num * grainsInOne = n
  obtain ⟨e, he⟩ : ∃ e, e = (n / den).log2 - 52 := ⟨_, rfl⟩
  have hunit : 0 < den * Nat.pow 2 e := Nat.mul_pos hden (Nat.two_pow_pos e)
  have hmin : ∀ k, min k infinity ≤ p ↔ k ≤ p := by
    intro k
    omega
  simp only [← he, hmin]
  obtain ⟨hupper, hlower⟩ := shift_bounds hden he
  obtain ⟨hround, hround'⟩ := roundDiv_bounds hunit hupper hlower
  have hscale : ∀ m, m * Nat.pow 2 e * den = m * (den * Nat.pow 2 e) := by
    intro m
    rw [Nat.mul_assoc, Nat.mul_comm den]
  -- the middle above `p` lies below the block of the fraction, in it or above it
  by_cases hbelow : e ≠ 0 ∧ p < e * block + block
  · have hmiddle := grains_add_lt hbelow.2
    have hlt := Nat.mul_lt_mul_of_pos_right hmiddle hden
    rw [hscale, Nat.mul_assoc] at hlt
    omega
  by_cases habove : e * block + 2 * block ≤ p
  · have hmiddle := lt_grains_add habove
    have hlt := Nat.mul_lt_mul_of_pos_right hmiddle hden
    rw [Nat.mul_assoc 2, hscale] at hlt
    omega
  · obtain ⟨m, rfl⟩ : ∃ m, p = e * block + m := by
      refine ⟨p - e * block, (Nat.add_sub_of_le ?_).symm⟩
      by_cases hzero : e = 0
      · simp [hzero]
      · omega
    have hm : e = 0 ∨ block ≤ m := by omega
    have hmiddle : (grains (e * block + m) + grains (e * block + m + 1)) * den =
        (2 * m + 1) * (den * Nat.pow 2 e) := by
      rw [Nat.add_assoc (e * block), grains_shifted hm (by omega),
        grains_shifted (by omega) (by omega), ← Nat.add_mul, hscale]
      congr 1
      omega
    have heven : (e * block + m) % 2 = m % 2 := by
      rw [block_eq]
      omega
    rw [hmiddle, heven, Nat.add_le_add_iff_left]
    exact roundDiv_le_iff hunit

end

/-! ### Numbers -/

/-- The number that a pattern stands for.  Infinity stands for the one that would come next. -/
def size (pattern : Nat) : ℚ :=
  grains pattern / grainsInOne

/-- The middle between a magnitude and the next one. -/
def middle (pattern : Nat) : ℚ :=
  (size pattern + size (pattern + 1)) / 2

/-- A greater pattern has a greater size. -/
theorem size_lt_size {p q : Nat} (h : p < q) : size p < size q := by
  have hone : (0 : ℚ) < grainsInOne := Nat.cast_pos.mpr grainsInOne_pos
  exact div_lt_div_of_pos_right (Nat.cast_lt.mpr (grains_lt_grains h)) hone

theorem size_le_size {p q : Nat} (h : p ≤ q) : size p ≤ size q := by
  rcases Nat.lt_or_eq_of_le h with hlt | rfl
  · exact le_of_lt (size_lt_size hlt)
  · exact le_refl _

section

variable {num den p : Nat}

/-- The same of numbers. -/
theorem nearest_le_iff_middle (hden : 0 < den) (hp : p < infinity) :
    nearest num den ≤ p ↔
      (num / den : ℚ) < middle p ∨ (num / den : ℚ) = middle p ∧ p % 2 = 0 := by
  rw [nearest_le_iff hden hp, middle, size, size]
  -- nothing of the number of grains matters but that it is positive
  have hone : (0 : ℚ) < grainsInOne := Nat.cast_pos.mpr grainsInOne_pos
  generalize grainsInOne = one at hone ⊢
  have hden' : (0 : ℚ) < den := Nat.cast_pos.mpr hden
  rw [← add_div, div_div, div_lt_div_iff₀ hden' (by positivity),
    div_eq_div_iff hden'.ne' (by positivity)]
  have hcast : (num : ℚ) * (one * 2) = (2 * (num * one) : Nat) := by
    push_cast
    ring
  rw [hcast, ← Nat.cast_add, ← Nat.cast_mul, Nat.cast_lt, Nat.cast_inj]

end

/-! ### Rounding to the nearest -/

/-- A number beyond the middle of two others is nearer to the greater one. -/
theorem abs_sub_le_of_middle_le {a b r : ℚ} (hab : a < b) (h : (a + b) / 2 ≤ r) :
    |b - r| ≤ |a - r| ∧ (|a - r| = |b - r| → r = (a + b) / 2) := by
  rw [abs_sub_comm a, abs_of_nonneg (show 0 ≤ r - a by linarith)]
  refine ⟨abs_le.mpr ⟨by linarith, by linarith⟩, ?_⟩
  intro heq
  rcases abs_choice (b - r) with hb | hb
  · rw [hb] at heq
    linarith
  · rw [hb] at heq
    linarith

/-- The same on the other side of the middle. -/
theorem abs_sub_le_of_le_middle {a b r : ℚ} (hab : a < b) (h : r ≤ (a + b) / 2) :
    |a - r| ≤ |b - r| ∧ (|b - r| = |a - r| → r = (a + b) / 2) := by
  rw [abs_of_nonneg (show 0 ≤ b - r by linarith)]
  refine ⟨abs_le.mpr ⟨by linarith, by linarith⟩, ?_⟩
  intro heq
  rcases abs_choice (a - r) with ha | ha
  · rw [ha] at heq
    linarith
  · rw [ha] at heq
    linarith

/-- What a number is rounded to: no magnitude is nearer to it, and of two that are equally near it
is the one with the even pattern. -/
structure RoundsTo (r : ℚ) (pattern : Nat) : Prop where
  le_infinity : pattern ≤ infinity
  abs_le : ∀ q ≤ infinity, |size pattern - r| ≤ |size q - r|
  even : ∀ q ≤ infinity, q ≠ pattern → |size q - r| = |size pattern - r| → pattern % 2 = 0

/-- Nothing is rounded to more than infinity. -/
theorem nearest_le_infinity (num den : Nat) : nearest num den ≤ infinity :=
  Nat.min_le_right _ _

section

variable {num den p q : Nat}

/-- A number that is rounded to a magnitude above `p` is not below the middle above `p`. -/
theorem middle_le_of_lt_nearest (hden : 0 < den) (h : p < nearest num den) :
    middle p ≤ num / den ∧ ((num / den : ℚ) = middle p → p % 2 = 1) := by
  have hp : p < infinity := Nat.lt_of_lt_of_le h (nearest_le_infinity num den)
  have hnot := mt (nearest_le_iff_middle hden hp).mpr (Nat.not_le.mpr h)
  rw [not_or, not_lt, not_and] at hnot
  refine ⟨hnot.1, ?_⟩
  intro heq
  have hodd := hnot.2 heq
  omega

/-- What is rounded to a pattern or lower is not above the middle behind it. -/
theorem le_middle_of_nearest_le (hden : 0 < den) (hp : p < infinity) (h : nearest num den ≤ p) :
    (num / den : ℚ) ≤ middle p ∧ ((num / den : ℚ) = middle p → p % 2 = 0) := by
  rcases (nearest_le_iff_middle hden hp).mp h with hlt | ⟨heq, heven⟩
  · exact ⟨le_of_lt hlt, fun heq => absurd heq (ne_of_lt hlt)⟩
  · exact ⟨le_of_eq heq, fun _ => heven⟩

/-- No other magnitude is nearer to a number than the one to which it is rounded. -/
theorem abs_sub_nearest_le (hden : 0 < den) (hq : q ≤ infinity) (hne : q ≠ nearest num den) :
    |size (nearest num den) - num / den| ≤ |size q - num / den| ∧
      (|size q - num / den| = |size (nearest num den) - (num / den : ℚ)| →
        nearest num den % 2 = 0) := by
  rcases Nat.lt_or_gt_of_ne hne with hlt | hgt
  · obtain ⟨p, hp⟩ : ∃ p, nearest num den = p + 1 := ⟨nearest num den - 1, by omega⟩
    obtain ⟨hmiddle, hodd⟩ := middle_le_of_lt_nearest hden (show p < nearest num den by omega)
    rw [hp] at hlt ⊢
    have hsize : size q ≤ size p := size_le_size (by omega)
    have hle : (size q + size (p + 1)) / 2 ≤ middle p := by
      rw [middle]
      linarith
    obtain ⟨habs, heq⟩ := abs_sub_le_of_middle_le (size_lt_size hlt) (hle.trans hmiddle)
    refine ⟨habs, fun htie => ?_⟩
    have := hodd (le_antisymm ((heq htie).trans_le hle) hmiddle)
    omega
  · obtain ⟨hmiddle, heven⟩ :=
      le_middle_of_nearest_le hden (by omega) (Nat.le_refl (nearest num den))
    have hsize : size (nearest num den + 1) ≤ size q := size_le_size (by omega)
    have hle : middle (nearest num den) ≤ (size (nearest num den) + size q) / 2 := by
      rw [middle]
      linarith
    obtain ⟨habs, heq⟩ := abs_sub_le_of_le_middle (size_lt_size hgt) (hmiddle.trans hle)
    refine ⟨habs, fun htie => ?_⟩
    exact heven (le_antisymm hmiddle (hle.trans_eq (heq htie).symm))

/-- **Rounding is correct.**  A fraction is rounded to the magnitude nearest to it, and from the
middle of two to the even one. -/
theorem roundsTo_nearest (hden : 0 < den) : RoundsTo (num / den) (nearest num den) where
  le_infinity := nearest_le_infinity num den
  abs_le q hq := by
    by_cases hne : q = nearest num den
    · rw [hne]
    · exact (abs_sub_nearest_le hden hq hne).1
  even q hq hne := (abs_sub_nearest_le hden hq hne).2

end

end LetCalc.Binary64

/-! ### Decimals -/

namespace LetCalc.Decimal

open Binary64

/-- The number that a decimal writes. -/
def value (d : Decimal) : ℚ :=
  d.coefficient * 10 ^ d.exponent

/-- The value of a decimal as a fraction of whole numbers. -/
theorem value_eq_div (d : Decimal) :
    d.value = (d.coefficient * Nat.pow 10 d.exponent.toNat : Nat) /
      (Nat.pow 10 (-d.exponent).toNat : Nat) := by
  have hsplit : d.exponent = (d.exponent.toNat : Int) - ((-d.exponent).toNat : Int) := by omega
  rw [value, Nat.pow_eq, Nat.pow_eq, Nat.cast_mul, Nat.cast_pow, Nat.cast_pow, mul_div_assoc]
  congr 1
  conv_lhs => rw [hsplit, zpow_sub₀ (by decide), zpow_natCast, zpow_natCast]
  rfl

theorem den_pos (d : Decimal) : 0 < Nat.pow 10 (-d.exponent).toNat :=
  Nat.pow_pos (by decide)

/-- A decimal is read as the magnitude to which its number is rounded. -/
theorem roundsTo_nearest (d : Decimal) : RoundsTo d.value d.nearest := by
  rw [value_eq_div]
  exact Binary64.roundsTo_nearest d.den_pos

/-- A decimal is rounded to a pattern or lower exactly if it is below the middle behind it, or on
the middle with the pattern even. -/
theorem nearest_le_iff {d : Decimal} {p : Nat} (hp : p < infinity) :
    d.nearest ≤ p ↔ d.value < middle p ∨ d.value = middle p ∧ p % 2 = 0 := by
  rw [value_eq_div]
  exact nearest_le_iff_middle d.den_pos hp

/-- A greater decimal is not read as a smaller magnitude. -/
theorem nearest_le_nearest {d d' : Decimal} (h : d.value ≤ d'.value) : d.nearest ≤ d'.nearest := by
  by_cases hinfinity : d'.nearest = infinity
  · rw [hinfinity]
    exact d.roundsTo_nearest.le_infinity
  · have hp : d'.nearest < infinity :=
      Nat.lt_of_le_of_ne d'.roundsTo_nearest.le_infinity hinfinity
    rw [nearest_le_iff hp]
    rcases (nearest_le_iff hp).mp (Nat.le_refl d'.nearest) with hlt | ⟨heq, heven⟩
    · exact .inl (lt_of_le_of_lt h hlt)
    · rcases lt_or_eq_of_le (heq ▸ h) with hlt | heq'
      · exact .inl hlt
      · exact .inr ⟨heq', heven⟩

/-- Rounding goes by the value alone. -/
theorem nearest_congr {d d' : Decimal} (h : d.value = d'.value) : d.nearest = d'.nearest :=
  Nat.le_antisymm (nearest_le_nearest (le_of_eq h)) (nearest_le_nearest (le_of_eq h.symm))

/-- A decimal that has the size of a magnitude is read as this magnitude. -/
theorem nearest_eq_of_value_eq {d : Decimal} {p : Nat} (hp : p ≤ infinity) (h : d.value = size p) :
    d.nearest = p := by
  have habs := d.roundsTo_nearest.abs_le p hp
  rw [h, sub_self, abs_zero] at habs
  have hsize : size d.nearest = size p := sub_eq_zero.mp (abs_nonpos_iff.mp habs)
  rcases Nat.lt_trichotomy d.nearest p with hlt | heq | hgt
  · exact absurd hsize (ne_of_lt (size_lt_size hlt))
  · exact heq
  · exact absurd hsize (ne_of_gt (size_lt_size hgt))

end LetCalc.Decimal
