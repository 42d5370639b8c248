import Mathlib.Tactic.FieldSimp
import LetCalc.Proofs.Rounding

/-!
# Shortest decimals

The search for the text of a magnitude goes by the number of digits it keeps.  With so many digits
kept there are two **neighbours** of the magnitude, `below` and `above`, and only these are tried.
That is enough: a decimal with no more digits lies beyond one of the two, seen from the magnitude
(`le_below_or_above_le`).  So if such a decimal is read as the magnitude, then the neighbour on its
side is too, and it is not further away.

Main statement: `isShortest_shortest`.
-/

namespace LetCalc.Decimal

open Binary64

/-! ### Digits -/

/-- The number of digits of a decimal. -/
def length (d : Decimal) : Nat :=
  (Nat.toDigits 10 d.coefficient).length

theorem length_pos (d : Decimal) : 0 < d.length :=
  Nat.length_toDigits_pos

/-- A decimal has at most `n` digits if its coefficient is below that power of ten. -/
theorem length_le_iff {d : Decimal} {n : Nat} (hn : 0 < n) :
    d.length ≤ n ↔ d.coefficient < Nat.pow 10 n :=
  Nat.length_toDigits_le_iff (by decide) hn

theorem coefficient_lt (d : Decimal) : d.coefficient < Nat.pow 10 d.length :=
  (length_le_iff d.length_pos).mp (Nat.le_refl _)

/-- A number of more than `k` digits reaches the power of ten with `k` zeros. -/
theorem pow_le_of_lt_length {m k : Nat} (hm : 0 < m) (h : k < (Nat.toDigits 10 m).length) :
    Nat.pow 10 k ≤ m := by
  apply Nat.not_lt.mp
  intro hlt
  by_cases hzero : k = 0
  · rw [hzero] at hlt
    exact absurd hlt (Nat.not_lt.mpr hm)
  · have hle := (Nat.length_toDigits_le_iff (by decide) (Nat.pos_of_ne_zero hzero)).mpr hlt
    omega

section

variable {m kept : Nat}

/-- The first `kept + 1` digits of a number make a number of so many digits. -/
theorem pow_le_div (hm : 0 < m) (h : kept < (Nat.toDigits 10 m).length) :
    Nat.pow 10 kept ≤ m / Nat.pow 10 ((Nat.toDigits 10 m).length - 1 - kept) := by
  obtain ⟨rest, hrest⟩ : ∃ rest, (Nat.toDigits 10 m).length = kept + rest + 1 :=
    ⟨(Nat.toDigits 10 m).length - 1 - kept, by omega⟩
  have hpow : Nat.pow 10 (kept + rest) ≤ m := pow_le_of_lt_length hm (by omega)
  rw [hrest, show kept + rest + 1 - 1 - kept = rest by omega]
  refine (Nat.le_div_iff_mul_le (Nat.pow_pos (by decide))).mpr ?_
  exact Nat.le_trans (Nat.le_of_eq (Nat.pow_add 10 kept rest).symm) hpow

/-- It has no more digits than those. -/
theorem div_lt_pow (h : kept < (Nat.toDigits 10 m).length) :
    m / Nat.pow 10 ((Nat.toDigits 10 m).length - 1 - kept) < Nat.pow 10 (kept + 1) := by
  obtain ⟨rest, hrest⟩ : ∃ rest, (Nat.toDigits 10 m).length = kept + 1 + rest :=
    ⟨(Nat.toDigits 10 m).length - 1 - kept, by omega⟩
  have hlt : m < Nat.pow 10 (kept + 1 + rest) :=
    (Nat.length_toDigits_le_iff (by decide) (by omega)).mp (Nat.le_of_eq hrest)
  rw [hrest, show kept + 1 + rest - 1 - kept = rest by omega]
  refine (Nat.div_lt_iff_lt_mul (Nat.pow_pos (by decide))).mpr ?_
  exact Nat.lt_of_lt_of_le hlt (Nat.le_of_eq (Nat.pow_add 10 (kept + 1) rest))

end

/-! ### Zeros at the end -/

/-- A decimal lies on every finer grid. -/
theorem value_refine (c : Nat) (e : Int) (k : Nat) :
    value ⟨c, e + k⟩ = value ⟨c * Nat.pow 10 k, e⟩ := by
  rw [value, value, zpow_add₀ (by decide), zpow_natCast]
  push_cast [Nat.pow_eq]
  ring

/-- Dropping zeros at the end keeps the number. -/
theorem value_trim (d : Decimal) : d.trim.value = d.value := by
  induction d using trim.induct with
  | case1 d h ih =>
      have hten : d.coefficient / 10 * 10 = d.coefficient := by omega
      rw [trim, dif_pos h, ih]
      exact (value_refine _ _ 1).trans (congrArg (fun c => value ⟨c, d.exponent⟩) hten)
  | case2 d h => rw [trim, dif_neg h]

/-- Trimming makes a coefficient no greater. -/
theorem coefficient_trim_le (d : Decimal) : d.trim.coefficient ≤ d.coefficient := by
  induction d using trim.induct with
  | case1 d h ih =>
      rw [trim, dif_pos h]
      exact Nat.le_trans ih (Nat.div_le_self _ _)
  | case2 d h => rw [trim, dif_neg h]

/-- A power of ten has one digit when its zeros are dropped. -/
theorem length_trim_le {d : Decimal} {n : Nat} (hn : 0 < n) (h : d.coefficient ≤ Nat.pow 10 n) :
    d.trim.length ≤ n := by
  rw [length_le_iff hn]
  rcases Nat.lt_or_eq_of_le h with hlt | heq
  · exact Nat.lt_of_le_of_lt d.coefficient_trim_le hlt
  · obtain ⟨m, rfl⟩ : ∃ m, n = m + 1 := ⟨n - 1, by omega⟩
    have hpow : Nat.pow 10 (m + 1) = Nat.pow 10 m * 10 := rfl
    have hpos : 0 < Nat.pow 10 m := Nat.pow_pos (by decide)
    rw [trim, dif_pos (by omega)]
    refine Nat.lt_of_le_of_lt (coefficient_trim_le _) ?_
    show d.coefficient / 10 < _
    omega

/-! ### Grids -/

/-- The last place of an expansion. -/
def lastPlace : ℚ :=
  10 ^ (-(1074 : Nat) : Int)

theorem lastPlace_pos : 0 < lastPlace :=
  zpow_pos (by decide) _

/-- A decimal on a grid counts so many last places. -/
theorem value_grid (n t : Nat) :
    value ⟨n, (t : Int) - 1074⟩ = (n * Nat.pow 10 t : Nat) * lastPlace := by
  rw [sub_eq_add_neg, add_comm]
  exact value_refine n (-1074) t

/-- In places of ten, half of a place is five of the next one. -/
theorem div_two_pow (n k : Nat) :
    (n / Nat.pow 2 k : ℚ) = (n * Nat.pow 5 k : Nat) * 10 ^ (-k : Int) := by
  have hten : (10 : ℚ) ^ k = 2 ^ k * 5 ^ k := by
    rw [← mul_pow]
    norm_num
  rw [zpow_neg, zpow_natCast, hten]
  push_cast [Nat.pow_eq]
  field_simp

/-- The expansion of a magnitude is exact. -/
theorem size_eq (p : Nat) : size p = expansion p * lastPlace := by
  -- the number of places is made a variable, so that its powers are not worked out
  obtain ⟨k, hk, hone⟩ : ∃ k : Nat, 1074 = k ∧ grainsInOne = Nat.pow 2 k :=
    ⟨1074, rfl, by decide +kernel⟩
  rw [size, expansion, lastPlace, hone, hk]
  exact div_two_pow (grains p) k

/-- The lower neighbour of a magnitude, with the last `t` digits of its expansion dropped. -/
def below (p t : Nat) : Decimal :=
  ⟨expansion p / Nat.pow 10 t, (t : Int) - 1074⟩

/-- The upper neighbour. -/
def above (p t : Nat) : Decimal :=
  ⟨expansion p / Nat.pow 10 t + 1, (t : Int) - 1074⟩

section

variable (p t : Nat)

/-- The lower neighbour is not above the double. -/
theorem value_below_le : (below p t).value ≤ size p := by
  rw [below, value_grid, size_eq]
  refine mul_le_mul_of_nonneg_right (Nat.cast_le.mpr ?_) (le_of_lt lastPlace_pos)
  exact Nat.div_mul_le_self _ _

/-- The upper neighbour is above the double. -/
theorem lt_value_above : size p < (above p t).value := by
  rw [above, value_grid, size_eq]
  refine mul_lt_mul_of_pos_right (Nat.cast_lt.mpr ?_) lastPlace_pos
  rw [Nat.add_mul, Nat.one_mul]
  exact Nat.lt_div_mul_add (Nat.pow_pos (by decide))

/-- The neighbours are listed by their distance. -/
theorem neighbours_cases :
    (neighbours p t = [below p t, above p t] ∧
      |(below p t).value - size p| ≤ |(above p t).value - size p|) ∨
    (neighbours p t = [above p t, below p t] ∧
      |(above p t).value - size p| ≤ |(below p t).value - size p|) := by
  have hbelow := value_below_le p t
  have habove := lt_value_above p t
  rw [abs_sub_comm (below p t).value, abs_of_nonneg (sub_nonneg.mpr hbelow),
    abs_of_pos (sub_pos.mpr habove)]
  have hrest : (expansion p : ℚ) = (expansion p / Nat.pow 10 t : Nat) * (Nat.pow 10 t : Nat) +
      (expansion p % Nat.pow 10 t : Nat) := by
    exact_mod_cast (Nat.div_add_mod' (expansion p) (Nat.pow 10 t)).symm
  have hdistance : ((above p t).value - size p) - (size p - (below p t).value) =
      ((Nat.pow 10 t : Nat) - (2 * (expansion p % Nat.pow 10 t) : Nat)) * lastPlace := by
    rw [above, below, value_grid, value_grid, size_eq, hrest]
    push_cast
    ring
  by_cases h : 2 * (expansion p % Nat.pow 10 t) < Nat.pow 10 t
  · refine .inl ⟨if_pos h, ?_⟩
    have hnonneg : 0 ≤ ((Nat.pow 10 t : Nat) - (2 * (expansion p % Nat.pow 10 t) : Nat) : ℚ) :=
      sub_nonneg.mpr (Nat.cast_le.mpr (Nat.le_of_lt h))
    linarith [mul_nonneg hnonneg (le_of_lt lastPlace_pos)]
  · refine .inr ⟨if_neg h, ?_⟩
    have hnonpos : ((Nat.pow 10 t : Nat) - (2 * (expansion p % Nat.pow 10 t) : Nat) : ℚ) ≤ 0 :=
      sub_nonpos.mpr (Nat.cast_le.mpr (Nat.not_lt.mp h))
    linarith [mul_nonpos_of_nonpos_of_nonneg hnonpos (le_of_lt lastPlace_pos)]

end

/-- A decimal grows with its coefficient and with its exponent. -/
theorem value_le_value {c c' : Nat} {e e' : Int} (hc : c ≤ c') (he : e ≤ e') :
    value ⟨c, e⟩ ≤ value ⟨c', e'⟩ :=
  mul_le_mul (Nat.cast_le.mpr hc) (zpow_le_zpow_right₀ (by decide) he)
    (le_of_lt (zpow_pos (by decide) _)) (Nat.cast_nonneg c')

section

variable {p t m : Nat} {d : Decimal}

/-- No decimal with few digits lies between the neighbours of a magnitude. -/
theorem le_below_or_above_le (hlow : Nat.pow 10 m ≤ expansion p / Nat.pow 10 t)
    (hd : d.length ≤ m + 1) : d.value ≤ (below p t).value ∨ (above p t).value ≤ d.value := by
  obtain ⟨c, e⟩ := d
  by_cases he : (t : Int) - 1074 ≤ e
  · obtain ⟨k, rfl⟩ : ∃ k : Nat, e = (t : Int) - 1074 + k := ⟨(e - (t - 1074)).toNat, by omega⟩
    rw [value_refine]
    rcases Nat.lt_or_ge (expansion p / Nat.pow 10 t) (c * Nat.pow 10 k) with hlt | hge
    · exact .inr (value_le_value hlt (Int.le_refl _))
    · exact .inl (value_le_value hge (Int.le_refl _))
  · have hc : c < Nat.pow 10 m * 10 := (length_le_iff m.succ_pos).mp hd
    refine .inl ?_
    calc value ⟨c, e⟩ ≤ value ⟨Nat.pow 10 m * 10, (t : Int) - 1074 - 1⟩ :=
          value_le_value (Nat.le_of_lt hc) (by omega)
      _ = value ⟨Nat.pow 10 m, (t : Int) - 1074 - 1 + 1⟩ := (value_refine _ _ 1).symm
      _ = value ⟨Nat.pow 10 m, (t : Int) - 1074⟩ := by rw [Int.sub_add_cancel]
      _ ≤ (below p t).value := value_le_value hlow (Int.le_refl _)

/-! ### The search -/

/-- The expansion is the double itself. -/
theorem value_expansion (p : Nat) : value ⟨expansion p, -1074⟩ = size p :=
  (size_eq p).symm

/-- What lies between a magnitude and a decimal that is read as it is read as it too. -/
theorem nearest_below (hp : p < infinity) (hd : d.nearest = p)
    (hle : d.value ≤ (below p t).value) : (below p t).nearest = p := by
  have hexact := nearest_eq_of_value_eq (Nat.le_of_lt hp) (value_expansion p)
  have hupper := nearest_le_nearest ((value_below_le p t).trans_eq (value_expansion p).symm)
  have hlower := nearest_le_nearest hle
  omega

/-- The same for the upper neighbour. -/
theorem nearest_above (hp : p < infinity) (hd : d.nearest = p)
    (hle : (above p t).value ≤ d.value) : (above p t).nearest = p := by
  have hexact := nearest_eq_of_value_eq (Nat.le_of_lt hp) (value_expansion p)
  have hlower := nearest_le_nearest ((value_expansion p).trans_le (le_of_lt (lt_value_above p t)))
  have hupper := nearest_le_nearest hle
  omega

/-- If a decimal with few digits is read as a magnitude, then so is a neighbour that is as near. -/
theorem exists_neighbour (hp : p < infinity) (hlow : Nat.pow 10 m ≤ expansion p / Nat.pow 10 t)
    (hlength : d.length ≤ m + 1) (hd : d.nearest = p) :
    ∃ b ∈ neighbours p t, b.nearest = p ∧ |b.value - size p| ≤ |d.value - size p| := by
  have hmem : below p t ∈ neighbours p t ∧ above p t ∈ neighbours p t := by
    rcases neighbours_cases p t with ⟨heq, -⟩ | ⟨heq, -⟩ <;> simp [heq]
  have hbelow := value_below_le p t
  have habove := lt_value_above p t
  rcases le_below_or_above_le hlow hlength with hle | hle
  · refine ⟨below p t, hmem.1, nearest_below hp hd hle, ?_⟩
    rw [abs_sub_comm, abs_sub_comm d.value, abs_of_nonneg (by linarith),
      abs_of_nonneg (by linarith)]
    linarith
  · refine ⟨above p t, hmem.2, nearest_above hp hd hle, ?_⟩
    rw [abs_of_nonneg (by linarith), abs_of_nonneg (by linarith)]
    linarith

/-- Of two decimals, the nearer one first, the search takes the nearest that is read as the
magnitude. -/
theorem find?_pair {x y r : Decimal} (hle : |x.value - size p| ≤ |y.value - size p|)
    (h : [x, y].find? (·.nearest = p) = some r) :
    r ∈ [x, y] ∧ r.nearest = p ∧
      ∀ b ∈ [x, y], b.nearest = p → |r.value - size p| ≤ |b.value - size p| := by
  have hmem := List.mem_of_find?_eq_some h
  have hr := List.find?_some h
  rw [decide_eq_true_eq] at hr
  refine ⟨hmem, hr, ?_⟩
  intro b hb hread
  by_cases hx : x.nearest = p
  · have hfirst : [x, y].find? (·.nearest = p) = some x :=
      List.find?_cons_of_pos (decide_eq_true hx)
    obtain rfl : x = r := Option.some.inj (hfirst.symm.trans h)
    rcases List.mem_pair.mp hb with rfl | rfl
    · exact le_refl _
    · exact hle
  · have hsecond : ∀ c ∈ [x, y], c.nearest = p → c = y := by
      intro c hc hcread
      rcases List.mem_pair.mp hc with rfl | rfl
      · exact absurd hcread hx
      · rfl
    rw [hsecond r hmem hr, hsecond b hb hread]

/-- So it does of the two neighbours. -/
theorem find?_neighbours {r : Decimal} (h : (neighbours p t).find? (·.nearest = p) = some r) :
    (r = below p t ∨ r = above p t) ∧ r.nearest = p ∧
      ∀ b ∈ neighbours p t, b.nearest = p → |r.value - size p| ≤ |b.value - size p| := by
  rcases neighbours_cases p t with ⟨heq, hle⟩ | ⟨heq, hle⟩
  · rw [heq] at h ⊢
    obtain ⟨hmem, hspec⟩ := find?_pair hle h
    exact ⟨List.mem_pair.mp hmem, hspec⟩
  · rw [heq] at h ⊢
    obtain ⟨hmem, hspec⟩ := find?_pair hle h
    exact ⟨(List.mem_pair.mp hmem).symm, hspec⟩

end

/-- What the text of a magnitude is: a decimal that is read as this magnitude, with as few digits as
any, and as near to it as any with so few. -/
structure IsShortest (d : Decimal) (p : Nat) : Prop where
  nearest : d.nearest = p
  fewest : ∀ d' : Decimal, d'.nearest = p → d.length ≤ d'.length
  closest : ∀ d' : Decimal, d'.nearest = p → d'.length = d.length →
    |d.value - size p| ≤ |d'.value - size p|

/-- The first hit of a search over the numbers below `n`. -/
theorem exists_first {α : Type} {f : Nat → Option α} {n k : Nat} (hk : k < n)
    (h : (f k).isSome = true) :
    ∃ a j, (List.range n).findSome? f = some a ∧ j < n ∧ f j = some a ∧ ∀ i < j, f i = none := by
  have hsome : ((List.range n).findSome? f).isSome = true :=
    List.findSome?_isSome_iff.mpr ⟨k, List.mem_range.mpr hk, h⟩
  obtain ⟨a, ha⟩ := Option.isSome_iff_exists.mp hsome
  obtain ⟨before, j, behind, hrange, hj, hnone⟩ := List.findSome?_eq_some_iff.mp ha
  have hmem : j ∈ List.range n := by simp [hrange]
  refine ⟨a, j, ha, List.mem_range.mp hmem, hj, ?_⟩
  intro i hi
  have hsorted : (before ++ j :: behind).Pairwise (· < ·) := hrange ▸ List.pairwise_lt_range
  have hbehind := (List.pairwise_append.mp hsorted).2.1
  have hi' : i ∈ before ++ j :: behind :=
    hrange ▸ List.mem_range.mpr (Nat.lt_trans hi (List.mem_range.mp hmem))
  rcases List.mem_append.mp hi' with hfront | hrest
  · exact hnone i hfront
  · rcases List.mem_cons.mp hrest with rfl | hlate
    · exact absurd hi (Nat.lt_irrefl i)
    · exact absurd (List.rel_of_pairwise_cons hbehind hlate) (Nat.lt_asymm hi)

section

variable {p : Nat}

/-- Only zero has the expansion zero. -/
theorem expansion_pos (hp : p ≠ 0) : 0 < expansion p := by
  obtain ⟨k, hk⟩ : ∃ k : Nat, 1074 = k := ⟨1074, rfl⟩
  rw [expansion, hk]
  exact Nat.mul_pos (grains_pos hp) (Nat.pow_pos (by decide))

/-- The decimal that the search finds with `kept + 1` digits. -/
def hit? (p kept : Nat) : Option Decimal :=
  (neighbours p ((Nat.toDigits 10 (expansion p)).length - 1 - kept)).find? (·.nearest = p)

theorem shortest_eq (p : Nat) :
    shortest p = (((List.range (Nat.toDigits 10 (expansion p)).length).findSome? (hit? p)).getD
      ⟨expansion p, -1074⟩).trim := by
  rw [shortest]
  rfl

/-- A decimal with so few digits that is read as a magnitude makes the search find one. -/
theorem isSome_hit? (hzero : p ≠ 0) (hp : p < infinity) {d : Decimal} {kept : Nat}
    (hkept : kept < (Nat.toDigits 10 (expansion p)).length) (hlength : d.length ≤ kept + 1)
    (hd : d.nearest = p) : (hit? p kept).isSome = true := by
  have hlow := pow_le_div (expansion_pos hzero) hkept
  obtain ⟨b, hb, hread, -⟩ := exists_neighbour hp hlow hlength hd
  exact List.find?_isSome.mpr ⟨b, hb, decide_eq_true hread⟩

/-- **The search finds the shortest decimal.**  No decimal with fewer digits is read as the
magnitude, and none with as many that is nearer to it. -/
theorem isShortest_shortest (hzero : p ≠ 0) (hp : p < infinity) : (shortest p).IsShortest p := by
  have hpos : 0 < (Nat.toDigits 10 (expansion p)).length := Nat.length_toDigits_pos
  have hexact := nearest_eq_of_value_eq (Nat.le_of_lt hp) (value_expansion p)
  -- all digits together are a hit, so there is a first one
  have hdigits : length ⟨expansion p, -1074⟩ ≤ (Nat.toDigits 10 (expansion p)).length - 1 + 1 := by
    rw [Nat.sub_add_cancel hpos, length]
  have hall := isSome_hit? hzero hp (Nat.sub_one_lt_of_lt hpos) hdigits hexact
  obtain ⟨r, kept, hfound, hkept, hhit, hfirst⟩ := exists_first (Nat.sub_one_lt_of_lt hpos) hall
  have hshortest : shortest p = r.trim := by
    rw [shortest_eq, hfound]
    rfl
  obtain ⟨hr, hread, hnear⟩ := find?_neighbours hhit
  have hlow := pow_le_div (expansion_pos hzero) hkept
  have hhigh := div_lt_pow hkept
  have hlength : r.trim.length ≤ kept + 1 := by
    apply length_trim_le kept.succ_pos
    rcases hr with rfl | rfl
    · exact Nat.le_of_lt hhigh
    · exact hhigh
  rw [hshortest]
  refine ⟨(nearest_congr r.value_trim).trans hread, ?_, ?_⟩
  · intro d hd
    apply Nat.not_lt.mp
    intro hlt
    have hdpos := d.length_pos
    have hnone := hfirst (d.length - 1) (by omega)
    have hsome : (hit? p (d.length - 1)).isSome = true :=
      isSome_hit? hzero hp (by omega) (by omega) hd
    rw [hnone] at hsome
    cases hsome
  · intro d hd heq
    obtain ⟨b, hb, hbread, hle⟩ := exists_neighbour hp hlow (heq ▸ hlength) hd
    rw [value_trim]
    exact (hnear b hb hbread).trans hle

end

end LetCalc.Decimal
