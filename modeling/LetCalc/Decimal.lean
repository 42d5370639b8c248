import LetCalc.Binary64

/-!
# Decimal fractions and the text of a real

A **decimal** is a whole number times a power of ten.  Reading a real goes from its text to a
decimal and from there to the nearest double.  Writing one goes back: `Decimal.shortest` finds the
decimal with the fewest digits that reads back as the same double, and of those the one nearest
to it, and `Decimal.text` lays its digits out.

A finite double is a whole number over `10 ^ 1074`, so its decimal expansion ends, and keeping all
digits always reads back.  The search below therefore only asks how many may be dropped.
-/

namespace LetCalc

/-- The number `coefficient * 10 ^ exponent`. -/
structure Decimal where
  coefficient : Nat
  exponent : Int
  deriving DecidableEq, Repr

namespace Decimal

/-! ### Reading -/

/-- The decimal that digits before and behind a point write. -/
def ofDigits (whole fraction : List Char) : Decimal :=
  ⟨Nat.ofDigitChars 10 (whole ++ fraction) 0, -fraction.length⟩

/-- The pattern of the magnitude nearest to a decimal. -/
def nearest (d : Decimal) : Nat :=
  Binary64.nearest (d.coefficient * Nat.pow 10 d.exponent.toNat) (Nat.pow 10 (-d.exponent).toNat)

/-- The real that a decimal reads as. -/
def toReal (d : Decimal) : Float :=
  Binary64.toReal false d.nearest

/-! ### The fewest digits that read back -/

/-- The magnitude of a pattern, counted in units of `10 ^ -1074`. -/
def expansion (pattern : Nat) : Nat :=
  Binary64.grains pattern * Nat.pow 5 1074

/-- With the last `dropped` digits of the expansion dropped, the two neighbours of a magnitude,
the nearer one first.  If they are equally near, the greater one is first. -/
def neighbours (pattern dropped : Nat) : List Decimal :=
  let grid := Nat.pow 10 dropped
  let low := expansion pattern / grid
  let below : Decimal := ⟨low, (dropped : Int) - 1074⟩
  let above : Decimal := ⟨low + 1, (dropped : Int) - 1074⟩
  if 2 * (expansion pattern % grid) < grid then [below, above] else [above, below]

/-- The same number with no zero at the end of its coefficient. -/
def trim (d : Decimal) : Decimal :=
  if _h : d.coefficient ≠ 0 ∧ d.coefficient % 10 = 0 then
    trim ⟨d.coefficient / 10, d.exponent + 1⟩
  else
    d
termination_by d.coefficient
decreasing_by omega

/-- The decimal with the fewest digits that reads back as a magnitude, the nearest of those. -/
def shortest (pattern : Nat) : Decimal :=
  let length := (Nat.toDigits 10 (expansion pattern)).length
  let found := (List.range length).findSome? fun kept =>
    (neighbours pattern (length - 1 - kept)).find? (·.nearest = pattern)
  (found.getD ⟨expansion pattern, -1074⟩).trim

/-! ### Layout -/

/-- A run of zeros. -/
def zeros (n : Nat) : List Char :=
  List.replicate n '0'

/-- At least one digit: an empty part of a number is written as a zero. -/
def orZero : List Char → List Char
  | [] => ['0']
  | digits => digits

/-- Digits with `point` of them before the decimal point. -/
def positional (digits : List Char) (point : Int) : List Char :=
  let whole := digits.take point.toNat ++ zeros (point.toNat - digits.length)
  let fraction := zeros (-point).toNat ++ digits.drop point.toNat
  orZero whole ++ '.' :: orZero fraction

/-- Digits with one of them before the decimal point, and the power of ten that they count. -/
def scientific (digits : List Char) (power : Int) : List Char :=
  match digits with
  | [] => []
  | [d] => d :: 'e' :: (toString power).toList
  | d :: ds => d :: '.' :: ds ++ 'e' :: (toString power).toList

/-- The text of a positive decimal: positional from `0.0001` up to below `10 ^ 16`, with at least
one digit on either side of the point, and scientific outside that range. -/
def text (d : Decimal) : List Char :=
  let digits := Nat.toDigits 10 d.coefficient
  let point := (digits.length : Int) + d.exponent
  if -3 ≤ point ∧ point ≤ 16 then positional digits point
  else scientific digits (point - 1)

end Decimal

/-- The text of a real.  The sign of a zero is written; that of a NaN is not. -/
def realText (x : Float) : String :=
  let bits := x.toBits.toNat
  let magnitude := bits % Binary64.signBit
  let sign := if bits < Binary64.signBit then "" else "-"
  if Binary64.infinity < magnitude then "NaN"
  else if magnitude = Binary64.infinity then sign ++ "inf"
  else if magnitude = 0 then sign ++ "0.0"
  else sign ++ String.ofList (Decimal.shortest magnitude).text

end LetCalc
