/-!
# Doubles as whole numbers of grains

Every finite double, its sign left aside, is a whole multiple of the smallest positive one, the
**grain** `2 ^ -1074`.  So a magnitude has two numbers: its bit pattern, which counts the doubles
below it, and its `grains`, which measure it.  `nearest` goes from any fraction to the pattern of
the double closest to it, in whole-number arithmetic alone.

The patterns are those of the format: 52 bits of fraction below the exponent.  A pattern below
`2 ^ 52` is its own number of grains.  From there on each block of `2 ^ 52` patterns covers twice
the range of the block before it, which is why a rounded fraction that carries over into the next
block needs no further care: adding one to the pattern does it.
-/

namespace LetCalc.Binary64

/-- The number of grains in one. -/
def grainsInOne : Nat := Nat.pow 2 1074

/-- The number of patterns that share an exponent. -/
def block : Nat := Nat.pow 2 52

/-- The pattern of infinity: the first behind the finite magnitudes. -/
def infinity : Nat := 2047 * block

/-- The bit that a sign adds to a pattern. -/
def signBit : Nat := 2048 * block

/-- The size of a finite magnitude. -/
def grains (pattern : Nat) : Nat :=
  if pattern < block then pattern
  else (block + pattern % block) * Nat.pow 2 (pattern / block - 1)

/-- A quotient rounded to the nearest whole number; a half goes to the even neighbour. -/
def roundDiv (num den : Nat) : Nat :=
  let q := num / den
  let r := num % den
  if 2 * r < den ∨ (2 * r = den ∧ q % 2 = 0) then q else q + 1

/-- The pattern of the magnitude nearest to `num / den`.  Of two that are equally near it is the
one with the even pattern, and what lies beyond the finite magnitudes is infinity. -/
def nearest (num den : Nat) : Nat :=
  let scaled := num * grainsInOne
  let shift := (scaled / den).log2 - 52
  min (shift * block + roundDiv scaled (den * Nat.pow 2 shift)) infinity

/-- The real with a given sign and magnitude. -/
def toReal (negative : Bool) (pattern : Nat) : Float :=
  Float.ofBits (UInt64.ofNat (if negative then signBit + pattern else pattern))

/-- The real nearest to an integer. -/
def ofInt (n : Int) : Float :=
  toReal (n < 0) (nearest n.natAbs 1)

end LetCalc.Binary64
