import LetCalc.Token
import LetCalc.Value

/-!
# Literals

The values that tokens write.  A token may carry any text, so a literal can be **malformed**: its
text is not a numeral of its kind, or its number does not fit.
-/

namespace LetCalc

/-- Whether a text is a numeral for an integer: digits, at least one. -/
def isIntNumeral (cs : List Char) : Bool :=
  !cs.isEmpty && cs.all Char.isDigit

/-- A text cut at its first point, which belongs to neither part. -/
def splitAtPoint? (cs : List Char) : Option (List Char × List Char) :=
  match cs.dropWhile (· != '.') with
  | [] => none
  | _ :: fraction => some (cs.takeWhile (· != '.'), fraction)

/-- Whether a text is a numeral for a real: a point with digits behind it, and before it digits or
nothing. -/
def isRealNumeral (cs : List Char) : Bool :=
  match splitAtPoint? cs with
  | none => false
  | some (whole, fraction) => whole.all Char.isDigit && isIntNumeral fraction

/-- The integer that a text writes, if it fits. -/
def intOfChars? (cs : List Char) : Option Int32 :=
  let n := Nat.ofDigitChars 10 cs 0
  if isIntNumeral cs && n ≤ 2147483647 then some (Int32.ofNat n) else none

/-- The real that a text writes. -/
def realOfChars? (cs : List Char) : Option Float :=
  match splitAtPoint? cs with
  | none => none
  | some (whole, fraction) =>
    if isRealNumeral cs then some (Decimal.ofDigits whole fraction).toReal else none

/-- The value that a token writes.  Only the tokens of literals write one. -/
def Token.value? (t : Token) : Option Value :=
  match t.kind with
  | .intLit => (intOfChars? t.text.toList).map .int
  | .realLit => (realOfChars? t.text.toList).map .real
  | .trueLit => some (.bool true)
  | .falseLit => some (.bool false)
  | _ => none

end LetCalc
