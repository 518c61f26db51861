/-
# Text of numbers

Two texts of a number. `Number.shown` is what printing writes: the fewest
digits that read back, always positional. `Number.precise` is what joining a
number to a string gives: seventeen significant digits without the zeros at
the end of a fraction, with an exponent for very small and very large
magnitudes.
-/

import ScriptMachine.Number.Decimal

namespace ScriptMachine

namespace Decimal

/-- The list without the zeros at its end. -/
def dropTrailingZeros (cs : List Char) : List Char := (cs.reverse.dropWhile (· == '0')).reverse

/-- A whole part and a fraction, without the zeros at the end of the fraction and without a point
that nothing follows. -/
def joinPoint (whole fraction : List Char) : List Char :=
  let kept := dropTrailingZeros fraction
  if kept.isEmpty then whole else whole ++ '.' :: kept

/-- The digits laid out around the point, with zeros where they do not reach it. -/
def positional (d : Decimal) : List Char :=
  let ds := d.digits
  match d.leading with
  | .ofNat k => joinPoint ((ds.rightpad (k + 1) '0').take (k + 1)) (ds.drop (k + 1))
  | .negSucc k => joinPoint ['0'] (List.replicate k '0' ++ ds)

/-- One digit before the point, then the power of ten with its sign and at least two digits. -/
def exponential (d : Decimal) : List Char :=
  let power := Nat.toDigits 10 d.leading.natAbs
  let sign := if d.leading < 0 then '-' else '+'
  joinPoint (d.digits.take 1) (d.digits.drop 1) ++
    'e' :: sign :: power.leftpad 2 '0'

end Decimal

namespace Number

/-- A minus sign for a number whose sign bit is set. -/
def signText (n : Number) : List Char := if n.isNegative then ['-'] else []

/-- The text that printing writes. A NaN shows no sign. -/
def shown (n : Number) : String :=
  if n.isNaN then "NaN"
  else
    -- Zero is apart because it has no leading digit.
    let body :=
      if n.isInfinite then "inf".toList
      else if n.isZero then ['0']
      else n.shortestDecimal.positional
    String.ofList (n.signText ++ body)

/-- Seventeen digits are laid out around the point from the power of ten `-4` to the power `16`. -/
def isPositional (d : Decimal) : Bool := -4 ≤ d.leading && d.leading < 17

/-- The text that a number contributes to a string it is joined to. -/
def precise (n : Number) : String :=
  let body :=
    if n.isNaN then "nan".toList
    else if n.isInfinite then "inf".toList
    else if n.isZero then ['0']
    else
      let d := n.preciseDecimal
      if isPositional d then d.positional else d.exponential
  String.ofList (n.signText ++ body)

end Number

end ScriptMachine
