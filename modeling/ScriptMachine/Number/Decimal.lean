/-
# Decimals of a binary number

Exact decimal forms of a positive rational `num / den`, computed with natural
numbers alone. `Decimal.significant` rounds to a given number of significant
digits, a half going to the even neighbour. `Decimal.shortest` looks for the
fewest digits that lie in an interval around the value: on each grid, coarse
to fine, the only candidates are the two neighbours of the value, because a
grid with any point in the interval has one of these in it.
-/

import ScriptMachine.Number.Basic

namespace ScriptMachine

/-- The decimal `coefficient * 10 ^ exponent`. -/
structure Decimal where
  coefficient : Nat
  exponent : Int
  deriving DecidableEq, Repr

namespace Decimal

/-- The digits of the coefficient, the first one first. -/
def digits (d : Decimal) : List Char := Nat.toDigits 10 d.coefficient

/-- The power of ten of the first digit. -/
def leading (d : Decimal) : Int := d.exponent + d.digits.length - 1

/-! ## Positive rationals -/

/-- The number of decimal digits of a natural number; zero has one. -/
def digitCount (n : Nat) : Nat := (Nat.toDigits 10 n).length

/-- The power of ten of the first digit of `num / den`.

The quotient is first made at least one: a power of ten with as many zeros as
`den` has digits exceeds `den`. -/
def leadingPower (num den : Nat) : Int :=
  let shift := digitCount den
  (digitCount (num * Nat.pow 10 shift / den) : Int) - 1 - shift

/-- Scale a numerator and a denominator by ten to the given power, whole numbers staying whole. -/
def scaleByTen (num den : Nat) : Int → Nat × Nat
  | .ofNat k => (num * Nat.pow 10 k, den)
  | .negSucc k => (num, den * Nat.pow 10 (k + 1))

/-- The integer nearest to `num / den`; a half goes to the even neighbour. -/
def roundHalfEven (num den : Nat) : Nat :=
  let floor := num / den
  let rest := num % den
  if 2 * rest < den then floor
  else if den < 2 * rest then floor + 1
  else floor + floor % 2

/-- The rational `num / den` rounded to `count` significant digits. -/
def significant (count num den : Nat) : Decimal :=
  let shift : Int := count - 1 - leadingPower num den
  let scaled := scaleByTen num den shift
  ⟨roundHalfEven scaled.1 scaled.2, -shift⟩

/-! ## The shortest decimal of an interval -/

/-- The rationals between `low / den` and `high / den`, around `value / den`. -/
structure Interval where
  low : Nat
  value : Nat
  high : Nat
  den : Nat
  closed : Bool

/-- The point `k` of the grid of whole numbers lies in the interval. -/
def Interval.holds (i : Interval) (k : Nat) : Bool :=
  if i.closed then i.low ≤ k * i.den && k * i.den ≤ i.high
  else i.low < k * i.den && k * i.den < i.high

/-- The interval scaled by a power of ten. -/
def Interval.scaleByTen (i : Interval) : Int → Interval
  | .ofNat k =>
    let factor := Nat.pow 10 k
    { i with low := i.low * factor, value := i.value * factor, high := i.high * factor }
  | .negSucc k => { i with den := i.den * Nat.pow 10 (k + 1) }

/-- The neighbour of the value among the whole numbers that lies in the interval. Of two the
nearer one is taken, and the upper one if they are equally near. -/
def Interval.neighbour? (i : Interval) : Option Nat :=
  let floor := i.value / i.den
  let rest := i.value % i.den
  match i.holds floor, i.holds (floor + 1) with
  | true, true => some (if 2 * rest < i.den then floor else floor + 1)
  | true, false => some floor
  | false, true => some (floor + 1)
  | false, false => none

/-- The decimal with the fewest digits, at most seventeen, that lies in the interval; the value
rounded to seventeen digits if there is none. -/
def shortest (i : Interval) : Decimal :=
  let power := leadingPower i.value i.den
  let candidate (extra : Nat) : Option Decimal :=
    let shift : Int := extra - power
    (i.scaleByTen shift).neighbour?.map fun k => ⟨k, -shift⟩
  ((List.range 17).findSome? candidate).getD (significant 17 i.value i.den)

end Decimal

namespace Number

/-- The magnitude of a finite number as a numerator and a denominator. -/
def ratio (n : Number) : Nat × Nat :=
  match n.scale with
  | .ofNat k => (n.significand * Nat.pow 2 k, 1)
  | .negSucc k => (n.significand, Nat.pow 2 (k + 1))

/-- The reals that round to the magnitude of a finite number: half a unit of the last place to
either side. Below a power of two the numbers lie twice as close, so the lower half is half as
wide. The ends belong to the interval when the significand is even, since ties round to even. -/
def roundingInterval (n : Number) : Decimal.Interval :=
  let m := 4 * n.significand
  let narrow := n.fraction = 0 ∧ 1 < n.exponentField
  let low := if narrow then m - 1 else m - 2
  let closed := n.significand % 2 == 0
  match n.scale - 2 with
  | .ofNat k =>
    let factor := Nat.pow 2 k
    ⟨low * factor, m * factor, (m + 2) * factor, 1, closed⟩
  | .negSucc k => ⟨low, m, m + 2, Nat.pow 2 (k + 1), closed⟩

/-- The fewest digits that read back as the magnitude of a finite number. -/
def shortestDecimal (n : Number) : Decimal := Decimal.shortest n.roundingInterval

/-- The magnitude of a finite number to seventeen significant digits. -/
def preciseDecimal (n : Number) : Decimal := Decimal.significant 17 n.ratio.1 n.ratio.2

end Number

end ScriptMachine
