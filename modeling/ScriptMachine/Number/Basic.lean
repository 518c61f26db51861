/-
# Numbers

A number of the scripts is an IEEE 754 binary64 word. The word is kept as it
is, because the sign of a NaN shows in the text that a number gives when it is
joined to a string, and a NaN of a `Float` has no sign.

Order and equality are read off the word: the sign and the other 63 bits give
each number a rank, and zero has the rank 0 with either sign. Sums,
differences, products and quotients are those of `Float`; only what happens
with NaN is decided here.
-/

namespace ScriptMachine

/-- An IEEE 754 binary64 number, as its 64 bits. -/
structure Number where
  bits : UInt64
  deriving DecidableEq, Repr

namespace Number

instance : Inhabited Number := ⟨⟨0⟩⟩

/-- The positive zero. -/
def zero : Number := ⟨0⟩

/-- The number of a float, bit by bit. -/
def ofFloat (x : Float) : Number := ⟨x.toBits⟩

/-- The number nearest to a natural number. -/
def ofNat (n : Nat) : Number := ofFloat (Float.ofNat n)

/-- The float of a number; every NaN becomes the one NaN that a float has. -/
def toFloat (n : Number) : Float := Float.ofBits n.bits

/-! ## The parts of the word -/

/-- The sign bit is set. Negative zero and some NaNs have it set too. -/
def isNegative (n : Number) : Bool := n.bits >>> 63 == 1

/-- The eleven bits of the exponent. -/
def exponentField (n : Number) : Nat := ((n.bits >>> 52) &&& 0x7ff).toNat

/-- The fifty-two bits of the fraction. -/
def fraction (n : Number) : Nat := (n.bits &&& 0xfffffffffffff).toNat

/-- All bits but the sign, as a natural number. It grows with the magnitude. -/
def magnitude (n : Number) : Nat := (n.bits &&& 0x7fffffffffffffff).toNat

def isNaN (n : Number) : Bool := n.exponentField == 2047 && n.fraction != 0

def isInfinite (n : Number) : Bool := n.exponentField == 2047 && n.fraction == 0

def isZero (n : Number) : Bool := n.magnitude == 0

/-- The integer `m` of the magnitude `m * 2 ^ scale` of a finite number. -/
def significand (n : Number) : Nat :=
  if n.exponentField = 0 then n.fraction else n.fraction + Nat.pow 2 52

/-- The exponent of two in the magnitude `significand * 2 ^ scale` of a finite number. -/
def scale (n : Number) : Int := (max n.exponentField 1 : Nat) - 1075

/-! ## Comparison -/

/-- The place of a number among all that are not NaN; both zeros share the place 0. -/
def rank (n : Number) : Int :=
  if n.isNegative then -(n.magnitude : Int) else n.magnitude

/-- Equality of IEEE 754: a NaN differs from itself and the two zeros are equal. -/
def equal (a b : Number) : Bool := !a.isNaN && !b.isNaN && a.rank == b.rank

/-- The strict order of IEEE 754: a NaN is neither below nor above anything. -/
def below (a b : Number) : Bool := !a.isNaN && !b.isNaN && a.rank < b.rank

/-! ## Arithmetic -/

/-- The NaN of an operation that has no result, such as zero over zero. Its sign bit is set. -/
def invalid : Number := ⟨0xfff8000000000000⟩

/-- A NaN as it leaves an operation: its quiet bit is set and the rest is kept. -/
def quiet (n : Number) : Number := ⟨n.bits ||| 0x0008000000000000⟩

/-- Lift an operation on floats. A NaN operand is the result, the left one before the right one. -/
def lift (op : Float → Float → Float) (a b : Number) : Number :=
  if a.isNaN then a.quiet
  else if b.isNaN then b.quiet
  else
    let result := op a.toFloat b.toFloat
    if result.isNaN then invalid else ofFloat result

instance : Add Number := ⟨lift (· + ·)⟩

instance : Sub Number := ⟨lift (· - ·)⟩

instance : Mul Number := ⟨lift (· * ·)⟩

instance : Div Number := ⟨lift (· / ·)⟩

/-- Negation flips the sign bit, that of a NaN too. -/
instance : Neg Number := ⟨fun n => ⟨n.bits ^^^ 0x8000000000000000⟩⟩

end Number

end ScriptMachine
