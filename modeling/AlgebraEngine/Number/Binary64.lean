import AlgebraEngine.Number.Arithmetic

/-!
Double-precision numbers as a sign and a magnitude. The sign is kept apart because a value that is
not a number keeps one as well: negation flips it, an operation hands on the sign of the operand
that caused the result, and an operation without a result produces a negative one. The arithmetic on
finite values and infinities is that of the machine; remainders and integer tests are exact.
-/
namespace AlgebraEngine

/-- A double-precision number. The magnitude is the encoding without its sign bit, that is a biased
exponent over 52 bits of fraction. -/
structure Binary64 where
  negative : Bool
  magnitude : UInt64
  deriving DecidableEq

namespace Binary64

/-- The magnitude of the infinities, above which nothing is a number. -/
def infiniteMagnitude : UInt64 := 0x7FF0000000000000

/-- The magnitude of a value that is not a number. -/
def undefinedMagnitude : UInt64 := 0x7FF8000000000000

/-- Whether the value is not a number. -/
def isNaN (x : Binary64) : Bool := infiniteMagnitude < x.magnitude

/-- Whether the value is an infinity. -/
def isInfinite (x : Binary64) : Bool := x.magnitude == infiniteMagnitude

/-- Whether the value is a number and not an infinity. -/
def isFinite (x : Binary64) : Bool := x.magnitude < infiniteMagnitude

/-- Whether the value is one of the two zeros. -/
def isZero (x : Binary64) : Bool := x.magnitude == 0

/-- Zero with a plus sign. -/
def zero : Binary64 := ⟨false, 0⟩

/-- Infinity with a plus sign. -/
def infinity : Binary64 := ⟨false, infiniteMagnitude⟩

/-- The result of an operation that has none, such as dividing zero by zero. -/
def undefined : Binary64 := ⟨true, undefinedMagnitude⟩

/-- The machine number with this encoding. -/
def toFloat (x : Binary64) : Float :=
  Float.ofBits (if x.negative then 0x8000000000000000 ||| x.magnitude else x.magnitude)

/-- The result of a machine operation. -/
def ofFloat (f : Float) : Binary64 :=
  if f.isNaN then undefined
  else ⟨0x8000000000000000 ≤ f.toBits, f.toBits &&& 0x7FFFFFFFFFFFFFFF⟩

/-- The exponent field of the encoding. -/
def biasedExponent (x : Binary64) : Nat := x.magnitude.toNat / Nat.pow 2 52

/-- The fraction field of the encoding. -/
def fraction (x : Binary64) : Nat := x.magnitude.toNat % Nat.pow 2 52

/-- A finite value is its significand times two to its exponent. -/
def significand (x : Binary64) : Nat :=
  if x.biasedExponent = 0 then x.fraction else Nat.pow 2 52 + x.fraction

/-- The power of two that the significand counts. -/
def exponent (x : Binary64) : Int :=
  if x.biasedExponent = 0 then -1074 else (x.biasedExponent : Int) - 1075

/-- The number nearest to a decimal. -/
def ofDecimal (d : Decimal) : Binary64 :=
  if 0 ≤ d.exponent then ofFloat (Float.ofScientific d.digits false d.exponent.toNat)
  else ofFloat (Float.ofScientific d.digits true (-d.exponent).toNat)

/-- The number nearest to an integer. -/
def ofInt (n : Int) : Binary64 :=
  { ofDecimal ⟨n.natAbs, 0⟩ with negative := n < 0 }

/-- The integer that a value is, if it is a finite integer. -/
def toInt? (x : Binary64) : Option Int :=
  if x.isFinite then
    let signed (n : Nat) : Int := if x.negative then -(n : Int) else n
    if 0 ≤ x.exponent then some (signed (x.significand * Nat.pow 2 x.exponent.toNat))
    else
      let unit := Nat.pow 2 (-x.exponent).toNat
      if x.significand % unit = 0 then some (signed (x.significand / unit)) else none
  else none

/-- Applies a machine operation. An operand that is not a number is the result, the first one if
both are. -/
def lift₂ (f : Float → Float → Float) (x y : Binary64) : Binary64 :=
  if x.isNaN then x
  else if y.isNaN then y
  else ofFloat (f x.toFloat y.toFloat)

/-- Applies a machine function. -/
def lift (f : Float → Float) (x : Binary64) : Binary64 :=
  if x.isNaN then x else ofFloat (f x.toFloat)

/-- Equality of literals: the two zeros are equal, and so are any two values that are not
numbers. -/
def same (x y : Binary64) : Bool :=
  (x.isNaN && y.isNaN) || (x.isZero && y.isZero)
    || (!x.isNaN && x.negative == y.negative && x.magnitude == y.magnitude)

/-- Whether the value lies below zero. -/
def isNegative (x : Binary64) : Bool := x.negative && !x.isZero && !x.isNaN

/-- Whether the value is printed or treated as if behind a sign. -/
def isSigned (x : Binary64) : Bool := x.negative && !x.isZero

/-- The value with its sign flipped, whatever it is. -/
def neg (x : Binary64) : Binary64 := { x with negative := !x.negative }

/-- The value with a plus sign. -/
def abs (x : Binary64) : Binary64 := { x with negative := false }

/-- The remainder of a division whose quotient is cut toward zero. It is exact, since both values
are whole multiples of the smaller of their units, and has the sign of the dividend. -/
def rem (x y : Binary64) : Binary64 :=
  if x.isNaN then x
  else if y.isNaN then y
  else if x.isInfinite || y.isZero then undefined
  else if y.isInfinite || x.isZero then x
  else
    let unit := min x.exponent y.exponent
    let units (z : Binary64) : Nat := z.significand * Nat.pow 2 (z.exponent - unit).toNat
    let rest := units x % units y
    let magnitude :=
      if 0 ≤ unit then ofDecimal ⟨rest * Nat.pow 2 unit.toNat, 0⟩
      else ofDecimal ⟨rest * Nat.pow 5 (-unit).toNat, unit⟩
    { magnitude with negative := x.negative }

/-- The product of the squares `base`, `base ^ 2`, `base ^ 4`, … that the binary digits of the
exponent select, lowest first, for exponents of at most `bits` binary digits. -/
def powerBySquares (base : Float) : (bits : Nat) → (exponent : Nat) → (product : Float) → Float
  | 0, _, product => product
  | bits + 1, exponent, product =>
    powerBySquares (base * base) bits (exponent / 2)
      (if exponent % 2 = 1 then product * base else product)

/-- The power of ten that moves a count of decimal places in front of the point. Counts beyond
31 binary digits give the same infinite scale as the largest such count. -/
def decimalScale (places : Nat) : Float :=
  powerBySquares 10.0 31 (min places (Nat.pow 2 31 - 1)) 1.0

/-- The nearest integer to a finite value, halves away from zero. -/
def nearestInteger (x : Binary64) : Binary64 :=
  if 0 ≤ x.exponent then x
  else
    let unit := Nat.pow 2 (-x.exponent).toNat
    { ofDecimal ⟨(2 * x.significand + unit) / (2 * unit), 0⟩ with negative := x.negative }

/-- Rounds to a count of decimal places, halves away from zero. A value too large to be scaled has
no digits behind the point and is returned unchanged. -/
def round (places : Nat) (x : Binary64) : Binary64 :=
  let scale := decimalScale places
  let scaled := x.toFloat * scale
  if scaled.isFinite then ofFloat ((ofFloat scaled).nearestInteger.toFloat / scale) else x

end Binary64

end AlgebraEngine
