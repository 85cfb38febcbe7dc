import AlgebraEngine.Number.Shortest

/-!
Double-precision numbers as the numbers of the engine: how they are written, and the functions that
evaluation takes from the machine.
-/
namespace AlgebraEngine

namespace Binary64

/-- Digits behind the sign of a value. -/
def withSign (x : Binary64) (digits : String) : String :=
  if x.negative then "-" ++ digits else digits

/-- The text of a value, always positional, with the sign of a negative zero. -/
def text (x : Binary64) : String :=
  if x.isNaN then "NaN"
  else if x.isInfinite then x.withSign "inf"
  else x.withSign x.shortest.positional

/-- The text of a literal, which is that of the value but for the sign of zero. -/
def literalText (x : Binary64) : String :=
  if x.isZero then "0" else x.text

/-- The text of a value in an outline: integers end in `.0`, and an exponent is written from `1e16`
up and below `1e-4`. -/
def outlineText (x : Binary64) : String :=
  if x.isNaN then "NaN"
  else if x.isInfinite then x.withSign "inf"
  else
    let d := x.shortest
    let place := d.exponent + ((Decimal.digitChars d.digits).length : Int) - 1
    if x.isZero || (-4 ≤ place && place < 16) then
      x.withSign (if 0 ≤ d.exponent then d.positional ++ ".0" else d.positional)
    else x.withSign d.scientific

instance : Arithmetic Binary64 where
  beq := same
  add := lift₂ (· + ·)
  sub := lift₂ (· - ·)
  mul := lift₂ (· * ·)
  div := lift₂ (· / ·)
  neg := neg
  ofInt := ofInt
  abs := abs
  toInt? := toInt?
  isFinite := isFinite
  isNegative := isNegative

instance : ReflBEq Binary64 where
  rfl := by
    intro x
    show same x x = true
    cases undefined : x.isNaN <;> simp [same, undefined]

instance : Numeral Binary64 where
  ofDecimal := ofDecimal
  text := literalText
  outline := outlineText
  isSigned := isSigned

instance : Analysis Binary64 where
  euler := ofDecimal ⟨2718281828459045, -15⟩
  pi := ofDecimal ⟨3141592653589793, -15⟩
  infinity := infinity
  rem := rem
  pow := fun x y => ofFloat (Float.pow x.toFloat y.toFloat)
  sqrt := lift Float.sqrt
  sin := lift Float.sin
  cos := lift Float.cos
  tan := lift Float.tan
  ln := lift Float.log
  round := round

end Binary64

end AlgebraEngine
