import AlgebraEngine.Number.Decimal

/-!
What the engine asks of numbers. The rewriting rules need exact queries and the four operations
(`Arithmetic`), reading and printing need numerals (`Numeral`), and evaluation needs functions of a
real variable and rounding (`Analysis`). Nothing else in the engine looks inside a number, so the
same rules run on machine numbers and on exact ones.
-/
namespace AlgebraEngine

/-- Numbers that literals hold and rules compute with. The equality `==` is that of literals: a
number that is not a number still equals itself, and the two zeros are equal. -/
class Arithmetic (ν : Type) extends BEq ν, Add ν, Sub ν, Mul ν, Div ν, Neg ν where
  /-- The number nearest to an integer. -/
  ofInt : Int → ν
  /-- The number without its sign. -/
  abs : ν → ν
  /-- The integer that a number is, if it is a finite integer. -/
  toInt? : ν → Option Int
  /-- Whether a number is neither infinite nor undefined. -/
  isFinite : ν → Bool
  /-- Whether a number lies below zero. -/
  isNegative : ν → Bool

/-- Numbers that can be read from numerals and written as text. -/
class Numeral (ν : Type) extends Arithmetic ν where
  /-- The number nearest to a decimal numeral. -/
  ofDecimal : Decimal → ν
  /-- The text of a number. Zero is written without a sign. -/
  text : ν → String
  /-- The text of a number in an outline of a tree, which shows that it is not an integer type. -/
  outline : ν → String
  /-- Whether a number other than zero carries a sign, which its operator neighbours must respect.
  A number that is not a number can carry one too. -/
  isSigned : ν → Bool

/-- Numbers with the functions of a real variable that expressions can apply. -/
class Analysis (ν : Type) extends Numeral ν where
  /-- Euler's number. -/
  euler : ν
  /-- The ratio of a circle's circumference to its diameter. -/
  pi : ν
  /-- A number above every finite one. -/
  infinity : ν
  /-- The remainder of a division whose quotient is cut toward zero. -/
  rem : ν → ν → ν
  pow : ν → ν → ν
  sqrt : ν → ν
  sin : ν → ν
  cos : ν → ν
  tan : ν → ν
  ln : ν → ν
  /-- Rounds to a count of decimal places, halves away from zero. -/
  round : Nat → ν → ν

namespace Arithmetic

/-- Whether a number is a finite integer. -/
def isInteger {ν : Type} [Arithmetic ν] (x : ν) : Bool := (toInt? x).isSome

end Arithmetic

end AlgebraEngine
