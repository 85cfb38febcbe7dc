import AlgebraEngine.Expr.Basic

/-!
Fractions of whole numbers. A fraction is written as a single number where the quotient is an
integer, and otherwise as a quotient of two numbers over a positive denominator.
-/
namespace AlgebraEngine

/-- The greatest common divisor of two natural numbers, by repeated remainders. -/
def euclid (a b : Nat) : Nat :=
  if h : b = 0 then a else
    have : a % b < b := Nat.mod_lt a (Nat.pos_of_ne_zero h)
    euclid b (a % b)
termination_by b

namespace Fraction

open Arithmetic

variable {ν : Type} [Arithmetic ν]

/-- Whether a number is zero. -/
def isZero (x : ν) : Bool := x == ofInt 0

/-- The greatest common divisor of two integers, and one if either number is not an integer. -/
def gcd (a b : ν) : ν :=
  match toInt? a, toInt? b with
  | some m, some n => ofInt (euclid m.natAbs n.natAbs)
  | _, _ => ofInt 1

/-- The least common multiple of two integers. -/
def lcm (a b : ν) : ν :=
  let divisor := gcd a b
  if isZero divisor then ofInt 0 else abs (a * b) / divisor

/-- The quotient of two numbers as a single number if it is an integer, and otherwise as a fraction
that is not reduced. -/
def make (numerator denominator : ν) : Expr ν :=
  let quotient := numerator / denominator
  if isInteger quotient then .number quotient
  else if isNegative denominator then .fraction (-numerator) (-denominator)
  else .fraction numerator denominator

/-- The quotient of two numbers as a single number if it is an integer, and otherwise as a fraction
in lowest terms. -/
def reduce (numerator denominator : ν) : Expr ν :=
  let divisor := gcd numerator denominator
  if isZero divisor then make numerator denominator
  else make (numerator / divisor) (denominator / divisor)

end Fraction

end AlgebraEngine
