/-!
The steps that simplification takes, one for each rule.
-/
namespace AlgebraEngine

/-- A kind of rewrite. -/
inductive Step where
  /-- An operation on two numbers is carried out, so `2 + 3` becomes `5`. -/
  | foldConstants
  /-- Two fractions become one, so `1/2 + 1/3` becomes `5/6`. -/
  | combineFractions
  /-- A quotient of two numbers is divided or reduced, so `8 / 10` becomes `4/5`. -/
  | divideNumbers
  /-- A division by a fraction is a product, so `3 / (1/2)` becomes `6`. -/
  | multiplyByReciprocal
  /-- A term next to a number stays as it is, as in `2x + 3`. -/
  | keepApart
  /-- Two terms share their atom, so `2x + 3x` becomes `(2 + 3)x`. -/
  | combineLikeTerms
  /-- A product with zero vanishes, so `0x` becomes `0`. -/
  | multiplyByZero
  /-- A plus sign is dropped, so `+a` becomes `a`. -/
  | removePlus
  /-- A minus sign in front of a number becomes part of it, as in `-3`. -/
  | negateConstant
  /-- A minus sign moves into a coefficient, so `-(2x)` becomes `(-2)x`. -/
  | negateCoefficient
  /-- A minus sign moves into a fraction, so `-((1/2)x)` becomes `(-1/2)x`. -/
  | negateFraction
  /-- A minus sign moves into a sum, so `-(a + b)` becomes `(-a) - b`. -/
  | distributeNegation
  /-- Two minus signs cancel, so `-(-a)` becomes `a`. -/
  | cancelNegations
  deriving DecidableEq, Repr

namespace Step

/-- What a step does. -/
def about : Step → String
  | foldConstants => "fold constants"
  | combineFractions => "combine fractions"
  | divideNumbers => "divide numbers"
  | multiplyByReciprocal => "multiply by the reciprocal"
  | keepApart => "keep variable and constant terms apart"
  | combineLikeTerms => "combine like terms"
  | multiplyByZero => "multiply by zero"
  | removePlus => "remove unary plus"
  | negateConstant => "negate constant"
  | negateCoefficient => "negate coefficient"
  | negateFraction => "negate fractional coefficient"
  | distributeNegation => "distribute negation"
  | cancelNegations => "cancel double negation"

end Step

end AlgebraEngine
