import AlgebraEngine.Expr.Depth

/-!
Why an equation cannot be solved for its variable.
-/
namespace AlgebraEngine

/-- Why the variable of an equation cannot be isolated. -/
inductive SolveError where
  /-- The variable occurs in an exponent. -/
  | variableInExponent
  /-- The variable occurs in more than one place, or else in none. -/
  | ambiguousSide (both : Bool)
  /-- The variable is an operand of something that has no inverse here. -/
  | unsupported (name : String)
  /-- The expression states no equality. -/
  | notAnEquation
  /-- The expression is too deep to be processed. -/
  | tooDeep (error : TooDeep)
  deriving DecidableEq, Repr

namespace SolveError

/-- What is wrong. -/
def message : SolveError → String
  | variableInExponent => "cannot solve for a variable in an exponent"
  | ambiguousSide true => "the variable appears more than once"
  | ambiguousSide false => "there is no variable to solve for"
  | unsupported name => "cannot isolate the variable from `" ++ name ++ "`"
  | notAnEquation => "expected an equation"
  | tooDeep error => error.message

/-- What is wrong at the place that the error points at. -/
def label : SolveError → String
  | notAnEquation => "this is not an equation"
  | tooDeep error => error.label
  | _ => "in this equation"

/-- Advice, for the causes that have some. -/
def help? : SolveError → Option String
  | variableInExponent => some "try rewriting the equation using ln(x)"
  | ambiguousSide true => some "collect every occurrence of the variable on one side first"
  | ambiguousSide false => some "add a variable, such as `x`, to one side of the equation"
  | unsupported _ => none
  | notAnEquation => some "write an equation such as 2x + 3 = 7"
  | tooDeep error => some error.help

end SolveError

end AlgebraEngine
