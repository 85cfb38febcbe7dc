import AlgebraEngine.Expr.Depth

/-!
The values that expressions evaluate to, and why an expression has none.
-/
namespace AlgebraEngine

variable {ν : Type}

/-- A value. An expression that contains the variable evaluates to a text. -/
inductive Value (ν : Type) where
  | scalar (x : ν)
  | vector (components : List ν)
  | symbolic (text : String)

/-- What kind of value a value is. -/
inductive ValueType where
  | scalar
  | vector
  | symbolic
  deriving DecidableEq, Repr

namespace ValueType

/-- The name of a type in messages. -/
def name : ValueType → String
  | scalar => "Scalar"
  | vector => "Vector"
  | symbolic => "Symbolic"

end ValueType

namespace Value

/-- The type of a value. -/
def type : Value ν → ValueType
  | scalar _ => .scalar
  | vector _ => .vector
  | symbolic _ => .symbolic

/-- Whether a value is a text. -/
def isSymbolic : Value ν → Bool
  | symbolic _ => true
  | _ => false

/-- The text of a value. -/
def text [Numeral ν] : Value ν → String
  | scalar x => Numeral.text x
  | vector components => "[" ++ ", ".intercalate (components.map Numeral.text) ++ "]"
  | symbolic text => text

end Value

/-- Why an expression has no value. -/
inductive EvalError (ν : Type) where
  | nonIntegerFactorial (value : ν)
  | negativeFactorial (value : ν)
  /-- A product of vectors with different numbers of components. -/
  | lengthMismatch (left right : Nat)
  /-- An operator between values that it does not combine. -/
  | invalidOperands (op : BinaryOp) (left right : ValueType)
  /-- A function of a value that is not a scalar. -/
  | invalidArgument (func : Func) (found : ValueType)
  /-- A component of a vector that is not a scalar. -/
  | invalidComponent (found : ValueType)
  /-- A function of more or fewer than one argument. -/
  | argumentCount (func : Func) (found : Nat)
  /-- The expression is too deep to be processed. -/
  | tooDeep (error : TooDeep)

namespace EvalError

/-- What is wrong. -/
def message : EvalError ν → String
  | nonIntegerFactorial _ => "cannot compute the factorial of a non-integer"
  | negativeFactorial _ => "cannot compute the factorial of a negative number"
  | lengthMismatch .. => "cannot compute the dot product of vectors of different sizes"
  | invalidOperands o _ _ => "cannot apply the `" ++ o.symbol ++ "` operator to these operands"
  | invalidArgument f found =>
    "cannot apply `" ++ f.name ++ "` to a value of type `" ++ found.name ++ "`"
  | invalidComponent _ => "vector components must be numbers"
  | argumentCount f found =>
    "`" ++ f.name ++ "` takes 1 argument(s), but " ++ Decimal.intText found ++ " were given"
  | tooDeep error => error.message

/-- What is wrong at the place that the error points at. -/
def label [Numeral ν] : EvalError ν → String
  | nonIntegerFactorial value => "this evaluates to " ++ Numeral.text value
  | negativeFactorial value => "this evaluates to " ++ Numeral.text value
  | lengthMismatch left right =>
    "these vectors have " ++ Decimal.intText left ++ " and " ++ Decimal.intText right
      ++ " components"
  | invalidOperands o left right =>
    "this is `" ++ left.name ++ "` " ++ o.symbol ++ " `" ++ right.name ++ "`"
  | invalidArgument .. => "this function call"
  | invalidComponent found => "a component has type `" ++ found.name ++ "`"
  | argumentCount .. => "this function call"
  | tooDeep error => error.label

/-- Advice, for the causes that have some. -/
def help? : EvalError ν → Option String
  | nonIntegerFactorial _ => some "only integer factorials are supported"
  | negativeFactorial _ => none
  | lengthMismatch .. => none
  | invalidOperands .. => none
  | invalidArgument f _ => some ("`" ++ f.name ++ "` takes a Scalar")
  | invalidComponent _ => none
  | argumentCount .. => none
  | tooDeep error => some error.help

end EvalError

end AlgebraEngine
