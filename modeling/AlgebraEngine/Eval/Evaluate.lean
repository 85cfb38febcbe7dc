import AlgebraEngine.Eval.Context
import AlgebraEngine.Expr.Text

/-!
Evaluating expressions. Literals and function values are rounded to the precision of the context,
results of operators are not. An operation on a text yields the text of the whole operation, and an
equality yields the values of its sides with `=` between them.
-/
namespace AlgebraEngine

variable {ν : Type} [Analysis ν]

/-- Evaluating in a context. The context that a failure leaves behind can be used again. -/
abbrev Eval (ν α : Type) := EStateM (EvalError ν) (Context ν) α

namespace Value

/-- Combines two scalars. -/
def combine (o : BinaryOp) (x y : ν) : ν :=
  match o with
  | .add => x + y
  | .sub => x - y
  | .mul => x * y
  | .div => x / y
  | .mod => Analysis.rem x y
  | .pow => Analysis.pow x y

/-- Combines the components that two vectors share. The components that only the longer one has stay
as they are. -/
def combineShared (o : BinaryOp) : List ν → List ν → List ν
  | [], ys => ys
  | xs, [] => xs
  | x :: xs, y :: ys => combine o x y :: combineShared o xs ys

/-- The sum of the products of components, from left to right. The sum of nothing is the zero with a
minus sign, which every number can be added to unchanged. -/
def dot (xs ys : List ν) : ν :=
  (List.zipWith (· * ·) xs ys).foldl (· + ·) (-Arithmetic.ofInt 0)

/-- Applies an operator to two values, neither of which is a text. Vectors can be added and
subtracted, multiplied with each other, and multiplied or divided by a scalar on either side. -/
def binary (o : BinaryOp) (left right : Value ν) : Except (EvalError ν) (Value ν) :=
  match o, left, right with
  | o, .scalar x, .scalar y => .ok (.scalar (combine o x y))
  | .mul, .vector xs, .vector ys =>
    if xs.length = ys.length then .ok (.scalar (dot xs ys))
    else .error (.lengthMismatch xs.length ys.length)
  | .add, .vector xs, .vector ys => .ok (.vector (combineShared .add xs ys))
  | .sub, .vector xs, .vector ys => .ok (.vector (combineShared .sub xs ys))
  | .mul, .vector xs, .scalar y => .ok (.vector (xs.map (combine .mul · y)))
  | .div, .vector xs, .scalar y => .ok (.vector (xs.map (combine .div · y)))
  | .mul, .scalar x, .vector ys => .ok (.vector (ys.map (combine .mul x ·)))
  | .div, .scalar x, .vector ys => .ok (.vector (ys.map (combine .div x ·)))
  | o, left, right => .error (.invalidOperands o left.type right.type)

/-- Applies a sign to a value. A text stays as it is. -/
def unary (o : UnaryOp) (v : Value ν) : Value ν :=
  match o, v with
  | .minus, .scalar x => .scalar (-x)
  | .minus, .vector xs => .vector (xs.map (-·))
  | _, v => v

end Value

namespace Func

/-- The function of a real variable that a call applies, if it is one. -/
def real? : Func → Option (ν → ν)
  | sqrt => some Analysis.sqrt
  | abs => some Arithmetic.abs
  | sin => some Analysis.sin
  | cos => some Analysis.cos
  | tan => some Analysis.tan
  | ln => some Analysis.ln
  | vector => none
  | factorial => none

end Func

namespace Constant

/-- The number that a constant stands for. -/
def value : Constant → ν
  | e => Analysis.euler
  | pi => Analysis.pi

end Constant

namespace Eval

/-- Rounds a number to the precision of the context. -/
def rounded (x : ν) : Eval ν (Value ν) := return .scalar ((← get).round x)

/-- The factorial of a number. -/
def factorial (x : ν) : Eval ν (Value ν) := do
  match Arithmetic.toInt? x with
  | none => throw (.nonIntegerFactorial x)
  | some n =>
    if n < 0 then throw (.negativeFactorial x)
    let (result, c) := (← get).factorial n.toNat
    set c
    return .scalar result

/-- Applies a function to a scalar. -/
def applied (f : Func) (x : ν) : Eval ν (Value ν) :=
  match (f.real? : Option (ν → ν)) with
  | some g => rounded (g x)
  | none => factorial x

/-- Evaluates below a node. The depth of an expression is checked when its evaluation starts and not
again at the nodes inside it. -/
def inside (e : Expr ν) (body : Eval ν (Value ν)) : Eval ν (Value ν) := fun c =>
  match if c.level = 0 then checkDepth e else .ok () with
  | .error tooDeep => .error (.tooDeep tooDeep) c
  | .ok () =>
    match body { c with level := c.level + 1 } with
    | .ok value c => .ok value { c with level := c.level - 1 }
    | .error error c => .error error { c with level := c.level - 1 }

end Eval

open Eval

namespace Expr

mutual

/-- Evaluates an expression. -/
def eval : Expr ν → Eval ν (Value ν)
  | number x => inside (.number x) (rounded x)
  | atom (.var name) => inside (.var name) (return .symbolic name)
  | atom (.const constant) => inside (.const constant) (rounded constant.value)
  | binary t o l r => inside (.binary t o l r) do
    let left ← l.eval
    let right ← r.eval
    if left.isSymbolic || right.isSymbolic then return .symbolic (binary t o l r).text
    match Value.binary o left right with
    | .ok value => return value
    | .error error => throw error
  | unary t o u => inside (.unary t o u) do
    let operand ← u.eval
    if operand.isSymbolic then return .symbolic (unary t o u).text
    return operand.unary o
  | call t .vector us => inside (.call t .vector us) (return .vector (← evalComponents us))
  | call t f [u] => inside (.call t f [u]) do
    match ← u.eval with
    | .scalar x => applied f x
    | .symbolic _ => return .symbolic (call t f [u]).text
    | .vector _ => throw (.invalidArgument f .vector)
  | call t f us => inside (.call t f us) (throw (.argumentCount f us.length))
  | equality t side l r => inside (.equality t side l r) do
    let left ← l.eval
    let right ← r.eval
    return .symbolic (left.text ++ " = " ++ right.text)

/-- Evaluates the components of a vector, each of which has to be a scalar. -/
def evalComponents : List (Expr ν) → Eval ν (List ν)
  | [] => return []
  | u :: us => do
    match ← u.eval with
    | .scalar x => return x :: (← evalComponents us)
    | value => throw (.invalidComponent value.type)

end

/-- The value of an expression in a fresh context. -/
def value (precision : Nat) (e : Expr ν) : Except (EvalError ν) (Value ν) :=
  match e.eval.run (.fresh precision) with
  | .ok value _ => .ok value
  | .error error _ => .error error

end Expr

end AlgebraEngine
