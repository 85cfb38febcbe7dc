import AlgebraEngine.Expr.Basic

/-!
The text of an expression, with no more parentheses than the precedence of its operators needs. Left
and right operands of equal precedence are told apart by the associativity of the operator.
-/
namespace AlgebraEngine

variable {ν : Type} [Numeral ν]

namespace Expr

/-- How tightly the outermost operation of an expression binds. A signed number binds like a sign in
front of a number. -/
def precedence : Expr ν → Precedence
  | number value => if Numeral.isSigned value then .sign else .atom
  | atom _ => .atom
  | binary _ o _ _ => o.precedence
  | unary _ o _ => o.precedence
  | call _ .factorial _ => .factorial
  | call .. => .atom
  | equality .. => .equality

/-- Text, in parentheses if asked for. -/
def enclose (parenthesized : Bool) (text : String) : String :=
  if parenthesized then "(" ++ text ++ ")" else text

/-- Whether the left operand of an operator needs parentheses. -/
def enclosesLeft (o : BinaryOp) (lhs : Precedence) : Bool :=
  match o.associativity with
  | .left => lhs < o.precedence
  | .right => lhs ≤ o.precedence

/-- Whether the right operand of an operator needs parentheses. -/
def enclosesRight (o : BinaryOp) (rhs : Precedence) : Bool :=
  match o.associativity with
  | .left => rhs ≤ o.precedence
  | .right => rhs < o.precedence

mutual

/-- The text of an expression. -/
def text : Expr ν → String
  | number value => Numeral.text value
  | atom a => a.symbol
  | binary _ o l r =>
    enclose (enclosesLeft o l.precedence) l.text ++ " " ++ o.symbol ++ " "
      ++ enclose (enclosesRight o r.precedence) r.text
  | unary _ o u => o.symbol ++ enclose (u.precedence ≤ o.precedence) u.text
  | call _ .vector us => "[" ++ listText us ++ "]"
  | call _ .factorial us => operandText us ++ "!"
  | call _ f us => f.name ++ "(" ++ listText us ++ ")"
  | equality _ _ l r => l.text ++ " = " ++ r.text

/-- The texts of arguments, separated by commas. -/
def listText : List (Expr ν) → String
  | [] => ""
  | [u] => u.text
  | u :: us => u.text ++ ", " ++ listText us

/-- The texts of the operands of a factorial. -/
def operandText : List (Expr ν) → String
  | [] => ""
  | u :: us => enclose (u.precedence < Precedence.factorial) u.text ++ operandText us

end

end Expr

end AlgebraEngine
