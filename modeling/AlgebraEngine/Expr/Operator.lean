import AlgebraEngine.Token.Basic

/-!
Operators and functions: how each is written, how tightly it binds, and which operator undoes it.
Division binds tighter than multiplication, so `a * b / c` is `a * (b / c)`.
-/
namespace AlgebraEngine

/-- How tightly an operation binds, loosest first. -/
inductive Precedence where
  | any
  | equality
  | term
  | factor
  | quotient
  | sign
  | power
  | factorial
  | atom
  deriving DecidableEq, Repr

namespace Precedence

/-- The position in the order from loose to tight. -/
def rank : Precedence → Nat
  | any => 0
  | equality => 1
  | term => 2
  | factor => 3
  | quotient => 4
  | sign => 5
  | power => 6
  | factorial => 7
  | atom => 8

instance : LT Precedence := ⟨fun p q => p.rank < q.rank⟩

instance : LE Precedence := ⟨fun p q => p.rank ≤ q.rank⟩

instance (p q : Precedence) : Decidable (p < q) := inferInstanceAs (Decidable (p.rank < q.rank))

instance (p q : Precedence) : Decidable (p ≤ q) := inferInstanceAs (Decidable (p.rank ≤ q.rank))

end Precedence

/-- Which side of a chain of equal operators groups first. -/
inductive Associativity where
  | left
  | right
  deriving DecidableEq, Repr

/-- The operators between two operands. -/
inductive BinaryOp where
  | add
  | sub
  | mul
  | div
  | mod
  | pow
  deriving DecidableEq, Repr

namespace BinaryOp

/-- How tightly an operator binds. -/
def precedence : BinaryOp → Precedence
  | add | sub => .term
  | mul | mod => .factor
  | div => .quotient
  | pow => .power

/-- How a chain of an operator groups. Only powers group from the right. -/
def associativity : BinaryOp → Associativity
  | pow => .right
  | _ => .left

/-- The sign an operator is written with. -/
def symbol : BinaryOp → String
  | add => "+"
  | sub => "-"
  | mul => "*"
  | div => "/"
  | mod => "%"
  | pow => "^"

/-- The name of the function an operator applies. -/
def name : BinaryOp → String
  | add => "add"
  | sub => "sub"
  | mul => "mul"
  | div => "div"
  | mod => "mod"
  | pow => "pow"

/-- The operator that undoes this one, where a single operator does. -/
def inverse? : BinaryOp → Option BinaryOp
  | add => some sub
  | sub => some add
  | mul => some div
  | div => some mul
  | mod => none
  | pow => none

/-- The operator that a token stands for. -/
def ofToken? : TokenKind → Option BinaryOp
  | .plus => some add
  | .minus => some sub
  | .star => some mul
  | .slash => some div
  | .percent => some mod
  | .caret => some pow
  | _ => none

end BinaryOp

/-- The signs in front of an operand. -/
inductive UnaryOp where
  | plus
  | minus
  deriving DecidableEq, Repr

namespace UnaryOp

/-- How tightly a sign binds. -/
def precedence (_ : UnaryOp) : Precedence := .sign

/-- How a row of signs groups. -/
def associativity (_ : UnaryOp) : Associativity := .right

/-- The sign as it is written. -/
def symbol : UnaryOp → String
  | plus => "+"
  | minus => "-"

/-- The sign that a token stands for. -/
def ofToken? : TokenKind → Option UnaryOp
  | .plus => some plus
  | .minus => some minus
  | _ => none

end UnaryOp

/-- What a call applies to its arguments. A vector is built from any number of them, and everything
else takes one. -/
inductive Func where
  | sqrt
  | abs
  | sin
  | cos
  | tan
  | ln
  | vector
  | factorial
  deriving DecidableEq, Repr

namespace Func

/-- The name of a function. -/
def name : Func → String
  | sqrt => "sqrt"
  | abs => "abs"
  | sin => "sin"
  | cos => "cos"
  | tan => "tan"
  | ln => "ln"
  | vector => "vec"
  | factorial => "factorial"

/-- The function that a token names. -/
def ofToken? : TokenKind → Option Func
  | .sqrt => some sqrt
  | .abs => some abs
  | .sin => some sin
  | .cos => some cos
  | .tan => some tan
  | .ln => some ln
  | _ => none

end Func

/-- The irrational constants. -/
inductive Constant where
  | e
  | pi
  deriving DecidableEq, Repr

namespace Constant

/-- The name that a constant is written with. -/
def symbol : Constant → String
  | e => "e"
  | pi => "pi"

end Constant

end AlgebraEngine
