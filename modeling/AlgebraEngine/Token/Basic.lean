/-!
Tokens of an expression's source text. A token knows its kind, the bytes it covers and the text it
was read from. Names are read one letter at a time, except for the named functions and the circle
constant, so that a run of symbols such as `2ex` is a product.
-/
namespace AlgebraEngine

/-- A range of byte offsets into a source. -/
structure Span where
  start : Nat
  stop : Nat
  deriving DecidableEq, Repr, Inhabited

namespace Span

/-- The span moved to the right. -/
def shift (s : Span) (offset : Nat) : Span := ⟨s.start + offset, s.stop + offset⟩

end Span

/-- What a token is. -/
inductive TokenKind where
  | blank
  | plus
  | minus
  | star
  | slash
  | percent
  | caret
  | bang
  | equals
  | comma
  | openParen
  | closeParen
  | openSquare
  | closeSquare
  | sqrt
  | abs
  | sin
  | cos
  | tan
  | ln
  | pi
  | euler
  | number
  | command
  | letter
  | symbol
  deriving DecidableEq, Repr

namespace TokenKind

/-- The name of a kind in messages. -/
def name : TokenKind → String
  | blank => "Whitespace"
  | plus => "Add"
  | minus => "Sub"
  | star => "Mul"
  | slash => "Div"
  | percent => "Mod"
  | caret => "Exp"
  | bang => "Factorial"
  | equals => "Assign"
  | comma => "Comma"
  | openParen => "OpenParen"
  | closeParen => "CloseParen"
  | openSquare => "OpenSquare"
  | closeSquare => "CloseSquare"
  | sqrt => "Sqrt"
  | abs => "Abs"
  | sin => "Sin"
  | cos => "Cos"
  | tan => "Tan"
  | ln => "Ln"
  | pi => "Pi"
  | euler => "E"
  | number => "Number"
  | command => "Command"
  | letter => "Letter"
  | symbol => "Symbol"

/-- Whether a token of this kind names a function. -/
def isFunction : TokenKind → Bool
  | sqrt | abs | sin | cos | tan | ln => true
  | _ => false

/-- Whether a token of this kind, right after a factor, starts another factor of the same product.
Signs do not, since they are read as sums, and neither do brackets. -/
def startsFactor : TokenKind → Bool
  | openParen | number | letter | euler | pi => true
  | kind => kind.isFunction

end TokenKind

/-- A token of a source. -/
structure Token where
  kind : TokenKind
  span : Span
  lexeme : String
  deriving DecidableEq, Repr

end AlgebraEngine
