import AlgebraEngine.Parser.State

/-!
The grammar of expressions, loosest operation first:

* an equality is a sum, or two sums with `=` between them;
* a sum is products with `+` or `-` between them, a product is quotients with `*` or `%`, and a
  quotient is juxtapositions with `/`, all grouped from the left;
* a juxtaposition is powers one after the other, as in `2x`, where every power but the first starts
  with a token that no sign could be;
* a power is an operand, or an operand with `^` and a power behind it;
* an operand is a sign in front of a juxtaposition, or a primary with any number of `!` behind it;
* a primary is a number, a variable, a constant, a sum in parentheses, a function applied to one, or
  a vector of sums in brackets.

Reading an operand, the exponent of a power and the juxtaposition behind a sign each go one level
deeper. A `Grammar` is what can be read at one level, and `Grammar.within` builds the grammar of a
level from that of the next, down to the level at which everything is refused.
-/
namespace AlgebraEngine

variable {ν : Type}

namespace Parse

/-- The operator that the next token stands for, if it is one of those given. -/
def operator? (ops : List BinaryOp) : Parse (Option BinaryOp) := do
  return (((← peek?).bind BinaryOp.ofToken?).filter (ops.contains ·))

/-- Extends a chain of operations to the right, at most `links` times. `depth` is the depth of the
chain so far. -/
def chainFrom (ops : List BinaryOp) (operand : Parse (Expr ν)) :
    (links : Nat) → (lhs : Expr ν) → (depth : Nat) → Parse (Expr ν)
  | 0, lhs, _ => pure lhs
  | links + 1, lhs, depth => do
    match ← operator? ops with
    | none => return lhs
    | some o =>
      let _ ← next
      let rhs ← operand
      let depth := max depth rhs.depth + 1
      checkTreeDepth depth
      chainFrom ops operand links (.op o lhs rhs) depth

/-- Reads operands with operators of one precedence between them, grouped from the left. Every
link takes a token, so there are no more links than tokens. -/
def chain (ops : List BinaryOp) (operand : Parse (Expr ν)) : Parse (Expr ν) := do
  let lhs ← operand
  chainFrom ops operand (← get).remaining lhs lhs.depth

/-- Extends a juxtaposition to the right, at most `links` times. -/
def juxtaposedFrom (factor : Parse (Expr ν)) :
    (links : Nat) → (lhs : Expr ν) → (depth : Nat) → Parse (Expr ν)
  | 0, lhs, _ => pure lhs
  | links + 1, lhs, depth => do
    if (← peek?).any TokenKind.startsFactor then
      let rhs ← factor
      let depth := max depth rhs.depth + 1
      checkTreeDepth depth
      juxtaposedFrom factor links (.op .mul lhs rhs) depth
    else return lhs

/-- A variable that stands alone, written as a multiple of itself, so that every occurrence of the
variable has a coefficient. -/
def withCoefficient [Arithmetic ν] : Expr ν → Expr ν
  | .atom (.var name) => .op .mul (.number (Arithmetic.ofInt 1)) (.var name)
  | e => e

/-- Reads factors one after the other as a product grouped from the left. -/
def juxtaposed [Arithmetic ν] (factor : Parse (Expr ν)) : Parse (Expr ν) := do
  let lhs := withCoefficient (← factor)
  juxtaposedFrom factor (← get).remaining lhs lhs.depth

/-- Applies a factorial for each `!` that follows, at most `marks` of them. -/
def factorialsFrom : (marks : Nat) → (operand : Expr ν) → (depth : Nat) → Parse (Expr ν)
  | 0, operand, _ => pure operand
  | marks + 1, operand, depth => do
    if (← peek?) = some .bang then
      checkTreeDepth (depth + 1)
      advance
      factorialsFrom marks (.apply .factorial [operand]) (depth + 1)
    else return operand

/-- Applies a factorial for each `!` that follows. -/
def factorials (operand : Expr ν) : Parse (Expr ν) := do
  factorialsFrom (← get).remaining operand operand.depth

/-- Reads a number, a variable or a constant. -/
def literal [Numeral ν] : Parse (Expr ν) := do
  let token ← next
  match token.kind with
  | .number => return .number (Numeral.ofDecimal (.ofNumeral token.lexeme.toList))
  | .euler => return .const .e
  | .pi => return .const .pi
  | .letter =>
    useVariable token.lexeme token.span
    return .var token.lexeme
  | found => failAt token.span (.unexpectedToken [.number, .letter, .euler, .pi] found)

/-- Reads an operator between two operands. -/
def binaryOp : Parse BinaryOp := do
  let token ← next
  match BinaryOp.ofToken? token.kind with
  | some o => return o
  | none =>
    failAt token.span
      (.unexpectedToken [.plus, .minus, .star, .slash, .percent, .caret] token.kind)

/-- Reads a sign. -/
def unaryOp : Parse UnaryOp := do
  let token ← next
  match UnaryOp.ofToken? token.kind with
  | some o => return o
  | none => failAt token.span (.unexpectedToken [.plus, .minus] token.kind)

/-- Takes a token of one kind. -/
def expect (kind : TokenKind) : Parse Token := do
  let token ← next
  if token.kind = kind then return token
  else failAt token.span (.unexpectedToken [kind] token.kind)

end Parse

open Parse

/-- What can be read at one level of nesting. -/
structure Grammar (ν : Type) where
  sum : Parse (Expr ν)
  juxtaposition : Parse (Expr ν)
  power : Parse (Expr ν)
  /-- The operand of a sign, which is a juxtaposition one level deeper. -/
  signed : Parse (Expr ν)

namespace Grammar

/-- Nothing can be read where there is no room for another level. -/
def refused : Grammar ν :=
  ⟨fail .tooNested, fail .tooNested, fail .tooNested, fail .tooNested⟩

variable [Numeral ν] (inner : Grammar ν)

/-- A sum in parentheses. -/
def parenthesized : Parse (Expr ν) := do
  let opening ← next
  if (← peek?) = some .closeParen then
    failAt ⟨opening.span.start, (← get).span.stop⟩ .emptyParenthesis
  let e ← inner.sum
  close .closeParen opening.span (.unclosedParenthesis true)
  return e

/-- A function applied to a sum in parentheses. -/
def application (func : Func) : Parse (Expr ν) := do
  let _ ← next
  let opening ← attempt (expect .openParen)
  let e ← inner.sum
  close .closeParen opening.span (.unclosedParenthesis true)
  return .apply func [e]

/-- The components of a vector after the first one, at most `count` of them. -/
def components : (count : Nat) → Parse (List (Expr ν))
  | 0 => pure []
  | count + 1 => do
    if (← peek?) = some .comma then
      advance
      let e ← inner.sum
      return e :: (← components count)
    else return []

/-- A vector of one or more sums in brackets. -/
def vector : Parse (Expr ν) := do
  let opening ← next
  if (← peek?) = some .closeSquare then
    failAt ⟨opening.span.start, (← get).span.stop⟩ .emptyVector
  let e ← inner.sum
  let es ← components inner (← get).remaining
  close .closeSquare opening.span .unclosedBracket
  return .apply .vector (e :: es)

/-- A primary that starts with a token of a kind. -/
def primary (kind : TokenKind) : Parse (Expr ν) :=
  match kind with
  | .openParen => parenthesized inner
  | .openSquare => vector inner
  | .closeParen => fail (.unclosedParenthesis false)
  | .command => do
    let token ← next
    failAt token.span
      (.unknownFunction (String.ofList (token.lexeme.toList.dropWhile (· == '\\'))))
  | kind =>
    match Func.ofToken? kind with
    | some func => application inner func
    | none => literal

/-- An operand of a power. A sign takes the whole juxtaposition behind it and no factorial. -/
def operand : Parse (Expr ν) := do
  match ← peek? with
  | none => fail .unexpectedEnd
  | some kind =>
    match UnaryOp.ofToken? kind with
    | some o =>
      advance
      return .sign o (← inner.signed)
    | none => factorials (← primary inner kind)

/-- An operand, or an operand raised to a power. -/
def raised : Parse (Expr ν) := do
  let base ← operand inner
  if (← peek?) = some .caret then
    advance
    return .op .pow base (← inner.power)
  else return base

/-- The grammar of a level, from that of the next level. -/
def enclosing : Grammar ν where
  sum := chain [.add, .sub] (chain [.mul, .mod] (chain [.div] (juxtaposed (raised inner))))
  juxtaposition := juxtaposed (raised inner)
  power := raised inner
  signed := inner.juxtaposition

/-- The grammar of a level that has room for a number of further levels. -/
def within : (room : Nat) → Grammar ν
  | 0 => refused
  | room + 1 => enclosing (within room)

end Grammar

namespace Parse

variable [Numeral ν]

/-- Reads a sum, or an equality of two. -/
def equation (grammar : Grammar ν) : Parse (Expr ν) := do
  let lhs ← grammar.sum
  if (← peek?) = some .equals then
    advance
    return .equal lhs (← grammar.sum)
  else return lhs

/-- Reads an expression at the current level of nesting. -/
def expression : Parse (Expr ν) := do equation (.within (← get).room)

/-- Reads a sign and its operand. -/
def signed : Parse (Expr ν) := do
  let o ← unaryOp
  return .sign o (← (Grammar.within (← get).room).signed)

end Parse

/-- The expression that a whole source denotes. -/
def Expr.parse [Numeral ν] (source : String) : Except SyntaxFault (Expr ν) :=
  match (complete expression).run (.ofSource source) with
  | .ok e _ => .ok e
  | .error fault _ => .error fault

end AlgebraEngine
