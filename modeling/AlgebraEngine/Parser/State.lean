import AlgebraEngine.Expr.Depth
import AlgebraEngine.Parser.Error
import AlgebraEngine.Token.Lexer

/-!
The state of reading an expression and the steps that everything else is read with. The state keeps
its tokens, the index of the next one, the depth of nesting and the variable used so far. A step
that fails leaves the state as it was when it gave up; only `attempt` moves the cursor back, and
nothing ever forgets a variable.
-/
namespace AlgebraEngine

/-- The number of levels that expressions may be nested. -/
def maxNesting : Nat := 128

/-- The depth of the deepest tree that is built. Chains of operators deepen a tree without
nesting. -/
def maxTreeDepth : Nat := 1024

/-- A reader of one source. -/
structure Parser where
  tokens : Array Token
  /-- The index of the next token. -/
  cursor : Nat
  /-- The current level of nesting. -/
  depth : Nat
  /-- The variable used so far. An expression has one variable at most. -/
  used? : Option String
  deriving DecidableEq

namespace Parser

/-- A reader at the start of a source. -/
def ofSource (source : String) : Parser :=
  { tokens := (Token.tokenize source).toArray, cursor := 0, depth := 0, used? := none }

/-- The next token, if there is one. -/
def current? (p : Parser) : Option Token := p.tokens[p.cursor]?

/-- The kind of the next token. -/
def peek? (p : Parser) : Option TokenKind := p.current?.map Token.kind

/-- The empty span behind the last token. -/
def endSpan (p : Parser) : Span :=
  match p.tokens.back? with
  | some token => ⟨token.span.stop, token.span.stop⟩
  | none => ⟨0, 0⟩

/-- The span of the next token, or the end of the source. -/
def span (p : Parser) : Span :=
  match p.current? with
  | some token => token.span
  | none => p.endSpan

/-- The reader past its next token. At the end it stays where it is. -/
def advance (p : Parser) : Parser :=
  if p.cursor < p.tokens.size then { p with cursor := p.cursor + 1 } else p

/-- The number of tokens still to be read. -/
def remaining (p : Parser) : Nat := p.tokens.size - p.cursor

/-- The number of levels that may still be entered. -/
def room (p : Parser) : Nat := maxNesting - p.depth

end Parser

/-- Reading a value. A failure comes with the state in which reading gave up. -/
abbrev Parse (α : Type) := EStateM SyntaxFault Parser α

namespace Parse

variable {α : Type}

/-- Fails at a place of the source. -/
def failAt (span : Span) (error : SyntaxError) : Parse α := throw ⟨error, [span]⟩

/-- Fails at the next token, or at the end of the source. -/
def fail (error : SyntaxError) : Parse α := do failAt (← get).span error

/-- The kind of the next token. -/
def peek? : Parse (Option TokenKind) := return (← get).peek?

/-- Moves past the next token, if there is one. -/
def advance : Parse Unit := modify Parser.advance

/-- Takes the next token. -/
def next : Parse Token := do
  match (← get).current? with
  | some token =>
    advance
    return token
  | none => fail .unexpectedEnd

/-- Reads a value, or fails with the cursor where it was before. -/
def attempt (read : Parse α) : Parse α := fun p =>
  match read p with
  | .ok value p' => .ok value p'
  | .error fault p' => .error fault { p' with cursor := p.cursor }

/-- Reads a value one level of nesting deeper. -/
def nested (read : Parse α) : Parse α := fun p =>
  if maxNesting ≤ p.depth then .error ⟨.tooNested, [p.span]⟩ p
  else
    match read { p with depth := p.depth + 1 } with
    | .ok value p' => .ok value { p' with depth := p'.depth - 1 }
    | .error fault p' => .error fault { p' with depth := p'.depth - 1 }

/-- Refuses to build a tree that is too deep. -/
def checkTreeDepth (depth : Nat) : Parse Unit :=
  if maxTreeDepth < depth then fail .tooNested else pure ()

/-- Records a use of a variable, and refuses a second variable. -/
def useVariable (name : String) (span : Span) : Parse Unit := do
  match (← get).used? with
  | some first =>
    if first ≠ name then failAt span (.multipleVariables first name)
  | none => modify fun p => { p with used? := some name }

/-- Takes the closing token of a bracket, or blames the opening one. -/
def close (kind : TokenKind) (opening : Span) (error : SyntaxError) : Parse Unit := do
  if (← peek?) = some kind then advance else failAt opening error

/-- Reads a value that the whole rest of the source belongs to. -/
def complete (read : Parse α) : Parse α := do
  let value ← read
  match ← peek? with
  | none => return value
  | some .closeParen => fail (.unclosedParenthesis false)
  | some _ => fail .expectedEnd

end Parse

end AlgebraEngine
