import AlgebraEngine.Token.Basic

/-!
Why a source is not an expression. Each cause has a message, a label for the place it points at and,
for most causes, advice.
-/
namespace AlgebraEngine

namespace EditDistance

/-- The rest of the next row of the distance table, right of an entry: the distances of one more
character of the first word to ever longer beginnings of the second. -/
def rowAfter (c : Char) : (left : Nat) → List Char → (row : List Nat) → List Nat
  | left, d :: ds, diagonal :: above :: row =>
    let here := min (min (left + 1) (above + 1)) (diagonal + if c = d then 0 else 1)
    here :: rowAfter c here ds (above :: row)
  | _, _, _ => []

/-- The next row of the distance table. -/
def nextRow (word : List Char) (row : List Nat) (c : Char) : List Nat :=
  let first := row.head?.getD 0 + 1
  first :: rowAfter c first word row

end EditDistance

/-- The least number of insertions, deletions and replacements that turn one word into another. -/
def editDistance (a b : List Char) : Nat :=
  let row := a.foldl (EditDistance.nextRow b) (List.range (b.length + 1))
  row.getLast?.getD 0

/-- Why a source could not be read. -/
inductive SyntaxError where
  /-- The source ends where an expression has to go on. -/
  | unexpectedEnd
  /-- An expression is followed by something else. -/
  | expectedEnd
  /-- A token of another kind than those that could stand there. -/
  | unexpectedToken (expected : List TokenKind) (found : TokenKind)
  /-- A parenthesis without a partner, an opening one or a closing one. -/
  | unclosedParenthesis (opening : Bool)
  /-- A pair of parentheses around nothing. -/
  | emptyParenthesis
  /-- A vector that does not end. -/
  | unclosedBracket
  /-- A vector without components. -/
  | emptyVector
  /-- A backslash name that is not known. -/
  | unknownFunction (name : String)
  /-- A second variable. -/
  | multipleVariables (first second : String)
  /-- Too many levels, of nesting or of the tree. -/
  | tooNested
  deriving DecidableEq, Repr

namespace SyntaxError

/-- The names that can be written with a backslash. -/
def knownNames : List String := ["sqrt", "abs", "sin", "cos", "tan", "ln", "pi"]

/-- The known names within two edits of a name. -/
def suggestions (name : String) : List String :=
  knownNames.filter fun known => editDistance known.toList name.toList ≤ 2

/-- What is wrong. -/
def message : SyntaxError → String
  | unexpectedEnd => "unexpected end of input"
  | expectedEnd => "expected end of input"
  | unexpectedToken .. => "unexpected token"
  | unclosedParenthesis _ => "unclosed parenthesis"
  | emptyParenthesis => "missing expression inside parenthesis"
  | unclosedBracket => "unclosed vector"
  | emptyVector => "empty vector"
  | unknownFunction name => "unknown function or constant `" ++ name ++ "`"
  | multipleVariables .. => "only one variable is allowed per expression"
  | tooNested => "maximum nesting depth reached"

/-- What is wrong at the place that the error points at. -/
def label : SyntaxError → String
  | unexpectedEnd => "you might need to add another expression here"
  | expectedEnd => "I could not understand the remaining expression here"
  | unexpectedToken expected _ =>
    "expected one of: " ++ ", ".intercalate (expected.map TokenKind.name)
  | unclosedParenthesis _ => "this parenthesis is not closed"
  | emptyParenthesis => "add an expression here"
  | unclosedBracket => "this bracket is not closed"
  | emptyVector => "this vector has no components"
  | unknownFunction _ => "this name"
  | multipleVariables first second =>
    "`" ++ second ++ "` appears here, but `" ++ first ++ "` was already used"
  | tooNested => "this expression is nested too deeply"

/-- Advice, for the causes that have some. -/
def help? : SyntaxError → Option String
  | unexpectedEnd => none
  | expectedEnd => none
  | unexpectedToken _ found => some ("found " ++ found.name)
  | unclosedParenthesis true => some "add a closing parenthesis `)` somewhere after this"
  | unclosedParenthesis false => some "add an opening parenthesis `(` somewhere before this"
  | emptyParenthesis => none
  | unclosedBracket => some "add a closing bracket `]` after the last component"
  | emptyVector => some "write at least one component, as in [1, 2]"
  | unknownFunction name =>
    match suggestions name with
    | [] => some ("the known names are: " ++ ", ".intercalate knownNames)
    | names => some ("did you mean: " ++ ", ".intercalate names)
  | multipleVariables first _ => some ("rewrite the expression using only `" ++ first ++ "`")
  | tooNested => some "try splitting the expression into smaller pieces"

end SyntaxError

/-- A cause and the places in the source that it points at. -/
structure SyntaxFault where
  error : SyntaxError
  spans : List Span
  deriving DecidableEq, Repr

end AlgebraEngine
