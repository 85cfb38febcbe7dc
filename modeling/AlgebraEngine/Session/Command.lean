import AlgebraEngine.Session.Whitespace
import AlgebraEngine.Token.Lexer

/-!
The command word of a line. A line starts with what to do with the expression behind it; without a
command word the whole line is an expression to evaluate.
-/
namespace AlgebraEngine

/-- What to do with an expression. -/
inductive Command where
  | eval
  | simplify
  | solve
  /-- Print the outline of the expression. -/
  | tree
  deriving DecidableEq, Repr

/-- A line taken apart into its command, the bytes in front of the expression and the expression. -/
structure CommandLine where
  command : Command
  offset : Nat
  source : String
  deriving DecidableEq, Repr

namespace Command

/-- The command that a word names. -/
def ofWord? (word : List Char) : Option Command :=
  if word = ['s', 'i', 'm', 'p', 'l', 'i', 'f', 'y'] then some simplify
  else if word = ['s', 'o', 'l', 'v', 'e'] then some solve
  else if word = ['t', 'r', 'e', 'e'] then some tree
  else none

end Command

namespace CommandLine

/-- Splits the command word off a line. The word ends at the next white space. -/
def ofLine (line : String) : CommandLine :=
  let cs := line.toList
  let blanks := cs.takeWhile isWhitespace
  let rest := cs.drop blanks.length
  let word := rest.takeWhile fun c => !isWhitespace c
  match Command.ofWord? word with
  | some command =>
    ⟨command, byteLength blanks + byteLength word, String.ofList (rest.drop word.length)⟩
  | none => ⟨.eval, 0, line⟩

end CommandLine

end AlgebraEngine
