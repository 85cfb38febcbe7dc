import AlgebraEngine.Eval.Evaluate
import AlgebraEngine.Expr.Outline
import AlgebraEngine.Parser.Grammar
import AlgebraEngine.Session.Command
import AlgebraEngine.Solve.Solve

/-!
Running lines of input. Each line is answered by itself with a text or with a problem and the places
in the line that the problem points at. A problem with the expression as a whole comes without a
place and is pointed at all of the line behind the command word.
-/
namespace AlgebraEngine

variable {ν : Type}

/-- Anything that can be wrong with an expression. -/
inductive Problem (ν : Type) where
  | notRead (error : SyntaxError)
  | notSimplified (error : TooDeep)
  | notSolved (error : SolveError)
  | notEvaluated (error : EvalError ν)

namespace Problem

/-- What is wrong. -/
def message : Problem ν → String
  | notRead error => error.message
  | notSimplified error => error.message
  | notSolved error => error.message
  | notEvaluated error => error.message

/-- What is wrong at the place that the problem points at. -/
def label [Numeral ν] : Problem ν → String
  | notRead error => error.label
  | notSimplified error => error.label
  | notSolved error => error.label
  | notEvaluated error => error.label

/-- Advice, for the problems that have some. -/
def help? : Problem ν → Option String
  | notRead error => error.help?
  | notSimplified error => some error.help
  | notSolved error => error.help?
  | notEvaluated error => error.help?

end Problem

/-- A problem and the places in a line that it points at. -/
structure Report (ν : Type) where
  problem : Problem ν
  spans : List Span

namespace Report

/-- A report that does not know a place. -/
def unspanned (problem : Problem ν) : Report ν := ⟨problem, []⟩

/-- Points a report without a place at a span. -/
def orSpan (r : Report ν) (span : Span) : Report ν :=
  match r.spans with
  | [] => { r with spans := [span] }
  | _ => r

theorem orSpan_unspanned (problem : Problem ν) (span : Span) :
    (unspanned problem).orSpan span = ⟨problem, [span]⟩ := rfl

/-- A report as text, one line each for the message, the place and the advice. A problem has one
label, so only the first place is labelled. -/
def text [Numeral ν] (r : Report ν) : String :=
  "error: " ++ r.problem.message
    ++ (match r.spans with
      | span :: _ =>
        "\n  at bytes " ++ Decimal.intText span.start ++ " to " ++ Decimal.intText span.stop ++ ": "
          ++ r.problem.label
      | [] => "")
    ++ match r.problem.help? with
      | some help => "\n  help: " ++ help
      | none => ""

end Report

variable [Analysis ν]

/-- The text of a solution, with the value of the right side on a second line if it is a scalar that
is not written as a plain number already. -/
def Solution.text (s : Solution ν) : String :=
  match s.value.number?, s.value.value Context.defaultPrecision with
  | none, .ok (.scalar x) => s.toExpr.text ++ "\n" ++ s.name ++ " ≈ " ++ Numeral.text x
  | _, _ => s.toExpr.text

/-- The answer to a command about an expression. -/
def Command.answer (command : Command) (e : Expr ν) : Except (Problem ν) String :=
  match command with
  | eval =>
    match e.value Context.defaultPrecision with
    | .ok value => .ok value.text
    | .error error => .error (.notEvaluated error)
  | simplify =>
    match e.simplify with
    | .ok s => .ok s.tree.text
    | .error error => .error (.notSimplified error)
  | solve =>
    match e.solve.outcome with
    | .ok solution => .ok solution.text
    | .error error => .error (.notSolved error)
  | tree => .ok e.outline.text

namespace CommandLine

/-- The answer to a line of a number of bytes. -/
def run (c : CommandLine) (bytes : Nat) : Except (Report ν) String :=
  match Expr.parse (ν := ν) c.source with
  | .error fault => .error ⟨.notRead fault.error, fault.spans.map (·.shift c.offset)⟩
  | .ok e =>
    match c.command.answer e with
    | .ok answer => .ok answer
    | .error problem => .error ((Report.unspanned problem).orSpan ⟨c.offset, bytes⟩)

end CommandLine

/-- The answer to a line. -/
def runLine (line : String) : Except (Report ν) String :=
  (CommandLine.ofLine line).run line.utf8ByteSize

namespace Lines

/-- A line without the carriage return in front of its line feed. The line is given from its end. -/
def withoutReturn : List Char → List Char
  | '\r' :: cs => cs
  | cs => cs

/-- The lines of a text. `current` is the part of a line in front of the text, from its end. A line
feed ends a line, also the last one. -/
def splitFrom : (current : List Char) → List Char → List (List Char)
  | [], [] => []
  | current, [] => [current.reverse]
  | current, '\n' :: rest => (withoutReturn current).reverse :: splitFrom [] rest
  | current, c :: rest => splitFrom (c :: current) rest

/-- The lines of an input that are not blank. -/
def ofInput (input : String) : List String :=
  ((splitFrom [] input.toList).filter (!isBlankText ·)).map String.ofList

end Lines

/-- The answers to the lines of an input. -/
def runInput (input : String) : List (Except (Report ν) String) :=
  (Lines.ofInput input).map runLine

end AlgebraEngine
