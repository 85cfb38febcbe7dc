import AlgebraEngine.Expr.Text
import AlgebraEngine.Simplify.Simplification

/-!
The log of simplifying and solving. Events hold the expressions they are about; only their text
needs the numbers to be printed.
-/
namespace AlgebraEngine

variable {ν : Type}

/-- How much an event matters. -/
inductive Level where
  | trace
  | debug
  | warn
  deriving DecidableEq, Repr

namespace Level

/-- The name of a level in a log. -/
def name : Level → String
  | trace => "TRACE"
  | debug => "DEBUG"
  | warn => "WARN"

end Level

/-- Something worth noting while an expression is simplified or solved. -/
inductive Event (ν : Type) where
  /-- A node was rewritten. -/
  | rewrote (rewrite : Rewrite ν)
  /-- A pass ended. Passes are counted from one. -/
  | passed (pass : Nat) (changed : Bool) (result : Expr ν)
  /-- The limit ended a simplification before a pass changed nothing. -/
  | gaveUp (limit : Nat) (result : Expr ν)
  /-- The sides of an equation before an operation is peeled off. -/
  | isolating (lhs rhs : Expr ν)

namespace Event

/-- How much an event matters. Only giving up is a warning. -/
def level : Event ν → Level
  | rewrote _ => .trace
  | passed .. => .debug
  | gaveUp .. => .warn
  | isolating .. => .debug

/-- The message of an event, without its level. -/
def message [Numeral ν] : Event ν → String
  | rewrote r => r.step.about ++ ": `" ++ r.before.text ++ "` => `" ++ r.after.text ++ "`"
  | passed pass changed result =>
    "simplify pass " ++ Decimal.intText pass ++ ": changed = "
      ++ (if changed then "true" else "false") ++ ", result = " ++ result.text
  | gaveUp limit result =>
    "simplification did not reach a fixed point after " ++ Decimal.intText limit
      ++ " passes; returning `" ++ result.text ++ "`"
  | isolating lhs rhs => "isolate: " ++ lhs.text ++ " = " ++ rhs.text

/-- The line of an event in a log. -/
def line [Numeral ν] (event : Event ν) : String := event.level.name ++ " " ++ event.message

end Event

namespace Simplification

/-- The events of one pass. -/
def passEvents (pass : Sweep ν (Expr ν)) (number : Nat) : List (Event ν) :=
  pass.rewrites.map .rewrote ++ [.passed number pass.changed pass.result]

/-- The events of a simplification, in order. -/
def events (s : Simplification ν) : List (Event ν) :=
  (s.passes.zipIdx 1).flatMap (fun (pass, number) => passEvents pass number)
    ++ if s.settled then [] else [.gaveUp s.passes.length s.tree]

end Simplification

end AlgebraEngine
