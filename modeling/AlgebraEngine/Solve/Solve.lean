import AlgebraEngine.Solve.Isolate

/-!
Solving an equation: it is simplified, its variable is isolated, and the side that the variable
equals is simplified again.
-/
namespace AlgebraEngine

variable {ν : Type} [Arithmetic ν]

namespace Traced

/-- A simplification with its events. -/
def simplified (e : Expr ν) : Traced ν (Expr ν) :=
  match e.simplify with
  | .ok s => ⟨s.events, .ok s.tree⟩
  | .error error => .fail (.tooDeep error)

end Traced

namespace Expr

/-- Isolates the variable of an equation. -/
def isolate : Expr ν → Traced ν (Solution ν)
  | equality _ _ lhs rhs => Equation.isolate lhs rhs
  | _ => .fail .notAnEquation

/-- Solves an equation for its variable. -/
def solve (e : Expr ν) : Traced ν (Solution ν) :=
  if e.isEquality then
    (Traced.simplified e).andThen fun e =>
      e.isolate.andThen fun solution =>
        (Traced.simplified solution.value).andThen fun value =>
          ⟨[], .ok { solution with value }⟩
  else .fail .notAnEquation

end Expr

end AlgebraEngine
