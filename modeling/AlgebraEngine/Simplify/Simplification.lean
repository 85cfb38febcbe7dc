import AlgebraEngine.Expr.Depth
import AlgebraEngine.Simplify.Sweep

/-!
Simplification, that is passes over a tree until one changes nothing or the limit is reached. The
tree is tagged before each pass. What a simplification did is kept pass by pass, so that its steps
and its log are read off the record.
-/
namespace AlgebraEngine

variable {ν : Type}

/-- A simplified tree and how it came about. -/
structure Simplification (ν : Type) where
  tree : Expr ν
  /-- The passes, in order. -/
  passes : List (Sweep ν (Expr ν))
  /-- Whether the last pass changed nothing. Otherwise the limit ended the simplification. -/
  settled : Bool

namespace Simplification

/-- The steps of all passes, in order. -/
def steps (s : Simplification ν) : List Step :=
  s.passes.flatMap fun pass => pass.rewrites.map Rewrite.step

/-- Sweeps a tree until a pass changes nothing, at most `limit` times. -/
def run [BEq ν] (book : RuleBook ν) : (limit : Nat) → Expr ν → Simplification ν
  | 0, e => ⟨e, [], false⟩
  | limit + 1, e =>
    let pass := Sweep.ofExpr book e.tagged
    if pass.changed then
      let rest := run book limit pass.result
      { rest with passes := pass :: rest.passes }
    else ⟨pass.result, [pass], true⟩

end Simplification

namespace Expr

variable [Arithmetic ν]

/-- The number of passes unless another limit is given. -/
def defaultPasses : Nat := 64

/-- Simplifies an expression with at most `limit` passes by the rules of a book. -/
def simplifyBy (book : RuleBook ν) (limit : Nat) (e : Expr ν) :
    Except TooDeep (Simplification ν) :=
  match checkDepth e with
  | .ok () => .ok (.run book limit e)
  | .error tooDeep => .error tooDeep

/-- Simplifies an expression with at most `limit` passes. -/
def simplifyWith (limit : Nat) (e : Expr ν) : Except TooDeep (Simplification ν) :=
  e.simplifyBy Rule.forNode limit

/-- Simplifies an expression. -/
def simplify (e : Expr ν) : Except TooDeep (Simplification ν) := e.simplifyWith defaultPasses

end Expr

end AlgebraEngine
