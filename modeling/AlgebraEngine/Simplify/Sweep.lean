import AlgebraEngine.Simplify.Rules

/-!
One pass over a tree. Operands are swept before the node above them, left to right, and a node is
rewritten at most once per pass. A pass starts on a tagged tree and keeps the tags fresh: a node is
retagged when an operand changed, and the result of a rewrite is tagged throughout.
-/
namespace AlgebraEngine

variable {ν : Type}

/-- A node that a rule has changed. -/
structure Rewrite (ν : Type) where
  step : Step
  before : Expr ν
  after : Expr ν

/-- What a pass makes of something. -/
structure Sweep (ν α : Type) where
  result : α
  /-- Whether anything changed. -/
  changed : Bool
  /-- The rewrites, in the order in which they were made. -/
  rewrites : List (Rewrite ν)

namespace Sweep

variable [BEq ν] (book : RuleBook ν)

/-- Ends the sweep of a node whose operands have been swept: the first rule that applies rewrites
the node, unless the result is equal to it. -/
def finish (s : Sweep ν (Expr ν)) : Sweep ν (Expr ν) :=
  match book.first? s.result with
  | none => s
  | some (step, after) =>
    if after == s.result then s
    else ⟨after.tagged, true, s.rewrites ++ [⟨step, s.result, after⟩]⟩

mutual

/-- One pass over a tree. -/
def ofExpr : Expr ν → Sweep ν (Expr ν)
  | .number value => finish book ⟨.number value, false, []⟩
  | .atom a => finish book ⟨.atom a, false, []⟩
  | .binary t o l r =>
    let l' := ofExpr l
    let r' := ofExpr r
    let changed := l'.changed || r'.changed
    let node := .binary t o l'.result r'.result
    finish book ⟨if changed then node.retag else node, changed, l'.rewrites ++ r'.rewrites⟩
  | .unary t o u =>
    let u' := ofExpr u
    let node := .unary t o u'.result
    finish book ⟨if u'.changed then node.retag else node, u'.changed, u'.rewrites⟩
  | .call t f us =>
    let us' := ofList us
    let node := .call t f us'.result
    finish book ⟨if us'.changed then node.retag else node, us'.changed, us'.rewrites⟩
  | .equality t side l r =>
    let l' := ofExpr l
    let r' := ofExpr r
    let changed := l'.changed || r'.changed
    let node := .equality t side l'.result r'.result
    finish book ⟨if changed then node.retag else node, changed, l'.rewrites ++ r'.rewrites⟩

/-- One pass over each of a list of arguments, in order. -/
def ofList : List (Expr ν) → Sweep ν (List (Expr ν))
  | [] => ⟨[], false, []⟩
  | u :: us =>
    let u' := ofExpr u
    let us' := ofList us
    ⟨u'.result :: us'.result, u'.changed || us'.changed, u'.rewrites ++ us'.rewrites⟩

end

end Sweep

end AlgebraEngine
