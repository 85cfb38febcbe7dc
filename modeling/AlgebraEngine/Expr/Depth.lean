import AlgebraEngine.Expr.Basic

/-!
The depth of a tree, that is the number of nodes on its longest path from the root to a leaf. It is
measured with a list of subtrees still to visit, each with the depth of its root, so the measure
itself never goes deep. Trees deeper than `maxDepth` are refused before they are walked.
-/
namespace AlgebraEngine

variable {ν : Type}

namespace Expr

mutual

/-- The number of nodes of a tree. -/
def size : Expr ν → Nat
  | number _ => 1
  | atom _ => 1
  | binary _ _ l r => l.size + r.size + 1
  | unary _ _ u => u.size + 1
  | call _ _ us => sizeOfList us + 1
  | equality _ _ l r => l.size + r.size + 1

/-- The number of nodes of a list of arguments. -/
def sizeOfList : List (Expr ν) → Nat
  | [] => 0
  | u :: us => u.size + sizeOfList us

end

/-- The operands of a node, left to right. -/
def children : Expr ν → List (Expr ν)
  | number _ => []
  | atom _ => []
  | binary _ _ l r => [l, r]
  | unary _ _ u => [u]
  | call _ _ us => us
  | equality _ _ l r => [l, r]

/-- The greatest depth among the nodes that a list of pending subtrees leads to, each pending with
the depth of its root, visiting at most `visits` nodes. -/
def deepest : (visits : Nat) → List (Expr ν × Nat) → (found : Nat) → Nat
  | 0, _, found => found
  | _ + 1, [], found => found
  | visits + 1, (e, depth) :: pending, found =>
    deepest visits (e.children.map (·, depth + 1) ++ pending) (max found depth)

/-- The number of nodes on the longest path from the root to a leaf, counting both ends. -/
def depth (e : Expr ν) : Nat := deepest e.size [(e, 1)] 0

end Expr

/-- The depth of the deepest tree that is processed. -/
def maxDepth : Nat := 1024

/-- A tree is too deep to be processed. -/
structure TooDeep where
  depth : Nat
  deriving DecidableEq, Repr

namespace TooDeep

/-- What is wrong. -/
def message (_ : TooDeep) : String := "maximum recursion depth exceeded"

/-- How deep the tree is. -/
def label (e : TooDeep) : String :=
  "this expression is " ++ Decimal.intText e.depth ++ " levels deep"

/-- How deep a tree may be. -/
def help (_ : TooDeep) : String := "the maximum depth is " ++ Decimal.intText maxDepth

end TooDeep

/-- Refuses a tree that is too deep to be walked. -/
def checkDepth (e : Expr ν) : Except TooDeep Unit :=
  if maxDepth < e.depth then .error ⟨e.depth⟩ else .ok ()

theorem checkDepth_eq_ok_iff {e : Expr ν} : checkDepth e = .ok () ↔ e.depth ≤ maxDepth := by
  unfold checkDepth
  split
  · rename_i deep
    simp [Nat.not_le.mpr deep]
  · rename_i shallow
    simp [Nat.not_lt.mp shallow]

theorem checkDepth_eq_error_iff {e : Expr ν} {tooDeep : TooDeep} :
    checkDepth e = .error tooDeep ↔ maxDepth < e.depth ∧ tooDeep = ⟨e.depth⟩ := by
  unfold checkDepth
  split
  · rename_i deep
    simp [deep, eq_comm]
  · rename_i shallow
    simp [shallow]

end AlgebraEngine
