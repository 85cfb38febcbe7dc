import AlgebraEngine.Proofs.Expr.Measures
import AlgebraEngine.Proofs.Number.Exact
import AlgebraEngine.Solve.Solve

/-! What a tree has cached before it is simplified or solved has no influence on what comes out. The
simplifier tags the tree in front of every pass, and isolating tags both sides before it reads a
tag, so two trees that differ only in their caches are one and the same from there on. -/
namespace AlgebraEngine

variable {ν : Type}

open AlgebraEngine.Expr (tagged_congr depth_congr)

theorem checkDepth_congr {e f : Expr ν} (same : e.untagged = f.untagged) :
    checkDepth e = checkDepth f := by
  simp only [checkDepth, depth_congr same]

/-- A run that makes a pass starts by forgetting every cache. -/
theorem Simplification.run_congr_untagged [BEq ν] (book : RuleBook ν) {limit : Nat} {e f : Expr ν}
    (positive : 1 ≤ limit) (same : e.untagged = f.untagged) :
    run book limit e = run book limit f := by
  obtain ⟨limit, rfl⟩ := Nat.exists_eq_add_of_le' positive
  simp only [run, tagged_congr same]

variable [Arithmetic ν] {e f : Expr ν}

theorem Expr.simplifyBy_congr (book : RuleBook ν) {limit : Nat} (positive : 1 ≤ limit)
    (same : e.untagged = f.untagged) : e.simplifyBy book limit = f.simplifyBy book limit := by
  simp only [simplifyBy, checkDepth_congr same,
    Simplification.run_congr_untagged book positive same]

theorem Traced.simplified_congr (same : e.untagged = f.untagged) :
    simplified e = simplified f := by
  have simplify : e.simplify = f.simplify := Expr.simplifyBy_congr _ (by decide) same
  simp only [simplified, simplify]

theorem Equation.isolate_congr {l l' r r' : Expr ν} (left : l.untagged = l'.untagged)
    (right : r.untagged = r'.untagged) : isolate l r = isolate l' r' := by
  have depth : checkDepth (.equal l r) = checkDepth (.equal l' r') :=
    checkDepth_congr (congrArg₂ Expr.equal left right)
  simp only [isolate, depth, tagged_congr left, tagged_congr right]

omit [Arithmetic ν] in
theorem Expr.isEquality_untagged (e : Expr ν) : e.untagged.isEquality = e.isEquality := by
  cases e <;> rfl

/-- Isolating looks below the root of an equation only after it has tagged both sides. -/
theorem Expr.isolate_untagged (e : Expr ν) : e.untagged.isolate = e.isolate := by
  cases e with
  | equality t side l r =>
    exact Equation.isolate_congr (untagged_untagged l) (untagged_untagged r)
  | number value | atom a | binary t o l r | unary t o u | call t f us => rfl

/-- Old caches cannot influence an outcome. Two trees that differ only in what they cache lead to
the same error or to the same result with the same caches, whether they are simplified with at
least one pass, isolated or solved, and to the same passes and log on the way. -/
theorem Expr.outcome_ignores_caches (same : e.untagged = f.untagged) :
    (∀ limit, 1 ≤ limit → e.simplifyWith limit = f.simplifyWith limit) ∧
      e.isolate = f.isolate ∧ e.solve = f.solve := by
  refine ⟨fun limit positive => simplifyBy_congr _ positive same, ?_, ?_⟩
  · rw [← isolate_untagged e, same, isolate_untagged]
  · have kind : e.isEquality = f.isEquality := by
      rw [← isEquality_untagged e, same, isEquality_untagged]
    simp only [solve, kind, Traced.simplified_congr same]

/-- `2x + 3x = 10` in a tree whose caches are all wrong: its nodes claim to hold Euler's number and no
variable, and the equality claims to have the variable on its right side. -/
def Expr.staleEquation : Expr Exact :=
  .equality ⟨false, true, false⟩ .right
    (.binary ⟨false, true, false⟩ .add
      (.binary ⟨false, true, false⟩ .mul (.number (.rational 2)) (.var "x"))
      (.binary ⟨false, true, false⟩ .mul (.number (.rational 3)) (.var "x")))
    (.number (.rational 10))

/-- The terms are combined and the equation is solved by `2`, as if the caches were right. -/
theorem Expr.outcome_ignores_caches_equation :
    staleEquation.simplifyWith 1 = staleEquation.tagged.simplifyWith 1 ∧
      staleEquation.isolate = staleEquation.tagged.isolate ∧
      staleEquation.solve.outcome = .ok ⟨"x", .number (.rational 2)⟩ := by
  obtain ⟨simplify, isolate, solve⟩ := outcome_ignores_caches (untagged_tagged staleEquation).symm
  refine ⟨simplify 1 (by decide), isolate, ?_⟩
  rw [solve]
  with_unfolding_all rfl

end AlgebraEngine
