import AlgebraEngine.Proofs.Simplify.Depth
import AlgebraEngine.Proofs.Solve.Stages

/-! What is refused for its depth. Simplification refuses nothing but what is too deep when it
starts. Solving refuses an equation that is too deep, and the side that a variable has been isolated
on, which the moves may have deepened. -/
namespace AlgebraEngine

variable {ν : Type} [Arithmetic ν]

theorem Expr.simplifyWith_eq_error_iff {limit : Nat} {e : Expr ν} {tooDeep : TooDeep} :
    e.simplifyWith limit = .error tooDeep ↔ checkDepth e = .error tooDeep := by
  unfold simplifyWith simplifyBy
  cases checkDepth e <;> simp

namespace Equation

theorem moveRight_error {o : BinaryOp} {rhs other : Expr ν} {error : SolveError}
    (failed : moveRight o rhs other = .error error) (tooDeep : TooDeep) :
    error ≠ .tooDeep tooDeep := by
  cases o <;> cases failed
  simp

theorem moveLeft_error {o : BinaryOp} {other rhs : Expr ν} {error : SolveError}
    (failed : moveLeft o other rhs = .error error) (tooDeep : TooDeep) :
    error ≠ .tooDeep tooDeep := by
  cases o <;> cases failed <;> simp

/-- No move is refused for the depth of what it leaves. -/
theorem peel_not_tooDeep (lhs rhs : Expr ν) (tooDeep : TooDeep) :
    (peel lhs rhs).outcome ≠ .error (.tooDeep tooDeep) := by
  fun_induction peel lhs rhs with
  | case2 t o l r rhs left right =>
    simp only [Traced.after]
    split
    · simp [Traced.fail]
    · split
      · exact left _
      · rename_i error failed
        simpa [Traced.fail] using moveRight_error failed tooDeep
    · split
      · exact right _
      · rename_i error failed
        simpa [Traced.fail] using moveLeft_error failed tooDeep
  | _ => simp_all [Traced.after, Traced.fail]

theorem isolate_tooDeep_iff {lhs rhs : Expr ν} {tooDeep : TooDeep} :
    (isolate lhs rhs).outcome = .error (.tooDeep tooDeep) ↔
      checkDepth (.equal lhs rhs) = .error tooDeep := by
  unfold isolate
  split
  · rename_i deep refused
    simp [Traced.fail, refused]
  · rename_i accepted
    rw [accepted]
    dsimp only
    split <;> simp [Traced.fail, peel_not_tooDeep]

end Equation

theorem Expr.isolate_tooDeep_iff {e : Expr ν} {tooDeep : TooDeep} :
    e.isolate.outcome = .error (.tooDeep tooDeep) ↔
      e.isEquality = true ∧ checkDepth e = .error tooDeep := by
  cases e with
  | equality t side l r =>
    simp only [isolate, isEquality, true_and]
    exact Equation.isolate_tooDeep_iff
  | _ => simp [isolate, isEquality, Traced.fail]

/-- What an accepted tree is simplified to is isolated without being refused for its depth. -/
theorem Expr.isolate_simplified {e : Expr ν} {s : Simplification ν} (simplified : e.simplify = .ok s)
    (tooDeep : TooDeep) : s.tree.isolate.outcome ≠ .error (.tooDeep tooDeep) := by
  have accepted : checkDepth e = .ok () := by
    cases check : checkDepth e with
    | ok _ => rfl
    | error deep =>
      rw [simplify, simplifyWith_eq_error_iff.mpr check] at simplified
      cases simplified
  intro refused
  have deep := (isolate_tooDeep_iff.mp refused).2
  rw [simplify_eq_run simplified, Simplification.accepted_run _ accepted] at deep
  cases deep

namespace Traced

theorem simplified_tooDeep_iff {e : Expr ν} {tooDeep : TooDeep} :
    (simplified e).outcome = .error (.tooDeep tooDeep) ↔ checkDepth e = .error tooDeep := by
  have refused : e.simplify = .error tooDeep ↔ checkDepth e = .error tooDeep :=
    Expr.simplifyWith_eq_error_iff
  rw [← refused]
  unfold simplified
  cases e.simplify with
  | ok s => simp
  | error deep => simp [fail]

end Traced

/-- Solving refuses for its depth an equation that is too deep, and a solution that is too deep
before it is simplified. -/
theorem Expr.solve_tooDeep_iff {e : Expr ν} {tooDeep : TooDeep} :
    e.solve.outcome = .error (.tooDeep tooDeep) ↔ e.isEquality = true ∧
      (checkDepth e = .error tooDeep ∨ ∃ s solution, e.simplify = .ok s ∧
        s.tree.isolate.outcome = .ok solution ∧ checkDepth solution.value = .error tooDeep) := by
  unfold solve
  split
  · rename_i equality
    simp only [Traced.andThen_eq_error, Traced.simplified_tooDeep_iff, Traced.simplified_eq_ok,
      equality, true_and]
    constructor
    · rintro (deep | ⟨_, ⟨s, simplified, rfl⟩, deep | ⟨solution, isolated, deep | ⟨_, -, solved⟩⟩⟩)
      · exact .inl deep
      · exact absurd deep (isolate_simplified simplified tooDeep)
      · exact .inr ⟨s, solution, simplified, isolated, deep⟩
      · cases solved
    · rintro (deep | ⟨s, solution, simplified, isolated, deep⟩)
      · exact .inl deep
      · exact .inr ⟨s.tree, ⟨s, simplified, rfl⟩, .inr ⟨solution, isolated, .inl deep⟩⟩
  · rename_i other
    simp [Traced.fail, other]

end AlgebraEngine
