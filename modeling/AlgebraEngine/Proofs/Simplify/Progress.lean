import AlgebraEngine.Proofs.Simplify.Passes
import AlgebraEngine.Proofs.Simplify.Termination

/-! Simplification of exact numbers notices whether it gets anywhere. Every step makes the tree weigh
less, so no number of steps can lead back to where they started, within a pass or over several. A
pass therefore reports a change exactly if it leaves another tree. -/
namespace AlgebraEngine

variable {e e' before : Expr Exact} {steps : List Step} {pass : Sweep Exact (Expr Exact)}

theorem Derivation.eq_of_nil {book : RuleBook Exact} (derived : Derivation book [] e e') :
    e = e' := by
  cases derived
  rfl

/-- Steps never cancel out. -/
theorem derivation_stays_iff
    (derived : Derivation Rule.forNode steps e.untagged e'.untagged) :
    (e' == e) = true ↔ steps = [] := by
  rw [Expr.beq_iff_untagged]
  constructor
  · intro same
    have weight := derivation_weight derived
    rw [same] at weight
    exact List.length_eq_zero_iff.mp (by omega)
  · rintro rfl
    exact derived.eq_of_nil.symm

/-- What a pass reports about a tree is what it did to it. -/
theorem Sweep.Sound.changed_iff (sound : Sweep.Sound Rule.forNode before.tagged pass) :
    (pass.changed = true ↔ pass.rewrites ≠ []) ∧
      (pass.changed = true ↔ (pass.result == before) = false) := by
  have reports : pass.changed = true ↔ pass.rewrites ≠ [] := by
    refine ⟨sound.changed, fun made => ?_⟩
    by_contra still
    exact made (sound.unchanged (eq_false_of_ne_true still)).2
  have stays := derivation_stays_iff sound.derived_of_tagged
  rw [List.map_eq_nil_iff] at stays
  refine ⟨reports, reports.trans ?_⟩
  rw [ne_eq, ← stays, Bool.not_eq_true]

/-- Changes are reported exactly. A pass over a tree, and over each node of it on the way, reports a
change if and only if it made a rewrite, and if and only if it leaves another tree. So does every
pass of a simplification, whatever the passes before it did, and the whole simplification returns
the tree that it was given if and only if it recorded no step. -/
theorem Expr.simplifyWith_reports :
    (∀ e : Expr Exact,
      ((Sweep.ofExpr Rule.forNode e.tagged).changed = true ↔
        (Sweep.ofExpr Rule.forNode e.tagged).rewrites ≠ []) ∧
      ((Sweep.ofExpr Rule.forNode e.tagged).changed = true ↔
        ((Sweep.ofExpr Rule.forNode e.tagged).result == e) = false)) ∧
    ∀ (limit : Nat) (e : Expr Exact), checkDepth e = .ok () →
      ∃ s, e.simplifyWith limit = .ok s ∧
        (∀ before pass, (before, pass) ∈ s.passesFrom e →
          (pass.changed = true ↔ pass.rewrites ≠ []) ∧
          (pass.changed = true ↔ (pass.result == before) = false)) ∧
        ((s.tree == e) = true ↔ s.steps = []) := by
  constructor
  · intro e
    exact (Sweep.ofExpr_sound e.tagged (fresh_tagged e)).changed_iff
  · intro limit e accepted
    refine ⟨_, simplifyWith_eq limit (checkDepth_eq_ok_iff.mp accepted), ?_, ?_⟩
    · intro before pass made
      exact (Simplification.sound_of_mem_passesFrom made).changed_iff
    · exact derivation_stays_iff (Simplification.run_derived Rule.forNode limit e)

/-- `2x - 2x` changes in two passes, although it is folded to a single number, and a third pass
finds nothing left to do. -/
theorem Expr.simplifyWith_reports_difference :
    ∃ (e : Expr Exact) (s : Simplification Exact), e = .op .sub
        (.op .mul (.number (.rational 2)) (.var "x"))
        (.op .mul (.number (.rational 2)) (.var "x")) ∧
      e.simplifyWith 64 = .ok s ∧
      s.passes.map Sweep.changed = [true, true, false] ∧
      (∀ before pass, (before, pass) ∈ s.passesFrom e →
        (pass.changed = true ↔ (pass.result == before) = false)) ∧
      s.steps = [.combineLikeTerms, .foldConstants, .multiplyByZero] ∧ (s.tree == e) = false := by
  let e : Expr Exact := .op .sub (.op .mul (.number (.rational 2)) (.var "x"))
    (.op .mul (.number (.rational 2)) (.var "x"))
  obtain ⟨s, simplified, passes, stays⟩ := simplifyWith_reports.2 64 e rfl
  obtain rfl := simplifyWith_eq_run simplified
  have steps : (Simplification.run Rule.forNode 64 e).steps =
      [.combineLikeTerms, .foldConstants, .multiplyByZero] := by decide +kernel
  refine ⟨e, _, rfl, simplified, by decide +kernel,
    fun before pass made => (passes before pass made).2, steps, ?_⟩
  rw [← Bool.not_eq_true, stays, steps]
  simp

end AlgebraEngine
