import AlgebraEngine.Proofs.Number.Exact
import AlgebraEngine.Proofs.Simplify.Depth

/-! A simplification that the limit ended can be taken up again where it stopped. The passes that
were left out are then made on the tree it returned, which is neither refused nor tagged
differently, so that nothing tells there was a break. -/
namespace AlgebraEngine

variable {ν : Type}

namespace Simplification

variable [BEq ν] (book : RuleBook ν)

/-- Passes add up: those of the second run go on from the tree that the first run left. If the first
run has settled, the second one sees a tree that no pass changes. -/
theorem run_add (n m : Nat) (e : Expr ν) :
    (run book (n + m) e).tree = (run book m (run book n e).tree).tree ∧
      (run book (n + m) e).steps =
        (run book n e).steps ++ (run book m (run book n e).tree).steps := by
  induction n generalizing e with
  | zero => simp [run, steps]
  | succ n ih =>
    rw [Nat.succ_add]
    cases pass : (Sweep.ofExpr book e.tagged).changed with
    | true =>
      obtain ⟨tree, later⟩ := ih (Sweep.ofExpr book e.tagged).result
      simp only [tree_run_succ_of_changed book _ pass, steps_run_succ_of_changed book _ pass, tree,
        later, List.append_assoc, and_self]
    | false =>
      have again : (Sweep.ofExpr book e.tagged.tagged).changed = false := by
        rw [Expr.fresh_tagged e, pass]
      simp only [run_succ_of_unchanged book _ pass]
      cases m with
      | zero => simp [run, steps]
      | succ m =>
        rw [run_succ_of_unchanged book m again, Expr.fresh_tagged e]
        simp [steps]

end Simplification

/-- Stopping after `n` passes and resuming for `m` more is never refused. It leads to the tree of a
single simplification with `n + m` passes, down to the caches, and the steps before and after the
break are the steps of that one. -/
theorem Expr.simplifyWith_resume [Arithmetic ν] (n m : Nat) (e : Expr ν)
    (accepted : checkDepth e = .ok ()) :
    ∃ first second whole, e.simplifyWith n = .ok first ∧
      first.tree.simplifyWith m = .ok second ∧ e.simplifyWith (n + m) = .ok whole ∧
      second.tree = whole.tree ∧ first.steps ++ second.steps = whole.steps := by
  have shallow := checkDepth_eq_ok_iff.mp accepted
  have resumable := checkDepth_eq_ok_iff.mp (Simplification.accepted_run n accepted)
  obtain ⟨tree, steps⟩ := Simplification.run_add Rule.forNode n m e
  exact ⟨_, _, _, simplifyWith_eq n shallow, simplifyWith_eq m resumable,
    simplifyWith_eq (n + m) shallow, tree.symm, steps.symm⟩

/-- `2x - 2x` after one pass is `(2 - 2)x`, which two more passes bring to zero. -/
theorem Expr.simplifyWith_resume_difference :
    ∃ first second whole : Simplification Exact,
      (Expr.op .sub (.op .mul (.number (.rational 2)) (.var "x"))
        (.op .mul (.number (.rational 2)) (.var "x")) : Expr Exact).simplifyWith 1 = .ok first ∧
      first.tree.simplifyWith 2 = .ok second ∧ second.tree = whole.tree ∧
      whole.tree.number? = some (.rational 0) ∧ first.steps = [.combineLikeTerms] ∧
      first.steps ++ second.steps = whole.steps ∧
      whole.steps = [.combineLikeTerms, .foldConstants, .multiplyByZero] := by
  obtain ⟨first, second, whole, once, more, all, tree, steps⟩ := simplifyWith_resume 1 2
    (Expr.op .sub (.op .mul (.number (.rational 2)) (.var "x"))
      (.op .mul (.number (.rational 2)) (.var "x")) : Expr Exact) rfl
  obtain rfl := simplifyWith_eq_run once
  obtain rfl := simplifyWith_eq_run all
  exact ⟨_, second, _, once, more, tree, by decide +kernel, by decide +kernel, steps,
    by decide +kernel⟩

end AlgebraEngine
