import AlgebraEngine.Number.Machine
import AlgebraEngine.Proofs.Simplify.Freshness
import AlgebraEngine.Proofs.Simplify.NormalForm
import AlgebraEngine.Proofs.Simplify.Resumption

/-! Simplifying twice is simplifying once, provided that the first time reached a normal form. The
limit on passes can end it before that: a minus sign in front of a sum moves by one term in each
pass, so that no limit is enough for every sum. -/
namespace AlgebraEngine

variable {ν : Type}

namespace Expr

/-- The sum of `n + 1` variables, grouped from the left. -/
def sumOfVariables : Nat → Expr ν
  | 0 => .var "x"
  | n + 1 => .op .add (sumOfVariables n) (.var "x")

/-- The negated sum of `n + 1` variables, with `k` more of them subtracted from it. -/
def negatedSum : (k n : Nat) → Expr ν
  | 0, n => .sign .minus (sumOfVariables n)
  | k + 1, n => .op .sub (negatedSum k n) (.var "x")

theorem depth_negatedSum (n : Nat) : (negatedSum 0 n : Expr ν).depth = n + 2 := by
  have sum : (sumOfVariables n : Expr ν).height = n + 1 := by
    induction n with
    | zero => rfl
    | succ n ih => simp [sumOfVariables, op, var, height, ih]
  rw [depth_eq_height, negatedSum, sign, height, sum]

variable [Arithmetic ν]

/-- No rule looks at a sum or difference whose right operand is a bare atom. -/
theorem keeps_beside_atom {t : Tags} {o : BinaryOp} (sum : o = .add ∨ o = .sub) (l : Expr ν)
    (a : Atom) : RuleBook.Keeps Rule.forNode (.binary t o l (.atom a)) := by
  intro step after first
  rcases sum with rfl | rfl <;>
    simp [RuleBook.first?, Rule.forNode, Rule.sumRules, Rule.foldSum, Rule.addFractions,
      Rule.keepApart, Rule.combineLikeTerms, tagged, retag, number?, fraction?, term?] at first

theorem atom_normal (a : Atom) : (atom a : Expr ν).Normal Rule.forNode := by
  refine normal_iff.mpr ⟨?_, by simp [children]⟩
  intro step after first
  cases first

theorem sumOfVariables_normal (n : Nat) : (sumOfVariables n : Expr ν).Normal Rule.forNode := by
  induction n with
  | zero => exact atom_normal _
  | succ n ih =>
    refine normal_iff.mpr ⟨keeps_beside_atom (.inl rfl) _ _, ?_⟩
    simpa [sumOfVariables] using ⟨ih, atom_normal _⟩

/-- A minus sign in front of a single variable has nowhere to go. -/
theorem negatedSum_normal (k : Nat) : (negatedSum k 0 : Expr ν).Normal Rule.forNode := by
  induction k with
  | zero =>
    refine normal_iff.mpr ⟨?_, by simpa [negatedSum] using sumOfVariables_normal 0⟩
    intro step after first
    cases first
  | succ k ih =>
    refine normal_iff.mpr ⟨keeps_beside_atom (.inr rfl) _ _, ?_⟩
    simpa [negatedSum] using ⟨ih, atom_normal _⟩

theorem negatedSum_beq (k : Nat) : (negatedSum (k + 1) 0 == (negatedSum k 1 : Expr ν)) = false := by
  induction k with
  | zero => rfl
  | succ k ih =>
    show (op .sub (negatedSum (k + 1) 0) (.var "x") == op .sub (negatedSum k 1) (.var "x")) = false
    rw [op_beq_op, ih, Bool.and_false, Bool.false_and]

end Expr

open AlgebraEngine.Expr (negatedSum sumOfVariables)

variable [Arithmetic ν]

/-- A pass moves the minus sign by one term. -/
theorem Sweep.ofExpr_negatedSum (k n : Nat) :
    (ofExpr Rule.forNode (negatedSum k (n + 1) : Expr ν).tagged).changed = true ∧
      (ofExpr Rule.forNode (negatedSum k (n + 1) : Expr ν).tagged).result =
        (negatedSum (k + 1) n).tagged := by
  induction k with
  | zero =>
    have inner := ofExpr_of_normal (Expr.sumOfVariables_normal (ν := ν) (n + 1))
    have swept : assembled Rule.forNode (negatedSum 0 (n + 1) : Expr ν).tagged =
        ⟨(negatedSum 0 (n + 1)).tagged, false, []⟩ := by
      simp only [negatedSum, Expr.sign, Expr.tagged, Expr.retag, assembled, inner,
        Bool.false_eq_true, ↓reduceIte]
    have first : RuleBook.first? Rule.forNode (negatedSum 0 (n + 1) : Expr ν).tagged =
        some (.distributeNegation,
          .op .sub (.sign .minus (sumOfVariables n).tagged) (.var "x")) := rfl
    rw [ofExpr_eq, swept, finish_of_differs first rfl]
    refine ⟨rfl, (Expr.fresh_tagged _).eq_tagged ?_⟩
    simp [negatedSum, Expr.op, Expr.sign, Expr.untagged]
  | succ k ih =>
    obtain ⟨changed, result⟩ := ih
    have moved : (assembled Rule.forNode (negatedSum (k + 1) (n + 1) : Expr ν).tagged).changed =
          true ∧
        (assembled Rule.forNode (negatedSum (k + 1) (n + 1) : Expr ν).tagged).result =
          (negatedSum (k + 2) n).tagged := by
      simp only [negatedSum, Expr.op, Expr.tagged, Expr.retag, assembled, changed, result,
        Bool.true_or, ↓reduceIte, true_and]
      rfl
    have keeps : RuleBook.Keeps Rule.forNode (negatedSum (k + 2) n : Expr ν).tagged :=
      Expr.keeps_beside_atom (.inr rfl) _ _
    rw [← moved.2] at keeps
    rw [ofExpr_eq, finish_of_keeps (moved.2 ▸ Expr.fresh_tagged _) keeps]
    exact moved

namespace Simplification

/-- A run moves the minus sign by as many terms as it makes passes. -/
theorem run_negatedSum (limit k n : Nat) {e : Expr ν}
    (alike : e.tagged = (negatedSum k (n + limit)).tagged) :
    (run Rule.forNode limit e).tree.tagged = (negatedSum (k + limit) n).tagged := by
  induction limit generalizing e k with
  | zero => exact alike
  | succ limit ih =>
    obtain ⟨changed, result⟩ := Sweep.ofExpr_negatedSum (ν := ν) k (n + limit)
    have moved : (Sweep.ofExpr Rule.forNode e.tagged).changed = true := by
      rw [alike]
      exact changed
    rw [tree_run_succ_of_changed _ _ moved, alike, Nat.add_succ, result, ← Nat.add_assoc,
      Nat.add_right_comm k limit 1]
    exact ih (k + 1) (Expr.fresh_tagged _)

/-- Whatever the limit, there is a sum that a run does not settle. A second run takes the step that
was left and gives another tree. -/
theorem run_twice_negatedSum {limit : Nat} (positive : 1 ≤ limit) :
    ((run Rule.forNode limit (run Rule.forNode limit (negatedSum 0 (1 + limit) : Expr ν)).tree).tree
      == (run Rule.forNode limit (negatedSum 0 (1 + limit) : Expr ν)).tree) = false := by
  generalize once : (run Rule.forNode limit (negatedSum 0 (1 + limit) : Expr ν)).tree = e
  have first : e.tagged = (negatedSum limit 1).tagged := by
    rw [← once, run_negatedSum limit 0 1 rfl, Nat.zero_add]
  have second : (run Rule.forNode limit e).tree.tagged = (negatedSum (limit + 1) 0).tagged := by
    have moved := run_negatedSum 1 limit 0 first
    have settled : (run Rule.forNode 1 e).tree.Normal Rule.forNode := by
      rw [← Expr.normal_tagged, moved, Expr.normal_tagged]
      exact Expr.negatedSum_normal (limit + 1)
    obtain ⟨more, rfl⟩ := Nat.exists_eq_add_of_le positive
    rw [(run_add Rule.forNode 1 more e).1, tagged_run_of_normal more settled, moved]
  rw [Expr.beq_congr (Expr.untagged_eq_of_tagged second) (Expr.untagged_eq_of_tagged first)]
  exact Expr.negatedSum_beq limit

end Simplification

namespace Expr

/-- Sixty-six variables behind a minus sign are not settled by sixty-four passes, and simplifying
the result again gives another tree. -/
theorem simplify_not_idempotent :
    ∃ s again : Simplification Binary64,
      (negatedSum 0 65 : Expr Binary64).simplify = .ok s ∧ s.tree.simplify = .ok again ∧
        (again.tree == s.tree) = false := by
  have accepted : checkDepth (negatedSum 0 65 : Expr Binary64) = .ok () := by
    rw [checkDepth_eq_ok_iff, depth_negatedSum]
    decide
  have again := Simplification.accepted_run defaultPasses accepted
  exact ⟨_, _, simplifyWith_eq defaultPasses (checkDepth_eq_ok_iff.mp accepted),
    simplifyWith_eq defaultPasses (checkDepth_eq_ok_iff.mp again),
    Simplification.run_twice_negatedSum (by decide)⟩

/-- Simplifying the result of a simplification is never refused. It takes no step exactly if no rule
changes any node of that result, and then it returns the same tree. This is so whenever a pass of
the first simplification changed nothing, that is unless the limit ended it. -/
theorem simplify_idempotent [ReflBEq ν] (e : Expr ν) (accepted : checkDepth e = .ok ()) :
    ∃ s again, e.simplify = .ok s ∧ s.tree.simplify = .ok again ∧
      ((∃ pass ∈ s.passes, pass.changed = false) → s.tree.Normal Rule.forNode) ∧
      (s.tree.Normal Rule.forNode → again.tree = s.tree ∧ (again.tree == s.tree) = true) ∧
      (again.steps = [] ↔ s.tree.Normal Rule.forNode) := by
  have resumable := Simplification.accepted_run defaultPasses accepted
  refine ⟨_, _, simplifyWith_eq defaultPasses (checkDepth_eq_ok_iff.mp accepted),
    simplifyWith_eq defaultPasses (checkDepth_eq_ok_iff.mp resumable), ?_, ?_,
    Simplification.steps_eq_nil_iff (by decide)⟩
  · rintro ⟨pass, made, unchanged⟩
    exact (Simplification.normal_of_unchanged made unchanged).2
  · intro normal
    have fresh : (Simplification.run Rule.forNode defaultPasses e).tree.Fresh :=
      Simplification.run_fresh Rule.forNode (by decide) e
    have same : (Simplification.run Rule.forNode defaultPasses
        (Simplification.run Rule.forNode defaultPasses e).tree).tree =
          (Simplification.run Rule.forNode defaultPasses e).tree := by
      rw [Simplification.run_of_normal (by decide) normal]
      exact fresh
    exact ⟨same, by rw [same]; exact BEq.rfl⟩

/-- `-(2x - 3)` becomes `-2x + 3` in two steps, and no step is left for the second time. -/
theorem simplify_idempotent_difference :
    ∃ s again : Simplification Binary64,
      (sign .minus (op .sub (op .mul (number (.ofInt 2)) (var "x")) (number (.ofInt 3)))).simplify
        = .ok s ∧
      s.tree.simplify = .ok again ∧ s.steps = [.distributeNegation, .negateCoefficient] ∧
      again.tree = s.tree ∧ (again.tree == s.tree) = true ∧ again.steps = [] := by
  let e : Expr Binary64 :=
    sign .minus (op .sub (op .mul (number (.ofInt 2)) (var "x")) (number (.ofInt 3)))
  obtain ⟨s, again, once, twice, settles, returns, stepless⟩ := simplify_idempotent e rfl
  obtain rfl := simplifyWith_eq_run once
  have normal := settles (by decide +kernel)
  obtain ⟨same, alike⟩ := returns normal
  exact ⟨_, again, once, twice, by decide +kernel, same, alike, stepless.mpr normal⟩

end Expr

end AlgebraEngine
