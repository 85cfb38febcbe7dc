import AlgebraEngine.Proofs.Expr.Measures
import AlgebraEngine.Proofs.Simplify.Chain
import AlgebraEngine.Proofs.Simplify.Passes

/-! Simplification never deepens a tree, not even between two rewrites of one pass. The check at the
start therefore speaks for every pass, and a tree that was accepted once leads to no tree that is
refused. -/
namespace AlgebraEngine

variable {ν : Type} [Arithmetic ν] {step : Step} {steps : List Step} {e e' after : Expr ν}

namespace Rule

open AlgebraEngine.Expr

private theorem height_make (n d : ν) : (Fraction.make n d).height ≤ 2 :=
  make_elim (P := (·.height ≤ 2)) (by simp [height]) (by simp [fraction, op, height]) n d

private theorem height_quotientOf (n d : ν) : (quotientOf n d).height ≤ 2 :=
  quotientOf_elim (P := (·.height ≤ 2)) (by simp [height]) (by simp [fraction, op, height]) n d

/-- What a rule leaves is no higher than the node it saw. -/
theorem fires_height (fires : Fires step e after) : after.height ≤ e.height := by
  cases fires with
  | foldSum sum | foldProduct | negateConstant => simp [height]
  | addFractions sum | multiplyFractions =>
    refine (height_make _ _).trans ?_
    simp [height]
  | keepApart => exact Nat.le_refl _
  | combineLikeTerms sum =>
    simp only [op, height]
    omega
  | zeroLeft zero symbolic | zeroRight zero symbolic => simp [height]
  | divideNumbers =>
    refine (height_quotientOf _ _).trans ?_
    simp [height]
  | divideByFraction rational =>
    refine (height_make _ _).trans ?_
    simp [height]
  | removePlus =>
    simp only [height]
    omega
  | negateCoefficient | negateFraction => simp [fraction, op, height]
  | negateSum | negateDifference =>
    simp only [op, sign, height]
    omega
  | cancelNegations =>
    simp only [height]
    omega

end Rule

/-- A step leaves a tree that is no higher, wherever in the tree it is taken. -/
theorem rewrites_height (rewrites : Rewrites Rule.forNode step e e') : e'.height ≤ e.height := by
  induction rewrites with
  | node first differs => simpa using Rule.fires_height (Rule.fires_of_first? first)
  | left o r inner ih | right o l inner ih =>
    simp only [Expr.op, Expr.height]
    omega
  | operand o inner ih =>
    simp only [Expr.sign, Expr.height]
    omega
  | argument f us vs inner ih =>
    simp only [Expr.apply, Expr.height, Expr.heightOfList_append, Expr.heightOfList]
    omega
  | leftSide r inner ih | rightSide l inner ih =>
    simp only [Expr.equal, Expr.height]
    omega

theorem derivation_height (derived : Derivation Rule.forNode steps e e') :
    e'.height ≤ e.height := by
  induction derived with
  | done => exact Nat.le_refl _
  | step first rest ih => exact ih.trans (rewrites_height first)

/-- What is derived from a tree is no deeper than it. -/
theorem derivation_depth (derived : Derivation Rule.forNode steps e.untagged e'.untagged) :
    e'.depth ≤ e.depth := by
  have lower := derivation_height derived
  simpa only [Expr.depth_eq_height, Expr.height_untagged] using lower

/-- Neither is any of the trees that a derivation passes through. -/
theorem derivation_trees_depth (derived : Derivation Rule.forNode steps e e') :
    ∃ t : Nat → Expr ν, t 0 = e ∧ t steps.length = e' ∧
      ∀ i (recorded : i < steps.length),
        Rewrites Rule.forNode steps[i] (t i) (t (i + 1)) ∧ (t (i + 1)).depth ≤ e.depth := by
  obtain ⟨t, start, finish, each⟩ := derived.trees
  have bounded (i : Nat) (reached : i ≤ steps.length) : (t i).height ≤ e.height := by
    induction i with
    | zero => rw [start]
    | succ i ih => exact (rewrites_height (each i reached)).trans (ih (Nat.le_of_succ_le reached))
  refine ⟨t, start, finish, fun i recorded => ⟨each i recorded, ?_⟩⟩
  simpa only [Expr.depth_eq_height] using bounded (i + 1) recorded

/-- The result of a simplification is no deeper than the tree it was given. -/
theorem Simplification.depth_run_le (limit : Nat) (e : Expr ν) :
    (run Rule.forNode limit e).tree.depth ≤ e.depth :=
  derivation_depth (run_derived Rule.forNode limit e)

/-- The result of simplifying a tree that is shallow enough is shallow enough. -/
theorem Simplification.accepted_run (limit : Nat) {e : Expr ν} (accepted : checkDepth e = .ok ()) :
    checkDepth (run Rule.forNode limit e).tree = .ok () :=
  checkDepth_eq_ok_iff.mpr ((depth_run_le limit e).trans (checkDepth_eq_ok_iff.mp accepted))

namespace Simplification

variable {limit : Nat} {before : Expr ν} {pass : Sweep ν (Expr ν)}

/-- A pass is made on a tree that is no deeper than the one the simplification was given. -/
theorem depth_before_le (made : (before, pass) ∈ (run Rule.forNode limit e).passesFrom e) :
    before.depth ≤ e.depth := by
  obtain ⟨-, steps, derived⟩ := mem_passesFrom made
  exact derivation_depth derived

/-- The trees between the rewrites of a pass are no deeper than the one that it was made on. -/
theorem trees_of_pass (made : (before, pass) ∈ (run Rule.forNode limit e).passesFrom e) :
    ∃ t : Nat → Expr ν, t 0 = before.untagged ∧ t pass.rewrites.length = pass.result.untagged ∧
      ∀ i (recorded : i < pass.rewrites.length),
        Rewrites Rule.forNode pass.rewrites[i].step (t i) (t (i + 1)) ∧
          (t (i + 1)).depth ≤ before.depth := by
  obtain ⟨t, start, finish, each⟩ :=
    derivation_trees_depth (sound_of_mem_passesFrom made).derived_of_tagged
  simp only [List.length_map, List.getElem_map, Expr.depth_untagged] at finish each
  exact ⟨t, start, finish, each⟩

end Simplification

/-- Simplification never deepens a tree. With any limit on passes, each pass is made on a tree that
is no deeper than the one that was given, the whole tree stays so after each rewrite of the pass,
and so does what the pass leaves. If the given tree is accepted, then each pass sweeps a tree that
would be accepted as well, and simplifying the result again is not refused, with any limit. -/
theorem Expr.simplifyWith_depth (limit : Nat) (e : Expr ν) :
    (∀ before pass, (before, pass) ∈ (Simplification.run Rule.forNode limit e).passesFrom e →
      before.depth ≤ e.depth ∧ pass.result.depth ≤ e.depth ∧
        ∃ t : Nat → Expr ν, t 0 = before.untagged ∧
          t pass.rewrites.length = pass.result.untagged ∧
          ∀ i (recorded : i < pass.rewrites.length),
            Rewrites Rule.forNode pass.rewrites[i].step (t i) (t (i + 1)) ∧
              (t (i + 1)).depth ≤ e.depth) ∧
    (checkDepth e = .ok () → ∃ s, e.simplifyWith limit = .ok s ∧
      s = Simplification.run Rule.forNode limit e ∧ s.tree.depth ≤ e.depth ∧
      (∀ before pass, (before, pass) ∈ s.passesFrom e → checkDepth before = .ok ()) ∧
      ∀ limit', ∃ again, s.tree.simplifyWith limit' = .ok again) := by
  constructor
  · intro before pass made
    have start := Simplification.depth_before_le made
    obtain ⟨t, first, last, each⟩ := Simplification.trees_of_pass made
    refine ⟨start, ?_, t, first, last, fun i recorded => ?_⟩
    · have sound := Simplification.sound_of_mem_passesFrom made
      exact (derivation_depth sound.derived_of_tagged).trans start
    · exact ⟨(each i recorded).1, (each i recorded).2.trans start⟩
  · intro accepted
    have shallow := checkDepth_eq_ok_iff.mp accepted
    refine ⟨_, simplifyWith_eq limit shallow, rfl, Simplification.depth_run_le limit e, ?_, ?_⟩
    · intro before pass made
      exact checkDepth_eq_ok_iff.mpr ((Simplification.depth_before_le made).trans shallow)
    · intro limit'
      exact ⟨_, simplifyWith_eq limit'
        (checkDepth_eq_ok_iff.mp (Simplification.accepted_run limit accepted))⟩

/-- In its first pass `-(2x + (1 + 2))` becomes `-(2x + 3)` and then `-(2x) - 3`. The first of the
two has lost a level, and the second one does not get it back. -/
theorem Expr.simplifyWith_depth_negation :
    ∃ (e : Expr Binary64) (s : Simplification Binary64) (pass : Sweep Binary64 (Expr Binary64))
      (middle : Expr Binary64),
      e = .sign .minus (.op .add (.op .mul (.number (.ofInt 2)) (.var "x"))
        (.op .add (.number (.ofInt 1)) (.number (.ofInt 2)))) ∧
      e.simplifyWith 64 = .ok s ∧ (e, pass) ∈ s.passesFrom e ∧
      Rewrites Rule.forNode .foldConstants e.untagged middle ∧ middle.depth ≤ e.depth ∧
      Rewrites Rule.forNode .distributeNegation middle pass.result.untagged ∧
      pass.result.depth ≤ e.depth ∧ s.tree.depth ≤ e.depth ∧
      ∃ again, s.tree.simplifyWith 1 = .ok again := by
  let e : Expr Binary64 := .sign .minus (.op .add (.op .mul (.number (.ofInt 2)) (.var "x"))
    (.op .add (.number (.ofInt 1)) (.number (.ofInt 2))))
  obtain ⟨deeper, shallow⟩ := simplifyWith_depth 64 e
  obtain ⟨pass, swept⟩ : ∃ pass, pass = Sweep.ofExpr Rule.forNode e.tagged := ⟨_, rfl⟩
  have steps : pass.rewrites.map Rewrite.step = [.foldConstants, .distributeNegation] := by
    rw [swept]
    decide +kernel
  have made : (e, pass) ∈ (Simplification.run Rule.forNode 64 e).passesFrom e := by
    rw [Simplification.passesFrom_run_succ, swept]
    exact List.mem_cons_self
  obtain ⟨-, result, t, start, finish, each⟩ := deeper e pass made
  obtain ⟨s, simplified, rfl, tree, -, again⟩ := shallow rfl
  clear deeper shallow swept
  obtain ⟨first, second, rewrites⟩ : ∃ first second, pass.rewrites = [first, second] := by
    rcases rewrites : pass.rewrites with _ | ⟨first, _ | ⟨second, _ | _⟩⟩ <;>
      simp [rewrites] at steps ⊢
  simp only [rewrites, List.map_cons, List.map_nil, List.cons.injEq, and_true] at steps
  simp only [rewrites] at finish each
  refine ⟨e, _, pass, t 1, rfl, simplified, made, ?_, (each 0 (by simp)).2, ?_, result, tree,
    again 1⟩
  · simpa only [List.getElem_cons_zero, steps.1, start] using (each 0 (by simp)).1
  · rw [← finish, ← steps.2]
    exact (each 1 (by simp)).1

end AlgebraEngine
