import AlgebraEngine.Number.Machine
import AlgebraEngine.Proofs.Simplify.Firing

/-! The trees between the recorded steps. Each differs from the one before it, in a single node that
the first rule for it has rewritten; a rule that gives the node back is never recorded. -/
namespace AlgebraEngine

variable {ν : Type}

section Steps

variable [BEq ν]

private theorem sameList_middle {us vs : List (Expr ν)} {u u' : Expr ν}
    (differs : (u' == u) = false) :
    Expr.sameList (us ++ u' :: vs) (us ++ u :: vs) = false := by
  induction us with
  | nil =>
    have here : Expr.same u' u = false := differs
    simp [Expr.sameList, here]
  | cons v us ih => simp [Expr.sameList, ih]

/-- A step changes the whole tree, wherever in the tree it is taken. -/
theorem Rewrites.differs {book : RuleBook ν} {step : Step} {e e' : Expr ν}
    (rewrites : Rewrites book step e e') : (e' == e) = false := by
  induction rewrites with
  | @node e after first differs =>
    rw [← differs]
    exact Expr.beq_congr (by simp) (by simp)
  | left o r inner ih => simp [Expr.op_beq_op, ih]
  | right o l inner ih => simp [Expr.op_beq_op, ih]
  | operand o inner ih => simp [Expr.sign_beq_sign, ih]
  | argument f us vs inner ih => simp [Expr.apply_beq_apply, sameList_middle ih]
  | leftSide r inner ih => simp [Expr.equal_beq_equal, ih]
  | rightSide l inner ih => simp [Expr.equal_beq_equal, ih]

/-- A derivation of `k` steps passes through `k + 1` trees. -/
theorem Derivation.trees {book : RuleBook ν} {steps : List Step} {e e' : Expr ν}
    (derived : Derivation book steps e e') :
    ∃ t : Nat → Expr ν, t 0 = e ∧ t steps.length = e' ∧
      ∀ i (recorded : i < steps.length), Rewrites book steps[i] (t i) (t (i + 1)) := by
  induction derived with
  | done e => exact ⟨fun _ => e, rfl, rfl, fun i recorded => absurd recorded (Nat.not_lt_zero i)⟩
  | @step s steps e middle e' first rest ih =>
    obtain ⟨t, start, finish, each⟩ := ih
    refine ⟨fun i => Nat.casesOn i e t, rfl, finish, fun i recorded => ?_⟩
    cases i with
    | zero =>
      rw [← start] at first
      exact first
    | succ i => exact each i (Nat.lt_of_succ_lt_succ recorded)

end Steps

section Apart

variable [Arithmetic ν]

private theorem eq_of_fires_keepApart {e after : Expr ν} (fires : Rule.Fires .keepApart e after) :
    after = e := by
  cases fires
  rfl

variable [ReflBEq ν]

/-- A term next to a number stays as it is, which is no step. -/
theorem Rewrites.ne_keepApart {step : Step} {e e' : Expr ν}
    (rewrites : Rewrites Rule.forNode step e e') : step ≠ .keepApart := by
  induction rewrites with
  | node first differs =>
    rintro rfl
    rw [eq_of_fires_keepApart (Rule.fires_of_first? first)] at differs
    simp at differs
  | left o r inner ih | right o l inner ih | operand o inner ih | argument f us vs inner ih
  | leftSide r inner ih | rightSide l inner ih => exact ih

theorem Derivation.keepApart_not_mem {steps : List Step} {e e' : Expr ν}
    (derived : Derivation Rule.forNode steps e e') : Step.keepApart ∉ steps := by
  induction derived with
  | done => exact List.not_mem_nil
  | step first rest ih => exact List.not_mem_cons_of_ne_of_not_mem first.ne_keepApart.symm ih

end Apart

/-- The recorded steps lead from the tree to its simplification, up to caches, one tree after the
other. Each tree comes from the one before it by rewriting a single node with the first rule that
applies to it once it is tagged, the rule of that step, and it differs from the one before it.
Keeping a term apart from a number is never recorded. -/
theorem Expr.simplifyWith_chain [Arithmetic ν] [ReflBEq ν] (limit : Nat) (e : Expr ν)
    (accepted : checkDepth e = .ok ()) :
    ∃ s, e.simplifyWith limit = .ok s ∧
      (∃ t : Nat → Expr ν, t 0 = e.untagged ∧ t s.steps.length = s.tree.untagged ∧
        ∀ i (recorded : i < s.steps.length),
          Rewrites Rule.forNode s.steps[i] (t i) (t (i + 1)) ∧ (t (i + 1) == t i) = false) ∧
      Step.keepApart ∉ s.steps := by
  have derived := Simplification.run_derived Rule.forNode limit e
  obtain ⟨t, start, finish, each⟩ := derived.trees
  exact ⟨_, simplifyWith_eq limit (checkDepth_eq_ok_iff.mp accepted),
    ⟨t, start, finish, fun i recorded => ⟨each i recorded, (each i recorded).differs⟩⟩,
    derived.keepApart_not_mem⟩

/-- `+(2x + (1 + 2))` takes two steps with machine numbers. The sum next to the term is folded, and
the sign is dropped; that `2x + 3` stays as it is in between is no step. -/
theorem Expr.simplifyWith_chain_plus :
    ∃ (s : Simplification Binary64) (middle : Expr Binary64),
      (Expr.sign .plus (.op .add (.op .mul (.number (.ofInt 2)) (.var "x"))
        (.op .add (.number (.ofInt 1)) (.number (.ofInt 2))))).simplifyWith 64 = .ok s ∧
      s.steps = [.foldConstants, .removePlus] ∧
      Rewrites Rule.forNode .foldConstants
        (Expr.sign .plus (.op .add (.op .mul (.number (.ofInt 2)) (.var "x"))
          (.op .add (.number (.ofInt 1)) (.number (.ofInt 2))))) middle ∧
      Rewrites Rule.forNode .removePlus middle s.tree.untagged := by
  let e : Expr Binary64 := .sign .plus (.op .add (.op .mul (.number (.ofInt 2)) (.var "x"))
    (.op .add (.number (.ofInt 1)) (.number (.ofInt 2))))
  obtain ⟨s, simplified, ⟨t, start, finish, each⟩, -⟩ := simplifyWith_chain 64 e rfl
  obtain rfl := simplifyWith_eq_run simplified
  have steps : (Simplification.run Rule.forNode 64 e).steps = [.foldConstants, .removePlus] := by
    decide +kernel
  simp only [steps] at finish each
  refine ⟨_, t 1, simplified, steps, ?_, ?_⟩
  · have first := (each 0 (by decide)).1
    rwa [start] at first
  · have second := (each 1 (by decide)).1
    rwa [← finish]

end AlgebraEngine
