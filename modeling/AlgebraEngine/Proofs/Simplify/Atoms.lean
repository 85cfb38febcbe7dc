import AlgebraEngine.Proofs.Expr.Unknowns
import AlgebraEngine.Proofs.Simplify.Firing
import AlgebraEngine.Simplify.Simplification

/-! No rule brings in an atom: whatever atom a simplified tree has, the tree it was made from has it
as well. Atoms can only get lost, where terms are combined or multiplied by zero. -/
namespace AlgebraEngine

open AlgebraEngine.Expr

variable {ν : Type} [Arithmetic ν] {a : Atom} {e e' after : Expr ν} {step : Step}
  {steps : List Step}

namespace Rule

omit [Arithmetic ν] in
private theorem no_atom_fraction (n d : ν) : ¬ Occurs (atom a) (Expr.fraction n d) := by
  simp [Expr.fraction, op]

/-- What a rule leaves has no atom that the node did not have. -/
theorem Fires.atoms (fires : Fires step e after) (occurs : Occurs (atom a) after) :
    Occurs (atom a) e := by
  cases fires with
  | foldSum | foldProduct | zeroLeft | zeroRight | negateConstant => simp at occurs
  | addFractions | multiplyFractions | divideByFraction =>
    refine absurd occurs ?_
    exact make_elim (P := (¬ Occurs (atom a) ·)) (by simp) no_atom_fraction _ _
  | divideNumbers =>
    refine absurd occurs ?_
    exact quotientOf_elim (P := (¬ Occurs (atom a) ·)) (by simp) no_atom_fraction _ _
  | keepApart => exact occurs
  | combineLikeTerms sum =>
    simp only [op, occurs_binary, reduceCtorEq, false_or] at occurs ⊢
    rcases occurs with (left | right) | shared
    · exact .inl (.inl left)
    · exact .inr (.inl right)
    · exact .inl (.inr shared)
  | removePlus | cancelNegations => simpa using occurs
  | negateCoefficient | negateFraction | negateSum | negateDifference =>
    simpa [Expr.fraction, op, sign] using occurs

end Rule

theorem Rewrites.atoms (rewrites : Rewrites Rule.forNode step e e') (occurs : Occurs (atom a) e') :
    Occurs (atom a) e := by
  induction rewrites with
  | node first differs =>
    have before := (Rule.fires_of_first? first).atoms (occurs_atom_untagged.mp occurs)
    exact occurs_atom_tagged.mp before
  | left o r inner ih | leftSide r inner ih =>
    simp only [op, equal, occurs_binary, occurs_equality, reduceCtorEq, false_or] at occurs ⊢
    exact occurs.imp_left ih
  | right o l inner ih | rightSide l inner ih =>
    simp only [op, equal, occurs_binary, occurs_equality, reduceCtorEq, false_or] at occurs ⊢
    exact occurs.imp_right ih
  | operand o inner ih =>
    simp only [sign, occurs_unary, reduceCtorEq, false_or] at occurs ⊢
    exact ih occurs
  | argument f us vs inner ih =>
    simp only [apply, occurs_call, reduceCtorEq, false_or, List.mem_append, List.mem_cons]
      at occurs ⊢
    obtain ⟨u, member | rfl | member, occurs⟩ := occurs
    · exact ⟨u, .inl member, occurs⟩
    · exact ⟨_, .inr (.inl rfl), ih occurs⟩
    · exact ⟨u, .inr (.inr member), occurs⟩

theorem Derivation.atoms (derived : Derivation Rule.forNode steps e e')
    (occurs : Occurs (atom a) e') : Occurs (atom a) e := by
  induction derived with
  | done => exact occurs
  | step first rest ih => exact first.atoms (ih occurs)

/-- Simplification invents no atom. -/
theorem Expr.simplifyWith_atoms {limit : Nat} {s : Simplification ν}
    (simplified : e.simplifyWith limit = .ok s) (occurs : Occurs (atom a) s.tree) :
    Occurs (atom a) e := by
  have derived := Simplification.run_derived Rule.forNode limit e
  rw [← simplifyWith_eq_run simplified] at derived
  exact occurs_atom_untagged.mp (derived.atoms (occurs_atom_untagged.mpr occurs))

end AlgebraEngine
