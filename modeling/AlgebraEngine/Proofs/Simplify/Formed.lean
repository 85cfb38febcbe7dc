import AlgebraEngine.Proofs.Expr.Formed
import AlgebraEngine.Proofs.Simplify.Firing

/-! Simplification keeps the form that the parser gives a tree. No rule puts a variable where it
could not stand alone, and no rule touches a call or an equality. -/
namespace AlgebraEngine

open AlgebraEngine.Expr

variable {ν : Type} [Arithmetic ν] {named : String → Prop} {alone : Bool}
variable {e e' after : Expr ν} {step : Step} {steps : List Step}

namespace Rule

/-- What a rule makes of a tree is formed like the tree. -/
theorem fires_formed (fires : Fires step e after) (formed : Formed named alone e) :
    Formed named alone after := by
  cases fires with
  | foldSum | foldProduct | zeroLeft | zeroRight | negateConstant => exact .number _
  | addFractions | multiplyFractions | divideByFraction => exact make_elim .number .fraction _ _
  | divideNumbers => exact quotientOf_elim .number .fraction _ _
  | keepApart => exact formed
  | combineLikeTerms sum =>
    obtain ⟨left, right⟩ := (Formed.sum_iff sum).mp formed
    obtain ⟨c, a⟩ := Formed.binary_iff.mp left
    obtain ⟨c', -⟩ := Formed.binary_iff.mp right
    exact .term ((Formed.sum_iff sum).mpr ⟨c, c'⟩) a
  | removePlus => exact (Formed.unary_iff.mp formed).widen
  | negateCoefficient =>
    obtain ⟨-, a⟩ := Formed.binary_iff.mp (Formed.unary_iff.mp formed)
    exact .term (.number _) a
  | negateFraction =>
    obtain ⟨-, a⟩ := Formed.binary_iff.mp (Formed.unary_iff.mp formed)
    exact .term (.fraction _ _) a
  | negateSum =>
    obtain ⟨l, r⟩ := (Formed.sum_iff (.inl rfl)).mp (Formed.unary_iff.mp formed)
    exact (Formed.sum_iff (.inr rfl)).mpr ⟨.unary l, r⟩
  | negateDifference =>
    obtain ⟨l, r⟩ := (Formed.sum_iff (.inr rfl)).mp (Formed.unary_iff.mp formed)
    exact (Formed.sum_iff (.inl rfl)).mpr ⟨.unary l, r⟩
  | cancelNegations => exact (Formed.unary_iff.mp (Formed.unary_iff.mp formed)).widen

end Rule

private theorem node_formed (first : RuleBook.first? Rule.forNode e.tagged = some (step, after))
    (formed : Formed named alone e) : Formed named alone after.untagged :=
  Formed.untagged_iff.mpr
    (Rule.fires_formed (Rule.fires_of_first? first) (Formed.tagged_iff.mpr formed))

theorem rewrites_formed (rewrites : Rewrites Rule.forNode step e e')
    (formed : Formed named alone e) : Formed named alone e' := by
  induction rewrites generalizing alone with
  | node first differs => exact node_formed first formed
  | left o r inner ih =>
    obtain ⟨left, right⟩ := Formed.binary_iff.mp formed
    exact .binary (ih left) right
  | right o l inner ih =>
    obtain ⟨left, right⟩ := Formed.binary_iff.mp formed
    exact .binary left (ih right)
  | operand o inner ih => exact .unary (ih (Formed.unary_iff.mp formed))
  | @argument u u' f us vs inner ih =>
    generalize same : us ++ u :: vs = arguments at formed
    cases formed with
    | vector nonempty components =>
      subst same
      refine .vector (by simp) fun w member => ?_
      simp only [List.mem_append, List.mem_cons] at member components
      rcases member with member | rfl | member
      · exact components w (.inl member)
      · exact ih (components u (.inr (.inl rfl)))
      · exact components w (.inr (.inr member))
    | call function argument =>
      obtain ⟨rfl, rfl, rfl⟩ := by simpa [List.append_eq_singleton_iff] using same
      exact .call function (ih argument)
  | leftSide r inner ih | rightSide l inner ih => exact absurd formed Formed.not_equality

theorem rewrites_whole (rewrites : Rewrites Rule.forNode step e e') (whole : Whole named e) :
    Whole named e' := by
  cases whole with
  | expression formed => exact .expression (rewrites_formed rewrites formed)
  | @equality t side l r left right =>
    generalize same : Expr.equality t side l r = e at rewrites
    cases rewrites with
    | node first differs =>
      subst same
      cases Rule.fires_of_first? first
    | leftSide r inner =>
      cases same
      exact .equality (rewrites_formed inner left) right
    | rightSide l inner =>
      cases same
      exact .equality left (rewrites_formed inner right)
    | left | right | operand | argument => cases same

theorem derivation_whole (derived : Derivation Rule.forNode steps e e') (whole : Whole named e) :
    Whole named e' := by
  induction derived with
  | done => exact whole
  | step first rest ih => exact ih (rewrites_whole first whole)

/-- The result of a simplification is formed like the tree it was given. -/
theorem Simplification.whole_run (limit : Nat) (whole : Whole named e) :
    Whole named (run Rule.forNode limit e).tree :=
  Whole.untagged_iff.mp (derivation_whole (run_derived Rule.forNode limit e)
    (Whole.untagged_iff.mpr whole))

end AlgebraEngine
