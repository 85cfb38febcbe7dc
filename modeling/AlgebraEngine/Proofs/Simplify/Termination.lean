import AlgebraEngine.Proofs.Expr.Measures
import AlgebraEngine.Proofs.Simplify.Derivation
import AlgebraEngine.Proofs.Simplify.ExactFraction
import AlgebraEngine.Simplify.Event

/-! Simplification of exact numbers terminates. Every recorded step lowers a weight that starts
below a quadratic in the number of nodes. -/
namespace AlgebraEngine

namespace Expr

/-- One for a quotient that a rule can still change. Dividing two numbers settles their quotient, so
that only a fraction in lowest terms weighs no more than its parts. -/
def unsettled : BinaryOp → Expr Exact → Expr Exact → Nat
  | .div, .number n, .number d => if Rule.quotientOf n d == .fraction n d then 0 else 1
  | .div, _, _ => 1
  | _, _, _ => 0

mutual

/-- An amount that every step lowers. A minus sign weighs as much as the nodes it may have to be
distributed over. -/
def weight : Expr Exact → Nat
  | number _ => 1
  | atom _ => 1
  | binary _ o l r => l.weight + r.weight + 1 + unsettled o l r
  | unary _ .plus u => u.weight + 1
  | unary _ .minus u => u.weight + u.size + 1
  | call _ _ us => weightOfList us + 1
  | equality _ _ l r => l.weight + r.weight + 1

/-- The weight of a list of arguments. -/
def weightOfList : List (Expr Exact) → Nat
  | [] => 0
  | u :: us => u.weight + weightOfList us

end

@[simp] theorem weightOfList_eq (us : List (Expr Exact)) :
    weightOfList us = (us.map weight).sum := by
  induction us with
  | nil => rfl
  | cons u us ih => simp [weightOfList, ih]

theorem weight_pos (e : Expr Exact) : 0 < e.weight := by
  cases e with
  | unary t o u => cases o <;> simp [weight]
  | number value | atom a | binary t o l r | call t f us | equality t side l r => simp [weight]

theorem unsettled_le_one (o : BinaryOp) (l r : Expr Exact) : unsettled o l r ≤ 1 := by
  unfold unsettled
  split
  · split <;> omega
  · omega
  · omega

theorem unsettled_of_ne_div {o : BinaryOp} (other : o ≠ .div) (l r : Expr Exact) :
    unsettled o l r = 0 := by
  cases o with
  | div => exact absurd rfl other
  | add | sub | mul | mod | pow => simp [unsettled]

/-- A quotient counts as unsettled unless both of its operands are numbers. -/
theorem unsettled_of_left {l : Expr Exact} (compound : l.number? = none) (o : BinaryOp)
    (l' r r' : Expr Exact) : unsettled o l' r' ≤ unsettled o l r := by
  have bound := unsettled_le_one o l' r'
  cases o with
  | div => cases l <;> simp_all [unsettled, number?]
  | add | sub | mul | mod | pow => simp [unsettled]

theorem unsettled_of_right {r : Expr Exact} (compound : r.number? = none) (o : BinaryOp)
    (l l' r' : Expr Exact) : unsettled o l' r' ≤ unsettled o l r := by
  have bound := unsettled_le_one o l' r'
  cases o with
  | div => cases l <;> cases r <;> simp_all [unsettled, number?]
  | add | sub | mul | mod | pow => simp [unsettled]

private theorem unsettled_untagged (o : BinaryOp) (l r : Expr Exact) :
    unsettled o l.untagged r.untagged = unsettled o l r := by
  cases o <;> cases l <;> cases r <;> rfl

@[simp] theorem weight_untagged (e : Expr Exact) : e.untagged.weight = e.weight := by
  induction e with
  | number value => rfl
  | atom a => rfl
  | binary t o l r left right => simp [untagged, op, weight, left, right, unsettled_untagged]
  | unary t o u inner => cases o <;> simp [untagged, sign, weight, inner]
  | call t f us inner =>
    have same : (us.map untagged).map weight = us.map weight := by
      simpa using inner
    simpa [untagged, apply, weight] using congrArg List.sum same
  | equality t side l r left right => simp [untagged, equal, weight, left, right]

@[simp] theorem weight_tagged (e : Expr Exact) : e.tagged.weight = e.weight := by
  rw [← weight_untagged, untagged_tagged, weight_untagged]

private theorem weight_sum_le {us : List (Expr Exact)}
    (each : ∀ u ∈ us, u.weight ≤ u.size * u.size + 3 * u.size) :
    (us.map weight).sum ≤ (us.map size).sum * (us.map size).sum + 3 * (us.map size).sum := by
  induction us with
  | nil => exact Nat.le_refl 0
  | cons u us ih =>
    have here := each u (by simp)
    have there := ih fun v member => each v (List.mem_cons_of_mem _ member)
    simp only [List.map_cons, List.sum_cons]
    nlinarith [Nat.zero_le (u.size * (us.map size).sum)]

/-- The weight of a tree is at most quadratic in its size. -/
theorem weight_le (e : Expr Exact) : e.weight ≤ e.size * e.size + 3 * e.size := by
  induction e with
  | number value | atom a => simp [weight, size]
  | binary t o l r left right =>
    have bound := unsettled_le_one o l r
    simp only [weight, size]
    nlinarith [Nat.zero_le (l.size * r.size)]
  | unary t o u inner =>
    cases o with
    | plus | minus =>
      simp only [weight, size]
      nlinarith
  | call t f us inner =>
    have arguments := weight_sum_le inner
    simp only [weight, size, weightOfList_eq, sizeOfList_eq]
    generalize (us.map size).sum = n at arguments ⊢
    nlinarith
  | equality t side l r left right =>
    simp only [weight, size]
    nlinarith [Nat.zero_le (l.size * r.size)]

end Expr

namespace Rule

open AlgebraEngine.Expr

private theorem fraction_small (n d : Exact) :
    (Expr.fraction n d).size = 3 ∧ (Expr.fraction n d).weight ≤ 4 := by
  have bound := unsettled_le_one .div (.number n) (.number d)
  refine ⟨rfl, ?_⟩
  simp only [Expr.fraction, op, weight]
  omega

private theorem make_small (n d : Exact) :
    (Fraction.make n d).size ≤ 3 ∧ (Fraction.make n d).weight ≤ 4 := by
  refine make_elim (P := fun e => e.size ≤ 3 ∧ e.weight ≤ 4) ?_ ?_ n d
  · simp [size, weight]
  · intro n d
    exact ⟨(fraction_small n d).1.le, (fraction_small n d).2⟩

private theorem quotientOf_small (n d : Exact) :
    (quotientOf n d).size ≤ 3 ∧ (quotientOf n d).weight ≤ 3 := by
  rcases Exact.quotientOf_cases n d with number | ⟨m, k, lowest, -, fraction⟩
  · simp [number, size, weight]
  · have settled : unsettled .div (.number (.rational m)) (.number (.rational k)) = 0 := by
      simp [unsettled, Exact.quotientOf_lowest lowest]
    rw [fraction]
    simp [Expr.fraction, op, size, weight, settled]

/-- What a rule leaves is no larger than the node it saw, and it weighs less unless it is the same
node again. -/
theorem fires_weight {step : Step} {e after : Expr Exact} (fires : Fires step e after)
    (differs : (after == e) = false) : after.size ≤ e.size ∧ after.weight < e.weight := by
  cases fires with
  | foldSum sum | foldProduct =>
    simp only [size, weight]
    omega
  | addFractions sum | multiplyFractions =>
    refine ⟨(make_small _ _).1.trans ?_, (make_small _ _).2.trans_lt ?_⟩
    · simp [size]
    · simp only [weight]
      omega
  | keepApart => simp at differs
  | @combineLikeTerms t o s c s' c' a sum =>
    have settled : unsettled o c c' = 0 := by
      rcases sum with rfl | rfl <;> simp [unsettled]
    have product := unsettled_of_ne_div (o := .mul) (by decide) (op o c c') (atom a)
    simp only [size, weight, op, settled] at product ⊢
    omega
  | @zeroLeft t x r zero symbolic | @zeroRight t x r zero symbolic =>
    simp only [size, weight]
    omega
  | @divideNumbers t n d =>
    have pending : unsettled .div (.number n) (.number d) = 1 := by
      rw [beq_binary] at differs
      simp [unsettled, Expr.fraction, differs]
    have small := quotientOf_small n d
    simp only [size, weight, pending]
    omega
  | @divideByFraction t l n d s n' d' rational =>
    have small := make_small (n * d') (d * n')
    have nonempty := size_pos l
    have heavy := weight_pos l
    have pending : unsettled .div l (.binary s .div (.number n') (.number d')) = 1 := by
      cases l <;> rfl
    simp only [size, weight, pending]
    omega
  | removePlus =>
    simp only [size, weight]
    omega
  | negateConstant => simp [size, weight]
  | negateCoefficient =>
    simp only [op, size, weight, unsettled]
    omega
  | @negateFraction t s s' n d a =>
    have small := fraction_small (-n) d
    simp only [op, size, weight, small.1, unsettled]
    omega
  | negateSum | negateDifference =>
    simp only [op, sign, size, weight, unsettled]
    omega
  | cancelNegations =>
    simp only [size, weight]
    omega

end Rule

/-- No rule rewrites a number, so it is a compound operand that a step changes. -/
private theorem rewrites_compound {step : Step} {e e' : Expr Exact}
    (rewrites : Rewrites Rule.forNode step e e') : e.number? = none := by
  cases e with
  | number value =>
    cases rewrites with
    | node first differs => cases Rule.fires_of_first? first
  | atom a | binary t o l r | unary t o u | call t f us | equality t side l r => rfl

/-- A step never adds nodes, and it makes the whole tree weigh less wherever it is taken. -/
theorem rewrites_weight {step : Step} {e e' : Expr Exact}
    (rewrites : Rewrites Rule.forNode step e e') : e'.size ≤ e.size ∧ e'.weight < e.weight := by
  induction rewrites with
  | node first differs =>
    simpa using Rule.fires_weight (Rule.fires_of_first? first) differs
  | @left l l' o r inner ih =>
    have pending := Expr.unsettled_of_left (rewrites_compound inner) o l' r r
    simp only [Expr.op, Expr.size, Expr.weight]
    omega
  | @right r r' o l inner ih =>
    have pending := Expr.unsettled_of_right (rewrites_compound inner) o l l r'
    simp only [Expr.op, Expr.size, Expr.weight]
    omega
  | operand o inner ih =>
    cases o with
    | plus | minus =>
      simp only [Expr.sign, Expr.size, Expr.weight]
      omega
  | argument f us vs inner ih =>
    simp only [Expr.apply, Expr.size, Expr.weight, Expr.sizeOfList_eq, Expr.weightOfList_eq,
      List.map_append, List.map_cons, List.sum_append, List.sum_cons]
    omega
  | leftSide r inner ih | rightSide l inner ih =>
    simp only [Expr.equal, Expr.size, Expr.weight]
    omega

/-- The weight of a tree pays for every step that is taken from it. -/
theorem derivation_weight {steps : List Step} {e e' : Expr Exact}
    (derived : Derivation Rule.forNode steps e e') : e'.weight + steps.length ≤ e.weight := by
  induction derived with
  | done => exact Nat.le_refl _
  | step first rest ih =>
    have lighter := (rewrites_weight first).2
    rw [List.length_cons]
    omega

namespace Simplification

/-- However many passes are allowed, the number of steps is at most quadratic in the number of
nodes. -/
theorem steps_length_le (limit : Nat) (e : Expr Exact) :
    (run Rule.forNode limit e).steps.length ≤ e.size * e.size + 3 * e.size := by
  have paid := derivation_weight (run_derived Rule.forNode limit e)
  have bound := Expr.weight_le e
  rw [Expr.weight_untagged e] at paid
  omega

/-- Only a simplification that the limit ended logs a warning. -/
theorem level_of_settled {ν : Type} {s : Simplification ν} (settled : s.settled = true)
    {event : Event ν} (logged : event ∈ s.events) : event.level ≠ .warn := by
  simp only [events, settled, ↓reduceIte, List.append_nil, List.mem_flatMap, passEvents,
    List.mem_append, List.mem_map, List.mem_singleton] at logged
  obtain ⟨pass, -, ⟨rewrite, -, rfl⟩ | rfl⟩ := logged
  · simp [Event.level]
  · simp [Event.level]

end Simplification

/-- Simplifying takes at most quadratically many steps at every limit. At every limit above that
bound the last pass changes nothing, no warning is logged and the tree is the same one. -/
theorem Expr.simplifyWith_terminates (e : Expr Exact) (accepted : checkDepth e = .ok ()) :
    ∃ tree, ∀ limit, ∃ s, e.simplifyWith limit = .ok s ∧
      s.steps.length ≤ e.size * e.size + 3 * e.size ∧
      (e.size * e.size + 3 * e.size < limit →
        s.tree = tree ∧ (∃ last, s.passes.getLast? = some last ∧ last.changed = false) ∧
          ∀ event ∈ s.events, event.level ≠ .warn) := by
  have shallow : e.depth ≤ maxDepth := by
    unfold checkDepth at accepted
    split at accepted
    · cases accepted
    · omega
  have settles (limit : Nat) (above : e.size * e.size + 3 * e.size < limit) :
      (Simplification.run Rule.forNode limit e).settled = true := by
    have bound := Simplification.steps_length_le limit e
    by_contra unsettled
    have steps := Simplification.limit_le_steps Rule.forNode limit e (by simpa using unsettled)
    omega
  have least := settles (e.size * e.size + 3 * e.size + 1) (Nat.lt_succ_self _)
  refine ⟨(Simplification.run Rule.forNode (e.size * e.size + 3 * e.size + 1) e).tree,
    fun limit => ⟨_, Expr.simplifyWith_eq limit shallow,
    Simplification.steps_length_le limit e, fun above => ⟨?_, ?_, ?_⟩⟩⟩
  · rw [Simplification.run_of_settled Rule.forNode e above least]
  · exact Simplification.last_unchanged Rule.forNode limit e (settles limit above)
  · intro event logged
    exact Simplification.level_of_settled (settles limit above) logged

/-- `-(x - 1/2)` has six nodes, so more than fifty-four passes are never needed. -/
theorem Expr.simplifyWith_terminates_difference :
    ∃ tree, ∀ limit, 54 < limit → ∃ s,
      (Expr.sign .minus (.op .sub (.var "x") (.fraction (.rational 1) (.rational 2))) :
        Expr Exact).simplifyWith limit = .ok s ∧ s.tree = tree := by
  obtain ⟨tree, always⟩ := simplifyWith_terminates
    (.sign .minus (.op .sub (.var "x") (.fraction (.rational 1) (.rational 2)))) rfl
  refine ⟨tree, fun limit above => ?_⟩
  obtain ⟨s, simplified, -, settles⟩ := always limit
  exact ⟨s, simplified, (settles above).1⟩

end AlgebraEngine
