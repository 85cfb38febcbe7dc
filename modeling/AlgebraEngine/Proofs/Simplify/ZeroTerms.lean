import AlgebraEngine.Proofs.Number.Zeros
import AlgebraEngine.Proofs.Simplify.LikeTerms

/-! Two terms with one atom, where a coefficient may be zero. A pass multiplies by zero before it
looks at the sum above, so a term with the coefficient zero is a number by then. Two of them are
added up as numbers, but one next to a term with another coefficient is not a like term any more:
a number next to a term counts as simple, and nothing takes the zero away. -/
namespace AlgebraEngine

open AlgebraEngine.Expr Arithmetic

namespace Expr

variable {a : Atom} {o : BinaryOp}

section Terms

variable {ν : Type} [Arithmetic ν] {k k' : ν}

/-- A multiple is a number if it is nothing. -/
private theorem number?_multiple (k : ν) (a : Atom) :
    (multiple k a).number?.isSome = Fraction.isZero k := by
  unfold multiple
  split
  · rename_i zero
    exact zero.symm
  · rename_i nonzero
    exact (eq_false_of_ne_true nonzero).symm

/-- A pass over a term looks whether the coefficient is zero. -/
private theorem makes_multiple (s : Tags) (k : ν) (a : Atom) :
    Sweep.Makes Rule.forNode (.binary s .mul (.number k) (.atom a)) (multiple k a) :=
  (Total.number k).makes_multiple a

/-- Terms that are not zero are combined, and then their coefficients are. -/
private theorem settlesOn_of_nonzero (sum : o = .add ∨ o = .sub) (t s s' : Tags) (a : Atom)
    (nonzero : Fraction.isZero k = false) (nonzero' : Fraction.isZero k' = false) :
    Simplification.SettlesOn Rule.forNode 3
      (.binary t o (.binary s .mul (.number k) (.atom a)) (.binary s' .mul (.number k') (.atom a)))
      (multiple (Rule.sumOf o k k') a) := by
  have left := makes_multiple s k a
  have right := makes_multiple s' k' a
  rw [multiple, if_neg (by simp [nonzero])] at left
  rw [multiple, if_neg (by simp [nonzero'])] at right
  have total : Total (.op o (.number k) (.number k')) (Rule.sumOf o k k') := by
    rcases sum with rfl | rfl
    · exact .sum (.number k) (.number k')
    · exact .difference (.number k) (.number k')
  exact ((Simplification.settlesOn_of_normal (normal_multiple _ a)).of_makes
    (total.makes_multiple a)).of_makes (makes_term sum left right)

/-- Terms that are zero are numbers by the time that a pass comes to their sum. -/
private theorem settlesOn_of_zero (sum : o = .add ∨ o = .sub) (t s s' : Tags) (a : Atom)
    (zero : Fraction.isZero k = true) (zero' : Fraction.isZero k' = true) :
    Simplification.SettlesOn Rule.forNode 2
      (.binary t o (.binary s .mul (.number k) (.atom a)) (.binary s' .mul (.number k') (.atom a)))
      (.number (Rule.sumOf o (ofInt 0) (ofInt 0))) := by
  have left := makes_multiple s k a
  have right := makes_multiple s' k' a
  rw [multiple, if_pos zero] at left
  rw [multiple, if_pos zero'] at right
  refine (Simplification.settlesOn_of_normal (normal_number _)).of_makes ?_
  rcases sum with rfl | rfl <;> exact left.rewrite right rfl rfl

/-- A term that is zero becomes a number and stays beside the other term. -/
private theorem settlesOn_of_apart [ReflBEq ν] (sum : o = .add ∨ o = .sub) (t s s' : Tags)
    (a : Atom) (apart : Fraction.isZero k ≠ Fraction.isZero k') :
    Simplification.SettlesOn Rule.forNode 2
      (.binary t o (.binary s .mul (.number k) (.atom a)) (.binary s' .mul (.number k') (.atom a)))
      (.op o (multiple k a) (multiple k' a)) := by
  have apart' : ¬ ((multiple k a).number?.isSome = true ↔
      (multiple k' a).number?.isSome = true) := by
    rw [number?_multiple, number?_multiple, ← Bool.eq_iff_iff]
    exact apart
  have normal := normal_sum_apart sum (normal_multiple k a) (normal_multiple k' a) apart'
  have keeps := (normal_iff.mp normal).1
  exact (Simplification.settlesOn_of_normal normal).of_makes
    ((makes_multiple s k a).op (makes_multiple s' k' a) keeps)

end Terms

variable {k k' : Binary64}

private theorem eq_zero_or_neg (zero : Fraction.isZero k = true) :
    k = Binary64.zero ∨ k = Binary64.zero.neg := by
  rw [Binary64.fraction_isZero] at zero
  obtain ⟨negative, magnitude⟩ := k
  obtain rfl : magnitude = 0 := by simpa [Binary64.isZero] using zero
  cases negative
  · exact .inl rfl
  · exact .inr rfl

/-- Zeros of whatever sign add up to zero. -/
private theorem isZero_sumOf (sum : o = .add ∨ o = .sub) (zero : Fraction.isZero k = true)
    (zero' : Fraction.isZero k' = true) : Fraction.isZero (Rule.sumOf o k k') = true := by
  rcases eq_zero_or_neg zero with rfl | rfl <;> rcases eq_zero_or_neg zero' with rfl | rfl <;>
    rcases sum with rfl | rfl <;> decide +kernel

private theorem sumOf_zero (sum : o = .add ∨ o = .sub) :
    Rule.sumOf o (ofInt 0 : Binary64) (ofInt 0) = ofInt 0 := by
  rcases sum with rfl | rfl <;> decide +kernel

/-- A sum or difference is never taken for a multiple of an atom. -/
private theorem op_beq_multiple (sum : o = .add ∨ o = .sub) (l r : Expr Binary64) :
    (op o l r == multiple k a) = false := by
  unfold multiple
  split
  · rfl
  · rcases sum with rfl | rfl <;> rfl

/-- Two terms with one atom, added or subtracted, become the multiple of the atom that they come to
exactly if both coefficients are zero or neither is. If just one of them is, its term is
zero and stays beside the other one. -/
theorem simplify_two_terms (sum : o = .add ∨ o = .sub) (t s s' : Tags) (k k' : Binary64)
    (a : Atom) :
    ∃ run, (binary t o (binary s .mul (number k) (.atom a))
        (binary s' .mul (number k') (.atom a))).simplify = .ok run ∧ run.settled = true ∧
      run.tree = (if Fraction.isZero k = Fraction.isZero k' then multiple (Rule.sumOf o k k') a
        else op o (multiple k a) (multiple k' a)).tagged ∧
      ((run.tree == multiple (Rule.sumOf o k k') a) = true ↔
        Fraction.isZero k = Fraction.isZero k') := by
  by_cases alike : Fraction.isZero k = Fraction.isZero k'
  · obtain ⟨run, simplified, settled, tree⟩ : ∃ run,
        (binary t o (binary s .mul (number k) (.atom a))
          (binary s' .mul (number k') (.atom a))).simplify = .ok run ∧
        run.settled = true ∧ run.tree = (multiple (Rule.sumOf o k k') a).tagged := by
      cases zero : Fraction.isZero k with
      | true =>
        have zero' := alike.symm.trans zero
        have settles := settlesOn_of_zero sum t s s' a zero zero'
        rw [multiple, if_pos (isZero_sumOf sum zero zero'), ← sumOf_zero sum]
        exact settles.simplify (by decide) rfl
      | false =>
        have settles := settlesOn_of_nonzero sum t s s' a zero (alike.symm.trans zero)
        exact settles.simplify (by decide) rfl
    refine ⟨run, simplified, settled, by rw [tree, if_pos alike], ?_⟩
    rw [tree, beq_congr (untagged_tagged _) rfl]
    exact iff_of_true BEq.rfl alike
  · have settles := settlesOn_of_apart sum t s s' a alike
    obtain ⟨run, simplified, settled, tree⟩ := settles.simplify (by decide) rfl
    refine ⟨run, simplified, settled, by rw [tree, if_neg alike], ?_⟩
    rw [tree, beq_congr (untagged_tagged _) rfl, op_beq_multiple sum]
    exact iff_of_false Bool.false_ne_true alike

/-- `2x - 2x` is zero, and so is `0pi + 0pi`, but `2x + 0x` stays `2x + 0`. -/
theorem simplify_two_terms_zero : ∃ nothing zeros beside : Simplification Binary64,
    (op .sub (op .mul (number (.ofInt 2)) (var "x")) (op .mul (number (.ofInt 2)) (var "x")) :
      Expr Binary64).simplify = .ok nothing ∧ nothing.tree = number (.ofInt 0) ∧
    (op .add (op .mul (number (.ofInt 0)) (const .pi)) (op .mul (number (.ofInt 0)) (const .pi)) :
      Expr Binary64).simplify = .ok zeros ∧ zeros.tree = number (.ofInt 0) ∧
    (op .add (op .mul (number (.ofInt 2)) (var "x")) (op .mul (number (.ofInt 0)) (var "x")) :
      Expr Binary64).simplify = .ok beside ∧
      beside.tree =
        (op .add (op .mul (number (.ofInt 2)) (var "x")) (number (.ofInt 0))).tagged := by
  have zero : Fraction.isZero (Binary64.ofInt 0) = true := by decide +kernel
  have two : Fraction.isZero (Binary64.ofInt 2) = false := by decide +kernel
  have none : Fraction.isZero (Rule.sumOf .sub (.ofInt 2) (.ofInt 2) : Binary64) = true := by
    decide +kernel
  have none' : Fraction.isZero (Rule.sumOf .add (.ofInt 0) (.ofInt 0) : Binary64) = true := by
    decide +kernel
  obtain ⟨nothing, simplified, -, tree, -⟩ :=
    simplify_two_terms (.inr rfl) .empty .empty .empty (.ofInt 2) (.ofInt 2) (.var "x")
  obtain ⟨zeros, simplified', -, tree', -⟩ :=
    simplify_two_terms (.inl rfl) .empty .empty .empty (.ofInt 0) (.ofInt 0) (.const .pi)
  obtain ⟨beside, simplified'', -, tree'', -⟩ :=
    simplify_two_terms (.inl rfl) .empty .empty .empty (.ofInt 2) (.ofInt 0) (.var "x")
  rw [if_pos rfl, multiple, if_pos none] at tree
  rw [if_pos rfl, multiple, if_pos none'] at tree'
  rw [if_neg (by simp [zero, two]), multiple, if_neg (by simp [two]), multiple, if_pos zero]
    at tree''
  exact ⟨nothing, zeros, beside, simplified, tree, simplified', tree', simplified'', tree''⟩

/-- `0x + 2x` settles, but not on `2x`. -/
theorem simplify_zero_term_stays : ∃ run : Simplification Binary64,
    (op .add (op .mul (number (.ofInt 0)) (var "x")) (op .mul (number (.ofInt 2)) (var "x")) :
      Expr Binary64).simplify = .ok run ∧ run.settled = true ∧
    Rule.sumOf .add (Binary64.ofInt 0) (.ofInt 2) = .ofInt 2 ∧
    (run.tree == op .mul (number (Binary64.ofInt 2)) (var "x")) = false := by
  have apart : Fraction.isZero (Binary64.ofInt 0) ≠ Fraction.isZero (Binary64.ofInt 2) := by
    decide +kernel
  have settles := settlesOn_of_apart (.inl rfl) .empty .empty .empty (.var "x") apart
  obtain ⟨run, simplified, settled, tree⟩ := settles.simplify (by decide) rfl
  refine ⟨run, simplified, settled, by decide +kernel, ?_⟩
  rw [tree, beq_congr (untagged_tagged _) rfl]
  rfl

end Expr

end AlgebraEngine
