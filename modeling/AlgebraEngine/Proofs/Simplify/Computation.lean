import AlgebraEngine.Proofs.Expr.Computed
import AlgebraEngine.Proofs.Simplify.Derivation
import AlgebraEngine.Proofs.Simplify.ExactFraction

/-! Simplification of a tree of numbers can only lose what the tree computes to, and never puts
another number in its place. Unlike the value of a tree, this also covers trees that divide by zero
on the way to a number. -/
namespace AlgebraEngine

variable {ν : Type} [Arithmetic ν]

namespace Expr

variable {allowed : Atom → Prop} {e e' after : Expr ν} {step : Step} {steps : List Step}

omit [Arithmetic ν] in
theorem arithmetical_fraction (n d : ν) : (Expr.fraction n d).Arithmetical allowed :=
  .binary rfl (.number n) (.number d)

theorem arithmetical_make (n d : ν) : (Fraction.make n d).Arithmetical allowed :=
  Rule.make_elim .number arithmetical_fraction n d

theorem arithmetical_quotientOf (n d : ν) : (Rule.quotientOf n d).Arithmetical allowed :=
  Rule.quotientOf_elim .number arithmetical_fraction n d

/-- What a rule makes of arithmetic is arithmetic again. -/
theorem fires_arithmetical (fires : Rule.Fires step e after) (shape : e.Arithmetical allowed) :
    after.Arithmetical allowed := by
  cases fires with
  | foldSum | foldProduct | zeroLeft | zeroRight | negateConstant => exact .number _
  | addFractions | multiplyFractions | divideByFraction => exact arithmetical_make _ _
  | divideNumbers => exact arithmetical_quotientOf _ _
  | keepApart => exact shape
  | combineLikeTerms sum =>
    obtain ⟨arithmetic, ⟨left, allows⟩, right, -⟩ := by simpa using shape
    exact .binary rfl (.binary arithmetic left right) (.atom allows)
  | removePlus | cancelNegations => simpa using shape
  | negateCoefficient | negateFraction | negateSum | negateDifference =>
    simpa [fraction] using shape

theorem rewrites_arithmetical (rewrites : Rewrites Rule.forNode step e e')
    (shape : e.Arithmetical allowed) : e'.Arithmetical allowed := by
  induction rewrites with
  | node first differs =>
    rw [arithmetical_untagged]
    exact fires_arithmetical (Rule.fires_of_first? first) (arithmetical_tagged.mpr shape)
  | left o r inner ih =>
    obtain ⟨arithmetic, left, right⟩ := arithmetical_op.mp shape
    exact .binary arithmetic (ih left) right
  | right o l inner ih =>
    obtain ⟨arithmetic, left, right⟩ := arithmetical_op.mp shape
    exact .binary arithmetic left (ih right)
  | operand o inner ih => exact .unary (ih (arithmetical_sign.mp shape))
  | argument f us vs inner ih => exact absurd shape not_arithmetical_call
  | leftSide r inner ih | rightSide l inner ih => exact absurd shape not_arithmetical_equality

theorem derivation_arithmetical (derived : Derivation Rule.forNode steps e e')
    (shape : e.Arithmetical allowed) : e'.Arithmetical allowed := by
  induction derived with
  | done => exact shape
  | step first rest ih => exact ih (rewrites_arithmetical first shape)

theorem arithmetical_of_untagged (derived : Derivation Rule.forNode steps e.untagged e'.untagged)
    (shape : e.Arithmetical allowed) : e'.Arithmetical allowed :=
  arithmetical_untagged.mp (derivation_arithmetical derived (arithmetical_untagged.mpr shape))

end Expr

namespace Exact

variable (n d d' : Exact)

/-- A fraction computes to the quotient of its parts, in whichever form it is made. -/
theorem computed_make : (Fraction.make n d).computed = n.unsigned / d.unsigned := by
  unfold Fraction.make
  dsimp only
  split
  · exact unsigned_div n d
  · split
    · show Projective.operate .div (-n).unsigned (-d).unsigned = _
      rw [unsigned_neg, unsigned_neg, Projective.operate, Projective.neg_div_neg]
    · rfl

theorem computed_quotientOf : (Rule.quotientOf n d).computed = n.unsigned / d.unsigned := by
  rw [← unsigned_div]
  rcases quotientOf_cases n d with made | ⟨m, k, lowest, same, made⟩
  · rw [made]
    rfl
  · have positive : (0 : ℤ) < k := lt_trans one_pos lowest.above_one
    have nonzero : (k : ℚ) ≠ 0 := by exact_mod_cast positive.ne'
    rw [made, same]
    exact Projective.finite_div nonzero

/-- The common denominator of two numbers is zero if one of them is. -/
theorem lcm_zero {p q : ℚ} (zero : p * q = 0) :
    Fraction.lcm (rational p) (rational q) = rational 0 := by
  unfold Fraction.lcm
  dsimp only
  split
  · rfl
  · rename_i nonzero
    obtain ⟨g, divisor⟩ : ∃ g : ℚ, Fraction.gcd (rational p) (rational q) = rational g := by
      unfold Fraction.gcd
      split
      · exact ⟨_, rfl⟩
      · exact ⟨_, rfl⟩
    rw [divisor] at nonzero ⊢
    rw [isZero_iff, rational.injEq] at nonzero
    rw [rational_mul, zero, rational_abs, rational_div nonzero]
    simp

/-- The common denominator of two numbers is not finite if one of them is infinite. -/
theorem unsigned_lcm_infinite (infinite : d.unsigned = .infinite ∨ d'.unsigned = .infinite)
    (q : ℚ) : (Fraction.lcm d d').unsigned ≠ .finite q := by
  have coprime : Fraction.gcd d d' = rational 1 := by
    unfold Fraction.gcd
    split
    · rename_i m k left right
      rw [toInt?_eq_some] at left right
      simp [left, right] at infinite
    · simp
  have unit : Fraction.isZero (rational 1) = false := rfl
  have product : ∀ p, (d * d').unsigned ≠ .finite p := by
    intro p
    rw [unsigned_mul]
    rcases infinite with infinite | infinite
    · rw [infinite]
      exact Projective.infinite_mul_ne_finite _
    · rw [infinite, mul_comm]
      exact Projective.infinite_mul_ne_finite _
  simp only [Fraction.lcm, coprime, unit, Bool.false_eq_true, ↓reduceIte, unsigned_div,
    unsigned_abs product]
  rw [unsigned_rational, ← Projective.one_def, div_one]
  exact product q

/-- Where a denominator is zero or not finite, the common denominator cannot be divided by one of
the two. -/
theorem unsigned_lcm_div :
    (∃ p q m : ℚ, m ≠ 0 ∧ p ≠ 0 ∧ q ≠ 0 ∧ d = rational p ∧ d' = rational q ∧
        Fraction.lcm d d' = rational m) ∨
      (Fraction.lcm d d' / d).unsigned = .undefined ∨
        (Fraction.lcm d d' / d').unsigned = .undefined := by
  rw [unsigned_div, unsigned_div]
  cases d with
  | rational p =>
    cases d' with
    | rational q =>
      by_cases left : p = 0
      · subst left
        rw [lcm_zero (zero_mul q)]
        exact .inr (.inl (by simp [div_eq_mul_inv]))
      · by_cases right : q = 0
        · subst right
          rw [lcm_zero (mul_zero p)]
          exact .inr (.inr (by simp [div_eq_mul_inv]))
        · obtain ⟨m, nonzero, multiple⟩ := lcm_rational left right
          exact .inl ⟨p, q, m, nonzero, left, right, rfl, rfl, multiple⟩
    | infinite s =>
      exact .inr (.inr (Projective.div_infinite (unsigned_lcm_infinite _ _ (.inr rfl))))
    | undefined => exact .inr (.inr (by simp [div_eq_mul_inv]))
  | infinite s =>
    exact .inr (.inl (Projective.div_infinite (unsigned_lcm_infinite _ _ (.inl rfl))))
  | undefined => exact .inr (.inl (by simp [div_eq_mul_inv]))

theorem unsigned_sumOf_le {o : BinaryOp} (sum : o = .add ∨ o = .sub) :
    (Rule.sumOf o n d).unsigned ≤ .operate o n.unsigned d.unsigned := by
  rcases sum with rfl | rfl
  · exact unsigned_add_le n d
  · exact unsigned_sub_le n d

end Exact

namespace Expr

open Projective (operate)

variable {e e' after : Expr Exact} {step : Step} {steps : List Step}

theorem computed_rational {n d : Exact} (rational : Rule.rational? e = some (n, d)) :
    e.computed = n.unsigned / d.unsigned := by
  unfold Rule.rational? at rational
  split at rational
  · rename_i x number
    cases rational
    obtain rfl := number?_eq_some number
    have unit : (Arithmetic.ofInt 1 : Exact).unsigned = 1 := by simp [Projective.one_def]
    rw [unit, div_one]
    rfl
  · obtain ⟨t, rfl⟩ := fraction?_eq_some rational
    rfl

/-- Fractions over different denominators add up over the common one, unless that does not exist. -/
theorem computed_addFractions {o : BinaryOp} (sum : o = .add ∨ o = .sub) (n d n' d' : Exact) :
    (Fraction.make (Rule.sumOf o (n * (Fraction.lcm d d' / d)) (n' * (Fraction.lcm d d' / d')))
        (Fraction.lcm d d')).computed ≤
      operate o (n.unsigned / d.unsigned) (n'.unsigned / d'.unsigned) := by
  have total := Exact.unsigned_sumOf_le (n * (Fraction.lcm d d' / d))
    (n' * (Fraction.lcm d d' / d')) sum
  rw [Exact.unsigned_mul, Exact.unsigned_mul] at total
  rw [Exact.computed_make]
  rcases Exact.unsigned_lcm_div d d' with
    ⟨p, q, m, nonzero, left, right, rfl, rfl, multiple⟩ | missing | missing
  · simp only [multiple, Exact.unsigned_div, Exact.unsigned_rational] at total ⊢
    calc Exact.unsigned (Rule.sumOf o _ _) / .finite m
        ≤ operate o (n.unsigned * (.finite m / .finite p)) (n'.unsigned * (.finite m / .finite q))
            / .finite m := Projective.operate_mono .div total le_rfl
      _ = operate o (n.unsigned / .finite p) (n'.unsigned / .finite q) := by
        rw [Projective.operate_div sum nonzero, Projective.mul_div_div_cancel nonzero,
          Projective.mul_div_div_cancel nonzero]
  · rw [missing, Projective.mul_undefined, Projective.undefined_operate,
      Projective.le_undefined_iff] at total
    rw [total]
    exact .inl (Projective.undefined_operate .div)
  · rw [missing, Projective.mul_undefined, Projective.operate_undefined,
      Projective.le_undefined_iff] at total
    rw [total]
    exact .inl (Projective.undefined_operate .div)

theorem not_symbolic (closed : e.Numerical) : ¬Rule.isSymbolic e = true := by
  cases closed with
  | number value | unary inner => simp [Rule.isSymbolic, atom?, term?]
  | atom allows => exact allows.elim
  | @binary t o l r arithmetic left right =>
    intro symbolic
    obtain ⟨⟨c, a⟩, term⟩ : ∃ term, (binary t o l r).term? = some term := by
      simpa [Rule.isSymbolic, atom?, Option.isSome_iff_exists] using symbolic
    obtain ⟨s, same⟩ := term?_eq_some term
    cases same
    exact arithmetical_atom.mp right

/-- A rule can only lose what a tree of numbers computes to. -/
theorem fires_computed (fires : Rule.Fires step e after) (closed : e.Numerical) :
    after.computed ≤ e.computed := by
  cases fires with
  | foldSum sum => exact Exact.unsigned_sumOf_le _ _ sum
  | addFractions sum => exact computed_addFractions sum _ _ _ _
  | keepApart => exact le_rfl
  | combineLikeTerms | negateCoefficient | negateFraction => simp at closed
  | foldProduct => exact (Exact.unsigned_mul _ _).le
  | multiplyFractions =>
    rw [Exact.computed_make, Exact.unsigned_mul, Exact.unsigned_mul]
    exact (div_mul_div_comm _ _ _ _).ge
  | zeroLeft zero symbolic => exact absurd symbolic (not_symbolic (arithmetical_binary.mp closed).2.2)
  | zeroRight zero symbolic =>
    exact absurd symbolic (not_symbolic (arithmetical_binary.mp closed).2.1)
  | divideNumbers => exact (Exact.computed_quotientOf _ _).le
  | divideByFraction rational =>
    rw [Exact.computed_make, Exact.unsigned_mul, Exact.unsigned_mul]
    simp only [computed, computed_rational rational]
    exact (div_div_div_eq _ _ _ _).ge
  | removePlus => exact le_rfl
  | negateConstant => exact (Exact.unsigned_neg _).le
  | negateSum => exact (Projective.neg_sum _ _).ge
  | negateDifference =>
    refine le_of_eq ?_
    simp only [computed, op, sign, operate, Projective.signed, Projective.sub_def,
      Projective.neg_sum, neg_neg]
  | cancelNegations => exact (neg_neg _).ge

theorem rewrites_computed (rewrites : Rewrites Rule.forNode step e e') (closed : e.Numerical) :
    e'.computed ≤ e.computed := by
  induction rewrites with
  | node first differs =>
    have fired := fires_computed (Rule.fires_of_first? first) (arithmetical_tagged.mpr closed)
    simpa using fired
  | left o r inner ih =>
    exact Projective.operate_mono o (ih (arithmetical_op.mp closed).2.1) le_rfl
  | right o l inner ih =>
    exact Projective.operate_mono o le_rfl (ih (arithmetical_op.mp closed).2.2)
  | operand o inner ih => exact Projective.signed_mono o (ih (arithmetical_sign.mp closed))
  | argument f us vs inner ih => exact absurd closed not_arithmetical_call
  | leftSide r inner ih | rightSide l inner ih => exact absurd closed not_arithmetical_equality

theorem derivation_computed (derived : Derivation Rule.forNode steps e e') (closed : e.Numerical) :
    e'.computed ≤ e.computed := by
  induction derived with
  | done => exact le_rfl
  | step first rest ih =>
    exact (ih (rewrites_arithmetical first closed)).trans (rewrites_computed first closed)

theorem computed_of_untagged (derived : Derivation Rule.forNode steps e.untagged e'.untagged)
    (closed : e.Numerical) : e'.computed ≤ e.computed := by
  simpa using derivation_computed derived (arithmetical_untagged.mpr closed)

end Expr

end AlgebraEngine
