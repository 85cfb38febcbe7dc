import AlgebraEngine.Proofs.Expr.Meaning
import AlgebraEngine.Proofs.Simplify.Derivation
import AlgebraEngine.Proofs.Simplify.ExactFraction

/-! Simplification keeps the value of a tree wherever it has one. Every rule does so at the node it
rewrites, hence every step in every context and every run of steps. -/
namespace AlgebraEngine.Interpretation

variable {K : Type*} [Field K] [CharZero K] [DecidableEq K] {I : Interpretation K}
variable {e after : Expr Exact} {v : K}

/-- A fraction is the quotient of its parts, in whichever form it is made. -/
theorem meaning_make (n : ℚ) {d : ℚ} (nonzero : d ≠ 0) :
    I.meaning (Fraction.make (.rational n) (.rational d)) = some ((n / d : ℚ) : K) := by
  rcases Exact.make_cases n nonzero with made | ⟨n', d', nonzero', same, made⟩
  · rw [made]
    exact meaning_number.mpr ⟨_, rfl, rfl⟩
  · rw [made]
    exact meaning_fraction.mpr ⟨n', d', rfl, rfl, nonzero', by rw [same]⟩

theorem meaning_quotientOf (n : ℚ) {d : ℚ} (nonzero : d ≠ 0) :
    I.meaning (Rule.quotientOf (.rational n) (.rational d)) = some ((n / d : ℚ) : K) := by
  have quotient := Exact.rational_div (p := n) nonzero
  rcases Exact.quotientOf_cases (.rational n) (.rational d) with made | ⟨m, k, lowest, same, made⟩
  · rw [made, quotient]
    exact meaning_number.mpr ⟨_, rfl, rfl⟩
  · rw [quotient, Exact.rational.injEq] at same
    have positive : (0 : ℤ) < k := lt_trans one_pos lowest.above_one
    rw [made, same]
    exact meaning_fraction.mpr ⟨m, k, rfl, rfl, by exact_mod_cast positive.ne', rfl⟩

theorem meaning_rational {l : Expr Exact} {n d : Exact} (rational : Rule.rational? l = some (n, d))
    (value : I.meaning l = some v) :
    ∃ p q : ℚ, n = .rational p ∧ d = .rational q ∧ q ≠ 0 ∧ ((p / q : ℚ) : K) = v := by
  unfold Rule.rational? at rational
  split at rational
  · rename_i x number
    cases rational
    obtain rfl := Expr.number?_eq_some number
    obtain ⟨q, rfl, rfl⟩ := meaning_number.mp value
    exact ⟨q, 1, rfl, rfl, one_ne_zero, by simp⟩
  · obtain ⟨t, rfl⟩ := Expr.fraction?_eq_some rational
    exact meaning_fraction.mp value

private theorem addFractions_refines {t s s' : Tags} {o : BinaryOp} {n d n' d' : Exact}
    (sum : o = .add ∨ o = .sub) :
    I.Refines
      (.binary t o (.binary s .div (.number n) (.number d))
        (.binary s' .div (.number n') (.number d')))
      (Fraction.make
        (Rule.sumOf o (n * (Fraction.lcm d d' / d)) (n' * (Fraction.lcm d d' / d')))
        (Fraction.lcm d d')) := by
  intro v value
  obtain ⟨x, y, left, right, result⟩ := meaning_binary.mp value
  obtain ⟨p, q, rfl, rfl, nonzero, rfl⟩ := meaning_fraction.mp left
  obtain ⟨p', q', rfl, rfl, nonzero', rfl⟩ := meaning_fraction.mp right
  obtain ⟨m, common, multiple⟩ := Exact.lcm_rational nonzero nonzero'
  rw [multiple, Exact.rational_div nonzero, Exact.rational_div nonzero', Exact.rational_mul,
    Exact.rational_mul]
  rcases sum with rfl | rfl
  · have added : Rule.sumOf .add (Exact.rational (p * (m / q))) (.rational (p' * (m / q'))) =
        .rational (p * (m / q) + p' * (m / q')) := rfl
    rw [added, meaning_make _ common, ← result, operate, Option.some.injEq, ← Rat.cast_add,
      Rat.cast_inj]
    field_simp
  · have subtracted : Rule.sumOf .sub (Exact.rational (p * (m / q))) (.rational (p' * (m / q'))) =
        .rational (p * (m / q) - p' * (m / q')) := Exact.rational_sub
    rw [subtracted, meaning_make _ common, ← result, operate, Option.some.injEq, ← Rat.cast_sub,
      Rat.cast_inj]
    field_simp

omit [CharZero K] in
private theorem combineLikeTerms_refines {t s s' : Tags} {o : BinaryOp} {c c' : Expr Exact}
    {a : Atom} (sum : o = .add ∨ o = .sub) :
    I.Refines (.binary t o (.binary s .mul c (.atom a)) (.binary s' .mul c' (.atom a)))
      (.op .mul (.op o c c') (.atom a)) := by
  intro v value
  obtain ⟨x, y, left, right, result⟩ := meaning_binary.mp value
  obtain ⟨k, coefficient, rfl⟩ := meaning_term.mp left
  obtain ⟨k', coefficient', rfl⟩ := meaning_term.mp right
  rcases sum with rfl | rfl
  · have total : I.meaning (.op .add c c') = some (k + k') :=
      meaning_binary.mpr ⟨k, k', coefficient, coefficient', rfl⟩
    refine meaning_term.mpr ⟨k + k', total, ?_⟩
    simpa [operate, add_mul] using result
  · have total : I.meaning (.op .sub c c') = some (k - k') :=
      meaning_binary.mpr ⟨k, k', coefficient, coefficient', rfl⟩
    refine meaning_term.mpr ⟨k - k', total, ?_⟩
    simpa [operate, sub_mul] using result

omit [CharZero K] in
private theorem eq_zero_of_isZero {x : Exact} (zero : Fraction.isZero x = true)
    (value : I.meaning (.number x) = some v) : v = 0 := by
  rw [Exact.isZero_iff.mp zero] at value
  obtain ⟨q, same, rfl⟩ := meaning_number.mp value
  cases same
  exact Rat.cast_zero

private theorem divideByFraction_refines {t s : Tags} {l : Expr Exact} {n d n' d' : Exact}
    (rational : Rule.rational? l = some (n, d)) :
    I.Refines (.binary t .div l (.binary s .div (.number n') (.number d')))
      (Fraction.make (n * d') (d * n')) := by
  intro v value
  obtain ⟨x, y, left, right, result⟩ := meaning_binary.mp value
  obtain ⟨p, q, rfl, rfl, nonzero, rfl⟩ := meaning_rational rational left
  obtain ⟨p', q', rfl, rfl, nonzero', rfl⟩ := meaning_fraction.mp right
  obtain ⟨divisor, rfl⟩ := operate_div.mp result
  have numerator : p' ≠ 0 := by
    rintro rfl
    simp at divisor
  rw [Exact.rational_mul, Exact.rational_mul, meaning_make _ (mul_ne_zero nonzero numerator),
    ← Rat.cast_div, div_div_div_eq]

/-- Every rule keeps the value of the node it rewrites. -/
theorem fires_refines {step : Step} (fires : Rule.Fires step e after) : I.Refines e after := by
  cases fires with
  | foldSum sum =>
    intro v value
    obtain ⟨x, y, left, right, result⟩ := meaning_binary.mp value
    obtain ⟨p, rfl, rfl⟩ := meaning_number.mp left
    obtain ⟨q, rfl, rfl⟩ := meaning_number.mp right
    rcases sum with rfl | rfl
    · exact meaning_number.mpr ⟨p + q, rfl, by simpa [operate] using result⟩
    · exact meaning_number.mpr ⟨p - q, Exact.rational_sub, by simpa [operate] using result⟩
  | addFractions sum => exact addFractions_refines sum
  | keepApart => exact Refines.refl _
  | combineLikeTerms sum => exact combineLikeTerms_refines sum
  | foldProduct =>
    intro v value
    obtain ⟨x, y, left, right, result⟩ := meaning_binary.mp value
    obtain ⟨p, rfl, rfl⟩ := meaning_number.mp left
    obtain ⟨q, rfl, rfl⟩ := meaning_number.mp right
    exact meaning_number.mpr ⟨p * q, rfl, by simpa [operate] using result⟩
  | multiplyFractions =>
    intro v value
    obtain ⟨x, y, left, right, result⟩ := meaning_binary.mp value
    obtain ⟨p, q, rfl, rfl, nonzero, rfl⟩ := meaning_fraction.mp left
    obtain ⟨p', q', rfl, rfl, nonzero', rfl⟩ := meaning_fraction.mp right
    rw [Exact.rational_mul, Exact.rational_mul, meaning_make _ (mul_ne_zero nonzero nonzero'),
      ← result, operate, ← Rat.cast_mul, div_mul_div_comm]
  | zeroLeft zero symbolic =>
    intro v value
    obtain ⟨x, y, left, right, result⟩ := meaning_binary.mp value
    obtain rfl := eq_zero_of_isZero zero left
    exact meaning_number.mpr ⟨0, rfl, by simpa [operate] using result⟩
  | zeroRight zero symbolic =>
    intro v value
    obtain ⟨x, y, left, right, result⟩ := meaning_binary.mp value
    obtain rfl := eq_zero_of_isZero zero right
    exact meaning_number.mpr ⟨0, rfl, by simpa [operate] using result⟩
  | divideNumbers =>
    intro v value
    obtain ⟨p, q, rfl, rfl, nonzero, rfl⟩ := meaning_fraction.mp value
    exact meaning_quotientOf p nonzero
  | divideByFraction rational => exact divideByFraction_refines rational
  | removePlus =>
    intro v value
    obtain ⟨x, inner, rfl⟩ := meaning_unary.mp value
    exact inner
  | negateConstant =>
    intro v value
    obtain ⟨x, inner, rfl⟩ := meaning_unary.mp value
    obtain ⟨q, rfl, rfl⟩ := meaning_number.mp inner
    exact meaning_number.mpr ⟨-q, rfl, by simp [signed]⟩
  | negateCoefficient =>
    intro v value
    obtain ⟨x, inner, rfl⟩ := meaning_unary.mp value
    obtain ⟨c, coefficient, rfl⟩ := meaning_term.mp inner
    obtain ⟨q, rfl, rfl⟩ := meaning_number.mp coefficient
    exact meaning_term.mpr ⟨_, meaning_number.mpr ⟨-q, rfl, rfl⟩, by simp [signed]⟩
  | negateFraction =>
    intro v value
    obtain ⟨x, inner, rfl⟩ := meaning_unary.mp value
    obtain ⟨c, coefficient, rfl⟩ := meaning_term.mp inner
    obtain ⟨p, q, rfl, rfl, nonzero, rfl⟩ := meaning_fraction.mp coefficient
    have negated := meaning_fraction (I := I) (t := .empty).mpr ⟨-p, q, rfl, rfl, nonzero, rfl⟩
    exact meaning_term.mpr ⟨_, negated, by simp [signed, neg_div]⟩
  | negateSum =>
    intro v value
    obtain ⟨z, inner, rfl⟩ := meaning_unary.mp value
    obtain ⟨x, y, left, right, result⟩ := meaning_binary.mp inner
    have negated : I.meaning (.sign .minus _) = some (-x) := meaning_unary.mpr ⟨x, left, rfl⟩
    cases result
    exact meaning_binary.mpr ⟨-x, y, negated, right, congrArg some (neg_add' x y).symm⟩
  | negateDifference =>
    intro v value
    obtain ⟨z, inner, rfl⟩ := meaning_unary.mp value
    obtain ⟨x, y, left, right, result⟩ := meaning_binary.mp inner
    have negated : I.meaning (.sign .minus _) = some (-x) := meaning_unary.mpr ⟨x, left, rfl⟩
    cases result
    have same : -x + y = -(x - y) := (neg_add_eq_sub x y).trans (neg_sub x y).symm
    exact meaning_binary.mpr ⟨-x, y, negated, right, congrArg some same⟩
  | cancelNegations =>
    intro v value
    obtain ⟨x, outer, rfl⟩ := meaning_unary.mp value
    obtain ⟨y, inner, rfl⟩ := meaning_unary.mp outer
    simpa [signed] using inner

/-- A step keeps the value of the whole tree, wherever in the tree it is taken. -/
theorem rewrites_refines {step : Step} {e' : Expr Exact}
    (rewrites : Rewrites Rule.forNode step e e') : I.Refines e e' := by
  induction rewrites with
  | node first differs =>
    intro v value
    rw [meaning_untagged]
    exact fires_refines (Rule.fires_of_first? first) v (by rwa [meaning_tagged])
  | left o r inner ih => exact ih.op (Refines.refl r)
  | right o l inner ih => exact (Refines.refl l).op ih
  | operand o inner ih => exact ih.sign
  | argument f us vs inner ih => exact ih.apply f us vs
  | leftSide r inner ih | rightSide l inner ih => intro v value; cases value

theorem derivation_refines {steps : List Step} {e' : Expr Exact}
    (derived : Derivation Rule.forNode steps e e') : I.Refines e e' := by
  induction derived with
  | done => exact Refines.refl _
  | step first rest ih => exact (rewrites_refines first).trans ih

theorem refines_of_untagged {steps : List Step} {e' : Expr Exact}
    (derived : Derivation Rule.forNode steps e.untagged e'.untagged) : I.Refines e e' := by
  intro v value
  simpa using derivation_refines derived v (by simpa using value)

theorem derivation_equality {steps : List Step} {l r e' : Expr Exact}
    (derived : Derivation Rule.forNode steps (.equal l r) e') :
    ∃ l' r', e' = .equal l' r' ∧ I.Refines l l' ∧ I.Refines r r' := by
  obtain ⟨l', r', first, second, same, left, right⟩ := derivation_sides derived
  exact ⟨l', r', same, derivation_refines left, derivation_refines right⟩

/-- Simplifying a tree that is shallow enough keeps its value where it has one, however many passes
are made and whatever the open symbols stand for. An equality stays one, and each of its sides
keeps its value. -/
theorem simplifyWith_meaning (I : Interpretation K) (limit : Nat) (e : Expr Exact)
    (shallow : e.depth ≤ maxDepth) :
    ∃ s, e.simplifyWith limit = .ok s ∧ I.Refines e s.tree ∧
      ∀ t side l r, e = .equality t side l r →
        ∃ t' side' l' r', s.tree = .equality t' side' l' r' ∧ I.Refines l l' ∧ I.Refines r r' := by
  refine ⟨_, Expr.simplifyWith_eq limit shallow, ?_, ?_⟩
  · intro v value
    have refines := derivation_refines (I := I) (Simplification.run_derived Rule.forNode limit e)
    simpa using refines v (by simpa using value)
  · rintro t side l r rfl
    have derived := Simplification.run_derived Rule.forNode limit (.equality t side l r)
    obtain ⟨l₁, r₁, same, left, right⟩ := derivation_equality (I := I) derived
    obtain ⟨t', side', l', r', tree, rfl, rfl⟩ := Expr.equality_of_untagged same
    refine ⟨t', side', l', r', tree, ?_, ?_⟩
    · intro v value
      simpa using left v (by simpa using value)
    · intro v value
      simpa using right v (by simpa using value)

/-- The rational numbers, with `x` standing for three and every open function undefined. -/
def threeForVariable : Interpretation ℚ where
  atom := fun _ => 3
  rem := fun _ _ => none
  pow := fun _ _ => none
  call := fun _ _ => none

/-- `-(2x - (1/2)x) = 3 / (1/2)`, with three for `x`. -/
theorem simplifyWith_meaning_equation :
    ∃ s l r t side,
      (Expr.equal
        (.sign .minus (.op .sub (.op .mul (.number (.rational 2)) (.var "x"))
          (.op .mul (.fraction (.rational 1) (.rational 2)) (.var "x"))))
        (.op .div (.number (.rational 3)) (.fraction (.rational 1) (.rational 2)))).simplifyWith 64
          = .ok s ∧
      s.tree = .equality t side l r ∧ threeForVariable.meaning l = some (-9 / 2) ∧
        threeForVariable.meaning r = some 6 := by
  obtain ⟨s, simplified, -, sides⟩ := simplifyWith_meaning threeForVariable 64
    (Expr.equal
      (.sign .minus (.op .sub (.op .mul (.number (.rational 2)) (.var "x"))
        (.op .mul (.fraction (.rational 1) (.rational 2)) (.var "x"))))
      (.op .div (.number (.rational 3)) (.fraction (.rational 1) (.rational 2)))) (by decide)
  obtain ⟨t, side, l, r, tree, left, right⟩ := sides _ _ _ _ rfl
  exact ⟨s, l, r, t, side, simplified, tree, left _ (by decide +kernel),
    right _ (by decide +kernel)⟩

end AlgebraEngine.Interpretation
