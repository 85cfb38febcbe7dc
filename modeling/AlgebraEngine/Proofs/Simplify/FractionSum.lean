import AlgebraEngine.Proofs.Simplify.Making
import AlgebraEngine.Proofs.Simplify.Redex

/-! Sums and differences of two quotients of integers. A quotient that is an integer is a number
before the sum is looked at, and a number is no fraction. -/
namespace AlgebraEngine

open AlgebraEngine.Expr

namespace Exact

/-- A rational number as simplification writes it: an integer as a number, and anything else as a
fraction in lowest terms. -/
def ratio (q : ℚ) : Expr Exact :=
  if q.den = 1 then .number (rational q) else .fraction (rational q.num) (rational q.den)

theorem isInteger_rational {q : ℚ} : Arithmetic.isInteger (rational q) = true ↔ q.den = 1 := by
  rw [isInteger_iff]
  constructor
  · rintro ⟨n, same⟩
    rw [rational.injEq] at same
    rw [same, Rat.den_intCast]
  · intro whole
    exact ⟨q.num, congrArg rational (Rat.coe_int_num_of_den_eq_one whole).symm⟩

theorem ratio_of_lowest {m k : ℤ} (lowest : Lowest m k) :
    ratio ((m : ℚ) / k) = .fraction (rational m) (rational k) := by
  have den := lowest.den_eq
  have above := lowest.above_one
  have num : ((m : ℚ) / k).num = m := Rat.num_div_eq_of_coprime (by omega) lowest.coprime
  have fractional : ((m : ℚ) / k).den ≠ 1 := by omega
  have cast : ((((m : ℚ) / k).den : ℕ) : ℚ) = k := by exact_mod_cast congrArg (Int.cast : ℤ → ℚ) den
  rw [ratio, if_neg fractional, num, cast]

/-- Every rational number is an integer or a fraction in lowest terms. -/
theorem ratio_cases (q : ℚ) :
    (q.den = 1 ∧ ratio q = .number (rational q)) ∨
      q.den ≠ 1 ∧ ∃ m k : ℤ, Lowest m k ∧ q = m / k ∧
        ratio q = .fraction (rational m) (rational k) := by
  by_cases whole : q.den = 1
  · exact .inl ⟨whole, if_pos whole⟩
  · have lowest : Lowest q.num q.den := by
      refine ⟨by simpa [Int.gcd_eq_natAbs_gcd_natAbs] using q.reduced, ?_⟩
      have positive := q.den_pos
      omega
    have same : q = (q.num : ℚ) / (q.den : ℤ) := by
      rw [Int.cast_natCast, Rat.num_div_den]
    refine .inr ⟨whole, q.num, q.den, lowest, same, ?_⟩
    conv_lhs => rw [same]
    exact ratio_of_lowest lowest

/-- Dividing two integers writes their quotient. -/
theorem quotientOf_int {m k : ℤ} (nonzero : k ≠ 0) :
    Rule.quotientOf (rational m) (rational k) = ratio (m / k) := by
  have quotient : (rational m / rational k : Exact) = rational (m / k) :=
    rational_div (by exact_mod_cast nonzero)
  have integer (n : ℤ) : Arithmetic.isInteger (rational n) = true := isInteger_iff.mpr ⟨n, rfl⟩
  have finite : Arithmetic.isFinite (rational ((m : ℚ) / k)) = true := isFinite_iff.mpr ⟨_, rfl⟩
  rw [Rule.quotientOf, quotient, integer, integer, finite]
  cases whole : Arithmetic.isInteger (rational ((m : ℚ) / k)) with
  | true => exact (if_pos (isInteger_rational.mp whole)).symm
  | false =>
    obtain ⟨m', k', lowest, same, reduced⟩ := reduce_int nonzero whole
    rw [same, ratio_of_lowest lowest, ← reduced]
    rfl

theorem normal_ratio (q : ℚ) : (ratio q).Normal Rule.forNode := by
  rcases ratio_cases q with ⟨-, number⟩ | ⟨-, m, k, lowest, -, fraction⟩
  · rw [number]
    exact normal_number _
  · rw [fraction]
    refine normal_iff.mpr ⟨?_, ?_⟩
    · intro step after first
      have divided := Rule.first?_quotient .empty (rational m) (rational k)
      rw [quotientOf_lowest lowest] at divided
      cases divided.symm.trans first
      exact BEq.rfl
    · have operands := And.intro (normal_number (rational m)) (normal_number (rational k))
      simpa [Expr.fraction] using operands

theorem number?_ratio (q : ℚ) : (ratio q).number?.isSome = true ↔ q.den = 1 := by
  rcases ratio_cases q with ⟨whole, number⟩ | ⟨fractional, m, k, -, -, fraction⟩
  · rw [number]
    exact iff_of_true rfl whole
  · rw [fraction]
    exact iff_of_false Bool.false_ne_true fractional

/-- A pass over a quotient of integers writes it as a literal. -/
theorem makes_ratio (s : Tags) {m k : ℤ} (nonzero : k ≠ 0) :
    Sweep.Makes Rule.forNode (.binary s .div (.number (rational m)) (.number (rational k)))
      (ratio (m / k)) := by
  have operand (n : ℤ) : Sweep.Makes Rule.forNode (.number (rational n)) (.number (rational n)) :=
    Sweep.makes_of_normal (normal_number _)
  have first := Rule.first?_quotient .empty (rational m) (rational k)
  rw [quotientOf_int nonzero] at first
  cases same : ratio ((m : ℚ) / k) == .fraction (rational m) (rational k) with
  | false => exact (operand m).rewrite (operand k) first same
  | true =>
    rcases ratio_cases ((m : ℚ) / k) with ⟨-, number⟩ | ⟨-, m', k', -, -, fraction⟩
    · rw [number] at same
      cases same
    · rw [fraction] at same
      have parts : (rational m' == rational m && rational k' == rational k) = true := same
      simp only [Bool.and_eq_true, beq_iff_eq] at parts
      have normal := normal_ratio ((m : ℚ) / k)
      rw [fraction, parts.1, parts.2] at normal ⊢
      exact (operand m).op (operand k) (normal_iff.mp normal).1

/-- A fraction of integers is a literal after one more pass, whether or not it is reduced. -/
theorem settlesOn_make {m k : ℤ} (nonzero : k ≠ 0) :
    Simplification.SettlesOn Rule.forNode 2 (Fraction.make (rational m) (rational k))
      (ratio (m / k)) := by
  have quotient : (rational m / rational k : Exact) = rational (m / k) :=
    rational_div (by exact_mod_cast nonzero)
  have settles := Simplification.settlesOn_of_normal (normal_ratio (m / k))
  simp only [Fraction.make, quotient]
  split
  · rename_i whole
    have number : ratio ((m : ℚ) / k) = .number (rational (m / k)) :=
      if_pos (isInteger_rational.mp whole)
    rw [← number]
    exact settles.of_makes (Sweep.makes_of_normal (normal_ratio _))
  · split
    · have negated := makes_ratio .empty (m := -m) (neg_ne_zero.mpr nonzero)
      push_cast at negated
      rw [neg_div_neg_eq] at negated
      exact settles.of_makes negated
    · exact settles.of_makes (makes_ratio .empty nonzero)

/-- The difference of two rational numbers for a minus sign, and their sum for any other
operator. -/
def combined (o : BinaryOp) (p q : ℚ) : ℚ := if o = .sub then p - q else p + q

theorem sumOf_rational (o : BinaryOp) (p q : ℚ) :
    Rule.sumOf o (rational p) (rational q) = rational (combined o p q) := by
  unfold Rule.sumOf combined
  split <;> simp

theorem combined_div (o : BinaryOp) (p q r : ℚ) :
    combined o p q / r = combined o (p / r) (q / r) := by
  unfold combined
  split
  · exact sub_div p q r
  · exact add_div p q r

theorem combined_int (o : BinaryOp) (m n : ℤ) : ∃ z : ℤ, combined o m n = z := by
  unfold combined
  split
  · exact ⟨m - n, (Int.cast_sub m n).symm⟩
  · exact ⟨m + n, (Int.cast_add m n).symm⟩

/-- Integers add up to an integer. -/
theorem combined_whole (o : BinaryOp) {p q : ℚ} (whole : p.den = 1) (whole' : q.den = 1) :
    (combined o p q).den = 1 := by
  rw [← Rat.coe_int_num_of_den_eq_one whole, ← Rat.coe_int_num_of_den_eq_one whole']
  obtain ⟨z, same⟩ := combined_int o p.num q.num
  rw [same, Rat.den_intCast]

/-- Fractions of integers are added up to one fraction of integers. -/
theorem addFractions_int {o : BinaryOp} (sum : o = .add ∨ o = .sub) (m m' : ℤ) {k k' : ℤ}
    (nonzero : k ≠ 0) (nonzero' : k' ≠ 0) :
    ∃ n l : ℤ, l ≠ 0 ∧ combined o (m / k) (m' / k') = n / l ∧
      RuleBook.first? Rule.forNode
        (Expr.op o (.fraction (rational m) (rational k))
          (.fraction (rational m') (rational k'))).tagged =
        some (.combineFractions, Fraction.make (rational n) (rational l)) := by
  obtain ⟨x, left⟩ : k ∣ Int.lcm k k' := Int.dvd_lcm_left k k'
  obtain ⟨x', right⟩ : k' ∣ Int.lcm k k' := Int.dvd_lcm_right k k'
  have common : Fraction.lcm (rational k) (rational k') = rational (Int.lcm k k' : ℤ) := by
    rw [lcm_int, Int.cast_natCast]
  have common_ne : (Int.lcm k k' : ℤ) ≠ 0 := by
    exact_mod_cast Int.lcm_ne_zero nonzero nonzero'
  generalize (Int.lcm k k' : ℤ) = l at common common_ne left right
  have scale {k x : ℤ} (nonzero : k ≠ 0) (factor : l = k * x) :
      (rational l / rational k : Exact) = rational x ∧ (l : ℚ) = k * x := by
    have cast : (k : ℚ) ≠ 0 := by exact_mod_cast nonzero
    have factor' : (l : ℚ) = k * x := by exact_mod_cast factor
    refine ⟨?_, factor'⟩
    rw [rational_div cast, factor', mul_div_cancel_left₀ _ cast]
  obtain ⟨scaled, factor⟩ := scale nonzero left
  obtain ⟨scaled', factor'⟩ := scale nonzero' right
  have expand (m k x : ℤ) (factor : (l : ℚ) = k * x) : (m : ℚ) / k = m * x / l := by
    have whole : (x : ℚ) ≠ 0 := by
      rintro zero
      rw [zero, mul_zero] at factor
      exact common_ne (by exact_mod_cast factor)
    rw [factor, mul_div_mul_right _ _ whole]
  obtain ⟨n, numerator⟩ := combined_int o (m * x) (m' * x')
  refine ⟨n, l, common_ne, ?_, ?_⟩
  · rw [← numerator, combined_div]
    push_cast
    rw [expand m k x factor, expand m' k' x' factor']
  · push_cast at numerator
    rcases sum with rfl | rfl <;>
      simp [RuleBook.first?, Rule.forNode, Rule.sumRules, Rule.foldSum, Rule.addFractions, op,
        Expr.fraction, tagged, retag, number?, fraction?, common, scaled, scaled', sumOf_rational,
        numerator]

variable {o : BinaryOp} {m m' k k' : ℤ}

/-- Two quotients that are integers, or two that are not, are added up. -/
theorem settlesOn_combined (sum : o = .add ∨ o = .sub) (t s s' : Tags) (nonzero : k ≠ 0)
    (nonzero' : k' ≠ 0)
    (alike : ((m : ℚ) / k).den = 1 ↔ ((m' : ℚ) / k').den = 1) :
    Simplification.SettlesOn Rule.forNode 3
      (.binary t o (.binary s .div (.number (rational m)) (.number (rational k)))
        (.binary s' .div (.number (rational m')) (.number (rational k'))))
      (ratio (combined o (m / k) (m' / k'))) := by
  have left := makes_ratio s (m := m) nonzero
  have right := makes_ratio s' (m := m') nonzero'
  rcases ratio_cases ((m : ℚ) / k) with ⟨whole, number⟩ | ⟨whole, n, l, lowest, same, fraction⟩ <;>
    rcases ratio_cases ((m' : ℚ) / k') with
      ⟨whole', number'⟩ | ⟨whole', n', l', lowest', same', fraction'⟩
  · rw [number] at left
    rw [number'] at right
    have normal := Simplification.settlesOn_of_normal (normal_ratio (combined o (m / k) (m' / k')))
    refine (normal.of_makes ?_).mono (Nat.le_succ 2)
    rw [ratio, if_pos (combined_whole o whole whole'), ← sumOf_rational]
    rcases sum with rfl | rfl <;> exact left.rewrite right rfl rfl
  · exact absurd (alike.mp whole) whole'
  · exact absurd (alike.mpr whole') whole
  · rw [fraction] at left
    rw [fraction'] at right
    have above := lowest.above_one
    have above' := lowest'.above_one
    have nonzero : l ≠ 0 := by omega
    have nonzero' : l' ≠ 0 := by omega
    obtain ⟨z, d, common, value, first⟩ := addFractions_int sum n n' nonzero nonzero'
    rw [same, same', value]
    refine (settlesOn_make common).of_makes (left.rewrite right first ?_)
    exact Rule.make_beq (by rcases sum with rfl | rfl <;> nofun)

/-- An integer and a fraction stay side by side. -/
theorem settlesOn_mixed (sum : o = .add ∨ o = .sub) (t s s' : Tags) (nonzero : k ≠ 0)
    (nonzero' : k' ≠ 0)
    (mixed : ¬ (((m : ℚ) / k).den = 1 ↔ ((m' : ℚ) / k').den = 1)) :
    Simplification.SettlesOn Rule.forNode 2
      (.binary t o (.binary s .div (.number (rational m)) (.number (rational k)))
        (.binary s' .div (.number (rational m')) (.number (rational k'))))
      (.op o (ratio (m / k)) (ratio (m' / k'))) := by
  rw [← number?_ratio, ← number?_ratio] at mixed
  have normal := normal_sum_apart sum (normal_ratio _) (normal_ratio _) mixed
  exact (Simplification.settlesOn_of_normal normal).of_makes
    ((makes_ratio s nonzero).op (makes_ratio s' nonzero') (normal_iff.mp normal).1)

/-- A single literal: a number or a quotient of two numbers. -/
def IsLiteral (e : Expr Exact) : Prop := e.number?.isSome = true ∨ e.fraction?.isSome = true

theorem isLiteral_ratio (q : ℚ) : IsLiteral (ratio q).tagged := by
  unfold IsLiteral
  rcases ratio_cases q with ⟨-, number⟩ | ⟨-, m, k, -, -, fraction⟩
  · rw [number]
    exact .inl rfl
  · rw [fraction]
    exact .inr rfl

theorem not_isLiteral_sum (sum : o = .add ∨ o = .sub) (l r : Expr Exact) :
    ¬ IsLiteral (op o l r).tagged := by
  rintro (number | fraction)
  · cases number
  · rcases sum with rfl | rfl <;> cases fraction

end Exact

open Exact

/-- The sum or difference of two quotients of integers is one literal, a number or a fraction in
lowest terms, that is exactly what they add up to, if both quotients are integers or neither is. An
integer beside a fraction is not added to it. -/
theorem Expr.simplify_fractions {o : BinaryOp} (sum : o = .add ∨ o = .sub) (t s s' : Tags)
    (a b c d : ℤ) (nonzero : b ≠ 0) (nonzero' : d ≠ 0) :
    ∃ run, (binary t o (binary s .div (number (rational a)) (number (rational b)))
        (binary s' .div (number (rational c)) (number (rational d)))).simplify = .ok run ∧
      run.settled = true ∧
      run.tree = (if b ∣ a ↔ d ∣ c then ratio (combined o (a / b) (c / d))
        else op o (ratio (a / b)) (ratio (c / d))).tagged ∧
      (IsLiteral run.tree ↔ (b ∣ a ↔ d ∣ c)) := by
  have left := Rat.den_div_intCast_eq_one_iff a b nonzero
  have right := Rat.den_div_intCast_eq_one_iff c d nonzero'
  by_cases alike : b ∣ a ↔ d ∣ c
  · have alike' := alike
    rw [← left, ← right] at alike'
    have settles := settlesOn_combined sum t s s' nonzero nonzero' alike'
    obtain ⟨run, simplified, settled, tree⟩ := settles.simplify (by decide) rfl
    refine ⟨run, simplified, settled, by rw [tree, if_pos alike], ?_⟩
    rw [tree]
    exact iff_of_true (isLiteral_ratio _) alike
  · have mixed := alike
    rw [← left, ← right] at mixed
    have settles := settlesOn_mixed sum t s s' nonzero nonzero' mixed
    obtain ⟨run, simplified, settled, tree⟩ := settles.simplify (by decide) rfl
    refine ⟨run, simplified, settled, by rw [tree, if_neg alike], ?_⟩
    rw [tree]
    exact iff_of_false (not_isLiteral_sum sum _ _) alike

/-- `2/3 + 5/2` is `19/6`, `6/4 - 1/2` is `1`, and `4/2 - 1/3` stays `2 - 1/3`. -/
theorem Expr.simplify_fractions_sixths : ∃ sum whole mixed : Simplification Exact,
    (op .add (.fraction (rational (2 : ℤ)) (rational (3 : ℤ)))
      (.fraction (rational (5 : ℤ)) (rational (2 : ℤ)))).simplify = .ok sum ∧
      sum.tree = (Expr.fraction (rational (19 : ℤ)) (rational (6 : ℤ))).tagged ∧
    (op .sub (.fraction (rational (6 : ℤ)) (rational (4 : ℤ)))
      (.fraction (rational (1 : ℤ)) (rational (2 : ℤ)))).simplify = .ok whole ∧
      whole.tree = .number (rational 1) ∧
    (op .sub (.fraction (rational (4 : ℤ)) (rational (2 : ℤ)))
      (.fraction (rational (1 : ℤ)) (rational (3 : ℤ)))).simplify = .ok mixed ∧
      mixed.tree = (op .sub (.number (rational 2))
        (.fraction (rational (1 : ℤ)) (rational (3 : ℤ)))).tagged := by
  have sixths : combined .add ((2 : ℤ) / (3 : ℤ)) ((5 : ℤ) / (2 : ℤ)) = (19 : ℤ) / (6 : ℤ) := by
    rw [combined, if_neg (by decide)]
    norm_num
  have one : combined .sub ((6 : ℤ) / (4 : ℤ)) ((1 : ℤ) / (2 : ℤ)) = 1 := by
    rw [combined, if_pos rfl]
    norm_num
  have two : ((4 : ℤ) : ℚ) / (2 : ℤ) = 2 := by norm_num
  obtain ⟨sum, simplified, -, tree, -⟩ :=
    simplify_fractions (.inl rfl) .empty .empty .empty 2 3 5 2 (by decide) (by decide)
  obtain ⟨whole, simplified', -, tree', -⟩ :=
    simplify_fractions (.inr rfl) .empty .empty .empty 6 4 1 2 (by decide) (by decide)
  obtain ⟨mixed, simplified'', -, tree'', -⟩ :=
    simplify_fractions (.inr rfl) .empty .empty .empty 4 2 1 3 (by decide) (by decide)
  rw [if_pos (by decide), sixths, ratio_of_lowest ⟨by decide, by decide⟩] at tree
  rw [if_pos (by decide), one, ratio, if_pos Rat.den_one] at tree'
  rw [if_neg (by decide), two, ratio_of_lowest ⟨by decide, by decide⟩, ratio,
    if_pos Rat.den_ofNat] at tree''
  exact ⟨sum, whole, mixed, simplified, tree, simplified', tree', simplified'', tree''⟩

/-- `4/2 + 1/3` settles, but not on a single literal. -/
theorem Expr.simplify_fractions_beside : ∃ run : Simplification Exact,
    (op .add (.fraction (rational (4 : ℤ)) (rational (2 : ℤ)))
      (.fraction (rational (1 : ℤ)) (rational (3 : ℤ)))).simplify = .ok run ∧ run.settled = true ∧
    ¬ IsLiteral run.tree := by
  have whole := Rat.den_div_intCast_eq_one_iff 4 2 (by decide)
  have fractional := Rat.den_div_intCast_eq_one_iff 1 3 (by decide)
  have mixed : ¬ ((((4 : ℤ) : ℚ) / (2 : ℤ)).den = 1 ↔ (((1 : ℤ) : ℚ) / (3 : ℤ)).den = 1) := by
    rw [whole, fractional]
    decide
  have settles := settlesOn_mixed (.inl rfl) .empty .empty .empty (by decide) (by decide) mixed
  obtain ⟨run, simplified, settled, tree⟩ := settles.simplify (by decide) rfl
  refine ⟨run, simplified, settled, ?_⟩
  rw [tree]
  exact not_isLiteral_sum (.inl rfl) _ _

end AlgebraEngine
