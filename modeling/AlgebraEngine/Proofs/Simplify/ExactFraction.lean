import AlgebraEngine.Proofs.Number.Exact
import AlgebraEngine.Proofs.Simplify.Firing

/-! Fractions of exact numbers, on which the loop of remainders finds the greatest common divisor of
two integers and so their least common multiple. Dividing two numbers leaves their quotient,
or else a fraction in lowest terms over a denominator above one, which dividing again leaves
alone. -/
namespace AlgebraEngine

/-- The loop of remainders, started on two numbers, ends with a third. A round divides the first
number by the second, which is not zero. -/
inductive EuclidRun : (a b divisor : Nat) → Prop where
  | stop (a : Nat) : EuclidRun a 0 a
  | round {a b divisor : Nat} (nonzero : b ≠ 0) (rest : EuclidRun b (a % b) divisor) :
      EuclidRun a b divisor

/-- No round changes which numbers divide both operands, and in the end those are the divisors of
the first. -/
theorem EuclidRun.dvd_iff {a b divisor : Nat} (run : EuclidRun a b divisor) (c : Nat) :
    c ∣ divisor ↔ c ∣ a ∧ c ∣ b := by
  induction run with
  | stop a => simp
  | @round a b divisor nonzero rest ih =>
    rw [ih]
    constructor
    · rintro ⟨second, remainder⟩
      exact ⟨(Nat.dvd_mod_iff second).mp remainder, second⟩
    · rintro ⟨first, second⟩
      exact ⟨second, (Nat.dvd_mod_iff second).mpr first⟩

theorem euclid_runs (a b : Nat) : EuclidRun a b (euclid a b) := by
  fun_induction euclid a b with
  | case1 a => exact .stop a
  | case2 a b nonzero smaller ih => exact .round nonzero ih

theorem euclid_eq_gcd (a b : Nat) : euclid a b = Nat.gcd a b := by
  refine Nat.dvd_left_iff_eq.mp fun c => ?_
  rw [(euclid_runs a b).dvd_iff, Nat.dvd_gcd_iff]

namespace Exact

theorem isZero_eq_false {q : ℚ} (nonzero : q ≠ 0) : Fraction.isZero (rational q) = false := by
  simpa [← Bool.not_eq_true, isZero_iff] using nonzero

/-- The divisor of two integers is the greatest common one. -/
theorem gcd_int (m n : ℤ) :
    Fraction.gcd (rational m) (rational n) = rational (Int.gcd m n) := by
  simp [Fraction.gcd, euclid_eq_gcd, Int.gcd_eq_natAbs_gcd_natAbs]

/-- The multiple of two integers is the least common one. -/
theorem lcm_int (m n : ℤ) :
    Fraction.lcm (rational m) (rational n) = rational (Int.lcm m n) := by
  by_cases zero : Int.gcd m n = 0
  · have multiple : Int.lcm m n = 0 :=
      Int.lcm_eq_zero_iff.mpr (.inl (Int.gcd_eq_zero_iff.mp zero).1)
    simp [Fraction.lcm, gcd_int, zero, multiple]
  · have scale : (Int.gcd m n : ℚ) ≠ 0 := by exact_mod_cast zero
    have product : |(m : ℚ) * n| = Int.lcm m n * Int.gcd m n := by
      have natural : Int.lcm m n * Int.gcd m n = (m * n).natAbs := by
        rw [mul_comm, Int.gcd_mul_lcm, Int.natAbs_mul]
      rw [← Int.cast_mul, ← Int.cast_abs, Int.abs_eq_natAbs, ← natural]
      push_cast
      rfl
    simp only [Fraction.lcm, gcd_int, isZero_eq_false scale, Bool.false_eq_true, ↓reduceIte,
      rational_mul, rational_abs, product, rational_div scale, mul_div_cancel_right₀ _ scale]

/-- Whatever is divided out of two numbers, the second not zero, is not zero. -/
theorem gcd_rational (p : ℚ) {q : ℚ} (nonzero : q ≠ 0) :
    ∃ g : ℚ, g ≠ 0 ∧ Fraction.gcd (rational p) (rational q) = rational g := by
  by_cases integers : ∃ m n : ℤ, p = m ∧ q = n
  · obtain ⟨m, n, rfl, rfl⟩ := integers
    refine ⟨Int.gcd m n, ?_, gcd_int m n⟩
    have positive : 0 < Int.gcd m n := Int.gcd_pos_of_ne_zero_right m (by exact_mod_cast nonzero)
    exact_mod_cast positive.ne'
  · refine ⟨1, one_ne_zero, ?_⟩
    unfold Fraction.gcd
    split
    · rename_i m n left right
      rw [toInt?_eq_some, rational.injEq] at left right
      exact absurd ⟨m, n, left, right⟩ integers
    · simp

/-- The common denominator of two numbers other than zero is not zero. -/
theorem lcm_rational {p q : ℚ} (left : p ≠ 0) (right : q ≠ 0) :
    ∃ m : ℚ, m ≠ 0 ∧ Fraction.lcm (rational p) (rational q) = rational m := by
  obtain ⟨g, nonzero, common⟩ := gcd_rational p right
  refine ⟨|p * q| / g, div_ne_zero (abs_ne_zero.mpr (mul_ne_zero left right)) nonzero, ?_⟩
  simp [Fraction.lcm, common, isZero_eq_false nonzero, rational_div nonzero]

/-- A fraction over a denominator other than zero keeps its value, and its denominator stays away
from zero. -/
theorem make_cases (n : ℚ) {d : ℚ} (nonzero : d ≠ 0) :
    Fraction.make (rational n) (rational d) = .number (rational (n / d)) ∨
      ∃ n' d' : ℚ, d' ≠ 0 ∧ n' / d' = n / d ∧
        Fraction.make (rational n) (rational d) = .fraction (rational n') (rational d') := by
  simp only [Fraction.make, rational_div nonzero]
  split
  · exact .inl rfl
  · split
    · exact .inr ⟨-n, -d, neg_ne_zero.mpr nonzero, neg_div_neg_eq n d, rfl⟩
    · exact .inr ⟨n, d, nonzero, rfl, rfl⟩

/-- A fraction of integers without a common divisor, over a denominator above one. -/
structure Lowest (m k : ℤ) : Prop where
  coprime : Int.gcd m k = 1
  above_one : 1 < k

theorem Lowest.den_eq {m k : ℤ} (lowest : Lowest m k) : (((m : ℚ) / k).den : ℤ) = k :=
  Rat.den_div_eq_of_coprime (by linarith [lowest.above_one]) lowest.coprime

theorem Lowest.not_integer {m k : ℤ} (lowest : Lowest m k) :
    Arithmetic.isInteger (rational ((m : ℚ) / k)) = false := by
  rw [← Bool.not_eq_true, isInteger_iff]
  rintro ⟨z, same⟩
  have den := lowest.den_eq
  rw [rational.injEq] at same
  rw [same, Rat.den_intCast] at den
  exact absurd lowest.above_one (by simp [← den])

/-- Integers whose quotient is no integer are in lowest terms once their divisor is out and the
denominator is positive. -/
theorem lowest_of_coprime {m k : ℤ} (coprime : Int.gcd m k = 1) (positive : 0 < k)
    (fractional : Arithmetic.isInteger (rational ((m : ℚ) / k)) = false) : Lowest m k := by
  refine ⟨coprime, ?_⟩
  by_contra small
  obtain rfl : k = 1 := by omega
  rw [← Bool.not_eq_true, isInteger_iff] at fractional
  exact fractional ⟨m, by simp⟩

/-- Dividing a fraction that is in lowest terms leaves it alone. -/
theorem quotientOf_lowest {m k : ℤ} (lowest : Lowest m k) :
    Rule.quotientOf (rational m) (rational k) = .fraction (rational m) (rational k) := by
  have positive : 0 < k := by linarith [lowest.above_one]
  have quotient : (rational m / rational k : Exact) = rational (m / k) :=
    rational_div (by exact_mod_cast positive.ne')
  have unit : Fraction.isZero (rational 1) = false := rfl
  have finite : Arithmetic.isFinite (rational ((m : ℚ) / k)) = true := isFinite_iff.mpr ⟨_, rfl⟩
  have integer (n : ℤ) : Arithmetic.isInteger (rational n) = true := isInteger_iff.mpr ⟨n, rfl⟩
  have whole (q : ℚ) : (rational q / rational 1 : Exact) = rational q := by
    simpa using rational_div (p := q) one_ne_zero
  simp [Rule.quotientOf, Fraction.reduce, Fraction.make, gcd_int, lowest.coprime, unit, whole,
    integer, quotient, finite, lowest.not_integer, positive.not_gt]

/-- Reducing a quotient of integers divides their greatest common divisor out of both. -/
theorem reduce_eq_make (m : ℤ) {k : ℤ} (nonzero : k ≠ 0) :
    ∃ m' k' : ℤ, Int.gcd m' k' = 1 ∧ k' ≠ 0 ∧ (m : ℚ) / k = m' / k' ∧
      Fraction.reduce (rational m) (rational k) = Fraction.make (rational m') (rational k') := by
  have divisor := gcd_int m k
  have positive : 0 < Int.gcd m k := Int.gcd_pos_of_ne_zero_right m nonzero
  obtain ⟨m', k', coprime, left, right⟩ := Int.exists_gcd_one positive
  generalize Int.gcd m k = g at divisor positive left right
  subst left right
  have scale : ((g : ℕ) : ℚ) ≠ 0 := by exact_mod_cast positive.ne'
  have same : ((m' * g : ℤ) : ℚ) / (k' * g : ℤ) = m' / k' := by
    push_cast
    exact mul_div_mul_right _ _ scale
  have cancel (n : ℤ) : (rational (n * g : ℤ) / rational g : Exact) = rational n := by
    rw [rational_div scale]
    push_cast
    rw [mul_div_cancel_right₀ _ scale]
  refine ⟨m', k', coprime, left_ne_zero_of_mul nonzero, same, ?_⟩
  simp only [Fraction.reduce, divisor, isZero_eq_false scale, cancel, Bool.false_eq_true,
    ↓reduceIte]

/-- Reducing a quotient of integers that is no integer brings it to lowest terms. -/
theorem reduce_int {m k : ℤ} (nonzero : k ≠ 0)
    (fractional : Arithmetic.isInteger (rational ((m : ℚ) / k)) = false) :
    ∃ m' k' : ℤ, Lowest m' k' ∧ (m : ℚ) / k = m' / k' ∧
      Fraction.reduce (rational m) (rational k) = .fraction (rational m') (rational k') := by
  obtain ⟨m', k', coprime, nonzero', same, reduced⟩ := reduce_eq_make m nonzero
  have quotient : (rational m' / rational k' : Exact) = rational (m' / k') :=
    rational_div (by exact_mod_cast nonzero')
  rw [same] at fractional ⊢
  rw [reduced]
  by_cases negative : k' < 0
  · have lowest : Lowest (-m') (-k') := by
      refine lowest_of_coprime ?_ (neg_pos.mpr negative) ?_
      · simpa using coprime
      · push_cast
        rwa [neg_div_neg_eq]
    refine ⟨-m', -k', lowest, ?_, ?_⟩
    · push_cast
      rw [neg_div_neg_eq]
    · simp [Fraction.make, quotient, fractional, negative]
  · have lowest : Lowest m' k' := lowest_of_coprime coprime (by omega) fractional
    refine ⟨m', k', lowest, rfl, ?_⟩
    simp [Fraction.make, quotient, fractional, negative]

/-- Dividing two numbers leaves their quotient or a fraction of the same value in lowest terms. -/
theorem quotientOf_cases (n d : Exact) :
    Rule.quotientOf n d = .number (n / d) ∨
      ∃ m k : ℤ, Lowest m k ∧ n / d = rational (m / k) ∧
        Rule.quotientOf n d = .fraction (rational m) (rational k) := by
  unfold Rule.quotientOf
  split
  · exact .inl rfl
  · rename_i fractional
    refine .inr ?_
    simp only [Bool.or_eq_true, Bool.not_eq_eq_eq_not, Bool.not_true, not_or, Bool.not_eq_true,
      Bool.not_eq_false] at fractional
    obtain ⟨⟨⟨left, right⟩, fractional⟩, finite⟩ := fractional
    obtain ⟨m, rfl⟩ := isInteger_iff.mp left
    obtain ⟨k, rfl⟩ := isInteger_iff.mp right
    have nonzero : k ≠ 0 := by
      rintro rfl
      simp [isFinite_div_zero] at finite
    have quotient : (rational m / rational k : Exact) = rational (m / k) :=
      rational_div (by exact_mod_cast nonzero)
    rw [quotient] at fractional
    obtain ⟨m', k', lowest, same, reduced⟩ := reduce_int nonzero fractional
    exact ⟨m', k', lowest, by rw [quotient, same], reduced⟩

end Exact

end AlgebraEngine
