import AlgebraEngine.Proofs.Simplify.ExactFraction

/-! Divisors, multiples and lowest terms of integers. On exact numbers the helpers of fractions do
what they are named for, and none of them relies on what a division by zero gives. -/
namespace AlgebraEngine

namespace Exact

/-- Exact arithmetic in which dividing by zero gives whatever a function says. A result that is the
same for every function divides by zero nowhere. -/
abbrev dividing (byZero : Exact → Exact) : Arithmetic Exact :=
  { (inferInstance : Arithmetic Exact) with
    div := fun x y => if y = rational 0 then byZero x else x / y }

section Dividing

variable (byZero : Exact → Exact) {x y : Exact}

theorem div_dividing (nonzero : y ≠ rational 0) : (dividing byZero).div x y = x / y :=
  if_neg nonzero

/-- A divisor comes out of the loop of remainders, without dividing numbers. -/
theorem gcd_dividing (x y : Exact) :
    @Fraction.gcd Exact (dividing byZero) x y = Fraction.gcd x y := rfl

/-- A product is only divided by a divisor that is not zero. -/
theorem lcm_dividing (x y : Exact) :
    @Fraction.lcm Exact (dividing byZero) x y = Fraction.lcm x y := by
  show (if Fraction.isZero (Fraction.gcd x y) then _ else (dividing byZero).div _ _) =
    if Fraction.isZero (Fraction.gcd x y) then _ else _
  split
  · rfl
  · rename_i nonzero
    exact div_dividing byZero (isZero_iff.not.mp nonzero)

theorem make_dividing (nonzero : y ≠ rational 0) :
    @Fraction.make Exact (dividing byZero) x y = Fraction.make x y := by
  have quotient : (dividing byZero).div x y = x / y := div_dividing byZero nonzero
  show (if Arithmetic.isInteger ((dividing byZero).div x y) then
    Expr.number ((dividing byZero).div x y) else _) = _
  rw [quotient]
  rfl

/-- What is divided out of a denominator other than zero is not zero, and leaves none. -/
theorem reduce_dividing (p : ℚ) {q : ℚ} (nonzero : q ≠ 0) :
    @Fraction.reduce Exact (dividing byZero) (rational p) (rational q) =
      Fraction.reduce (rational p) (rational q) := by
  obtain ⟨g, scale, divisor⟩ := gcd_rational p nonzero
  have divide (r : ℚ) : (dividing byZero).div (rational r) (rational g) = rational (r / g) := by
    rw [div_dividing byZero (by simpa using scale), rational_div scale]
  have reduced : Fraction.reduce (rational p) (rational q) =
      Fraction.make (rational (p / g)) (rational (q / g)) := by
    simp only [Fraction.reduce, divisor, isZero_eq_false scale, rational_div scale,
      Bool.false_eq_true, ↓reduceIte]
  have denominator : rational (q / g) ≠ rational 0 := by
    simpa using ⟨nonzero, scale⟩
  rw [reduced, ← make_dividing byZero denominator]
  show (if Fraction.isZero (Fraction.gcd (rational p) (rational q)) then _ else
    @Fraction.make Exact (dividing byZero)
      ((dividing byZero).div (rational p) (Fraction.gcd (rational p) (rational q)))
      ((dividing byZero).div (rational q) (Fraction.gcd (rational p) (rational q)))) = _
  rw [divisor, isZero_eq_false scale, divide, divide]
  rfl

end Dividing

/-- Reducing a quotient that is an integer leaves the integer. -/
theorem reduce_of_dvd {m k : ℤ} (nonzero : k ≠ 0) (divides : k ∣ m) :
    Fraction.reduce (rational m) (rational k) = .number (rational (m / k)) := by
  obtain ⟨m', k', -, nonzero', same, reduced⟩ := reduce_eq_make m nonzero
  have quotient : (rational m' / rational k' : Exact) = rational (m / k) := by
    rw [rational_div (by exact_mod_cast nonzero'), same]
  have whole : Arithmetic.isInteger (rational ((m : ℚ) / k)) = true := by
    rw [isInteger_iff, ← Int.cast_div divides (by exact_mod_cast nonzero)]
    exact ⟨m / k, rfl⟩
  simp only [reduced, Fraction.make, quotient, whole, ↓reduceIte]

theorem fractional_of_not_dvd {m k : ℤ} (nonzero : k ≠ 0) (fractional : ¬k ∣ m) :
    Arithmetic.isInteger (rational ((m : ℚ) / k)) = false := by
  rw [← Bool.not_eq_true, isInteger_iff]
  rintro ⟨z, same⟩
  rw [rational.injEq, div_eq_iff (by exact_mod_cast nonzero)] at same
  exact fractional ⟨z, by rw [mul_comm]; exact_mod_cast same⟩

/-- The helpers of fractions are exact on integers. The loop of remainders divides by no zero and
ends with the greatest common divisor of two integers, of which zero and zero have zero, and
multiples are least common multiples; nothing on the way depends on what dividing by zero gives.
With a denominator other than zero, reducing leaves the integer that the quotient is, or else a
fraction with the same value in lowest terms over a positive denominator. -/
theorem fractions_of_integers (n d : ℤ) :
    EuclidRun n.natAbs d.natAbs (euclid n.natAbs d.natAbs) ∧
    euclid n.natAbs d.natAbs = Int.gcd n d ∧
    Fraction.gcd (rational n) (rational d) = rational (Int.gcd n d) ∧
    Fraction.lcm (rational n) (rational d) = rational (Int.lcm n d) ∧
    (∀ byZero, @Fraction.gcd Exact (dividing byZero) (rational n) (rational d) =
        Fraction.gcd (rational n) (rational d) ∧
      @Fraction.lcm Exact (dividing byZero) (rational n) (rational d) =
        Fraction.lcm (rational n) (rational d)) ∧
    (d ≠ 0 →
      (∀ byZero, @Fraction.reduce Exact (dividing byZero) (rational n) (rational d) =
        Fraction.reduce (rational n) (rational d)) ∧
      (d ∣ n → Fraction.reduce (rational n) (rational d) = .number (rational (n / d))) ∧
      (¬d ∣ n → ∃ n' d' : ℤ,
        Fraction.reduce (rational n) (rational d) = .fraction (rational n') (rational d') ∧
          (n' : ℚ) / d' = n / d ∧ 0 < d' ∧ Int.gcd n' d' = 1)) := by
  have divisor : euclid n.natAbs d.natAbs = Int.gcd n d := by
    rw [euclid_eq_gcd, Int.gcd_eq_natAbs_gcd_natAbs]
  refine ⟨euclid_runs _ _, divisor, gcd_int n d, lcm_int n d,
    fun byZero => ⟨gcd_dividing byZero _ _, lcm_dividing byZero _ _⟩, fun nonzero => ⟨?_, ?_, ?_⟩⟩
  · exact fun byZero => reduce_dividing byZero _ (by exact_mod_cast nonzero)
  · exact reduce_of_dvd nonzero
  · intro fractional
    obtain ⟨n', d', lowest, same, reduced⟩ :=
      reduce_int nonzero (fractional_of_not_dvd nonzero fractional)
    exact ⟨n', d', reduced, same.symm, by linarith [lowest.above_one], lowest.coprime⟩

/-- Reducing `6 / -4` moves the sign above, and reducing `6 / -3` leaves an integer. -/
theorem fractions_of_integers_negative :
    (∃ n' d' : ℤ, Fraction.reduce (rational 6) (rational (-4)) =
        .fraction (rational n') (rational d') ∧ (n' : ℚ) / d' = 6 / -4 ∧ 0 < d') ∧
      Fraction.reduce (rational 6) (rational (-3)) = .number (rational (6 / -3)) := by
  obtain ⟨-, -, -, -, -, reduces⟩ := fractions_of_integers 6 (-4)
  obtain ⟨-, -, lowest⟩ := reduces (by decide)
  obtain ⟨n', d', reduced, same, positive, -⟩ := lowest (by decide)
  obtain ⟨-, -, -, -, -, divides⟩ := fractions_of_integers 6 (-3)
  obtain ⟨-, whole, -⟩ := divides (by decide)
  refine ⟨⟨n', d', by simpa using reduced, by simpa using same, positive⟩, ?_⟩
  simpa using whole (by decide)

end Exact

end AlgebraEngine
