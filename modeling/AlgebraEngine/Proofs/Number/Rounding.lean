import Mathlib
import AlgebraEngine.Number.Binary64

/-! Rounding to the nearest number of double precision, ties to even. A value rounds to a number if
it differs from it by at most half a unit, and by less if the significand is odd; just below a power
of two the units are half as wide. All machine operations approximate such a value by a mantissa
first, and all of them end at the number that the value rounds to. -/
namespace AlgebraEngine.Binary64

open Float.Model (Format UnpackedFloat totalExponent)
open Float.Model.UnpackedFloat

variable {q v : ℚ} {m s : ℕ} {e e₀ t : ℤ} {accuracy : Accuracy} {sign : Sign}

/-- What a mantissa and its accuracy say about the exact value, in units of the mantissa. -/
def Approximates (q : ℚ) (m : ℕ) : Accuracy → Prop
  | .exact => q = m
  | .inexact .lt => m < q ∧ q < m + 1 / 2
  | .inexact .eq => q = m + 1 / 2
  | .inexact .gt => m + 1 / 2 < q ∧ q < m + 1

theorem Approximates.le (approximates : Approximates q m accuracy) : m ≤ q := by
  rcases accuracy with - | - | - | - <;> simp only [Approximates] at approximates <;> linarith

theorem Approximates.lt (approximates : Approximates q m accuracy) : q < m + 1 := by
  rcases accuracy with - | - | - | - <;> simp only [Approximates] at approximates <;> linarith

theorem Approximates.shiftRightOne {n : ExtendedMantissa}
    (approximates : Approximates q n.mantissa n.accuracy) :
    Approximates (q / 2) n.shiftRightOne.mantissa n.shiftRightOne.accuracy := by
  obtain ⟨m, roundBit, stickyBit⟩ := n
  have parts : (m : ℚ) = 2 * (m / 2 : ℕ) + (m % 2 : ℕ) := by
    exact_mod_cast (Nat.div_add_mod m 2).symm
  rcases Nat.mod_two_eq_zero_or_one m with even | odd
  · rw [even, Nat.cast_zero] at parts
    cases roundBit <;> cases stickyBit <;>
      simp only [ExtendedMantissa.accuracy, ExtendedMantissa.shiftRightOne, even, Approximates,
        bne_self_eq_false, Bool.or_false, Bool.or_true, Bool.or_self] at approximates ⊢ <;>
      grind
  · rw [odd, Nat.cast_one] at parts
    cases roundBit <;> cases stickyBit <;>
      simp only [ExtendedMantissa.accuracy, ExtendedMantissa.shiftRightOne, odd, Approximates,
        Bool.or_false, Bool.or_true, Bool.or_self] at approximates ⊢ <;>
      grind

theorem Approximates.shiftRight {n : ExtendedMantissa}
    (approximates : Approximates q n.mantissa n.accuracy) (count : ℕ) :
    Approximates (q / 2 ^ count) (n >>> count).mantissa (n >>> count).accuracy := by
  show Approximates _ (count.repeat ExtendedMantissa.shiftRightOne n).mantissa
    (count.repeat ExtendedMantissa.shiftRightOne n).accuracy
  induction count with
  | zero => simpa [Nat.repeat] using approximates
  | succ count shifted =>
    rw [pow_succ, ← div_div]
    exact shifted.shiftRightOne

/-- The first shift of a rounding leads to the target exponent and keeps what is known about the
value. -/
theorem Approximates.shiftToTargetExponent (approximates : Approximates (v / 2 ^ e) m accuracy)
    (target : Format.binary64.targetExponent (totalExponent m e) = t) (le : e ≤ t) :
    ∃ n : ExtendedMantissa, shiftToTargetExponent .binary64 m e accuracy = (n, t) ∧
      Approximates (v / 2 ^ t) n.mantissa n.accuracy := by
  obtain ⟨count, rfl⟩ : ∃ count : ℕ, t = e + count := ⟨(t - e).toNat, by omega⟩
  refine ⟨ExtendedMantissa.ofMantissaAndAccuracy m accuracy >>> count, ?_, ?_⟩
  · have shift : (e + count - e).toNat = count := by omega
    simp only [UnpackedFloat.shiftToTargetExponent, target, shiftToExponent, shift]
  · have start : Approximates (v / 2 ^ e)
        (ExtendedMantissa.ofMantissaAndAccuracy m accuracy).mantissa
        (ExtendedMantissa.ofMantissaAndAccuracy m accuracy).accuracy := by
      rcases accuracy with - | - | - | - <;> exact approximates
    rw [zpow_add₀ two_ne_zero, zpow_natCast, ← div_div]
    exact start.shiftRight count

/-! ## The nearest number -/

/-- A whole number is next to a value: it differs from it by at most a half, and by less if it is
odd. -/
def Nearest (q : ℚ) (r : ℕ) : Prop :=
  r - 1 / 2 ≤ q ∧ q ≤ r + 1 / 2 ∧ (r % 2 = 1 → r - 1 / 2 < q ∧ q < r + 1 / 2)

theorem Approximates.roundToNearestEven {r : ℕ} (approximates : Approximates q m accuracy)
    (nearest : Nearest q r) : accuracy.roundToNearestEven m = r := by
  obtain ⟨low, high, odd⟩ := nearest
  have below : m < r + 1 := by
    have : (m : ℚ) < r + 1 := by linarith [approximates.le]
    exact_mod_cast this
  have above : r < m + 2 := by
    have : (r : ℚ) < m + 2 := by linarith [approximates.lt]
    exact_mod_cast this
  obtain rfl | rfl : r = m ∨ r = m + 1 := by omega
  · rcases accuracy with - | - | - | - <;>
      simp only [Approximates, Accuracy.roundToNearestEven] at approximates ⊢ <;> grind
  · push_cast at low high odd
    rcases accuracy with - | - | - | - <;>
      simp only [Approximates, Accuracy.roundToNearestEven] at approximates ⊢ <;> grind

/-- The significand and the exponent of a number that is not zero. -/
structure Canonical (s : ℕ) (e : ℤ) : Prop where
  pos : 0 < s
  lt : s < 2 ^ 53
  le : -1074 ≤ e
  normal : 2 ^ 52 ≤ s ∨ e = -1074

/-- The values that are rounded to a number. -/
structure RoundsTo (v : ℚ) (s : ℕ) (e : ℤ) : Prop extends Canonical s e where
  nearest : Nearest (v / 2 ^ e) s
  /-- Below a power of two the units are half as wide. -/
  edge : s = 2 ^ 52 → -1074 < e → 2 ^ 52 - 1 / 4 ≤ v / 2 ^ e

/-- A number rounds to itself. -/
theorem Canonical.roundsTo (canonical : Canonical s e) : RoundsTo (s * 2 ^ e) s e := by
  have same : (s * 2 ^ e / 2 ^ e : ℚ) = s := mul_div_cancel_right₀ _ (zpow_ne_zero e two_ne_zero)
  refine ⟨canonical, ?_, ?_⟩
  · rw [same]
    exact ⟨by linarith, by linarith, fun _ => ⟨by linarith, by linarith⟩⟩
  · rintro rfl -
    rw [same]
    norm_num

theorem RoundsTo.lt_zpow (rounds : RoundsTo v s e) : v < 2 ^ (53 + e) := by
  have bound : (s : ℚ) + 1 ≤ 2 ^ 53 := by exact_mod_cast rounds.lt
  have scaled : v / 2 ^ e < 2 ^ 53 := by linarith [rounds.nearest.2.1]
  rw [div_lt_iff₀ (by positivity)] at scaled
  rwa [zpow_add₀ two_ne_zero]

theorem RoundsTo.zpow_lt (rounds : RoundsTo v s e) (normal : 2 ^ 52 ≤ s) : 2 ^ (51 + e) < v := by
  have bound : (2 : ℚ) ^ 52 ≤ s := by exact_mod_cast normal
  have scaled : 2 ^ 51 < v / 2 ^ e := by linarith [rounds.nearest.1]
  rw [lt_div_iff₀ (by positivity)] at scaled
  rwa [zpow_add₀ two_ne_zero]

theorem RoundsTo.zpow_le (rounds : RoundsTo v s e) : 2 ^ (e - 1) ≤ v := by
  have bound : (1 : ℚ) ≤ s := by exact_mod_cast rounds.pos
  have scaled : 1 / 2 ≤ v / 2 ^ e := by linarith [rounds.nearest.1]
  rw [le_div_iff₀ (by positivity)] at scaled
  rw [zpow_sub_one₀ two_ne_zero]
  linarith

theorem RoundsTo.value_pos (rounds : RoundsTo v s e) : 0 < v :=
  (zpow_pos two_pos _).trans_le rounds.zpow_le

theorem targetExponent_binary64 (total : ℤ) :
    Format.binary64.targetExponent total = max (total - 53) (-1074) := rfl

theorem targetExponent_eq (m : ℕ) (e : ℤ) :
    Format.binary64.targetExponent (totalExponent m e) = max (m.log2 + e - 52) (-1074) := by
  rw [targetExponent_binary64, totalExponent]
  omega

theorem Approximates.lt_zpow (approximates : Approximates (v / 2 ^ e₀) m accuracy) :
    v < 2 ^ (m.log2 + 1 + e₀ : ℤ) := by
  have bound : (m : ℚ) + 1 ≤ 2 ^ (m.log2 + 1) := by exact_mod_cast Nat.lt_log2_self
  have scaled : v / 2 ^ e₀ < 2 ^ (m.log2 + 1) := approximates.lt.trans_le bound
  rw [div_lt_iff₀ (by positivity)] at scaled
  rwa [zpow_add₀ two_ne_zero, ← Nat.cast_succ, zpow_natCast]

theorem Approximates.zpow_le (approximates : Approximates (v / 2 ^ e₀) m accuracy) (pos : m ≠ 0) :
    2 ^ (m.log2 + e₀ : ℤ) ≤ v := by
  have bound : (2 : ℚ) ^ m.log2 ≤ m := by exact_mod_cast Nat.log2_self_le pos
  have scaled : 2 ^ m.log2 ≤ v / 2 ^ e₀ := bound.trans approximates.le
  rw [le_div_iff₀ (by positivity)] at scaled
  rwa [zpow_add₀ two_ne_zero, zpow_natCast]

/-- An approximation that is fine enough is shifted to the exponent of the number, or to the one
below it if the value lies below a power of two. -/
theorem RoundsTo.targetExponent (rounds : RoundsTo v s e)
    (approximates : Approximates (v / 2 ^ e₀) m accuracy) (fine : e₀ ≤ -1074 ∨ 2 ^ 52 ≤ m) :
    Format.binary64.targetExponent (totalExponent m e₀) = e ∨
      (Format.binary64.targetExponent (totalExponent m e₀) = e - 1 ∧ s = 2 ^ 52 ∧ -1074 < e ∧
        v / 2 ^ e < 2 ^ 52) := by
  rw [targetExponent_eq]
  have le := rounds.le
  have upper : m.log2 + e₀ ≤ 52 + e := by
    rcases Nat.eq_zero_or_pos m with rfl | pos
    · rw [Nat.log2_zero]
      omega
    · have between := (approximates.zpow_le pos.ne').trans_lt rounds.lt_zpow
      rw [zpow_lt_zpow_iff_right₀ one_lt_two] at between
      omega
  rcases rounds.normal with normal | subnormal
  · have lower : 50 + e < m.log2 + e₀ := by
      have between := (rounds.zpow_lt normal).trans approximates.lt_zpow
      rw [zpow_lt_zpow_iff_right₀ one_lt_two] at between
      omega
    by_cases same : m.log2 + e₀ = 52 + e ∨ e = -1074
    · omega
    · have below : v / 2 ^ e < 2 ^ 52 := by
        have bound := approximates.lt_zpow
        rw [show (m.log2 + 1 + e₀ : ℤ) = 52 + e by omega, zpow_add₀ two_ne_zero] at bound
        rwa [div_lt_iff₀ (by positivity)]
      have power : s < 2 ^ 52 + 1 := by
        have : (s : ℚ) < 2 ^ 52 + 1 := by linarith [rounds.nearest.1]
        exact_mod_cast this
      exact .inr ⟨by omega, by omega, by omega, below⟩
  · omega

theorem Canonical.shiftToTargetExponent (canonical : Canonical s e) :
    shiftToTargetExponent .binary64 s e .exact = (⟨s, false, false⟩, e) := by
  have log : s.log2 < 53 := (Nat.log2_lt canonical.pos.ne').mpr canonical.lt
  have target : Format.binary64.targetExponent (totalExponent s e) ≤ e := by
    rw [targetExponent_eq]
    have := canonical.le
    omega
  have count : (Format.binary64.targetExponent (totalExponent s e) - e).toNat = 0 := by omega
  simp only [UnpackedFloat.shiftToTargetExponent, shiftToExponent, count, Nat.cast_zero, add_zero]
  rfl

/-- A mantissa that has been rounded up to a power of two is one binary digit too long. -/
theorem shiftToTargetExponent_of_overflow (le : -1074 ≤ e) :
    shiftToTargetExponent .binary64 (2 ^ 53) e .exact = (⟨2 ^ 52, false, false⟩, e + 1) := by
  have target : Format.binary64.targetExponent (totalExponent (2 ^ 53) e) = e + 1 := by
    rw [targetExponent_eq, Nat.log2_two_pow]
    omega
  have count : (e + 1 - e).toNat = 1 := by omega
  simp only [shiftToTargetExponent, target, shiftToExponent, count]
  rfl

/-- Rounding an approximation of a value gives the number that the value rounds to. In units of the
exponent below, the significand is a power of two, and that is even. -/
theorem RoundsTo.roundWithAccuracy (rounds : RoundsTo v s e)
    (approximates : Approximates (v / 2 ^ e₀) m accuracy) (fine : e₀ ≤ -1074 ∨ 2 ^ 52 ≤ m) :
    roundWithAccuracy .binary64 sign m e₀ accuracy = .finite sign s e rounds.pos := by
  have le : e₀ ≤ Format.binary64.targetExponent (totalExponent m e₀) := by
    rw [targetExponent_eq]
    rcases fine with low | long
    · omega
    · have := (Nat.le_log2 (by omega)).mpr long
      omega
  rcases rounds.targetExponent approximates fine with target | ⟨target, rfl, normal, below⟩
  · obtain ⟨n, shifted, approximates⟩ := approximates.shiftToTargetExponent target (target ▸ le)
    have rounded : n.roundedMantissa = s := approximates.roundToNearestEven rounds.nearest
    simp only [UnpackedFloat.roundWithAccuracy, shifted, rounded,
      rounds.toCanonical.shiftToTargetExponent, rounds.pos.ne', dite_false]
  · obtain ⟨n, shifted, approximates⟩ := approximates.shiftToTargetExponent target (target ▸ le)
    have doubled : v / 2 ^ (e - 1) = 2 * (v / 2 ^ e) := by
      rw [zpow_sub_one₀ two_ne_zero]
      field_simp
    have nearest : Nearest (v / 2 ^ (e - 1)) (2 ^ 53) := by
      have edge := rounds.edge rfl normal
      rw [doubled]
      norm_num [Nearest] at edge below ⊢
      constructor <;> linarith
    have rounded : n.roundedMantissa = 2 ^ 53 := approximates.roundToNearestEven nearest
    simp only [UnpackedFloat.roundWithAccuracy, shifted, rounded,
      shiftToTargetExponent_of_overflow (show -1074 ≤ e - 1 by omega), sub_add_cancel]
    rfl

/-! ## Products and quotients -/

variable {a b : ℕ} {i j : ℤ} {sign' : Sign}

/-- A machine product is the number that the exact product rounds to. -/
theorem RoundsTo.mul (rounds : RoundsTo v s e) (left : 0 < a) (right : 0 < b)
    (value : v = a * 2 ^ i * (b * 2 ^ j)) (fine : 2 ^ 52 ≤ a * b) :
    mul .binary64 (.finite sign a i left) (.finite sign' b j right) =
      .finite (sign * sign') s e rounds.pos := by
  refine rounds.roundWithAccuracy ?_ (.inr fine)
  show v / 2 ^ (i + j) = (a * b : ℕ)
  rw [value, zpow_add₀ two_ne_zero]
  push_cast
  field_simp

theorem approximates_accuracyOfFraction {rest : ℕ} (lt : rest < b) :
    Approximates (m + rest / b) m (accuracyOfFraction rest b) := by
  have pos : (0 : ℚ) < b := by exact_mod_cast (Nat.zero_le rest).trans_lt lt
  have part : (rest / b : ℚ) < 1 := by
    rw [div_lt_one pos]
    exact_mod_cast lt
  unfold accuracyOfFraction
  split
  · rename_i zero
    simp [Approximates, zero]
  · rename_i nonzero
    have some : (0 : ℚ) < rest / b := div_pos (by exact_mod_cast Nat.pos_of_ne_zero nonzero) pos
    cases order : compare (2 * rest) b with
    | lt =>
      have half : (rest / b : ℚ) < 1 / 2 := by
        rw [div_lt_div_iff₀ pos two_pos, one_mul, mul_comm]
        exact_mod_cast Nat.compare_eq_lt.mp order
      exact ⟨by linarith, by linarith⟩
    | eq =>
      have half : (rest / b : ℚ) = 1 / 2 := by
        rw [div_eq_div_iff pos.ne' two_ne_zero, one_mul, mul_comm]
        exact_mod_cast Nat.compare_eq_eq.mp order
      show _ = _
      rw [half]
    | gt =>
      have half : (1 / 2 : ℚ) < rest / b := by
        rw [div_lt_div_iff₀ two_pos pos, one_mul, mul_comm (rest : ℚ)]
        exact_mod_cast Nat.compare_eq_gt.mp order
      exact ⟨by linarith, by linarith⟩

/-- A machine quotient is the number that the exact quotient rounds to. It is computed in units in
which it has enough binary digits. -/
theorem RoundsTo.div (rounds : RoundsTo v s e) (dividend : 0 < a) (divisor : 0 < b)
    (value : v * (b * 2 ^ j) = a * 2 ^ i) :
    div .binary64 (.finite sign a i dividend) (.finite sign' b j divisor) =
      .finite (sign / sign') s e rounds.pos := by
  obtain ⟨target, choice⟩ : ∃ target, min (i - j) (Format.binary64.targetExponent
    (totalExponent a i - totalExponent b j)) = target := ⟨_, rfl⟩
  obtain ⟨count, shift⟩ : ∃ count : ℕ, i - j = target + count :=
    ⟨(i - j - target).toNat, by omega⟩
  have amount : (i - j - target).toNat = count := by omega
  have core : divCore .binary64 a i b j =
      (a * 2 ^ count / b, target, accuracyOfFraction (a * 2 ^ count % b) b) := by
    simp only [divCore, choice, amount, Nat.shiftLeft_eq]
  simp only [UnpackedFloat.div, core]
  refine rounds.roundWithAccuracy ?_ ?_
  · have scale : (2 : ℚ) ^ i = 2 ^ target * 2 ^ count * 2 ^ j := by
      rw [← zpow_natCast, ← zpow_add₀ two_ne_zero, ← zpow_add₀ two_ne_zero, ← shift, sub_add_cancel]
    have exact : v / 2 ^ target = ((a * 2 ^ count : ℕ) : ℚ) / b := by
      rw [scale] at value
      push_cast
      field_simp at value ⊢
      linarith
    have parts : ((a * 2 ^ count : ℕ) : ℚ) =
        b * (a * 2 ^ count / b : ℕ) + (a * 2 ^ count % b : ℕ) := by
      exact_mod_cast (Nat.div_add_mod _ b).symm
    rw [exact, parts, add_div, mul_div_cancel_left₀ _ (by exact_mod_cast divisor.ne')]
    exact approximates_accuracyOfFraction (Nat.mod_lt _ divisor)
  · rw [targetExponent_binary64, totalExponent, totalExponent] at choice
    rcases le_or_gt target (-1074) with low | high
    · exact .inl low
    · right
      rw [Nat.le_div_iff_mul_le divisor]
      calc 2 ^ 52 * b ≤ 2 ^ 52 * 2 ^ (b.log2 + 1) := Nat.mul_le_mul_left _ Nat.lt_log2_self.le
        _ = 2 ^ (b.log2 + 53) := by rw [← pow_add]; congr 1; omega
        _ ≤ 2 ^ (a.log2 + count) := Nat.pow_le_pow_right two_pos (by omega)
        _ = 2 ^ a.log2 * 2 ^ count := pow_add ..
        _ ≤ a * 2 ^ count := Nat.mul_le_mul_right _ (Nat.log2_self_le dividend.ne')

end AlgebraEngine.Binary64
