import AlgebraEngine.Proofs.Number.Numerals
import AlgebraEngine.Proofs.Number.Scientific

/-! The text of a finite number reads back. The search for the fewest digits stays among the values
that round to the number, and a decimal is read as the number that it rounds to. Whether the search
finds anything at all does not matter for this, since it falls back on the exact value. -/
namespace AlgebraEngine

namespace Decimal

theorem value_stripZerosUpTo (fuel : ℕ) (d : Decimal) :
    (stripZerosUpTo fuel d).value = d.value := by
  induction fuel generalizing d with
  | zero => rfl
  | succ fuel ih =>
    unfold stripZerosUpTo
    split
    · rename_i zero
      have digits : (d.digits : ℚ) = (d.digits / 10 : ℕ) * 10 := by
        exact_mod_cast (Nat.div_mul_cancel (Nat.dvd_of_mod_eq_zero zero)).symm
      rw [ih, value, value, digits, zpow_add_one₀ (by norm_num), mul_assoc, mul_comm (10 : ℚ)]
    · rfl

@[simp] theorem value_stripZeros (d : Decimal) : d.stripZeros.value = d.value := by
  unfold stripZeros
  split
  · rfl
  · exact value_stripZerosUpTo _ d

theorem natOfDigits_eq {cs : List Char} (digits : ∀ c ∈ cs, c.isDigit = true) :
    natOfDigits cs = Nat.ofDigitChars 10 cs 0 := by
  rw [natOfDigits, Nat.ofDigitChars_eq_foldl]
  generalize 0 = n
  induction cs generalizing n with
  | nil => rfl
  | cons c cs ih =>
    rw [List.forall_mem_cons] at digits
    rw [List.foldl_cons, List.foldl_cons, digitValue, if_pos digits.1, ih digits.2]

theorem ofNumeral_digits {cs : List Char} (digits : ∀ c ∈ cs, c.isDigit = true) :
    ofNumeral cs = ⟨natOfDigits cs, 0⟩ := by
  have whole : cs.takeWhile Char.isDigit = cs := List.takeWhile_eq_self_iff.mpr digits
  simp [ofNumeral, whole, List.drop_eq_nil_of_le (Nat.le_succ cs.length)]

theorem ofNumeral_point {front back : List Char} (digits : ∀ c ∈ front ++ back, c.isDigit = true) :
    ofNumeral (front ++ '.' :: back) = ⟨natOfDigits (front ++ back), -back.length⟩ := by
  rw [List.forall_mem_append] at digits
  have whole : (front ++ '.' :: back).takeWhile Char.isDigit = front := by
    rw [List.takeWhile_append_of_pos digits.1, List.takeWhile_cons_of_neg (by decide),
      List.append_nil]
  have fraction : back.takeWhile Char.isDigit = back := List.takeWhile_eq_self_iff.mpr digits.2
  simp [ofNumeral, whole, fraction]

/-- Reading the positional form of a decimal keeps its value. -/
theorem value_ofNumeral (d : Decimal) : (ofNumeral d.positionalChars).value = d.value := by
  unfold positionalChars value
  dsimp only
  split
  · rename_i above
    lift d.exponent to ℕ using above with k
    have digits : ∀ c ∈ digitChars d.digits ++ List.replicate k '0', c.isDigit = true := by
      rw [List.forall_mem_append]
      exact ⟨digitChars_digits _, fun c zero => List.eq_of_mem_replicate zero ▸ rfl⟩
    rw [Int.toNat_natCast, ofNumeral_digits digits, natOfDigits_eq digits,
      Nat.ofDigitChars_append, digitChars, Nat.ofDigitChars_ten_toDigits,
      Nat.ofDigitChars_replicate_zero, zpow_natCast]
    push_cast
    rw [mul_one, mul_comm]
  · rename_i below
    obtain ⟨places, exponent⟩ : ∃ places : ℕ, d.exponent = -places :=
      ⟨(-d.exponent).toNat, by omega⟩
    rw [exponent, neg_neg, Int.toNat_natCast]
    generalize padded : List.replicate (places + 1 - (digitChars d.digits).length) '0' ++
      digitChars d.digits = row
    have digits : ∀ c ∈ row, c.isDigit = true := padded ▸ padded_digits
    have number : Nat.ofDigitChars 10 row 0 = d.digits := by
      rw [← padded, Nat.ofDigitChars_append, Nat.ofDigitChars_replicate_zero, mul_zero, digitChars,
        Nat.ofDigitChars_ten_toDigits]
    have long : places < row.length := by
      rw [← padded]
      simp
      omega
    rw [← List.take_append_drop (row.length - places) row] at digits
    rw [ofNumeral_point digits, natOfDigits_eq digits, List.take_append_drop, number,
      List.length_drop, Nat.sub_sub_self long.le]

end Decimal

namespace Binary64

variable {x : Binary64} {i : Interval} {d : Decimal} {unit grid point count : ℕ} {v : ℚ}

theorem le_interval_low (x : Binary64) : 4 * x.significand ≤ x.interval.low + 2 := by
  simp only [interval]
  split <;> omega

/-- Just above a power of two, the interval reaches only half as far down. -/
theorem le_interval_low_of_power (power : x.significand = 2 ^ 52) (normal : -1074 < x.exponent) :
    4 * x.significand ≤ x.interval.low + 1 := by
  have field : 1 < x.biasedExponent := by
    unfold exponent at normal
    split at normal <;> omega
  have fraction : x.fraction = 0 := by
    rw [significand, if_neg (by omega)] at power
    exact Nat.add_eq_left.mp power
  simp only [interval, fraction, field, and_self, if_true]
  omega

theorem Interval.between_of_holds {q : ℚ} (pos : 0 < unit) (holds : i.holds unit point = true)
    (value : q * unit = point) :
    i.low ≤ q ∧ q ≤ i.high ∧ (i.closed = false → i.low < q ∧ q < i.high) := by
  have pos' : (0 : ℚ) < unit := by exact_mod_cast pos
  rw [eq_div_of_mul_eq pos'.ne' value, le_div_iff₀ pos', div_le_iff₀ pos', lt_div_iff₀ pos',
    div_lt_iff₀ pos']
  unfold Interval.holds at holds
  split at holds
  · rename_i closed
    simp only [Bool.and_eq_true, decide_eq_true_eq] at holds
    refine ⟨by exact_mod_cast holds.1, by exact_mod_cast holds.2, fun opened => ?_⟩
    rw [opened] at closed
    cases closed
  · simp only [Bool.and_eq_true, decide_eq_true_eq] at holds
    refine ⟨by exact_mod_cast holds.1.le, by exact_mod_cast holds.2.le, fun _ => ?_⟩
    exact_mod_cast holds

/-- The values in the interval of a number, which counts quarters of its unit, round to it. -/
theorem roundsTo_of_holds (finite : x.isFinite = true) (nonzero : x.isZero = false)
    (pos : 0 < unit) (holds : x.interval.holds unit point = true)
    (value : v / 2 ^ x.exponent * 4 * unit = point) : RoundsTo v x.significand x.exponent := by
  obtain ⟨above, below, opened⟩ := Interval.between_of_holds pos holds value
  have low : (4 * x.significand : ℚ) ≤ x.interval.low + 2 := by exact_mod_cast x.le_interval_low
  have high : (x.interval.high : ℚ) = 4 * x.significand + 2 := by
    show ((4 * x.significand + 2 : ℕ) : ℚ) = _
    push_cast
    rfl
  refine ⟨canonical finite nonzero, ⟨by linarith, by linarith, fun odd => ?_⟩, ?_⟩
  · obtain ⟨above, below⟩ := opened (by simp [interval, odd])
    constructor <;> linarith
  · intro power normal
    have edge : (4 * x.significand : ℚ) ≤ x.interval.low + 1 := by
      exact_mod_cast le_interval_low_of_power power normal
    have power' : (x.significand : ℚ) = 2 ^ 52 := by exact_mod_cast power
    linarith

theorem Interval.holds_of_onGrid? {digits : ℕ} (found : i.onGrid? unit grid = some digits) :
    i.holds unit (digits * grid) = true := by
  unfold onGrid? at found
  dsimp only at found
  split at found
  · rename_i below above
    split at found
    · cases found
      exact below
    · cases found
      exact above
  · rename_i below above
    cases found
    exact below
  · rename_i below above
    cases found
    exact above
  · cases found

theorem holds_of_shortestFrom {twos place : ℤ} (found : shortestFrom i twos count place = some d) :
    i.holds (2 ^ twos.toNat * 10 ^ (-d.exponent).toNat)
      (d.digits * (2 ^ (-twos).toNat * 10 ^ d.exponent.toNat)) = true := by
  induction count generalizing place with
  | zero => cases found
  | succ count ih =>
    unfold shortestFrom at found
    dsimp only at found
    split at found
    · rename_i digits onGrid
      cases found
      exact Interval.holds_of_onGrid? onGrid
    · exact ih found

theorem roundsTo_of_shortestFrom {place : ℤ} (finite : x.isFinite = true)
    (nonzero : x.isZero = false)
    (found : shortestFrom x.interval (x.exponent - 2) count place = some d) :
    RoundsTo d.value x.significand x.exponent := by
  refine roundsTo_of_holds finite nonzero (by positivity) (holds_of_shortestFrom found) ?_
  have quarter : (2 : ℚ) ^ x.exponent = 2 ^ (x.exponent - 2) * 4 := by
    rw [zpow_sub₀ two_ne_zero]
    norm_num
  rw [Decimal.value, quarter, zpow_eq_div two_ne_zero (x.exponent - 2),
    zpow_eq_div (by norm_num) d.exponent]
  push_cast
  field_simp

theorem value_exactDecimal (x : Binary64) :
    x.exactDecimal.value = x.significand * 2 ^ x.exponent := by
  unfold exactDecimal Decimal.value
  split
  · rename_i above
    lift x.exponent to ℕ using above with k
    simp
  · rename_i below
    obtain ⟨k, exponent⟩ : ∃ k : ℕ, x.exponent = -k := ⟨(-x.exponent).toNat, by omega⟩
    simp only [exponent, neg_neg, Int.toNat_natCast, zpow_neg, zpow_natCast, Nat.pow_eq]
    push_cast
    rw [show (10 : ℚ) = 5 * 2 by norm_num, mul_pow]
    field_simp

/-- The decimal that a number is written as rounds to it. -/
theorem roundsTo_shortest (finite : x.isFinite = true) (nonzero : x.isZero = false) :
    RoundsTo x.shortest.value x.significand x.exponent := by
  rw [shortest, nonzero]
  simp only [Bool.false_eq_true, if_false, Decimal.value_stripZeros]
  cases found : shortestFrom x.interval (x.exponent - 2) 20 x.leadingPlace with
  | none =>
    rw [Option.getD_none, value_exactDecimal]
    exact (canonical finite nonzero).roundsTo
  | some d => exact roundsTo_of_shortestFrom finite nonzero found

/-! ## Reading back -/

/-- The digits of a finite number denote its magnitude. -/
theorem ofDecimal_text (finite : x.isFinite = true) :
    ofDecimal (.ofNumeral (Numeral.text x.abs).toList) = x.abs := by
  cases zero : x.isZero with
  | true =>
    obtain ⟨negative, magnitude⟩ := x
    obtain rfl : magnitude = 0 := by simpa [isZero] using zero
    show ofDecimal (.ofNumeral (Numeral.text (⟨false, 0⟩ : Binary64)).toList) = ⟨false, 0⟩
    decide +kernel
  | false =>
    have nonzero : x.abs.isZero = false := zero
    rw [text_of_finite (x := x.abs) finite, nonzero]
    show ofDecimal (.ofNumeral (String.ofList x.shortest.positionalChars).toList) = x.abs
    rw [String.toList_ofList]
    refine ofDecimal_of_roundsTo finite zero ?_
    rw [Decimal.value_ofNumeral]
    exact roundsTo_shortest finite zero

end Binary64

end AlgebraEngine
