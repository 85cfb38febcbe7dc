import AlgebraEngine.Proofs.Number.Encoding

/-! Reading decimals. Few digits and a small power of ten are exact machine numbers, so that one
product or quotient rounds correctly; all other decimals are multiplied out, apart from those that
lie outside the range of machine numbers. -/
namespace AlgebraEngine

/-- The number that a decimal stands for. -/
def Decimal.value (d : Decimal) : ℚ := d.digits * 10 ^ d.exponent

namespace Binary64

open Float.Model (Format UnpackedFloat)
open Float.Model.UnpackedFloat

variable {s n k : ℕ} {e : ℤ}

/-- A natural number of at most 53 binary digits is exact as a machine number. -/
theorem unpack_toFloat (pos : 0 < n) (lt : n < 2 ^ 53) :
    ∃ (a : ℕ) (i : ℤ) (positive : 0 < a),
      n.toUInt64.toFloat.toModel.unpack = .finite .positive a i positive ∧
      2 ^ 52 ≤ a ∧ (a * 2 ^ i : ℚ) = n := by
  have log : n.log2 < 53 := (Nat.log2_lt pos.ne').mpr lt
  obtain ⟨count, total⟩ : ∃ count, n.log2 + count = 52 := ⟨52 - n.log2, by omega⟩
  have value : ((n * 2 ^ count : ℕ) * 2 ^ (-count : ℤ) : ℚ) = n := by
    push_cast
    rw [mul_assoc, zpow_neg, zpow_natCast, mul_inv_cancel₀ (by positivity), mul_one]
  have long : 2 ^ 52 ≤ n * 2 ^ count := by
    rw [← total, pow_add]
    exact Nat.mul_le_mul_right _ (Nat.log2_self_le pos.ne')
  have canonical : Canonical (n * 2 ^ count) (-count) := by
    refine ⟨by omega, ?_, by omega, .inl long⟩
    rw [show 53 = n.log2 + 1 + count by omega, pow_add]
    exact Nat.mul_lt_mul_of_pos_right Nat.lt_log2_self (by positivity)
  refine ⟨n * 2 ^ count, -count, canonical.pos, ?_, long, value⟩
  have whole : n.toUInt64.toNat = n := by
    show n % 2 ^ 64 = n
    omega
  have order : compare (n : ℤ) 0 = .gt := Int.compare_eq_gt.mpr (by omega)
  have target : Format.binary64.targetExponent (Float.Model.totalExponent n 0) = -count := by
    rw [targetExponent_eq]
    omega
  have amount : (- -(count : ℤ)).toNat = count := by omega
  have rounded : ofNat .binary64 n = .finite .positive (n * 2 ^ count) (-count) canonical.pos := by
    simp only [ofNat, UnpackedFloat.ofInt, UnpackedFloat.normalize, order, UnpackedFloat.round,
      target, decreaseExponent, amount, Int.toNat_natCast, Nat.shiftLeft_eq, zero_sub]
    exact canonical.roundsTo.roundWithAccuracy
      (mul_div_cancel_right₀ _ (zpow_ne_zero _ two_ne_zero)) (.inr long)
  show (Float.Model.pack (ofNat .binary64 n.toUInt64.toNat)).unpack = _
  rw [whole, rounded, canonical.unpack_pack (by omega)]

theorem zpow_eq_div {base : ℚ} (nonzero : base ≠ 0) (j : ℤ) :
    base ^ j = base ^ j.toNat / base ^ (-j).toNat := by
  rw [← zpow_natCast, ← zpow_natCast, ← zpow_sub₀ nonzero, Int.toNat_sub_toNat_neg]

/-- Whether a machine number is the exact power of ten. -/
private def isPowerOfTen (f : Float) (k : ℕ) : Bool :=
  match f.toModel.unpack with
  | .finite .positive p j _ => p * 2 ^ j.toNat == 10 ^ k * 2 ^ (-j).toNat
  | _ => false

private theorem isPowerOfTen_powers :
    ∀ k : Fin 23, isPowerOfTen Float.exactlyRepresentablePowersOfTen[k] k = true := by
  decide +kernel

theorem unpack_powerOfTen (small : k < Float.exactlyRepresentablePowersOfTen.size) :
    ∃ (p : ℕ) (j : ℤ) (positive : 0 < p),
      Float.exactlyRepresentablePowersOfTen[k].toModel.unpack = .finite .positive p j positive ∧
      (p * 2 ^ j : ℚ) = 10 ^ k := by
  have power : isPowerOfTen Float.exactlyRepresentablePowersOfTen[k] k = true :=
    isPowerOfTen_powers ⟨k, small⟩
  unfold isPowerOfTen at power
  split at power
  · rename_i p j positive unpacked
    refine ⟨p, j, positive, unpacked, ?_⟩
    rw [zpow_eq_div two_ne_zero, ← mul_div_assoc, div_eq_iff (by positivity)]
    exact_mod_cast beq_iff_eq.mp power
  · cases power

private theorem digits_pos {scale : ℚ} (rounds : RoundsTo (n * scale) s e) : 0 < n :=
  Nat.pos_of_ne_zero fun zero => by
    have positive := rounds.value_pos
    rw [zero, Nat.cast_zero, zero_mul] at positive
    exact positive.false

/-- A number bounds the power of ten that its digits are multiplied by. -/
theorem RoundsTo.scale_lt (rounds : RoundsTo (n * 10 ^ k) s e) : k < 53 + e := by
  have positive := digits_pos rounds
  have order : (2 : ℚ) ^ (k : ℤ) < 2 ^ (53 + e) := by
    refine lt_of_le_of_lt ?_ rounds.lt_zpow
    rw [zpow_natCast]
    calc (2 : ℚ) ^ k ≤ 10 ^ k := pow_le_pow_left₀ (by norm_num) (by norm_num) k
      _ ≤ n * 10 ^ k := le_mul_of_one_le_left (by positivity) (by exact_mod_cast positive)
  rwa [zpow_lt_zpow_iff_right₀ one_lt_two] at order

/-- A number bounds the power of ten that its digits are divided by. -/
theorem RoundsTo.divisor_lt (rounds : RoundsTo (n / 10 ^ k) s e) : e - 1 < n.log2 + 1 - k := by
  have order : (2 : ℚ) ^ (e - 1) < 2 ^ (n.log2 + 1 - k : ℤ) := by
    refine rounds.zpow_le.trans_lt ?_
    rw [zpow_sub₀ two_ne_zero, ← Nat.cast_succ, zpow_natCast, zpow_natCast]
    have long : (n : ℚ) < 2 ^ (n.log2 + 1) := by exact_mod_cast Nat.lt_log2_self
    have base : (2 : ℚ) ^ k ≤ 10 ^ k := pow_le_pow_left₀ (by norm_num) (by norm_num) k
    exact div_lt_div₀ long base (by positivity) (by positivity)
  rwa [zpow_lt_zpow_iff_right₀ one_lt_two] at order

theorem RoundsTo.ofScientific_false (rounds : RoundsTo (n * 10 ^ k) s e) (le : e ≤ 971) :
    Float.ofScientific n false k = .ofModel (.pack (.finite .positive s e rounds.pos)) := by
  have positive := digits_pos rounds
  unfold Float.ofScientific
  split
  · rename_i small
    obtain ⟨a, i, hi, number, long, value⟩ := unpack_toFloat positive small.1
    obtain ⟨p, j, hj, power, scale⟩ := unpack_powerOfTen
      (show k < Float.exactlyRepresentablePowersOfTen.size from Nat.lt_succ_of_le small.2)
    show Float.ofModel (.pack (UnpackedFloat.mul .binary64 (Float.Model.unpack _)
      (Float.Model.unpack _))) = _
    rw [number, power, rounds.mul hi hj (by rw [value, scale])
      (long.trans (Nat.le_mul_of_pos_right a hj))]
    rfl
  · have bounded := rounds.scale_lt
    have below : ¬ (k : ℤ) > 2 ^ Format.binary64.exponentBits := by
      norm_num
      omega
    have above : ¬ (k : ℤ) < -((2 ^ Format.binary64.exponentBits : ℤ) + n.log2) := by
      norm_num
      omega
    have shifted : n <<< Format.binary64.mantissaBits = n * 2 ^ 53 := Nat.shiftLeft_eq n 53
    have long : 2 ^ 52 ≤ (n <<< Format.binary64.mantissaBits) * 10 ^ (k : ℤ).toNat := by
      have scale : 1 ≤ 10 ^ (k : ℤ).toNat := Nat.one_le_pow _ _ (by omega)
      rw [shifted]
      calc 2 ^ 52 ≤ n * 2 ^ 53 := by omega
        _ ≤ n * 2 ^ 53 * 10 ^ (k : ℤ).toNat := Nat.le_mul_of_pos_right _ scale
    have value : (n * 10 ^ k : ℚ) = ((n <<< Format.binary64.mantissaBits : ℕ) : ℚ) *
        2 ^ (-(Format.binary64.mantissaBits : ℤ)) * ((10 ^ (k : ℤ).toNat : ℕ) * 2 ^ (0 : ℤ)) := by
      rw [shifted, Int.toNat_natCast, show (Format.binary64.mantissaBits : ℤ) = 53 from rfl]
      push_cast
      field_simp
      norm_num
    show Float.ofModel (.pack (UnpackedFloat.ofScientific .binary64 n (k : ℤ))) = _
    unfold UnpackedFloat.ofScientific
    rw [dif_neg positive.ne', if_neg below, if_neg above, if_pos (Int.natCast_nonneg k),
      rounds.mul _ _ value long]
    rfl

theorem RoundsTo.ofScientific_true (rounds : RoundsTo (n / 10 ^ k) s e) (some : 0 < k) :
    Float.ofScientific n true k = .ofModel (.pack (.finite .positive s e rounds.pos)) := by
  have positive := digits_pos (div_eq_mul_inv (n : ℚ) _ ▸ rounds)
  unfold Float.ofScientific
  split
  · rename_i small
    obtain ⟨a, i, hi, number, long, value⟩ := unpack_toFloat positive small.1
    obtain ⟨p, j, hj, power, scale⟩ := unpack_powerOfTen
      (show k < Float.exactlyRepresentablePowersOfTen.size from Nat.lt_succ_of_le small.2)
    show Float.ofModel (.pack (UnpackedFloat.div .binary64 (Float.Model.unpack _)
      (Float.Model.unpack _))) = _
    rw [number, power, rounds.div hi hj (by
      rw [value, scale, div_mul_cancel₀ _ (by positivity)])]
    rfl
  · have bounded := rounds.divisor_lt
    have below : ¬ -(k : ℤ) > 2 ^ Format.binary64.exponentBits := by
      norm_num
    have above : ¬ -(k : ℤ) < -((2 ^ Format.binary64.exponentBits : ℤ) + n.log2) := by
      have := rounds.le
      norm_num
      omega
    have value : (n / 10 ^ k : ℚ) * ((10 ^ (- -(k : ℤ)).toNat : ℕ) * 2 ^ (0 : ℤ)) =
        n * 2 ^ (0 : ℤ) := by
      rw [neg_neg, Int.toNat_natCast]
      push_cast
      field_simp
    show Float.ofModel (.pack (UnpackedFloat.ofScientific .binary64 n (Int.negOfNat k))) = _
    unfold UnpackedFloat.ofScientific
    rw [Int.negOfNat_eq, Int.ofNat_eq_natCast, dif_neg positive.ne', if_neg below, if_neg above,
      if_neg (by omega), rounds.div _ _ value]
    rfl

/-- A decimal is read as the number that it rounds to. -/
theorem ofDecimal_of_roundsTo {x : Binary64} {d : Decimal} (finite : x.isFinite = true)
    (nonzero : x.isZero = false) (rounds : RoundsTo d.value x.significand x.exponent) :
    ofDecimal d = x.abs := by
  rw [← ofFloat_pack finite nonzero]
  unfold ofDecimal
  unfold Decimal.value at rounds
  split
  · rename_i above
    lift d.exponent to ℕ using above with k exponent
    rw [zpow_natCast] at rounds
    rw [Int.toNat_natCast, rounds.ofScientific_false (exponent_le finite)]
  · rename_i below
    obtain ⟨k, exponent⟩ : ∃ k : ℕ, d.exponent = -k := ⟨(-d.exponent).toNat, by omega⟩
    rw [exponent, zpow_neg, zpow_natCast, ← div_eq_mul_inv] at rounds
    rw [exponent, neg_neg, Int.toNat_natCast, rounds.ofScientific_true (by omega)]

end Binary64

end AlgebraEngine
