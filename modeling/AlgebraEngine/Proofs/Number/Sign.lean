import AlgebraEngine.Proofs.Number.Scientific

/-! Numerals are read without a sign. Whatever the digits, the number that they are rounded to is
zero, infinity or a finite number, each of them with a plus sign. -/
namespace AlgebraEngine.Binary64

open Float.Model (Format UnpackedFloat)
open Float.Model.UnpackedFloat

/-- A machine number that is not below zero, before it is encoded. -/
inductive Unsigned : UnpackedFloat → Prop where
  | zero : Unsigned (.zero .positive)
  | finite (s : ℕ) (e : ℤ) (positive : 0 < s) : Unsigned (.finite .positive s e positive)
  | infinity : Unsigned (.infinity .positive)

theorem unsigned_roundWithAccuracy (s : ℕ) (e : ℤ) (accuracy : Accuracy) :
    Unsigned (roundWithAccuracy .binary64 .positive s e accuracy) := by
  simp only [roundWithAccuracy]
  split
  · exact .zero
  · exact .finite _ _ _

/-- Products and quotients by positive numbers are not below zero. -/
theorem Unsigned.mul_finite {u : UnpackedFloat} (unsigned : Unsigned u) {s : ℕ} {e : ℤ}
    (positive : 0 < s) :
    Unsigned (UnpackedFloat.mul .binary64 u (.finite .positive s e positive)) := by
  cases unsigned with
  | zero => exact .zero
  | finite => exact unsigned_roundWithAccuracy _ _ _
  | infinity => exact .infinity

theorem Unsigned.div_finite {u : UnpackedFloat} (unsigned : Unsigned u) {s : ℕ} {e : ℤ}
    (positive : 0 < s) :
    Unsigned (UnpackedFloat.div .binary64 u (.finite .positive s e positive)) := by
  cases unsigned with
  | zero => exact .zero
  | finite => exact unsigned_roundWithAccuracy _ _ _
  | infinity => exact .infinity

theorem unsigned_ofScientific (n : ℕ) (e : ℤ) :
    Unsigned (UnpackedFloat.ofScientific .binary64 n e) := by
  unfold UnpackedFloat.ofScientific
  split
  · exact .zero
  · split
    · exact .infinity
    · split
      · exact .zero
      · split
        · exact (Unsigned.finite _ _ _).mul_finite _
        · exact (Unsigned.finite _ _ _).div_finite _

/-- A small number of digits is converted exactly, and zero to zero. -/
theorem unsigned_toFloat {n : ℕ} (lt : n < 2 ^ 53) :
    Unsigned n.toUInt64.toFloat.toModel.unpack := by
  rcases Nat.eq_zero_or_pos n with rfl | positive
  · have zero : (0 : ℕ).toUInt64.toFloat.toModel.unpack = .zero .positive := rfl
    rw [zero]
    exact .zero
  · obtain ⟨a, i, pos, unpacked, -⟩ := unpack_toFloat positive lt
    rw [unpacked]
    exact .finite _ _ _

/-- What digits are read as is encoded from a number with a plus sign. -/
theorem ofScientific_unsigned (n : ℕ) (shift : Bool) (k : ℕ) :
    ∃ u, Unsigned u ∧ Float.ofScientific n shift k = .ofModel (.pack u) := by
  unfold Float.ofScientific
  split
  · rename_i small
    obtain ⟨p, j, positive, power, -⟩ := unpack_powerOfTen
      (show k < Float.exactlyRepresentablePowersOfTen.size from Nat.lt_succ_of_le small.2)
    have digits := unsigned_toFloat small.1
    dsimp only
    split
    · exact ⟨_, power ▸ digits.div_finite positive, rfl⟩
    · exact ⟨_, power ▸ digits.mul_finite positive, rfl⟩
  · exact ⟨_, unsigned_ofScientific n _, rfl⟩

/-- A number with a plus sign is encoded without the sign bit. Only infinity has the highest
exponent field. -/
theorem Unsigned.pack {u : UnpackedFloat} (unsigned : Unsigned u) :
    ∃ (exponent : BitVec 11) (mantissa : BitVec 52),
      UnpackedFloat.pack .binary64 u = packComponents .binary64 .positive exponent mantissa ∧
        (exponent = -1#11 → mantissa = 0#52) := by
  cases unsigned with
  | zero => exact ⟨0, 0, rfl, fun _ => rfl⟩
  | infinity => exact ⟨-1#11, 0, rfl, fun _ => rfl⟩
  | finite s e positive =>
    simp only [UnpackedFloat.pack]
    split
    · exact ⟨-1#11, 0, rfl, fun _ => rfl⟩
    · rename_i bounded
      split
      · refine ⟨_, _, rfl, fun highest => ?_⟩
        generalize (e + Format.binary64.exponentBias +
          Format.binary64.mantissaBitsWithoutImplicit).toNat = field at bounded highest
        have small : ¬ 2 ^ 11 ≤ field + 1 := bounded
        have large : field % 2 ^ 11 = 2047 := congrArg BitVec.toNat highest
        omega
      · exact ⟨_, _, rfl, fun highest => by cases highest⟩

theorem Unsigned.not_isNaN {u : UnpackedFloat} (unsigned : Unsigned u) :
    (Float.ofModel (.pack u)).isNaN = false := by
  obtain ⟨exponent, mantissa, packed, highest⟩ := unsigned.pack
  show UnpackedFloat.isNaN (UnpackedFloat.unpack .binary64 (UnpackedFloat.pack .binary64 u)) = false
  rw [packed, UnpackedFloat.unpack]
  simp only [unpackMantissa_packComponents, unpackExponent_packComponents]
  split
  · rename_i infinite
    rw [if_pos (highest infinite)]
    rfl
  · split
    · split <;> rfl
    · rfl

/-- The encoding of a number with a plus sign is at most that of infinity. -/
theorem Unsigned.toBits_le {u : UnpackedFloat} (unsigned : Unsigned u) :
    (Float.ofModel (.pack u)).toBits.toNat ≤ 2047 * 2 ^ 52 := by
  obtain ⟨exponent, mantissa, packed, highest⟩ := unsigned.pack
  show (UnpackedFloat.pack .binary64 u).toNat ≤ _
  rw [packed, toNat_packComponents]
  have field := exponent.isLt
  have fraction := mantissa.isLt
  by_cases infinite : exponent = -1#11
  · rw [infinite, highest infinite]
    decide
  · have finite : exponent.toNat ≠ 2047 := fun same => infinite (BitVec.eq_of_toNat_eq same)
    omega

theorem ofFloat_unsigned {u : UnpackedFloat} (unsigned : Unsigned u) :
    (ofFloat (.ofModel (.pack u))).negative = false ∧
      (ofFloat (.ofModel (.pack u))).isNaN = false := by
  have bits := unsigned.toBits_le
  rw [ofFloat, unsigned.not_isNaN]
  generalize (Float.ofModel (.pack u)).toBits = magnitude at bits ⊢
  constructor
  · simp only [Bool.false_eq_true, ↓reduceIte, decide_eq_false_iff_not, UInt64.le_iff_toNat_le]
    show ¬ 2 ^ 63 ≤ _
    omega
  · simp only [Bool.false_eq_true, ↓reduceIte, isNaN, infiniteMagnitude, decide_eq_false_iff_not,
      UInt64.lt_iff_toNat_lt, UInt64.toNat_and]
    show ¬ 2047 * 2 ^ 52 < magnitude.toNat &&& (2 ^ 63 - 1)
    have masked := Nat.and_le_left (n := magnitude.toNat) (m := 2 ^ 63 - 1)
    omega

/-- A numeral is read as a number that is neither below zero nor undefined. -/
theorem ofDecimal_unsigned (d : Decimal) :
    (ofDecimal d).negative = false ∧ (ofDecimal d).isNaN = false := by
  unfold ofDecimal
  split
  · obtain ⟨u, unsigned, read⟩ := ofScientific_unsigned d.digits false d.exponent.toNat
    rw [read]
    exact ofFloat_unsigned unsigned
  · obtain ⟨u, unsigned, read⟩ := ofScientific_unsigned d.digits true (-d.exponent).toNat
    rw [read]
    exact ofFloat_unsigned unsigned

end AlgebraEngine.Binary64
