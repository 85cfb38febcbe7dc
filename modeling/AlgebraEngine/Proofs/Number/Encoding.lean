import AlgebraEngine.Proofs.Number.Rounding

/-! The encoding of numbers that are not zero. It loses nothing, and its sign bit apart it is the
magnitude. -/
namespace AlgebraEngine.Binary64

open Float.Model (Format UnpackedFloat)
open Float.Model.UnpackedFloat

variable {s : ℕ} {e : ℤ}

theorem toNat_packComponents {exponent : BitVec 11} {mantissa : BitVec 52} :
    (packComponents .binary64 .positive exponent mantissa).toNat =
      exponent.toNat * 2 ^ 52 + mantissa.toNat := by
  show (0#1 ++ exponent ++ mantissa).toNat = _
  rw [BitVec.toNat_append, ← Nat.shiftLeft_add_eq_or_of_lt mantissa.isLt, Nat.shiftLeft_eq,
    BitVec.toNat_append]
  simp

/-- The exponent field, which is zero for the numbers that have no implicit digit. -/
def exponentField (s : ℕ) (e : ℤ) : ℕ := if 2 ^ 52 ≤ s then (e + 1075).toNat else 0

theorem Canonical.pack (canonical : Canonical s e) (le : e ≤ 971) (sign : Sign) :
    pack .binary64 (.finite sign s e canonical.pos) =
      packComponents .binary64 sign (BitVec.ofNat 11 (exponentField s e)) (BitVec.ofNat 52 s) := by
  have bound : ¬ 2 ^ Format.binary64.exponentBits ≤ (e + 1023 + 52).toNat + 1 := by
    norm_num
    omega
  have log : s.log2 + 1 = 53 ↔ 2 ^ 52 ≤ s := by
    rw [Nat.add_right_cancel_iff, Nat.log2_eq_iff canonical.pos.ne']
    exact and_iff_left canonical.lt
  show (if 2 ^ Format.binary64.exponentBits ≤ (e + 1023 + 52).toNat + 1 then _ else
    if s.log2 + 1 = 53 then _ else _) = _
  simp only [bound, log, exponentField, if_false]
  split
  · rw [add_assoc]
    rfl
  · rfl

/-- A number is decoded to what was encoded. -/
theorem Canonical.unpack_pack (canonical : Canonical s e) (le : e ≤ 971) (sign : Sign) :
    (Float.Model.pack (.finite sign s e canonical.pos)).unpack =
      .finite sign s e canonical.pos := by
  show UnpackedFloat.unpack .binary64 (UnpackedFloat.pack .binary64 _) = _
  rw [canonical.pack le, UnpackedFloat.unpack]
  have small : exponentField s e < 2047 := by
    unfold exponentField
    split <;> omega
  have number : BitVec.ofNat 11 (exponentField s e) ≠ -1#11 := by
    intro same
    have values := congrArg BitVec.toNat same
    rw [BitVec.toNat_ofNat, Nat.mod_eq_of_lt (by omega)] at values
    exact absurd values small.ne
  simp only [unpackMantissa_packComponents, unpackExponent_packComponents,
    unpackSign_packComponents, Sign.ofBitVec_toBitVec, number, if_false]
  have least := canonical.le
  by_cases normal : 2 ^ 52 ≤ s
  · have field : exponentField s e = (e + 1075).toNat := if_pos normal
    have nonzero : BitVec.ofNat 11 (exponentField s e) ≠ 0#11 := by
      intro same
      have values := congrArg BitVec.toNat same
      rw [BitVec.toNat_ofNat, Nat.mod_eq_of_lt (by omega)] at values
      change exponentField s e = 0 at values
      omega
    have significand : (1#1 ++ BitVec.ofNat 52 s).toNat = s := by
      rw [BitVec.toNat_append, ← Nat.shiftLeft_add_eq_or_of_lt (BitVec.isLt _)]
      simp
      have := canonical.lt
      omega
    simp only [nonzero, if_false, significand]
    congr 1
    rw [BitVec.toNat_ofNat, Nat.mod_eq_of_lt (by omega), field]
    show ((e + 1075).toNat : ℤ) - 1075 = e
    omega
  · have field : exponentField s e = 0 := if_neg normal
    obtain rfl := canonical.normal.resolve_left normal
    have value : (BitVec.ofNat 52 s).toNat = s := by
      rw [BitVec.toNat_ofNat, Nat.mod_eq_of_lt (by omega)]
    have nonzero : BitVec.ofNat 52 s ≠ 0#52 := by
      intro same
      rw [same] at value
      exact canonical.pos.ne value
    simp only [field, nonzero, if_true, dite_false, value]
    rfl

variable {x : Binary64}

theorem toNat_lt_of_finite (finite : x.isFinite = true) : x.magnitude.toNat < 2047 * 2 ^ 52 := by
  simpa [isFinite, UInt64.lt_iff_toNat_lt, infiniteMagnitude] using finite

theorem canonical (finite : x.isFinite = true) (nonzero : x.isZero = false) :
    Canonical x.significand x.exponent := by
  have small := toNat_lt_of_finite finite
  have pos : x.magnitude.toNat ≠ 0 := by
    rw [isZero, beq_eq_false_iff_ne, ne_eq, ← UInt64.toNat_inj] at nonzero
    exact nonzero
  have power : Nat.pow 2 52 = 2 ^ 52 := rfl
  constructor <;> simp only [significand, exponent, biasedExponent, fraction, power] <;>
    split <;> omega

theorem exponent_le (finite : x.isFinite = true) : x.exponent ≤ 971 := by
  have small := toNat_lt_of_finite finite
  have power : Nat.pow 2 52 = 2 ^ 52 := rfl
  simp only [exponent, biasedExponent, power]
  split <;> omega

theorem significand_mod (x : Binary64) : x.significand % 2 ^ 52 = x.fraction := by
  have power : Nat.pow 2 52 = 2 ^ 52 := rfl
  simp only [significand, fraction, power]
  split <;> omega

theorem exponentField_eq (x : Binary64) :
    exponentField x.significand x.exponent = x.biasedExponent := by
  have power : Nat.pow 2 52 = 2 ^ 52 := rfl
  simp only [exponentField, significand, exponent, fraction, power]
  by_cases subnormal : x.biasedExponent = 0
  · simp only [subnormal, if_true]
    split <;> omega
  · simp only [subnormal, if_false]
    split <;> omega

theorem toBits_pack (finite : x.isFinite = true) (nonzero : x.isZero = false) :
    (Float.Model.pack (.finite .positive x.significand x.exponent
      (canonical finite nonzero).pos)).toBits = x.magnitude := by
  have small := toNat_lt_of_finite finite
  have power : Nat.pow 2 52 = 2 ^ 52 := rfl
  rw [← UInt64.toNat_inj]
  show (pack .binary64 _).toNat = _
  rw [(canonical finite nonzero).pack (exponent_le finite), toNat_packComponents,
    BitVec.toNat_ofNat, BitVec.toNat_ofNat, significand_mod, exponentField_eq]
  simp only [biasedExponent, fraction, power]
  omega

/-- The machine number with the significand and the exponent of a number is its magnitude. -/
theorem ofFloat_pack (finite : x.isFinite = true) (nonzero : x.isZero = false) :
    ofFloat (.ofModel (.pack (.finite .positive x.significand x.exponent
      (canonical finite nonzero).pos))) = x.abs := by
  have number : (Float.ofModel (.pack (.finite .positive x.significand x.exponent
      (canonical finite nonzero).pos))).isNaN = false := by
    show UnpackedFloat.isNaN (Float.Model.unpack _) = false
    rw [(canonical finite nonzero).unpack_pack (exponent_le finite)]
    rfl
  have bits : (Float.ofModel (.pack (.finite .positive x.significand x.exponent
      (canonical finite nonzero).pos))).toBits = x.magnitude := toBits_pack finite nonzero
  have small := toNat_lt_of_finite finite
  have unsigned : ¬ 0x8000000000000000 ≤ x.magnitude := by
    rw [UInt64.le_iff_toNat_le]
    show ¬ 2 ^ 63 ≤ _
    omega
  have masked : x.magnitude &&& 0x7FFFFFFFFFFFFFFF = x.magnitude := by
    rw [← UInt64.toNat_inj, UInt64.toNat_and]
    show x.magnitude.toNat &&& (2 ^ 63 - 1) = _
    rw [Nat.and_two_pow_sub_one_eq_mod]
    omega
  rw [ofFloat, number, bits, masked]
  simp [unsigned, abs]

end AlgebraEngine.Binary64
