import AlgebraEngine.Proofs.Expr.Spelling
import AlgebraEngine.Proofs.Number.Shortest
import AlgebraEngine.Simplify.Fraction

/-! Zero as a literal. The text of a number does not tell the two zeros apart, and reading it back
gives the one with a plus sign. A quotient that zero is part of is an integer or no finite
number. -/
namespace AlgebraEngine.Binary64

open Float.Model (UnpackedFloat)

variable {x n d : Binary64}

/-- A number with a plus sign if it is zero. -/
def plain (x : Binary64) : Binary64 := if x.isZero then zero else x

theorem plain_of_nonzero (nonzero : x.isZero = false) : x.plain = x := by
  simp [plain, nonzero]

@[simp] theorem isZero_plain (x : Binary64) : x.plain.isZero = x.isZero := by
  unfold plain
  split
  · rename_i zero
    rw [zero]
    rfl
  · rfl

@[simp] theorem text_plain (x : Binary64) : Numeral.text x.plain = Numeral.text x := by
  show x.plain.literalText = x.literalText
  cases zero : x.isZero with
  | true => simp [literalText, zero]
  | false => rw [plain_of_nonzero zero]

@[simp] theorem isSigned_plain (x : Binary64) : Numeral.isSigned x.plain = Numeral.isSigned x := by
  show x.plain.isSigned = x.isSigned
  cases zero : x.isZero with
  | true => simp [isSigned, zero]
  | false => rw [plain_of_nonzero zero]

/-- Rules and literals agree on what is zero. -/
theorem fraction_isZero (x : Binary64) : Fraction.isZero x = x.isZero := by
  have number : isNaN (.ofInt 0) = false := by decide +kernel
  have zero : isZero (.ofInt 0) = true := by decide +kernel
  show same x (.ofInt 0) = x.isZero
  cases here : x.isZero with
  | true => simp [same, here, zero]
  | false =>
    cases alike : same x (.ofInt 0) with
    | false => rfl
    | true =>
      rw [isZero_of_same zero number alike] at here
      cases here

theorem abs_of_zero (zero : x.isZero = true) : x.abs = Binary64.zero := by
  obtain ⟨negative, magnitude⟩ := x
  obtain rfl : magnitude = 0 := by simpa [isZero] using zero
  rfl

/-- A finite number reads back. -/
theorem reread_eq_abs (finite : x.isFinite = true) : Numeral.reread x = x.abs :=
  ofDecimal_text finite

/-- What the text of a number is read as: its magnitude behind a minus sign, or the number itself
but for the sign of zero. -/
theorem reread_cases (finite : x.isFinite = true) :
    (Expr.reread x = .sign .minus (.number x.abs) ∧ x.plain = x.abs.neg) ∨
      Expr.reread x = .number x.plain := by
  have same := reread_eq_abs finite
  cases zero : x.isZero with
  | true =>
    have unsigned : Numeral.isSigned x = false := by
      show x.isSigned = false
      simp [isSigned, zero]
    right
    simp [Expr.reread, unsigned, same, abs_of_zero zero, plain, zero]
  | false =>
    cases negative : x.negative with
    | true =>
      have signed : Numeral.isSigned x = true := by
        show x.isSigned = true
        simp [isSigned, zero, negative]
      left
      refine ⟨by simp [Expr.reread, signed, same], ?_⟩
      rw [plain_of_nonzero zero]
      cases x
      cases negative
      rfl
    | false =>
      have unsigned : Numeral.isSigned x = false := by
        show x.isSigned = false
        simp [isSigned, negative]
      right
      simp [Expr.reread, unsigned, same, abs_of_positive negative, plain_of_nonzero zero]

private theorem unpack_of_zero (zero : x.isZero = true) :
    ∃ s, x.toFloat.toModel.unpack = .zero s := by
  obtain ⟨negative, magnitude⟩ := x
  obtain rfl : magnitude = 0 := by simpa [isZero] using zero
  cases negative with
  | true => exact ⟨.negative, rfl⟩
  | false => exact ⟨.positive, rfl⟩

private theorem ofFloat_zero (s : UnpackedFloat.Sign) :
    (toInt? (ofFloat (.ofModel (.pack (.zero s))))).isSome = true := by
  cases s <;> decide +kernel

private theorem ofFloat_infinity (s : UnpackedFloat.Sign) :
    (ofFloat (.ofModel (.pack (.infinity s)))).isFinite = false := by
  cases s <;> decide +kernel

private theorem ofFloat_notANumber :
    (ofFloat (.ofModel (.pack .notANumber))).isFinite = false := by
  decide +kernel

private theorem isFinite_of_isNaN (undefined : x.isNaN = true) : x.isFinite = false := by
  cases finite : x.isFinite with
  | true =>
    rw [isNaN_of_finite finite] at undefined
    cases undefined
  | false => rfl

/-- A quotient that zero is part of is an integer, infinite or undefined. -/
theorem quotient_of_zero (zero : n.isZero = true ∨ d.isZero = true) :
    Arithmetic.isInteger (n / d) = true ∨ Arithmetic.isFinite (n / d) = false := by
  show (toInt? (lift₂ (· / ·) n d)).isSome = true ∨ (lift₂ (· / ·) n d).isFinite = false
  unfold lift₂
  split
  · rename_i undefined
    exact .inr (isFinite_of_isNaN undefined)
  · split
    · rename_i undefined
      exact .inr (isFinite_of_isNaN undefined)
    · have divided : n.toFloat / d.toFloat = .ofModel (.pack (UnpackedFloat.div .binary64
        n.toFloat.toModel.unpack d.toFloat.toModel.unpack)) := rfl
      dsimp only
      rw [divided]
      rcases zero with zero | zero
      · obtain ⟨s, unpacked⟩ := unpack_of_zero zero
        rw [unpacked]
        cases d.toFloat.toModel.unpack with
        | infinity | finite => exact .inl (ofFloat_zero _)
        | notANumber | zero => exact .inr ofFloat_notANumber
      · obtain ⟨s, unpacked⟩ := unpack_of_zero zero
        rw [unpacked]
        cases n.toFloat.toModel.unpack with
        | infinity | finite => exact .inr (ofFloat_infinity _)
        | notANumber | zero => exact .inr ofFloat_notANumber

end AlgebraEngine.Binary64
