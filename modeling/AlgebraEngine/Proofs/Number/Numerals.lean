import AlgebraEngine.Number.Machine
import AlgebraEngine.Proofs.Token.Scanning

/-! The text of a finite number: digits, with a point if it has places, behind a sign if it lies
below zero. -/
namespace AlgebraEngine

open TokenKind (PlainDigits)

namespace Decimal

theorem digitChars_digits (n : Nat) : ∀ c ∈ digitChars n, c.isDigit = true := fun _ member =>
  Nat.isDigit_of_mem_toDigits (by decide) (by decide) member

theorem padded_digits {count n : Nat} :
    ∀ c ∈ List.replicate count '0' ++ digitChars n, c.isDigit = true := by
  intro c member
  rcases List.mem_append.mp member with zero | digit
  · rw [List.eq_of_mem_replicate zero]
    decide
  · exact digitChars_digits n c digit

/-- The positional form consists of digits, with at most one point among them. -/
theorem plainDigits (d : Decimal) : PlainDigits d.positionalChars := by
  unfold positionalChars
  dsimp only
  split
  · cases digits : digitChars d.digits with
    | nil => exact absurd digits Nat.toDigits_ne_nil
    | cons c w =>
      have all := digitChars_digits d.digits
      rw [digits, List.forall_mem_cons] at all
      refine .whole all.1 fun c member => ?_
      rcases List.mem_append.mp member with digit | zero
      · exact all.2 c digit
      · rw [List.eq_of_mem_replicate zero]
        decide
  · generalize (-d.exponent).toNat = places
    generalize padded : List.replicate (places + 1 - (digitChars d.digits).length) '0' ++
      digitChars d.digits = row
    have all : ∀ c ∈ row, c.isDigit = true := padded ▸ padded_digits
    have long : places < row.length := by
      rw [← padded]
      simp
      omega
    cases front : row.take (row.length - places) with
    | nil =>
      have length := congrArg List.length front
      rw [List.length_take, List.length_nil] at length
      omega
    | cons c w =>
      have first : ∀ d ∈ c :: w, d.isDigit = true := fun d member =>
        all d (List.mem_of_mem_take (front ▸ member))
      rw [List.forall_mem_cons] at first
      exact .point first.1 first.2 fun d member => all d (List.mem_of_mem_drop member)

end Decimal

namespace Binary64

variable {x : Binary64}

theorem isNaN_of_finite (finite : x.isFinite = true) : x.isNaN = false := by
  simp only [isFinite, isNaN, decide_eq_true_eq, decide_eq_false_iff_not, UInt64.lt_iff_toNat_lt]
    at finite ⊢
  omega

theorem abs_of_positive (positive : x.negative = false) : x.abs = x := by
  cases x
  cases positive
  rfl

theorem text_of_finite (finite : x.isFinite = true) :
    Numeral.text x = if x.isZero then "0" else x.withSign x.shortest.positional := by
  have number := isNaN_of_finite finite
  have bounded : x.isInfinite = false := by
    simp only [isFinite, isInfinite, decide_eq_true_eq, beq_eq_false_iff_ne] at finite ⊢
    rintro same
    rw [same] at finite
    exact absurd finite (by decide)
  show x.literalText = _
  simp [literalText, text, number, bounded]

/-- The digits of a finite number are plain. -/
theorem text_abs_plain (finite : x.isFinite = true) : PlainDigits (Numeral.text x.abs).toList := by
  rw [text_of_finite (x := x.abs) finite]
  split
  · exact .whole (c := '0') rfl (by simp)
  · have unsigned : x.abs.withSign x.abs.shortest.positional = x.shortest.positional := rfl
    rw [unsigned, Decimal.positional, String.toList_ofList]
    exact Decimal.plainDigits _

/-- A number that shows no sign is written as its magnitude. -/
theorem text_of_unsigned (unsigned : Numeral.isSigned x = false) :
    Numeral.text x = Numeral.text x.abs := by
  have positive : x.isZero = true ∨ x.negative = false := by
    have either : (x.negative && !x.isZero) = false := unsigned
    cases negative : x.negative <;> simp_all
  show x.literalText = x.abs.literalText
  rcases positive with zero | positive
  · have zero' : x.abs.isZero = true := zero
    simp [literalText, zero, zero']
  · rw [abs_of_positive positive]

/-- A number that shows its sign is written as a minus sign in front of its magnitude. -/
theorem text_of_signed (finite : x.isFinite = true) (signed : Numeral.isSigned x = true) :
    (Numeral.text x).toList = '-' :: (Numeral.text x.abs).toList := by
  have negative : x.negative = true ∧ x.isZero = false := by
    simpa [Numeral.isSigned, isSigned] using signed
  have nonzero : x.abs.isZero = false := negative.2
  rw [text_of_finite finite, text_of_finite (x := x.abs) finite, negative.2, nonzero]
  simp [withSign, negative.1]
  rfl

end Binary64

end AlgebraEngine
