import AlgebraEngine.Proofs.Expr.Arithmetical
import AlgebraEngine.Proofs.Expr.Meaning
import AlgebraEngine.Proofs.Number.Projective

/-! What a tree of numbers computes to when divisions by zero go on as infinities, whose signs are
forgotten. Where the tree has a value, it computes to that value. -/
namespace AlgebraEngine

namespace Projective

/-- What an operation makes of two numbers. -/
def operate : BinaryOp → Projective → Projective → Projective
  | .add, x, y => x + y
  | .sub, x, y => x - y
  | .mul, x, y => x * y
  | .div, x, y => x / y
  | .mod, _, _ => undefined
  | .pow, _, _ => undefined

/-- What a sign makes of a number. -/
def signed : UnaryOp → Projective → Projective
  | .plus, x => x
  | .minus, x => -x

variable {x x' y y' : Projective}

@[simp] theorem undefined_operate (o : BinaryOp) : operate o undefined y = undefined := by
  cases o <;> simp [operate, sub_def, div_eq_mul_inv]

@[simp] theorem operate_undefined (o : BinaryOp) : operate o x undefined = undefined := by
  cases o <;> simp [operate, sub_def, div_eq_mul_inv]

theorem operate_mono (o : BinaryOp) (left : x' ≤ x) (right : y' ≤ y) :
    operate o x' y' ≤ operate o x y := by
  rcases left with rfl | rfl
  · rw [undefined_operate]
    exact undefined_le
  · rcases right with rfl | rfl
    · rw [operate_undefined]
      exact undefined_le
    · exact le_rfl

theorem signed_mono (o : UnaryOp) (inner : x' ≤ x) : signed o x' ≤ signed o x := by
  rcases inner with rfl | rfl
  · cases o <;> exact undefined_le
  · exact le_rfl

/-- A sum or difference is divided term by term, unless the divisor is zero or not finite. -/
theorem operate_div {o : BinaryOp} {q : ℚ} (sum : o = .add ∨ o = .sub) (nonzero : q ≠ 0) :
    operate o x y / finite q = operate o (x / finite q) (y / finite q) := by
  rcases sum with rfl | rfl
  · exact sum_div nonzero x y
  · simp only [operate, sub_def, sum_div nonzero, neg_div nonzero]

end Projective

namespace Expr

/-- The number that a tree of numbers computes to. -/
def computed : Expr Exact → Projective
  | number x => x.unsigned
  | binary _ o l r => .operate o l.computed r.computed
  | unary _ o u => .signed o u.computed
  | atom _ => .undefined
  | call .. => .undefined
  | equality .. => .undefined

@[simp] theorem computed_untagged (e : Expr Exact) : e.untagged.computed = e.computed := by
  induction e with
  | number value | atom a | call t f us | equality t side l r => rfl
  | binary t o l r left right => simp [untagged, op, computed, left, right]
  | unary t o u inner => simp [untagged, sign, computed, inner]

@[simp] theorem computed_tagged (e : Expr Exact) : e.tagged.computed = e.computed := by
  rw [← computed_untagged, untagged_tagged, computed_untagged]

/-- A value is what a tree of numbers computes to. -/
theorem Numerical.computed_eq {K : Type*} [Field K] [CharZero K] [DecidableEq K]
    {I : Interpretation K} {e : Expr Exact} {v : K} (closed : e.Numerical)
    (value : I.meaning e = some v) : ∃ q : ℚ, e.computed = .finite q ∧ (q : K) = v := by
  induction closed generalizing v with
  | number x =>
    obtain ⟨q, rfl, rfl⟩ := Interpretation.meaning_number.mp value
    exact ⟨q, rfl, rfl⟩
  | atom allows => cases allows
  | @binary t o l r arithmetic left right ihLeft ihRight =>
    obtain ⟨x, y, valueLeft, valueRight, result⟩ := Interpretation.meaning_binary.mp value
    obtain ⟨p, computedLeft, rfl⟩ := ihLeft valueLeft
    obtain ⟨q, computedRight, rfl⟩ := ihRight valueRight
    simp only [computed, computedLeft, computedRight]
    cases o with
    | add =>
      cases result
      exact ⟨p + q, rfl, by simp⟩
    | sub =>
      cases result
      exact ⟨p - q, Projective.finite_sub, by simp⟩
    | mul =>
      cases result
      exact ⟨p * q, rfl, by simp⟩
    | div =>
      obtain ⟨nonzero, rfl⟩ := Interpretation.operate_div.mp result
      have nonzero : q ≠ 0 := by simpa using nonzero
      exact ⟨p / q, Projective.finite_div nonzero, by simp⟩
    | mod | pow => cases arithmetic
  | @unary t o u inner ih =>
    obtain ⟨x, valueInner, rfl⟩ := Interpretation.meaning_unary.mp value
    obtain ⟨q, computedInner, rfl⟩ := ih valueInner
    simp only [computed, computedInner]
    cases o with
    | plus => exact ⟨q, rfl, rfl⟩
    | minus => exact ⟨-q, rfl, by simp [Interpretation.signed]⟩

end Expr

end AlgebraEngine
