import AlgebraEngine.Proofs.Number.Exact

/-! Exact numbers without the signs of infinities. Rewriting a quotient can turn the sign of a
division by zero around, but never what is left once that sign is forgotten. Here products and
quotients obey the laws of fractions even where a divisor is zero. -/
namespace AlgebraEngine

/-- A rational number, the infinity without a sign, or the result of an operation that has none. -/
inductive Projective where
  | finite (q : ℚ)
  | infinite
  | undefined
  deriving DecidableEq

namespace Projective

/-- The sum. In contrast to signed numbers, an infinity added to itself stays infinite. -/
def add : Projective → Projective → Projective
  | finite p, finite q => finite (p + q)
  | infinite, infinite => infinite
  | infinite, finite _ => infinite
  | finite _, infinite => infinite
  | undefined, _ => undefined
  | _, undefined => undefined

/-- The product. Zero times infinity has none. -/
def mul : Projective → Projective → Projective
  | finite p, finite q => finite (p * q)
  | infinite, infinite => infinite
  | infinite, finite q => if q = 0 then undefined else infinite
  | finite q, infinite => if q = 0 then undefined else infinite
  | undefined, _ => undefined
  | _, undefined => undefined

/-- The number with its sign flipped. -/
def neg : Projective → Projective
  | finite q => finite (-q)
  | infinite => infinite
  | undefined => undefined

/-- The reciprocal. Zero and infinity are the reciprocals of each other. -/
def inv : Projective → Projective
  | finite q => if q = 0 then infinite else finite q⁻¹
  | infinite => finite 0
  | undefined => undefined

instance : Add Projective := ⟨add⟩
instance : Mul Projective := ⟨mul⟩
instance : Neg Projective := ⟨neg⟩
instance : Inv Projective := ⟨inv⟩
instance : One Projective := ⟨finite 1⟩
instance : Sub Projective := ⟨fun x y => x + -y⟩

variable {x y z : Projective} {p q : ℚ}

@[simp] theorem finite_add : finite p + finite q = finite (p + q) := rfl
@[simp] theorem infinite_add_finite : infinite + finite q = infinite := rfl
@[simp] theorem finite_add_infinite : finite q + infinite = infinite := rfl
@[simp] theorem infinite_add_infinite : infinite + infinite = infinite := rfl
@[simp] theorem undefined_add : undefined + x = undefined := by cases x <;> rfl
@[simp] theorem add_undefined : x + undefined = undefined := by cases x <;> rfl

@[simp] theorem finite_mul : finite p * finite q = finite (p * q) := rfl
@[simp] theorem infinite_mul_finite :
    infinite * finite q = if q = 0 then undefined else infinite := rfl
@[simp] theorem finite_mul_infinite :
    finite q * infinite = if q = 0 then undefined else infinite := rfl
@[simp] theorem infinite_mul_infinite : infinite * infinite = infinite := rfl
@[simp] theorem undefined_mul : undefined * x = undefined := by cases x <;> rfl
@[simp] theorem mul_undefined : x * undefined = undefined := by cases x <;> rfl

@[simp] theorem neg_finite : -finite q = finite (-q) := rfl
@[simp] theorem neg_infinite : -infinite = infinite := rfl
@[simp] theorem neg_undefined : -undefined = undefined := rfl

@[simp] theorem inv_finite : (finite q)⁻¹ = if q = 0 then infinite else finite q⁻¹ := rfl
@[simp] theorem inv_infinite : infinite⁻¹ = finite 0 := rfl
@[simp] theorem inv_undefined : undefined⁻¹ = undefined := rfl

theorem one_def : (1 : Projective) = finite 1 := rfl
theorem sub_def : x - y = x + -y := rfl

@[simp] theorem finite_sub : finite p - finite q = finite (p - q) :=
  congrArg finite (sub_eq_add_neg p q).symm

private theorem product_comm (x y : Projective) : x * y = y * x := by
  cases x <;> cases y <;> simp [mul_comm]

private theorem product_assoc (x y z : Projective) : x * y * z = x * (y * z) := by
  cases x <;> cases y <;> cases z <;> simp [mul_assoc] <;> grind

private theorem inv_product (x y : Projective) : (x * y)⁻¹ = y⁻¹ * x⁻¹ := by
  cases x with
  | finite p =>
    cases y with
    | finite q => by_cases p = 0 <;> by_cases q = 0 <;> simp [*, mul_comm]
    | infinite => by_cases p = 0 <;> simp [*]
    | undefined => simp
  | infinite =>
    cases y with
    | finite q => by_cases q = 0 <;> simp [*]
    | infinite | undefined => simp
  | undefined => simp

private theorem inv_of_product (one : x * y = finite 1) : x⁻¹ = y := by
  cases x with
  | finite p =>
    cases y with
    | finite q =>
      have inverse : p * q = 1 := by simpa using one
      rw [inv_finite, if_neg (left_ne_zero_of_mul_eq_one inverse), eq_inv_of_mul_eq_one_right inverse]
    | infinite => by_cases p = 0 <;> simp [*] at one
    | undefined => simp at one
  | infinite =>
    cases y with
    | finite q => by_cases q = 0 <;> simp [*] at one
    | infinite | undefined => simp at one
  | undefined => simp at one

instance : DivisionCommMonoid Projective where
  mul_assoc := product_assoc
  one_mul := by
    intro x
    cases x <;> simp [one_def]
  mul_one := by
    intro x
    cases x <;> simp [one_def]
  mul_comm := product_comm
  inv_inv := by
    intro x
    cases x with
    | finite q => by_cases q = 0 <;> simp [*]
    | infinite | undefined => simp
  mul_inv_rev := inv_product
  inv_eq_of_mul := by
    intro x y
    exact inv_of_product

theorem finite_div (nonzero : q ≠ 0) : finite p / finite q = finite (p / q) := by
  simp [div_eq_mul_inv, nonzero]

theorem div_infinite (unbounded : ∀ q, x ≠ finite q) : x / infinite = undefined := by
  cases x with
  | finite q => exact absurd rfl (unbounded q)
  | infinite | undefined => simp [div_eq_mul_inv]

theorem infinite_mul_ne_finite (x : Projective) : infinite * x ≠ finite q := by
  cases x with
  | finite p => by_cases p = 0 <;> simp [*]
  | infinite | undefined => simp

theorem neg_sum (x y : Projective) : -(x + y) = -x + -y := by
  cases x <;> cases y <;> simp [add_comm]

instance : InvolutiveNeg Projective where
  neg_neg := by
    intro x
    cases x <;> simp

theorem neg_div_neg (x y : Projective) : -x / -y = x / y := by
  cases y with
  | finite q => cases x <;> by_cases q = 0 <;> simp [div_eq_mul_inv, *]
  | infinite | undefined => cases x <;> simp [div_eq_mul_inv]

/-- A sum is divided term by term, unless the divisor is zero or not finite. -/
theorem sum_div (nonzero : q ≠ 0) (x y : Projective) :
    (x + y) / finite q = x / finite q + y / finite q := by
  cases x <;> cases y <;> simp [div_eq_mul_inv, nonzero, add_mul]

theorem neg_div (nonzero : q ≠ 0) (x : Projective) : -x / finite q = -(x / finite q) := by
  cases x <;> simp [div_eq_mul_inv, nonzero]

/-- A factor cancels, unless it is zero or not finite. -/
theorem mul_div_div_cancel (nonzero : q ≠ 0) (x y : Projective) :
    x * (finite q / y) / finite q = x / y := by
  have unit : finite q / finite q = 1 := by rw [finite_div nonzero, div_self nonzero, one_def]
  rw [mul_div_assoc, div_right_comm, unit, mul_one_div]

/-! ## Operands of finite results -/

theorem eq_of_neg (result : -x = finite q) : x = finite (-q) := by
  rw [← neg_neg x, result, neg_finite]

theorem eq_of_add_finite (result : x + finite p = finite q) : x = finite (q - p) := by
  cases x with
  | finite r =>
    cases result
    simp
  | infinite | undefined => simp at result

theorem eq_of_sub_finite (result : x - finite p = finite q) : x = finite (q + p) := by
  rw [sub_def, neg_finite] at result
  rw [eq_of_add_finite result, sub_neg_eq_add]

theorem eq_of_finite_sub (result : finite p - x = finite q) : x = finite (p - q) := by
  cases x with
  | finite r =>
    rw [finite_sub] at result
    cases result
    simp
  | infinite | undefined => simp [sub_def] at result

theorem eq_of_mul_finite (nonzero : p ≠ 0) (result : x * finite p = finite q) :
    x = finite (q / p) := by
  cases x with
  | finite r =>
    cases result
    rw [mul_div_cancel_right₀ r nonzero]
  | infinite => simp [nonzero] at result
  | undefined => simp at result

theorem eq_of_div_finite (result : x / finite p = finite q) : p ≠ 0 ∧ x = finite (q * p) := by
  by_cases zero : p = 0
  · subst zero
    cases x with
    | finite r => by_cases r = 0 <;> simp [div_eq_mul_inv, *] at result
    | infinite | undefined => simp [div_eq_mul_inv] at result
  · have factor : x * finite p⁻¹ = finite q := by simpa [div_eq_mul_inv, zero] using result
    refine ⟨zero, ?_⟩
    rw [eq_of_mul_finite (inv_ne_zero zero) factor, div_inv_eq_mul]

theorem eq_of_finite_div (nonzero : q ≠ 0) (result : finite p / x = finite q) :
    x = finite (p / q) := by
  cases x with
  | finite r =>
    obtain ⟨divisor, same⟩ := eq_of_div_finite result
    cases same
    rw [mul_div_cancel_left₀ r nonzero]
  | infinite =>
    simp [div_eq_mul_inv, nonzero.symm] at result
  | undefined => simp [div_eq_mul_inv] at result

/-- A value lies below the values that it can be completed to: it is one of them, or undefined. -/
instance : PartialOrder Projective where
  le x y := x = undefined ∨ x = y
  le_refl := by
    intro x
    exact .inr rfl
  le_trans := by
    rintro x y z (rfl | rfl) (rfl | rfl)
    · exact .inl rfl
    · exact .inl rfl
    · exact .inl rfl
    · exact .inr rfl
  le_antisymm := by
    rintro x y (rfl | rfl) (rfl | h)
    · rfl
    · exact h.symm
    · rfl
    · rfl

@[simp] theorem undefined_le : undefined ≤ x := .inl rfl

@[simp] theorem le_undefined_iff : x ≤ undefined ↔ x = undefined := or_self_iff

theorem eq_of_finite_le (le : finite q ≤ x) : x = finite q := by
  rcases le with impossible | same
  · cases impossible
  · exact same.symm

end Projective

/-! ## Forgetting signs -/

namespace Exact

/-- The number without the sign that an infinity has. -/
def unsigned : Exact → Projective
  | rational q => .finite q
  | infinite _ => .infinite
  | undefined => .undefined

@[simp] theorem unsigned_rational (q : ℚ) : (rational q).unsigned = .finite q := rfl

@[simp] theorem unsigned_infinite (negative : Bool) : (infinite negative).unsigned = .infinite := rfl

@[simp] theorem unsigned_undefined : undefined.unsigned = .undefined := rfl

variable (x y : Exact)

theorem unsigned_neg : (-x).unsigned = -x.unsigned := by
  cases x <;> rfl

theorem unsigned_abs {x : Exact} (unbounded : ∀ q, x.unsigned ≠ .finite q) :
    (Arithmetic.abs x).unsigned = x.unsigned := by
  cases x with
  | rational q => exact absurd rfl (unbounded q)
  | infinite negative | undefined => rfl

/-- Infinities of opposite signs have no sum, although without their signs they have. -/
theorem unsigned_add_le : (x + y).unsigned ≤ x.unsigned + y.unsigned := by
  cases x with
  | rational p => cases y <;> exact le_rfl
  | infinite s =>
    cases y with
    | rational q | undefined => exact le_rfl
    | infinite t =>
      show (if s = t then infinite s else undefined).unsigned ≤ .infinite
      split
      · exact le_rfl
      · exact Projective.undefined_le
  | undefined => cases y <;> exact le_rfl

theorem unsigned_sub_le : (x - y).unsigned ≤ x.unsigned - y.unsigned := by
  rw [Projective.sub_def, ← unsigned_neg]
  exact unsigned_add_le x (-y)

theorem unsigned_mul : (x * y).unsigned = x.unsigned * y.unsigned := by
  show (mul x y).unsigned = _
  cases x <;> cases y <;> simp [mul, apply_ite unsigned]

theorem unsigned_div : (x / y).unsigned = x.unsigned / y.unsigned := by
  show (div x y).unsigned = _
  rw [div_eq_mul_inv]
  cases x with
  | rational p =>
    cases y with
    | rational q => by_cases q = 0 <;> simp [div, apply_ite unsigned, div_eq_mul_inv, *]
    | infinite t | undefined => simp [div]
  | infinite s =>
    cases y with
    | rational q => by_cases q = 0 <;> simp [div, *]
    | infinite t | undefined => simp [div]
  | undefined => cases y <;> simp [div]

end Exact

end AlgebraEngine
