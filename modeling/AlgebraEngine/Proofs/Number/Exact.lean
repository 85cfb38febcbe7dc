import Mathlib.Algebra.Order.Ring.Unbundled.Rat
import Mathlib.Data.Rat.Cast.CharZero
import Mathlib.Data.Rat.Lemmas
import Mathlib.Tactic.FieldSimp
import Mathlib.Tactic.Linarith
import AlgebraEngine.Simplify.Fraction

/-! Exact numbers. On rationals the operations never round; an infinity or a result that does not
exist is handled as machine numbers handle it, so dividing by zero leaves a number that is not
rational. There is one zero, and it has no sign. -/
namespace AlgebraEngine

/-- A rational number, an infinity, or the result of an operation that has none. -/
inductive Exact where
  | rational (q : ℚ)
  | infinite (negative : Bool)
  | undefined
  deriving DecidableEq

namespace Exact

/-- The rational number, if it is one. -/
def value? : Exact → Option ℚ
  | rational q => some q
  | _ => none

/-- Whether a number lies below zero. -/
def isNegative : Exact → Bool
  | rational q => q < 0
  | infinite negative => negative
  | undefined => false

/-- The number with its sign flipped. -/
def neg : Exact → Exact
  | rational q => rational (-q)
  | infinite negative => infinite !negative
  | undefined => undefined

/-- The number without its sign. -/
def abs : Exact → Exact
  | rational q => rational |q|
  | infinite _ => infinite false
  | undefined => undefined

/-- The sum. Infinities of opposite signs have none. -/
def add : Exact → Exact → Exact
  | rational p, rational q => rational (p + q)
  | infinite s, infinite t => if s = t then infinite s else undefined
  | infinite s, rational _ => infinite s
  | rational _, infinite t => infinite t
  | undefined, _ => undefined
  | _, undefined => undefined

/-- The product. Zero times an infinity has none. -/
def mul : Exact → Exact → Exact
  | rational p, rational q => rational (p * q)
  | undefined, _ => undefined
  | _, undefined => undefined
  | x, y =>
    if x = rational 0 ∨ y = rational 0 then undefined
    else infinite (x.isNegative ^^ y.isNegative)

/-- The quotient. Zero over zero and an infinity over an infinity have none. -/
def div : Exact → Exact → Exact
  | rational p, rational q =>
    if q ≠ 0 then rational (p / q) else if p = 0 then undefined else infinite (p < 0)
  | rational _, infinite _ => rational 0
  | infinite s, rational q => infinite (s ^^ decide (q < 0))
  | infinite _, infinite _ => undefined
  | undefined, _ => undefined
  | _, undefined => undefined

/-- The integer that a number is, if it is one. -/
def toInt? : Exact → Option Int
  | rational q => if q.den = 1 then some q.num else none
  | _ => none

instance : Arithmetic Exact where
  toBEq := instBEqOfDecidableEq
  add := add
  sub := fun x y => add x (neg y)
  mul := mul
  div := div
  neg := neg
  ofInt := fun n => rational n
  abs := abs
  toInt? := toInt?
  isFinite := fun x => x.value?.isSome
  isNegative := isNegative

variable {p q : ℚ}

@[simp] theorem rational_add : rational p + rational q = rational (p + q) := rfl

@[simp] theorem rational_sub : rational p - rational q = rational (p - q) :=
  congrArg rational (sub_eq_add_neg p q).symm

@[simp] theorem rational_mul : rational p * rational q = rational (p * q) := rfl

@[simp] theorem rational_neg : -rational q = rational (-q) := rfl

@[simp] theorem rational_abs : Arithmetic.abs (rational q) = rational |q| := rfl

@[simp] theorem rational_ofInt (n : Int) : (Arithmetic.ofInt n : Exact) = rational n := rfl

theorem rational_div (nonzero : q ≠ 0) : rational p / rational q = rational (p / q) :=
  if_pos nonzero

@[simp] theorem isNegative_rational : Arithmetic.isNegative (rational q) = decide (q < 0) := rfl

@[simp] theorem isZero_iff {x : Exact} : Fraction.isZero x = true ↔ x = rational 0 :=
  beq_iff_eq

@[simp] theorem toInt?_rational (n : Int) :
    Arithmetic.toInt? (rational n) = some n := by
  show (if (n : ℚ).den = 1 then some (n : ℚ).num else none) = some n
  simp

theorem toInt?_eq_some {x : Exact} {n : Int} :
    Arithmetic.toInt? x = some n ↔ x = rational n := by
  constructor
  · intro found
    cases x with
    | rational q =>
      change (if q.den = 1 then some q.num else none) = some n at found
      split at found
      · rename_i whole
        cases found
        rw [Rat.coe_int_num_of_den_eq_one whole]
      · cases found
    | infinite negative | undefined => cases found
  · rintro rfl
    exact toInt?_rational n

theorem isInteger_iff {x : Exact} : Arithmetic.isInteger x = true ↔ ∃ n : ℤ, x = rational n := by
  simp only [Arithmetic.isInteger, Option.isSome_iff_exists, toInt?_eq_some]

theorem isFinite_iff {x : Exact} : Arithmetic.isFinite x = true ↔ ∃ q, x = rational q := by
  show x.value?.isSome = true ↔ _
  cases x <;> simp [value?]

/-- Dividing by zero never gives a finite number. -/
theorem isFinite_div_zero (p : ℚ) : Arithmetic.isFinite (rational p / rational 0) = false := by
  show (div (rational p) (rational 0)).value?.isSome = false
  by_cases zero : p = 0 <;> simp [div, value?, zero]

end Exact

end AlgebraEngine
