import AlgebraEngine.Parser.Grammar
import AlgebraEngine.Proofs.Expr.Untagged
import AlgebraEngine.Proofs.Number.Numerals

/-! What the text of a tree spells out. Text has no negative numbers and no bare variables apart
from those under a power or a factorial, so reading it back gives a tree that differs from the
printed one in its leaves. -/
namespace AlgebraEngine

namespace Expr

variable {ν : Type}

mutual

/-- The numbers that a tree holds. -/
def numbers : Expr ν → List ν
  | number value => [value]
  | atom _ => []
  | binary _ _ l r => l.numbers ++ r.numbers
  | unary _ _ u => u.numbers
  | call _ _ us => numbersOfList us
  | equality _ _ l r => l.numbers ++ r.numbers

/-- The numbers that a list of arguments holds. -/
def numbersOfList : List (Expr ν) → List ν
  | [] => []
  | u :: us => u.numbers ++ numbersOfList us

end

@[simp] theorem numbersOfList_eq (us : List (Expr ν)) : numbersOfList us = us.flatMap numbers := by
  induction us with
  | nil => rfl
  | cons u us ih => simp [numbersOfList, ih]

variable [Arithmetic ν]

mutual

/-- A tree with its numbers replaced, and with a coefficient in front of the variable unless the
variable stands directly under a power or a factorial. -/
def spelled (literal : ν → Expr ν) : (coefficient : Bool) → Expr ν → Expr ν
  | _, number value => literal value
  | coefficient, atom (.var name) =>
    if coefficient then op .mul (number (Arithmetic.ofInt 1)) (var name) else var name
  | _, atom (.const constant) => const constant
  | _, binary _ o l r => op o (l.spelled literal (o ≠ .pow)) (r.spelled literal (o ≠ .pow))
  | _, unary _ o u => sign o (u.spelled literal true)
  | _, call _ f us => apply f (spelledList literal (f ≠ .factorial) us)
  | _, equality _ _ l r => equal (l.spelled literal true) (r.spelled literal true)

/-- A list of arguments, each of them spelled out. -/
def spelledList (literal : ν → Expr ν) (coefficient : Bool) : List (Expr ν) → List (Expr ν)
  | [] => []
  | u :: us => u.spelled literal coefficient :: spelledList literal coefficient us

end

@[simp] theorem spelledList_eq (literal : ν → Expr ν) (coefficient : Bool) (us : List (Expr ν)) :
    spelledList literal coefficient us = us.map (spelled literal coefficient) := by
  induction us with
  | nil => rfl
  | cons u us ih => simp [spelledList, ih]

/-- Only a bare variable is spelled out differently under a power or a factorial. -/
theorem spelled_true {literal : ν → Expr ν} (compound : ∀ x name, literal x ≠ .var name)
    (e : Expr ν) : e.spelled literal true = Parse.withCoefficient (e.spelled literal false) := by
  cases e with
  | number value =>
    simp only [spelled]
    unfold Parse.withCoefficient
    split
    · rename_i name same
      exact absurd same (compound value name)
    · rfl
  | atom a => cases a <;> rfl
  | binary | unary | call | equality => rfl

/-- Spelling out equal numbers gives equal trees. -/
theorem spelled_beq [ReflBEq ν] {f g : ν → Expr ν} {e : Expr ν}
    (same : ∀ x ∈ e.numbers, (f x == g x) = true) (coefficient : Bool) :
    (e.spelled f coefficient == e.spelled g coefficient) = true := by
  induction e generalizing coefficient with
  | number value => exact same value (by simp [numbers])
  | atom a =>
    cases a with
    | var name => exact BEq.rfl
    | const constant => exact BEq.rfl
  | binary t o l r left right =>
    have l' := left (fun x member => same x (by simp [numbers, member])) (o ≠ .pow)
    have r' := right (fun x member => same x (by simp [numbers, member])) (o ≠ .pow)
    simp only [spelled, op_beq_op, l', r', BEq.rfl, Bool.and_self]
  | unary t o u inner =>
    simp only [spelled, sign_beq_sign, inner same true, BEq.rfl, Bool.and_self]
  | call t f us inner =>
    have each := sameList_map fun u member => inner u member (fun x deeper =>
      same x (by simpa [numbers] using ⟨u, member, deeper⟩)) (f ≠ .factorial)
    simp only [spelled, spelledList_eq, apply_beq_apply, each, BEq.rfl, Bool.and_self]
  | equality t side l r left right =>
    have l' := left (fun x member => same x (by simp [numbers, member])) true
    have r' := right (fun x member => same x (by simp [numbers, member])) true
    simp only [spelled, equal_beq_equal, l', r', Bool.and_self]

/-- Trees without an equality that can be read back from their text: the numbers are finite, the
variable is one letter and not Euler's number, and calls have as many arguments as they take. -/
inductive Printable (letter : Char) : Expr ν → Prop where
  | number {value} (finite : Arithmetic.isFinite value = true) : Printable letter (number value)
  | var {name : String} (single : name.toList = [letter]) (alpha : letter.isAlpha = true)
      (other : letter ≠ 'e') : Printable letter (var name)
  | const (constant) : Printable letter (const constant)
  | binary {t o l r} (left : Printable letter l) (right : Printable letter r) :
      Printable letter (binary t o l r)
  | unary {t o u} (operand : Printable letter u) : Printable letter (unary t o u)
  | vector {t us} (nonempty : us ≠ []) (components : ∀ u ∈ us, Printable letter u) :
      Printable letter (call t .vector us)
  | call {t f u} (function : f ≠ .vector) (argument : Printable letter u) :
      Printable letter (call t f [u])

/-- Trees that can be read back from their text. Only the root can be an equality. -/
inductive Writable (letter : Char) : Expr ν → Prop where
  | expression {t} (printable : Printable letter t) : Writable letter t
  | equality {t side l r} (left : Printable letter l) (right : Printable letter r) :
      Writable letter (equality t side l r)

theorem Printable.finite {letter : Char} {t : Expr ν} (printable : Printable letter t) :
    ∀ x ∈ t.numbers, Arithmetic.isFinite x = true := by
  induction printable with
  | number finite => simpa [numbers] using finite
  | var | const => exact fun _ member => nomatch member
  | binary _ _ left right =>
    intro x member
    rcases List.mem_append.mp member with member | member
    · exact left x member
    · exact right x member
  | unary _ operand => exact operand
  | vector _ _ components =>
    intro x member
    simp only [numbers, numbersOfList_eq, List.mem_flatMap] at member
    obtain ⟨u, component, deeper⟩ := member
    exact components u component x deeper
  | call _ _ argument =>
    intro x member
    exact argument x (by simpa [numbers] using member)

theorem Writable.finite {letter : Char} {t : Expr ν} (writable : Writable letter t) :
    ∀ x ∈ t.numbers, Arithmetic.isFinite x = true := by
  cases writable with
  | expression printable => exact printable.finite
  | equality left right =>
    intro x member
    rcases List.mem_append.mp member with member | member
    · exact left.finite x member
    · exact right.finite x member

/-- A negative number as a minus sign in front of its magnitude. -/
def magnitude (value : ν) : Expr ν :=
  if Arithmetic.isNegative value then sign .minus (number (Arithmetic.abs value)) else number value

end Expr

/-- The number that the digits of a number denote. -/
def Numeral.reread {ν : Type} [Numeral ν] (value : ν) : ν :=
  ofDecimal (.ofNumeral (text (Arithmetic.abs value)).toList)

/-- What the text of a number is read as. -/
def Expr.reread {ν : Type} [Numeral ν] (value : ν) : Expr ν :=
  if Numeral.isSigned value then sign .minus (number (Numeral.reread value))
  else number (Numeral.reread value)

namespace Binary64

theorem isZero_of_same {x y : Binary64} (zero : y.isZero = true) (number : y.isNaN = false)
    (equal : (x == y) = true) : x.isZero = true := by
  have either : same x y = true := equal
  simp only [same, zero, number, Bool.and_false, Bool.and_true, Bool.false_or, Bool.or_eq_true,
    Bool.and_eq_true, beq_iff_eq] at either
  rcases either with zero | ⟨-, magnitude⟩
  · exact zero
  · rw [isZero, magnitude]
    exact zero

/-- A number that is not below zero equals its magnitude, also if it is a negative zero. -/
theorem beq_of_beq_abs {x y : Binary64} (number : y.isNaN = false)
    (above : y.isNegative = false) (equal : (x == y.abs) = true) : (x == y) = true := by
  cases negative : y.negative with
  | false => rwa [abs_of_positive negative] at equal
  | true =>
    have zero : y.isZero = true := by
      simpa [isNegative, negative, number] using above
    have zeros : x.isZero = true := isZero_of_same (y := y.abs) zero number equal
    show same x y = true
    simp [same, zeros, zero]

/-- A finite number that reads back is read as itself, behind its sign. -/
theorem reread_beq {x : Binary64} (finite : x.isFinite = true)
    (back : (Numeral.reread x == x.abs) = true) : (Expr.reread x == Expr.magnitude x) = true := by
  have number := isNaN_of_finite finite
  have signs : Numeral.isSigned x = Arithmetic.isNegative x := by
    show x.isSigned = x.isNegative
    simp [isSigned, isNegative, number]
  unfold Expr.reread Expr.magnitude
  rw [signs]
  split
  · rw [Expr.sign_beq_sign, BEq.rfl, Bool.true_and, Expr.number_beq_number]
    exact back
  · rename_i above
    rw [Expr.number_beq_number]
    exact beq_of_beq_abs number (eq_false_of_ne_true above) back

end Binary64

end AlgebraEngine
