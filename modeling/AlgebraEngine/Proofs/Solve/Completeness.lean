import Mathlib.Data.Rat.Sqrt
import AlgebraEngine.Proofs.Simplify.Preservation
import AlgebraEngine.Proofs.Solve.Stages

/-! Solving loses no solution. Moving an operand across keeps every value of the variable at which
the two sides agree, as long as the other side still has a value, and simplifying keeps it too. -/
namespace AlgebraEngine

namespace Interpretation

open Equation

variable {K : Type*} [Field K]

/-! ## Inverses -/

/-- Square roots and logarithms are undone by powers, wherever all of them have values. -/
structure Inverts (I : Interpretation K) : Prop where
  radicand : ∀ {u c w : K}, I.call .sqrt [u] = some c → I.pow c 2 = some w → w = u
  logarithm : ∀ {u c w : K},
    I.call .ln [u] = some c → I.pow (I.atom (.const .e)) c = some w → w = u

theorem Inverts.assign {I : Interpretation K} (inverts : I.Inverts) (x : String) (v : K) :
    (I.assign x v).Inverts :=
  ⟨inverts.radicand, inverts.logarithm⟩

variable [DecidableEq K]

/-- Every power in a tree whose base holds a variable is undone by the reciprocal power, wherever
both have values. -/
def RootsUndo (I : Interpretation K) (e : Expr Exact) : Prop :=
  ∀ {t u b}, Expr.Occurs (.binary t .pow u b) e → 0 < u.unknowns →
    ∀ {p q c w}, I.meaning u = some p → I.meaning b = some q → q ≠ 0 →
      I.pow p q = some c → I.pow c (1 / q) = some w → w = p

variable {I : Interpretation K} {e u b c c' : Expr Exact} {t : Tags} {o o' : BinaryOp} {y w : K}

theorem RootsUndo.operand (roots : I.RootsUndo e) (member : u ∈ e.children) : I.RootsUndo u :=
  fun occurs => roots (.inside member occurs)

/-- The left operand of an operation is found from the result and the right operand. -/
theorem left_of_result
    (undoes : ∀ {p q}, I.operate o p q = some y → I.operate o' y q = some w → w = p)
    (left : I.meaning (.binary t o u b) = some y) (right : I.meaning c = some y)
    (moved : I.meaning (.op o' c b) = some w) : I.meaning u = some w := by
  obtain ⟨p, q, stays, moves, result⟩ := meaning_binary.mp left
  rw [meaning_op o' right moves] at moved
  rw [stays, undoes result moved]

/-- The right operand of an operation is found by the same operation on its result. -/
theorem right_of_result
    (undoes : ∀ {p q}, I.operate o p q = some y → I.operate o p y = some w → w = q)
    (left : I.meaning (.binary t o b u) = some y) (right : I.meaning c = some y)
    (moved : I.meaning (.op o b c) = some w) : I.meaning u = some w := by
  obtain ⟨p, q, moves, stays, result⟩ := meaning_binary.mp left
  rw [meaning_op o moves right] at moved
  rw [stays, undoes result moved]

theorem meaning_swap (commutes : o = .add ∨ o = .mul) (value : I.meaning (.binary t o u b) = some y) :
    I.meaning (.binary t o b u) = some y := by
  obtain ⟨p, q, left, right, result⟩ := meaning_binary.mp value
  refine meaning_binary.mpr ⟨q, p, right, left, ?_⟩
  rcases commutes with rfl | rfl
  · rw [← result, operate, operate, add_comm]
  · rw [← result, operate, operate, mul_comm]

theorem sub_undoes_add {p q : K} (result : I.operate .add p q = some y)
    (undone : I.operate .sub y q = some w) : w = p := by
  cases result
  cases undone
  exact add_sub_cancel_right p q

theorem add_undoes_sub {p q : K} (result : I.operate .sub p q = some y)
    (undone : I.operate .add y q = some w) : w = p := by
  cases result
  cases undone
  exact sub_add_cancel p q

theorem div_undoes_mul {p q : K} (result : I.operate .mul p q = some y)
    (undone : I.operate .div y q = some w) : w = p := by
  obtain ⟨nonzero, rfl⟩ := operate_div.mp undone
  cases result
  exact mul_div_cancel_right₀ p nonzero

theorem mul_undoes_div {p q : K} (result : I.operate .div p q = some y)
    (undone : I.operate .mul y q = some w) : w = p := by
  obtain ⟨nonzero, rfl⟩ := operate_div.mp result
  cases undone
  exact div_mul_cancel₀ p nonzero

theorem sub_undoes_sub {p q : K} (result : I.operate .sub p q = some y)
    (undone : I.operate .sub p y = some w) : w = q := by
  cases result
  cases undone
  exact sub_sub_cancel p q

theorem div_undoes_div {p q : K} (result : I.operate .div p q = some y)
    (undone : I.operate .div p y = some w) : w = q := by
  obtain ⟨nonzero, rfl⟩ := operate_div.mp result
  obtain ⟨nonzero', rfl⟩ := operate_div.mp undone
  exact div_div_cancel₀ (div_ne_zero_iff.mp nonzero').1

theorem meaning_one (one : isOne b = true) : I.meaning b = some 1 := by
  cases b with
  | number x =>
    obtain rfl : x = .rational 1 := by simpa [isOne, Expr.number?] using one
    simp [meaning, Exact.value?]
  | atom a | binary t o l r | unary t o u | call t f us | equality t side l r => cases one

/-- A coefficient or a divisor of one can be dropped. -/
theorem meaning_of_unit (neutral : o = .mul ∨ o = .div) (one : isOne b = true)
    (value : I.meaning (.binary t o u b) = some y) : I.meaning u = some y := by
  obtain ⟨p, q, stays, unit, result⟩ := meaning_binary.mp value
  rw [meaning_one one] at unit
  cases unit
  rcases neutral with rfl | rfl
  · simpa [stays, operate] using result
  · simpa [stays, operate] using result

variable [CharZero K]

/-- Where both sides agree, the operand that stays agrees with the other side that it is left
with, if that has a value. -/
theorem move_meaning (inverts : I.Inverts) (roots : I.RootsUndo e) (holds : 0 < u.unknowns)
    (move : Move e c u c') (left : I.meaning e = some y) (right : I.meaning c = some y)
    (moved : I.meaning c' = some w) : I.meaning u = some w := by
  cases move with
  | firstTerm => exact left_of_result sub_undoes_add left right moved
  | secondTerm => exact left_of_result sub_undoes_add (meaning_swap (.inl rfl) left) right moved
  | minuend => exact left_of_result add_undoes_sub left right moved
  | subtrahend => exact right_of_result sub_undoes_sub left right moved
  | firstFactor => exact left_of_result div_undoes_mul left right moved
  | secondFactor => exact left_of_result div_undoes_mul (meaning_swap (.inr rfl) left) right moved
  | dividend => exact left_of_result mul_undoes_div left right moved
  | divisor => exact right_of_result div_undoes_div left right moved
  | timesOne one =>
    rw [← moved, right]
    exact meaning_of_unit (.inl rfl) one left
  | oneTimes one =>
    rw [← moved, right]
    exact meaning_of_unit (.inl rfl) one (meaning_swap (.inr rfl) left)
  | overOne one =>
    rw [← moved, right]
    exact meaning_of_unit (.inr rfl) one left
  | base =>
    obtain ⟨p, q, stays, exponent, power⟩ := meaning_binary.mp left
    obtain ⟨y', s, other, reciprocal, root⟩ := meaning_binary.mp moved
    obtain ⟨one, q', numerator, divisor, quotient⟩ := meaning_binary.mp reciprocal
    obtain ⟨nonzero, rfl⟩ := operate_div.mp quotient
    obtain rfl : y = y' := Option.some.inj (right.symm.trans other)
    obtain rfl : q = q' := Option.some.inj (exponent.symm.trans divisor)
    obtain rfl : 1 = one := Option.some.inj ((meaning_one rfl).symm.trans numerator)
    rw [stays, roots (.here _) holds stays exponent nonzero power root]
  | plus =>
    obtain ⟨p, stays, rfl⟩ := meaning_unary.mp left
    rw [← moved, right]
    exact stays
  | minus =>
    obtain ⟨p, stays, rfl⟩ := meaning_unary.mp left
    obtain ⟨y, other, rfl⟩ := meaning_unary.mp moved
    rw [right] at other
    cases other
    simpa [signed] using stays
  | radicand =>
    obtain ⟨p, stays, root⟩ := meaning_call.mp left
    rw [meaning_op .pow right (meaning_ofInt 2)] at moved
    have same : w = p := inverts.radicand root (by simpa [operate] using moved)
    rw [stays, same]
  | logarithm =>
    obtain ⟨p, stays, logarithm⟩ := meaning_call.mp left
    rw [meaning_op .pow (x := I.atom (.const .e)) rfl right] at moved
    have same : w = p := inverts.logarithm logarithm moved
    rw [stays, same]

/-- The variable has the value of the side that it ends up equal to. -/
theorem isolation_meaning {solution : Solution Exact} (inverts : I.Inverts)
    (roots : I.RootsUndo e) (isolation : Isolation e c solution) (left : I.meaning e = some y)
    (right : I.meaning c = some y) (found : I.meaning solution.value = some w) :
    I.atom (.var solution.name) = w := by
  induction isolation generalizing y with
  | done =>
    rw [right] at found
    exact Option.some.inj (left.trans found)
  | move first rest ih =>
    obtain ⟨z, moved⟩ := meaning_of_occurs rest.occurs found
    have holds := rest.unknowns.1
    have stays := move_meaning inverts roots (by omega) first left right moved
    exact ih (roots.operand first.member) stays moved found

/-- Isolating the variable of an equation with fresh sides finds its value. -/
theorem isolate_meaning {side : Side} {lhs rhs : Expr Exact} {solution : Solution Exact}
    (inverts : I.Inverts) (roots : I.RootsUndo (.equality t side lhs rhs)) (freshLeft : lhs.Fresh)
    (freshRight : rhs.Fresh) (isolated : (isolate lhs rhs).outcome = .ok solution)
    (left : I.meaning lhs = some y) (right : I.meaning rhs = some y)
    (found : I.meaning solution.value = some w) : I.atom (.var solution.name) = w := by
  rcases isolate_isolation freshLeft freshRight isolated with ⟨isolation, -⟩ | ⟨isolation, -⟩
  · exact isolation_meaning inverts (roots.operand (by simp [Expr.children])) isolation left right
      found
  · exact isolation_meaning inverts (roots.operand (by simp [Expr.children])) isolation right left
      found

end Interpretation

open Interpretation

/-- Solving loses no solution. Whenever an equation is solved, every value of the variable at which
both sides of the equation have the same value is the value of the solution, provided that the side
that isolation ends with has a value before it is simplified. -/
theorem Expr.solve_complete {K : Type*} [Field K] [CharZero K] [DecidableEq K]
    (I : Interpretation K) (inverts : I.Inverts) (t : Tags) (side : Side) (l r value : Expr Exact)
    (x : String) (solved : (equality t side l r).solve.outcome = .ok ⟨x, value⟩) :
    ∃ s isolated, (equality t side l r).simplify = .ok s ∧
      s.tree.isolate.outcome = .ok ⟨x, isolated⟩ ∧
      ∀ v y w, (I.assign x v).RootsUndo s.tree → (I.assign x v).meaning l = some y →
        (I.assign x v).meaning r = some y → I.meaning isolated = some w →
          I.meaning value = some v := by
  obtain ⟨s, isolated, s', simplified, isolates, again, rfl⟩ := solve_stages solved
  refine ⟨s, isolated, simplified, isolates, ?_⟩
  intro v y w roots left right found
  obtain ⟨t', side', l', r', first, second, tree, freshLeft, freshRight, fromLeft, fromRight⟩ :=
    simplify_sides simplified
  rw [tree] at isolates roots
  have left' := refines_of_untagged fromLeft y left
  have right' := refines_of_untagged fromRight y right
  have free : isolated.unknowns = 0 := Equation.isolate_unknowns freshLeft freshRight isolates
  have value : v = w := by
    simpa [Interpretation.assign] using isolate_meaning (inverts.assign x v) roots freshLeft
      freshRight isolates left' right' (by rwa [meaning_assign free])
  obtain ⟨steps, derived⟩ := simplify_derivation again
  exact refines_of_untagged derived v (by rw [found, value])

/-- The rational square root, where there is one. -/
def rationalRoot (p : ℚ) : Option ℚ :=
  if Rat.sqrt p * Rat.sqrt p = p then some (Rat.sqrt p) else none

/-- The rational numbers, with squares, and with square roots where they are rational. -/
def rationalRoots : Interpretation ℚ where
  atom := fun _ => 0
  rem := fun _ _ => none
  pow := fun p q => if q = 2 then some (p * p) else if q = 1 / 2 then rationalRoot p else none
  call := fun f us => if f = .sqrt then us.head?.bind rationalRoot else none

theorem rationalRoots_inverts : rationalRoots.Inverts where
  radicand := by
    intro u c w found power
    obtain ⟨square, rfl⟩ : Rat.sqrt u * Rat.sqrt u = u ∧ Rat.sqrt u = c := by
      simpa [rationalRoots, rationalRoot] using found
    have whole : Rat.sqrt u * Rat.sqrt u = w := by simpa [rationalRoots] using power
    rw [← whole, square]
  logarithm := by simp [rationalRoots]

/-- In `x ^ 2 = 9` the square is undone at three. -/
theorem rationalRoots_undo (t t' : Tags) (side : Side) :
    (rationalRoots.assign "x" 3).RootsUndo
      (.equality t side (.binary t' .pow (.var "x") (.number (.rational 2)))
        (.number (.rational 9))) := by
  intro s u b occurs holds p q c w base exponent nonzero power root
  obtain ⟨-, rfl, rfl⟩ : s = t' ∧ u = .var "x" ∧ b = .number (.rational 2) := by
    simpa [Expr.var] using occurs
  obtain rfl : 3 = p := Option.some.inj base
  obtain rfl : 2 = q := Option.some.inj exponent
  have square : rationalRoots.pow 3 2 = some 9 := by decide +kernel
  have squareRoot : rationalRoots.pow 9 (1 / 2) = some 3 := by decide +kernel
  obtain rfl : 9 = c := Option.some.inj (square.symm.trans power)
  exact Option.some.inj (root.symm.trans squareRoot)

/-- `x ^ 2 = 9` has the solution three among others, and it is the one that the solver returns. -/
theorem Expr.solve_complete_square :
    ∃ value, (equal (op .pow (var "x") (number (.rational 2)))
        (number (.rational 9))).solve.outcome = .ok ⟨"x", value⟩ ∧
      rationalRoots.meaning value = some 3 := by
  have solves : ((equal (op .pow (var "x") (number (.rational 2)))
      (number (Exact.rational 9))).solve.outcome.toOption.map Solution.name) = some "x" := by
    decide +kernel
  cases solved : (equal (op .pow (var "x") (number (.rational 2)))
      (number (Exact.rational 9))).solve.outcome with
  | error error =>
    rw [solved] at solves
    cases solves
  | ok solution =>
    obtain ⟨x, value⟩ := solution
    rw [solved] at solves
    obtain rfl : x = "x" := Option.some.inj solves
    obtain ⟨s, isolated, simplified, isolates, keeps⟩ :=
      solve_complete rationalRoots rationalRoots_inverts _ _ _ _ value "x" solved
    obtain rfl := simplify_eq_run simplified
    cases isolates
    exact ⟨value, rfl, keeps 3 9 3 (rationalRoots_undo _ _ _) (by decide +kernel)
      (by decide +kernel) (by decide +kernel)⟩

end AlgebraEngine
