import AlgebraEngine.Proofs.Simplify.Computation
import AlgebraEngine.Proofs.Solve.Completeness

/-! Solutions of equations of the four operations. A solution is computed without a look at the
divisors of the equation, so it can be a number at which one of them is zero. At every other number
it solves the equation, even where a division by zero occurred on the way to it. -/
namespace AlgebraEngine

namespace Equation

variable {ν : Type} [Arithmetic ν] {e u c c' : Expr ν}

/-- Moves within arithmetic take numbers across to numbers. -/
theorem Move.numerical (move : Move e c u c') (shape : e.Arithmetical Atom.IsVar)
    (closed : c.Numerical) : c'.Numerical := by
  have operand {b : Expr ν} (member : b ∈ e.children) (free : b.unknowns = 0) : b.Numerical :=
    (shape.operand member).numerical free
  cases move with
  | firstTerm free | secondTerm free | minuend free | firstFactor free | secondFactor free
  | dividend free => exact .binary rfl closed (operand (by simp [Expr.children]) free)
  | subtrahend free | divisor free =>
    exact .binary rfl (operand (by simp [Expr.children]) free) closed
  | timesOne | oneTimes | overOne | plus => exact closed
  | minus => exact .unary closed
  | base => cases (Expr.arithmetical_binary.mp shape).1
  | radicand | logarithm => exact absurd shape Expr.not_arithmetical_call

theorem Isolation.numerical {solution : Solution ν} (isolation : Isolation e c solution)
    (shape : e.Arithmetical Atom.IsVar) (closed : c.Numerical) : solution.value.Numerical := by
  induction isolation with
  | done => exact closed
  | move first rest ih => exact ih (shape.operand first.member) (first.numerical shape closed)

end Equation

namespace Interpretation

open Equation

variable {K : Type*} [Field K] [CharZero K] [DecidableEq K] {I : Interpretation K}
variable {e u b c c' : Expr Exact} {t : Tags} {o o' : BinaryOp} {p y : K}
variable {q : ℚ}

/-- A right operand that has moved computes to its value. -/
theorem computed_right (closed : b.Numerical) (left : I.meaning (.binary t o u b) = some y)
    (stays : I.meaning u = some p) (moved : (Expr.op o' c b).computed = .finite q) :
    ∃ k : ℚ, Projective.operate o' c.computed (.finite k) = .finite q ∧
      I.operate o p k = some y := by
  obtain ⟨p', k, stays', other, result⟩ := meaning_binary.mp left
  obtain rfl : p = p' := Option.some.inj (stays.symm.trans stays')
  obtain ⟨k, computed, rfl⟩ := Expr.Numerical.computed_eq closed other
  exact ⟨k, by rw [← computed]; exact moved, result⟩

/-- A left operand that has moved without changing sides computes to its value. -/
theorem computed_left (closed : b.Numerical) (left : I.meaning (.binary t o b u) = some y)
    (stays : I.meaning u = some p) (moved : (Expr.op o b c).computed = .finite q) :
    ∃ k : ℚ, Projective.operate o (.finite k) c.computed = .finite q ∧
      I.operate o k p = some y := by
  obtain ⟨k, p', other, stays', result⟩ := meaning_binary.mp left
  obtain rfl : p = p' := Option.some.inj (stays.symm.trans stays')
  obtain ⟨k, computed, rfl⟩ := Expr.Numerical.computed_eq closed other
  exact ⟨k, by rw [← computed]; exact moved, result⟩

/-- If the next other side computes to the value of the operand that stays, then the other side
computed to the value of the whole side. A divisor that stays is not zero, because the side had a
value. -/
theorem move_computed (move : Move e c u c') (shape : e.Arithmetical Atom.IsVar)
    (left : I.meaning e = some y) (stays : I.meaning u = some p) (moved : c'.computed = .finite q)
    (same : (q : K) = p) : ∃ k : ℚ, c.computed = .finite k ∧ (k : K) = y := by
  subst same
  have operand {b : Expr Exact} (member : b ∈ e.children) (free : b.unknowns = 0) : b.Numerical :=
    (shape.operand member).numerical free
  cases move with
  | firstTerm free =>
    obtain ⟨k, moved, result⟩ := computed_right (operand (by simp [Expr.children]) free) left stays
      moved
    cases result
    exact ⟨q + k, Projective.eq_of_sub_finite moved, by push_cast; rfl⟩
  | secondTerm free =>
    obtain ⟨k, moved, result⟩ := computed_right (operand (by simp [Expr.children]) free)
      (meaning_swap (.inl rfl) left) stays moved
    cases result
    exact ⟨q + k, Projective.eq_of_sub_finite moved, by push_cast; rfl⟩
  | minuend free =>
    obtain ⟨k, moved, result⟩ := computed_right (operand (by simp [Expr.children]) free) left stays
      moved
    cases result
    exact ⟨q - k, Projective.eq_of_add_finite moved, by push_cast; rfl⟩
  | subtrahend free =>
    obtain ⟨k, moved, result⟩ := computed_left (operand (by simp [Expr.children]) free) left stays
      moved
    cases result
    exact ⟨k - q, Projective.eq_of_finite_sub moved, by push_cast; rfl⟩
  | firstFactor free =>
    obtain ⟨k, moved, result⟩ := computed_right (operand (by simp [Expr.children]) free) left stays
      moved
    cases result
    exact ⟨q * k, (Projective.eq_of_div_finite moved).2, by push_cast; rfl⟩
  | secondFactor free =>
    obtain ⟨k, moved, result⟩ := computed_right (operand (by simp [Expr.children]) free)
      (meaning_swap (.inr rfl) left) stays moved
    cases result
    exact ⟨q * k, (Projective.eq_of_div_finite moved).2, by push_cast; rfl⟩
  | dividend free =>
    obtain ⟨k, moved, result⟩ := computed_right (operand (by simp [Expr.children]) free) left stays
      moved
    obtain ⟨nonzero, rfl⟩ := operate_div.mp result
    exact ⟨q / k, Projective.eq_of_mul_finite (by exact_mod_cast nonzero) moved, by push_cast; rfl⟩
  | divisor free =>
    obtain ⟨k, moved, result⟩ := computed_left (operand (by simp [Expr.children]) free) left stays
      moved
    obtain ⟨nonzero, rfl⟩ := operate_div.mp result
    exact ⟨k / q, Projective.eq_of_finite_div (by exact_mod_cast nonzero) moved, by push_cast; rfl⟩
  | timesOne one =>
    exact ⟨q, moved, Option.some.inj (stays.symm.trans (meaning_of_unit (.inl rfl) one left))⟩
  | oneTimes one =>
    have swapped := meaning_of_unit (.inl rfl) one (meaning_swap (.inr rfl) left)
    exact ⟨q, moved, Option.some.inj (stays.symm.trans swapped)⟩
  | overOne one =>
    exact ⟨q, moved, Option.some.inj (stays.symm.trans (meaning_of_unit (.inr rfl) one left))⟩
  | base => cases (Expr.arithmetical_binary.mp shape).1
  | plus =>
    obtain ⟨p, inner, rfl⟩ := meaning_unary.mp left
    exact ⟨q, moved, Option.some.inj (stays.symm.trans inner)⟩
  | minus =>
    obtain ⟨p, inner, rfl⟩ := meaning_unary.mp left
    obtain rfl : (q : K) = p := Option.some.inj (stays.symm.trans inner)
    exact ⟨-q, Projective.eq_of_neg moved, by push_cast; rfl⟩
  | radicand | logarithm => exact absurd shape Expr.not_arithmetical_call

/-- If a solution computes to the value of the variable, then the other side computed to the value
of the side that holds it. -/
theorem isolation_computed {solution : Solution Exact} (isolation : Isolation e c solution)
    (shape : e.Arithmetical Atom.IsVar) (left : I.meaning e = some y)
    (found : solution.value.computed = .finite q)
    (same : (q : K) = I.atom (.var solution.name)) :
    ∃ k : ℚ, c.computed = .finite k ∧ (k : K) = y := by
  induction isolation generalizing y with
  | done => exact ⟨q, found, same.trans (Option.some.inj left)⟩
  | move first rest ih =>
    obtain ⟨p, stays⟩ := meaning_of_occurs (.inside first.member (.here _)) left
    obtain ⟨k, moved, value⟩ := ih (shape.operand first.member) stays found same
    exact move_computed first shape left stays moved value

/-- Both sides have the same value where a solution computes to the value of the variable. -/
theorem isolation_solves {solution : Solution Exact} (isolation : Isolation e c solution)
    (shape : e.Arithmetical Atom.IsVar) (closed : c.Numerical) {z : K}
    (left : I.meaning e = some y) (right : I.meaning c = some z)
    (found : solution.value.computed = .finite q)
    (same : (q : K) = I.atom (.var solution.name)) : y = z := by
  obtain ⟨k, computed, rfl⟩ := isolation_computed isolation shape left found same
  obtain ⟨k', computed', rfl⟩ := Expr.Numerical.computed_eq closed right
  rw [computed] at computed'
  cases computed'
  rfl

/-- The value of a simplified tree of numbers is what the tree computed to before. -/
theorem simplify_computed {s : Simplification Exact} {v : K} (simplified : e.simplify = .ok s)
    (closed : e.Numerical) (found : I.meaning s.tree = some v) :
    ∃ k : ℚ, e.computed = .finite k ∧ (k : K) = v := by
  obtain ⟨steps, derived⟩ := Expr.simplify_derivation simplified
  have after : s.tree.Numerical := Expr.arithmetical_of_untagged derived closed
  obtain ⟨k, computed, value⟩ := Expr.Numerical.computed_eq after found
  have kept : s.tree.computed ≤ e.computed := Expr.computed_of_untagged derived closed
  rw [computed] at kept
  exact ⟨k, Projective.eq_of_finite_le kept, value⟩

omit [CharZero K] in
/-- A tree of rational numbers and variables has a value where none of its divisors is zero. -/
theorem meaning_defined (shape : e.Arithmetical Atom.IsVar)
    (literals : ∀ n, Expr.Occurs (.number n) e → ∃ k, n = .rational k)
    (divisors : ∀ t n d, Expr.Occurs (.binary t .div n d) e → I.meaning d ≠ some 0) :
    ∃ y, I.meaning e = some y := by
  induction shape with
  | number n =>
    obtain ⟨k, rfl⟩ := literals n (.here _)
    exact ⟨k, rfl⟩
  | atom allows => exact ⟨_, rfl⟩
  | @binary t o l r arithmetic _ _ ihLeft ihRight =>
    simp only [Expr.occurs_binary] at literals divisors
    obtain ⟨x, left⟩ := ihLeft (fun n occurs => literals n (.inr (.inl occurs)))
      fun t n d occurs => divisors t n d (.inr (.inl occurs))
    obtain ⟨y, right⟩ := ihRight (fun n occurs => literals n (.inr (.inr occurs)))
      fun t n d occurs => divisors t n d (.inr (.inr occurs))
    cases o with
    | add | sub | mul => exact ⟨_, meaning_binary.mpr ⟨x, y, left, right, rfl⟩⟩
    | div =>
      have nonzero : y ≠ 0 := by
        rintro rfl
        exact divisors t l r (.inl rfl) right
      exact ⟨x / y, meaning_binary.mpr ⟨x, y, left, right, operate_div.mpr ⟨nonzero, rfl⟩⟩⟩
    | mod | pow => cases arithmetic
  | @unary t o u _ ih =>
    simp only [Expr.occurs_unary] at literals divisors
    obtain ⟨x, inner⟩ := ih (fun n occurs => literals n (.inr occurs))
      fun t n d occurs => divisors t n d (.inr occurs)
    exact ⟨_, meaning_unary.mpr ⟨x, inner, rfl⟩⟩

/-- Where both sides of an equation have values, its solution makes them equal. -/
theorem solve_equal {t : Tags} {side : Side} {l r value : Expr Exact} {x : String} {v z : K}
    (left : l.Arithmetical Atom.IsVar) (right : r.Arithmetical Atom.IsVar)
    (solved : (Expr.equality t side l r).solve.outcome = .ok ⟨x, value⟩)
    (found : I.meaning value = some v) (valueLeft : (I.assign x v).meaning l = some y)
    (valueRight : (I.assign x v).meaning r = some z) : y = z := by
  obtain ⟨s, isolated, s', simplified, isolates, again, rfl⟩ := Expr.solve_stages solved
  obtain ⟨t', side', l', r', first, second, tree, freshLeft, freshRight, fromLeft, fromRight⟩ :=
    Expr.simplify_sides simplified
  rw [tree] at isolates
  have left' : l'.Arithmetical Atom.IsVar := Expr.arithmetical_of_untagged fromLeft left
  have right' : r'.Arithmetical Atom.IsVar := Expr.arithmetical_of_untagged fromRight right
  have valueLeft' := refines_of_untagged fromLeft y valueLeft
  have valueRight' := refines_of_untagged fromRight z valueRight
  have assigned : v = (I.assign x v).atom (.var x) := by simp [Interpretation.assign]
  rcases isolate_isolation freshLeft freshRight isolates with ⟨isolation, free⟩ | ⟨isolation, free⟩
  · have closed := right'.numerical free
    obtain ⟨k, computed, same⟩ := simplify_computed again (isolation.numerical left' closed) found
    exact isolation_solves isolation left' closed valueLeft' valueRight' computed
      (same.trans assigned)
  · have closed := left'.numerical free
    obtain ⟨k, computed, same⟩ := simplify_computed again (isolation.numerical right' closed) found
    exact (isolation_solves isolation right' closed valueRight' valueLeft' computed
      (same.trans assigned)).symm

end Interpretation

open Interpretation

/-- A solution solves its equation unless a divisor is zero there. In an equation of rational
numbers, variables, the four operations and signs, let the variable have the value of the solution.
If none of the divisors in the equation is zero then, both sides have values, and these are
equal. -/
theorem Expr.solve_sound {K : Type*} [Field K] [CharZero K] [DecidableEq K] (I : Interpretation K)
    (t : Tags) (side : Side) (l r value : Expr Exact) (x : String) (v : K)
    (left : l.Arithmetical Atom.IsVar) (right : r.Arithmetical Atom.IsVar)
    (literals : ∀ n, Occurs (.number n) (.equality t side l r) → ∃ q, n = .rational q)
    (solved : (equality t side l r).solve.outcome = .ok ⟨x, value⟩)
    (found : I.meaning value = some v)
    (divisors : ∀ t' n d, Occurs (.binary t' .div n d) (.equality t side l r) →
      (I.assign x v).meaning d ≠ some 0) :
    ∃ y, (I.assign x v).meaning l = some y ∧ (I.assign x v).meaning r = some y := by
  simp only [occurs_equality] at literals divisors
  obtain ⟨y, valueLeft⟩ := meaning_defined left (fun n occurs => literals n (.inr (.inl occurs)))
    fun t' n d occurs => divisors t' n d (.inr (.inl occurs))
  obtain ⟨z, valueRight⟩ := meaning_defined right (fun n occurs => literals n (.inr (.inr occurs)))
    fun t' n d occurs => divisors t' n d (.inr (.inr occurs))
  obtain rfl : y = z := solve_equal left right solved found valueLeft valueRight
  exact ⟨y, valueLeft, valueRight⟩

/-- `6 / x = 3` at its solution. -/
theorem Expr.solve_sound_quotient :
    ∃ y, (equal (op .div (number (Exact.rational 6)) (var "x"))
        (number (Exact.rational 3))).solve.outcome = .ok ⟨"x", number (Exact.rational 2)⟩ ∧
      (rationalRoots.assign "x" 2).meaning (op .div (number (Exact.rational 6)) (var "x")) =
        some y ∧
      (rationalRoots.assign "x" 2).meaning (number (Exact.rational 3)) = some y := by
  have solved : (equal (op .div (number (Exact.rational 6)) (var "x"))
      (number (Exact.rational 3))).solve.outcome = .ok ⟨"x", number (Exact.rational 2)⟩ := by
    with_unfolding_all rfl
  have found : rationalRoots.meaning (number (Exact.rational 2)) = some 2 := rfl
  have divisors (t : Tags) (n d : Expr Exact) (occurs : Occurs (.binary t .div n d)
      (equal (op .div (number (Exact.rational 6)) (var "x")) (number (Exact.rational 3)))) :
      (rationalRoots.assign "x" 2).meaning d ≠ some 0 := by
    obtain ⟨-, -, rfl⟩ : t = .empty ∧ n = number (Exact.rational 6) ∧ d = var "x" := by
      simpa [equal, op, var] using occurs
    simp [var]
  obtain ⟨y, left, right⟩ := solve_sound rationalRoots _ _ _ _ _ "x" 2
    (by simp [var, Atom.IsVar]) (by simp) (by simp [op, var]) solved found divisors
  exact ⟨y, solved, left, right⟩

/-- `0 / x = 5` has no solution, but the solver returns zero, where the left side has no value. -/
theorem Expr.solve_unsound :
    (equal (op .div (number (Exact.rational 0)) (var "x"))
        (number (Exact.rational 5))).solve.outcome = .ok ⟨"x", number (Exact.rational 0)⟩ ∧
      rationalRoots.meaning (number (Exact.rational 0)) = some 0 ∧
      ¬∃ y, (rationalRoots.assign "x" 0).meaning (op .div (number (Exact.rational 0)) (var "x")) =
          some y ∧
        (rationalRoots.assign "x" 0).meaning (number (Exact.rational 5)) = some y := by
  refine ⟨?_, rfl, ?_⟩
  · with_unfolding_all rfl
  · rintro ⟨y, left, -⟩
    have undefined : (rationalRoots.assign "x" 0).meaning
        (op .div (number (Exact.rational 0)) (var "x")) = none := by
      simp [meaning, operate, Interpretation.assign, op, var]
    rw [undefined] at left
    cases left

end AlgebraEngine
