import AlgebraEngine.Number.Machine
import AlgebraEngine.Proofs.Expr.Measures
import AlgebraEngine.Proofs.Solve.Move
import AlgebraEngine.Solve.Solve

/-! How deep isolation can make an equation. A move takes a level off one side and can put two on the
other, and the operand it moves may be as deep as the side it comes from, so neither side has a
bound of its own. What no move raises is the greater of two numbers, the levels of both sides
together and twice the levels of the side that holds the variable. -/
namespace AlgebraEngine

variable {ν : Type} [Arithmetic ν]

namespace Equation

open AlgebraEngine.Expr (height_pos)

variable {e u c c' : Expr ν}

/-- A bound on the levels of both sides together, now and after any number of moves. The second
number is for an operand that moves: it may have all but one of the levels of its side, and so more
than there are on the other side. -/
def headroom (lhs rhs : Expr ν) : Nat := max (lhs.height + rhs.height) (2 * lhs.height)

/-- No move raises the bound. What stays on the left has lost a level, which pays for the one that
the right side gets. An exponent ends up two levels deep, below a quotient. The second one is paid
for by the level of the power, which it was below before, and the number one beside it in the
quotient is no higher than it. -/
theorem Move.headroom_le (move : Move e c u c') : headroom u c' ≤ headroom e c := by
  have positive := height_pos c
  cases move with
  | firstTerm | secondTerm | minuend | subtrahend | firstFactor | secondFactor | dividend
  | divisor | timesOne | oneTimes | overOne =>
    simp only [headroom, Expr.op, Expr.height]
    omega
  | @base t u b c free =>
    have exponent := height_pos b
    simp only [headroom, Expr.op, Expr.height]
    omega
  | plus | minus =>
    simp only [headroom, Expr.sign, Expr.height]
    omega
  | radicand | logarithm =>
    simp only [headroom, Expr.op, Expr.const, Expr.height, Expr.heightOfList]
    omega

/-- The sides that are noted on the way stay within the bound of the first two. -/
theorem peel_headroom (fresh : e.Fresh) (holds : 0 < e.unknowns) {l r : Expr ν}
    (noted : .isolating l r ∈ (peel e c).events) : headroom l r ≤ headroom e c := by
  induction e using Expr.inductionOnChildren generalizing c with
  | node e inner =>
    rcases peel_cases fresh holds c with
      ⟨name, rfl, done⟩ | ⟨error, -, stopped⟩ | ⟨u, c', move, same⟩
    · simp [done] at noted
    · obtain ⟨rfl, rfl⟩ := by simpa [stopped] using noted
      exact le_rfl
    · simp only [same, Traced.events_after, List.mem_cons, Event.isolating.injEq] at noted
      rcases noted with ⟨rfl, rfl⟩ | noted
      · exact le_rfl
      · have stays : 0 < u.unknowns := by rwa [← move.unknowns_left]
        have later := inner u move.member (fresh.operands move.member) stays noted
        exact later.trans move.headroom_le

/-- So does what the variable equals in the end, next to the variable alone. -/
theorem Isolation.headroom_le {solution : Solution ν} (isolation : Isolation e c solution) :
    solution.value.height + 1 ≤ headroom e c := by
  induction isolation with
  | done =>
    simp only [headroom, Expr.height]
    omega
  | move first rest ih => exact ih.trans first.headroom_le

/-- An equation lets each of its sides have one level less than itself, and that is room enough. -/
theorem peel_bounded (fresh : e.Fresh) (holds : 0 < e.unknowns) {levels : Nat}
    (left : e.height < levels) (right : c.height < levels) :
    (∀ l r, .isolating l r ∈ (peel e c).events → l.height + r.height + 2 ≤ 2 * levels) ∧
      ∀ solution, (peel e c).outcome = .ok solution → solution.value.height + 3 ≤ 2 * levels := by
  have start : headroom e c + 2 ≤ 2 * levels := by
    simp only [headroom]
    omega
  constructor
  · intro l r noted
    have within := peel_headroom fresh holds noted
    simp only [headroom] at within start
    omega
  · intro solution peeled
    have within := (peel_isolation fresh holds peeled).headroom_le
    omega

/-- Whichever side is peeled, both start below the equation. -/
theorem isolate_bounded (lhs rhs : Expr ν) {levels : Nat}
    (shallow : (Expr.equal lhs rhs).height ≤ levels) :
    (∀ l r, .isolating l r ∈ (isolate lhs rhs).events → l.height + r.height + 2 ≤ 2 * levels) ∧
      ∀ solution, (isolate lhs rhs).outcome = .ok solution →
        solution.value.height + 3 ≤ 2 * levels := by
  have sides : lhs.tagged.height < levels ∧ rhs.tagged.height < levels := by
    simp only [Expr.equal, Expr.height] at shallow
    simp only [Expr.height_tagged]
    omega
  rcases isolate_cases lhs rhs with ⟨error, -, failed⟩ | ⟨holds, -, peeled⟩ | ⟨-, holds, peeled⟩
  · simp [failed]
  · rw [peeled]
    exact peel_bounded (Expr.fresh_tagged lhs) (by rwa [Expr.unknowns_tagged]) sides.1 sides.2
  · rw [peeled]
    exact peel_bounded (Expr.fresh_tagged rhs) (by rwa [Expr.unknowns_tagged]) sides.2 sides.1

end Equation

/-- Isolating the variable of an accepted equation never makes a side deeper than twice the limit.
This holds of both sides in every turn, and of the equation that is returned, which nothing checks
again. -/
theorem Expr.isolate_depth_le (e : Expr ν) (accepted : checkDepth e = .ok ()) :
    (∀ l r, .isolating l r ∈ e.isolate.events →
        l.depth ≤ 2 * maxDepth ∧ r.depth ≤ 2 * maxDepth) ∧
      ∀ solution, e.isolate.outcome = .ok solution →
        solution.value.depth ≤ 2 * maxDepth ∧ solution.toExpr.depth ≤ 2 * maxDepth := by
  have shallow := checkDepth_eq_ok_iff.mp accepted
  cases e with
  | equality t side lhs rhs =>
    rw [depth_eq_height] at shallow
    obtain ⟨turns, result⟩ := Equation.isolate_bounded lhs rhs shallow
    constructor
    · intro l r noted
      have within := turns l r noted
      simp only [depth_eq_height]
      omega
    · intro solution isolated
      have within := result solution isolated
      simp only [depth_eq_height, Solution.toExpr, equal, var, height_tagged, height]
      omega
  | number value | atom a | binary t o l r | unary t o u | call t f us =>
    simp [isolate]

/-- `sqrt(-x) = 2 + (3 + 4)` has four levels and ends as `x = -((2 + (3 + 4)) ^ 2)` with six. -/
theorem Expr.isolate_depth_le_root :
    ∃ (e : Expr Binary64) (solution : Solution Binary64),
      e = .equal (.apply .sqrt [.sign .minus (.var "x")]) (.op .add (.number (.ofInt 2))
        (.op .add (.number (.ofInt 3)) (.number (.ofInt 4)))) ∧
      e.depth = 4 ∧ e.isolate.outcome = .ok solution ∧ solution.toExpr.depth = 6 ∧
      solution.toExpr.depth ≤ 2 * maxDepth := by
  let e : Expr Binary64 := .equal (.apply .sqrt [.sign .minus (.var "x")])
    (.op .add (.number (.ofInt 2)) (.op .add (.number (.ofInt 3)) (.number (.ofInt 4))))
  obtain ⟨-, returned⟩ := isolate_depth_le e rfl
  have isolated : e.isolate.outcome = .ok ⟨"x", _⟩ := rfl
  exact ⟨e, _, rfl, rfl, isolated, rfl, (returned _ isolated).2⟩

end AlgebraEngine
