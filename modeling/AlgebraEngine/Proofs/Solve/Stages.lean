import AlgebraEngine.Proofs.Simplify.Firing
import AlgebraEngine.Proofs.Simplify.Freshness
import AlgebraEngine.Proofs.Solve.Move
import AlgebraEngine.Solve.Solve

/-! The stages of solving an equation: its two sides are simplified, each on its own; moves isolate
the variable; the side that it equals is simplified. What holds of a solution is put together from
what each stage keeps. -/
namespace AlgebraEngine

variable {ν : Type}

namespace Traced

variable {α β : Type}

theorem andThen_eq_ok {t : Traced ν α} {next : α → Traced ν β} {b : β} :
    (t.andThen next).outcome = .ok b ↔ ∃ a, t.outcome = .ok a ∧ (next a).outcome = .ok b := by
  unfold andThen
  cases t.outcome with
  | ok a => simp
  | error error => simp

theorem andThen_eq_error {t : Traced ν α} {next : α → Traced ν β} {error : SolveError} :
    (t.andThen next).outcome = .error error ↔
      t.outcome = .error error ∨ ∃ a, t.outcome = .ok a ∧ (next a).outcome = .error error := by
  unfold andThen
  cases t.outcome with
  | ok a => simp
  | error error' => simp

theorem simplified_eq_ok [Arithmetic ν] {e tree : Expr ν} :
    (simplified e).outcome = .ok tree ↔ ∃ s, e.simplify = .ok s ∧ s.tree = tree := by
  unfold simplified
  cases e.simplify with
  | ok s => simp
  | error tooDeep => simp [fail]

end Traced

variable [Arithmetic ν]

namespace Expr

variable {e : Expr ν} {s : Simplification ν}

theorem simplify_eq_run (simplified : e.simplify = .ok s) :
    s = .run Rule.forNode defaultPasses e :=
  simplifyWith_eq_run simplified

theorem simplify_fresh (simplified : e.simplify = .ok s) : s.tree.Fresh := by
  rw [simplify_eq_run simplified]
  exact Simplification.run_fresh Rule.forNode (by decide) e

theorem simplify_derivation (simplified : e.simplify = .ok s) :
    ∃ steps, Derivation Rule.forNode steps e.untagged s.tree.untagged := by
  rw [simplify_eq_run simplified]
  exact ⟨_, Simplification.run_derived Rule.forNode defaultPasses e⟩

end Expr

/-- Simplifying an equality leaves a fresh equality, with each side derived on its own. -/
theorem Expr.simplify_sides {t : Tags} {side : Side} {l r : Expr ν} {s : Simplification ν}
    (simplified : (equality t side l r).simplify = .ok s) :
    ∃ t' side' l' r' first second, s.tree = .equality t' side' l' r' ∧ l'.Fresh ∧ r'.Fresh ∧
      Derivation Rule.forNode first l.untagged l'.untagged ∧
      Derivation Rule.forNode second r.untagged r'.untagged := by
  have fresh := simplify_fresh simplified
  obtain ⟨steps, derived⟩ := simplify_derivation simplified
  obtain ⟨l₁, r₁, first, second, same, left, right⟩ := derivation_sides derived
  obtain ⟨t', side', l', r', tree, rfl, rfl⟩ := equality_of_untagged same
  rw [tree] at fresh
  exact ⟨t', side', l', r', first, second, tree, fresh.operands (by simp [children]),
    fresh.operands (by simp [children]), left, right⟩

namespace Equation

/-- Isolating a variable moves operands away from the side that holds it. -/
theorem isolate_isolation {lhs rhs : Expr ν} {solution : Solution ν} (left : lhs.Fresh)
    (right : rhs.Fresh) (isolated : (isolate lhs rhs).outcome = .ok solution) :
    Isolation lhs rhs solution ∧ rhs.unknowns = 0 ∨
      Isolation rhs lhs solution ∧ lhs.unknowns = 0 := by
  have leftSame : lhs.tagged = lhs := left
  have rightSame : rhs.tagged = rhs := right
  rcases isolate_cases lhs rhs with ⟨error, -, failed⟩ | ⟨holds, free, peeled⟩ |
    ⟨free, holds, peeled⟩
  · rw [failed] at isolated
    cases isolated
  · rw [peeled, leftSame, rightSame] at isolated
    exact .inl ⟨peel_isolation left holds isolated, free⟩
  · rw [peeled, leftSame, rightSame] at isolated
    exact .inr ⟨peel_isolation right holds isolated, free⟩

/-- The side that an isolated variable equals holds no variable. -/
theorem isolate_unknowns {lhs rhs : Expr ν} {solution : Solution ν} (left : lhs.Fresh)
    (right : rhs.Fresh) (isolated : (isolate lhs rhs).outcome = .ok solution) :
    solution.value.unknowns = 0 := by
  rcases isolate_isolation left right isolated with ⟨isolation, free⟩ | ⟨isolation, free⟩
  · exact isolation.unknowns.2.trans free
  · exact isolation.unknowns.2.trans free

end Equation

/-- A solution comes from simplifying, isolating and simplifying again. -/
theorem Expr.solve_stages {e value : Expr ν} {x : String}
    (solved : e.solve.outcome = .ok ⟨x, value⟩) :
    ∃ s isolated s', e.simplify = .ok s ∧ s.tree.isolate.outcome = .ok ⟨x, isolated⟩ ∧
      isolated.simplify = .ok s' ∧ s'.tree = value := by
  unfold solve at solved
  split at solved
  · obtain ⟨tree, first, solved⟩ := Traced.andThen_eq_ok.mp solved
    obtain ⟨⟨name, isolated⟩, isolates, solved⟩ := Traced.andThen_eq_ok.mp solved
    obtain ⟨value', second, solved⟩ := Traced.andThen_eq_ok.mp solved
    obtain ⟨s, simplified, rfl⟩ := Traced.simplified_eq_ok.mp first
    obtain ⟨s', again, rfl⟩ := Traced.simplified_eq_ok.mp second
    cases solved
    exact ⟨s, isolated, s', simplified, isolates, again, rfl⟩
  · cases solved

end AlgebraEngine
