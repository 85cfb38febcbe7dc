import AlgebraEngine.Proofs.Simplify.Atoms
import AlgebraEngine.Proofs.Solve.Stages

/-! What a solution looks like. The variable on its left comes from the equation, and so does every
constant on its right: rules invent no atom, and what moves across is a part of the equation.
Undoing a logarithm is the only move that brings in an atom, namely Euler's number. -/
namespace AlgebraEngine

open AlgebraEngine.Expr

variable {ν : Type}

namespace Traced

variable {α β : Type} {t : Traced ν α} {next : α → Traced ν β} {value : α}

theorem events_subset_andThen : t.events ⊆ (t.andThen next).events := by
  unfold andThen
  cases t.outcome with
  | ok value => exact List.subset_append_left _ _
  | error error => exact List.Subset.refl _

theorem next_subset_andThen (succeeds : t.outcome = .ok value) :
    (next value).events ⊆ (t.andThen next).events := by
  simp only [andThen, succeeds]
  exact List.subset_append_right _ _

end Traced

namespace Equation

/-- A logarithm is among the left sides that isolation has noted before it undid them. -/
def UndoesLogarithm (events : List (Event ν)) : Prop :=
  ∃ t u rhs, .isolating (.call t .ln [u]) rhs ∈ events

variable {events more : List (Event ν)} {e u c c' lhs rhs : Expr ν} {a : Atom}
  {solution : Solution ν}

theorem UndoesLogarithm.mono (undoes : UndoesLogarithm events) (subset : events ⊆ more) :
    UndoesLogarithm more := by
  obtain ⟨t, u, rhs, member⟩ := undoes
  exact ⟨t, u, rhs, subset member⟩

variable [Arithmetic ν]

/-- A move brings nothing to the other side but what was in the equation, and Euler's number for a
logarithm. -/
theorem Move.atoms (move : Move e c u c') (occurs : Occurs (.atom a) c') :
    Occurs (.atom a) e ∨ Occurs (.atom a) c ∨ a = .const .e ∧ ∃ t, e = .call t .ln [u] := by
  cases move with
  | firstTerm | secondTerm | minuend | subtrahend | firstFactor | secondFactor | dividend
  | divisor | base =>
    simp only [op, occurs_binary, occurs_number, reduceCtorEq, false_or] at occurs ⊢
    rcases occurs with occurs | occurs <;> simp [occurs]
  | timesOne | oneTimes | overOne | plus => exact .inr (.inl occurs)
  | minus =>
    simp only [sign, occurs_unary, reduceCtorEq, false_or] at occurs
    exact .inr (.inl occurs)
  | radicand =>
    simp only [op, occurs_binary, occurs_number, reduceCtorEq, false_or, or_false] at occurs
    exact .inr (.inl occurs)
  | @logarithm t u c =>
    simp only [op, const, occurs_binary, occurs_atom, atom.injEq, reduceCtorEq, false_or] at occurs
    rcases occurs with rfl | occurs
    · exact .inr (.inr ⟨rfl, t, rfl⟩)
    · exact .inr (.inl occurs)

/-- The variable that peeling leaves was in the tree that was peeled, and what it equals is made of
both sides. -/
theorem peel_atoms (fresh : e.Fresh) (holds : 0 < e.unknowns)
    (peeled : (peel e c).outcome = .ok solution) :
    Occurs (.var solution.name) e ∧ ∀ a, Occurs (.atom a) solution.value →
      Occurs (.atom a) e ∨ Occurs (.atom a) c ∨
        a = .const .e ∧ UndoesLogarithm (peel e c).events := by
  induction e using Expr.inductionOnChildren generalizing c with
  | node e inner =>
    rcases peel_cases fresh holds c with
      ⟨name, rfl, done⟩ | ⟨error, -, stopped⟩ | ⟨u, c', move, same⟩
    · rw [done] at peeled
      cases peeled
      exact ⟨.here _, fun a occurs => .inr (.inl occurs)⟩
    · rw [stopped] at peeled
      cases peeled
    · have stays : 0 < u.unknowns := by rwa [← move.unknowns_left]
      rw [same, Traced.outcome_after] at peeled
      obtain ⟨named, below⟩ :=
        inner u move.member (fresh.operands move.member) stays peeled
      refine ⟨.inside move.member named, fun a occurs => ?_⟩
      rw [same, Traced.events_after]
      rcases below a occurs with operand | moved | ⟨euler, undoes⟩
      · exact .inl (.inside move.member operand)
      · rcases move.atoms moved with left | right | ⟨euler, t, logarithm⟩
        · exact .inl left
        · exact .inr (.inl right)
        · refine .inr (.inr ⟨euler, t, u, c, ?_⟩)
          rw [logarithm]
          exact List.mem_cons_self
      · exact .inr (.inr ⟨euler, undoes.mono (List.subset_cons_self _ _)⟩)

/-- No obstacle is that there is no equation. -/
theorem peel_notAnEquation (fresh : e.Fresh) (holds : 0 < e.unknowns) (c : Expr ν) :
    (peel e c).outcome ≠ .error .notAnEquation := by
  induction e using Expr.inductionOnChildren generalizing c with
  | node e inner =>
    rcases peel_cases fresh holds c with
      ⟨name, rfl, done⟩ | ⟨error, obstacle, stopped⟩ | ⟨u, c', move, same⟩
    · rw [done]
      nofun
    · rw [stopped, Traced.outcome_after, Traced.outcome_fail]
      cases obstacle <;> nofun
    · have stays : 0 < u.unknowns := by rwa [← move.unknowns_left]
      rw [same, Traced.outcome_after]
      exact inner u move.member (fresh.operands move.member) stays c'

/-- Isolating makes a solution of what is on the two sides. -/
theorem isolate_atoms (isolated : (isolate lhs rhs).outcome = .ok solution) :
    (Occurs (.var solution.name) lhs ∨ Occurs (.var solution.name) rhs) ∧
      ∀ a, Occurs (.atom a) solution.value → (Occurs (.atom a) lhs ∨ Occurs (.atom a) rhs) ∨
        a = .const .e ∧ UndoesLogarithm (isolate lhs rhs).events := by
  rcases isolate_cases lhs rhs with ⟨error, -, fails⟩ | ⟨holds, -, peels⟩ | ⟨-, holds, peels⟩
  · rw [fails] at isolated
    cases isolated
  · rw [peels] at isolated ⊢
    obtain ⟨named, atoms⟩ :=
      peel_atoms (fresh_tagged lhs) (by rwa [unknowns_tagged]) isolated
    simp only [var, occurs_atom_tagged] at named atoms ⊢
    exact ⟨.inl named, fun a occurs => or_assoc.mpr (atoms a occurs)⟩
  · rw [peels] at isolated ⊢
    obtain ⟨named, atoms⟩ :=
      peel_atoms (fresh_tagged rhs) (by rwa [unknowns_tagged]) isolated
    simp only [var, occurs_atom_tagged] at named atoms ⊢
    refine ⟨.inr named, fun a occurs => ?_⟩
    rw [or_comm (a := Occurs (.atom a) lhs)]
    exact or_assoc.mpr (atoms a occurs)

end Equation

open Equation

variable [Arithmetic ν] {e : Expr ν} {solution : Solution ν} {a : Atom} {s : Simplification ν}

namespace Expr

theorem isolate_atoms (isolated : e.isolate.outcome = .ok solution) :
    Occurs (.var solution.name) e ∧ ∀ a, Occurs (.atom a) solution.value →
      Occurs (.atom a) e ∨ a = .const .e ∧ UndoesLogarithm e.isolate.events := by
  cases e with
  | equality t side l r =>
    simpa [var, isolate] using Equation.isolate_atoms isolated
  | number value | atom a | binary t o l r | unary t o u | call t f us => cases isolated

/-- Nothing but the lack of an equation is reported as such. -/
theorem isolate_notAnEquation : e.isolate.outcome = .error .notAnEquation ↔
    e.isEquality = false := by
  cases e with
  | equality t side l r =>
    refine iff_of_false ?_ (by simp [isEquality])
    show (Equation.isolate l r).outcome ≠ .error .notAnEquation
    rcases isolate_cases l r with ⟨error, other, fails⟩ | ⟨holds, -, peels⟩ | ⟨-, holds, peels⟩
    · rw [fails]
      exact fun same => other (Except.error.inj same)
    · rw [peels]
      exact peel_notAnEquation (fresh_tagged l) (by rwa [unknowns_tagged]) _
    · rw [peels]
      exact peel_notAnEquation (fresh_tagged r) (by rwa [unknowns_tagged]) _
  | number value | atom a | binary t o l r | unary t o u | call t f us =>
    exact iff_of_true rfl rfl

/-- Simplifying leaves an equality an equality. -/
theorem simplify_isEquality (equation : e.isEquality = true) (simplified : e.simplify = .ok s) :
    s.tree.isEquality = true := by
  cases e with
  | equality t side l r =>
    obtain ⟨t', side', l', r', -, -, tree, -⟩ := simplify_sides simplified
    rw [tree]
    rfl
  | number value | atom a | binary t o l r | unary t o u | call t f us => cases equation

/-- Simplifying does not ask for an equation. -/
theorem simplified_notAnEquation : (Traced.simplified e).outcome ≠ .error .notAnEquation := by
  unfold Traced.simplified
  split <;> nofun

/-- Solving notes what isolating notes. -/
theorem isolate_events_subset (equation : e.isEquality = true) (simplified : e.simplify = .ok s) :
    s.tree.isolate.events ⊆ e.solve.events := by
  have first : (Traced.simplified e).outcome = .ok s.tree :=
    Traced.simplified_eq_ok.mpr ⟨s, simplified, rfl⟩
  rw [solve, if_pos equation]
  exact fun event member =>
    Traced.next_subset_andThen first (Traced.events_subset_andThen member)

theorem isEquality_of_solve (solved : e.solve.outcome = .ok solution) : e.isEquality = true := by
  unfold solve at solved
  split at solved
  · assumption
  · cases solved

/-- The atoms of a solution are those of the equation, but for Euler's number where a logarithm has
been undone. -/
theorem solve_atoms (solved : e.solve.outcome = .ok solution) :
    Occurs (.var solution.name) e ∧ ∀ a, Occurs (.atom a) solution.value →
      Occurs (.atom a) e ∨ a = .const .e ∧ UndoesLogarithm e.solve.events := by
  obtain ⟨s, isolated, s', simplified, isolates, again, value⟩ := solve_stages solved
  have noted := isolate_events_subset (isEquality_of_solve solved) simplified
  obtain ⟨named, atoms⟩ := isolate_atoms isolates
  refine ⟨simplifyWith_atoms simplified named, fun a occurs => ?_⟩
  rw [← value] at occurs
  rcases atoms a (simplifyWith_atoms again occurs) with there | ⟨euler, undoes⟩
  · exact .inl (simplifyWith_atoms simplified there)
  · exact .inr ⟨euler, undoes.mono noted⟩

/-- Once there is an equation, no stage reports that there is none. -/
theorem solve_notAnEquation (refused : e.solve.outcome = .error .notAnEquation) :
    e.isEquality = false := by
  by_contra equation
  rw [Bool.not_eq_false] at equation
  rw [solve, if_pos equation, Traced.andThen_eq_error] at refused
  rcases refused with simplifying | ⟨tree, simplified, refused⟩
  · exact simplified_notAnEquation simplifying
  · obtain ⟨s, simplifies, rfl⟩ := Traced.simplified_eq_ok.mp simplified
    rcases Traced.andThen_eq_error.mp refused with isolating | ⟨solution, -, refused⟩
    · have still := simplify_isEquality equation simplifies
      rw [isolate_notAnEquation.mp isolating] at still
      cases still
    · rcases Traced.andThen_eq_error.mp refused with simplifying | ⟨value, -, done⟩
      · exact simplified_notAnEquation simplifying
      · cases done

/-- What a variable equals holds no variable. -/
theorem solve_free (solved : e.solve.outcome = .ok solution) : solution.value.unknowns = 0 := by
  obtain ⟨s, isolated, s', simplified, isolates, again, value⟩ := solve_stages solved
  have fresh := simplify_fresh simplified
  have equation := simplify_isEquality (isEquality_of_solve solved) simplified
  have free : isolated.unknowns = 0 := by
    cases tree : s.tree with
    | equality t side l r =>
      rw [tree] at fresh isolates
      have left : l.Fresh := fresh.operands (by simp [children])
      have right : r.Fresh := fresh.operands (by simp [children])
      exact isolate_unknowns left right isolates
    | _ =>
      rw [tree] at equation
      cases equation
  rw [← value, unknowns_eq_zero_iff]
  intro x occurs
  exact unknowns_eq_zero_iff.mp free x (simplifyWith_atoms again occurs)

/-- What a variable equals is tagged. -/
theorem solve_fresh (solved : e.solve.outcome = .ok solution) : solution.value.Fresh := by
  obtain ⟨s, isolated, s', -, -, again, value⟩ := solve_stages solved
  rw [← value]
  exact simplify_fresh again

end Expr

omit [Arithmetic ν] in
/-- A solution with a value that is tagged and holds no variable is an equality that holds the
variable on its left. -/
theorem Solution.toExpr_eq (fresh : solution.value.Fresh) (free : solution.value.unknowns = 0) :
    ∃ t, solution.toExpr = .equality t .left (.var solution.name) solution.value := by
  have same : solution.value.tagged = solution.value := fresh
  have right := fresh.var_eq_false.mpr free
  refine ⟨(Atom.var solution.name).tags ∪ solution.value.tags, ?_⟩
  show Expr.equality _ (.ofTags (Atom.var solution.name).tags solution.value.tagged.tags) _
    solution.value.tagged = _
  rw [same, Side.ofTags, right]
  rfl

/-- The shape of a solution. Solving an expression leads to an equality with a variable of the
expression alone on the left, and no atom on the right but constants of the expression, and Euler's
number where a logarithm has been undone; the tags are those of the atoms and the side is the left
one. There is no equation to solve exactly if the expression is none: simplifying leaves an equality
an equality, and isolating never misses the equation in one. -/
theorem Expr.solve_shape (e : Expr ν) :
    (∀ solution, e.solve.outcome = .ok solution →
      Occurs (.var solution.name) e ∧
      (∀ a, Occurs (.atom a) solution.value → ∃ c, a = .const c ∧
        (Occurs (.const c) e ∨ c = .e ∧ UndoesLogarithm e.solve.events)) ∧
      (∃ t, solution.toExpr = .equality t .left (.var solution.name) solution.value) ∧
      solution.toExpr.Fresh ∧ ∀ u, Occurs u solution.toExpr → u.RecordsAtoms) ∧
    (e.solve.outcome = .error .notAnEquation ↔ e.isEquality = false) ∧
    (e.isEquality = true → e.isolate.outcome ≠ .error .notAnEquation ∧
      ∀ s, e.simplify = .ok s → s.tree.isEquality = true) := by
  refine ⟨fun solution solved => ?_, ⟨fun refused => ?_, fun other => ?_⟩, fun equation => ⟨?_, ?_⟩⟩
  · have fresh : solution.toExpr.Fresh := fresh_tagged _
    have free := solve_free solved
    obtain ⟨named, atoms⟩ := solve_atoms solved
    refine ⟨named, fun a occurs => ?_, Solution.toExpr_eq (solve_fresh solved) free, fresh,
      fun u occurs => (fresh.occurs occurs).recordsAtoms⟩
    cases a with
    | var x => exact absurd occurs (unknowns_eq_zero_iff.mp free x)
    | const c => exact ⟨c, rfl, by simpa [const] using atoms _ occurs⟩
  · exact solve_notAnEquation refused
  · rw [solve, other]
    rfl
  · intro refused
    rw [isolate_notAnEquation.mp refused] at equation
    cases equation
  · exact fun s simplified => simplify_isEquality equation simplified

/-- `ln(2x) = pi` is solved for `x` on the left. On the right there are no atoms but `pi` and
Euler's number, and for `2x + pi` there is nothing to solve. -/
theorem Expr.solve_shape_logarithm : ∃ solution : Solution Exact,
    (equal (apply .ln [op .mul (number (.rational 2)) (var "x")]) (const .pi)).solve.outcome =
      .ok solution ∧
    solution.name = "x" ∧ (∀ x, ¬ Occurs (var x) solution.value) ∧
    (∃ t, solution.toExpr = .equality t .left (var "x") solution.value) ∧
    (op .add (op .mul (number (.rational 2)) (var "x")) (const .pi) : Expr Exact).solve.outcome =
      .error .notAnEquation := by
  have some : (equal (apply .ln [op .mul (number (.rational 2)) (var "x")])
      (const .pi) : Expr Exact).solve.outcome.toOption.isSome = true := by
    decide +kernel
  obtain ⟨shape, -⟩ := solve_shape (ν := Exact)
    (equal (apply .ln [op .mul (number (.rational 2)) (var "x")]) (const .pi))
  obtain ⟨-, none, -⟩ := solve_shape (ν := Exact)
    (op .add (op .mul (number (.rational 2)) (var "x")) (const .pi))
  cases solved : (equal (apply .ln [op .mul (number (.rational 2)) (var "x")])
      (const .pi) : Expr Exact).solve.outcome with
  | error error =>
    rw [solved] at some
    cases some
  | ok solution =>
    obtain ⟨named, atoms, tagged, -, -⟩ := shape solution solved
    have name : solution.name = "x" := by
      simpa [equal, apply, op, var, const] using named
    rw [name] at tagged
    refine ⟨solution, rfl, name, fun x occurs => ?_, tagged, none.mpr rfl⟩
    obtain ⟨c, impossible, -⟩ := atoms _ occurs
    cases impossible

end AlgebraEngine
