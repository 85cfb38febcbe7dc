import AlgebraEngine.Proofs.Expr.Unknowns
import AlgebraEngine.Solve.Isolate

/-! What isolating a variable can do to an equation, one case for each operation that is undone, and
the trees at which it stops. Every property of isolation is proved by cases on these relations, and
not by opening the loop again. -/
namespace AlgebraEngine

variable {ν : Type}

namespace Traced

variable {α : Type} (event : Event ν) (t : Traced ν α) (error : SolveError)

@[simp] theorem outcome_after : (after event t).outcome = t.outcome := rfl

@[simp] theorem events_after : (after event t).events = event :: t.events := rfl

@[simp] theorem outcome_fail : (fail error : Traced ν α).outcome = .error error := rfl

@[simp] theorem events_fail : (fail error : Traced ν α).events = [] := rfl

end Traced

namespace Equation

/-- Why the operation of a tree that holds a variable cannot be undone. -/
inductive Obstacle : Expr ν → SolveError → Prop where
  | both {t o l r} (left : 0 < l.unknowns) (right : 0 < r.unknowns) :
      Obstacle (.binary t o l r) (.ambiguousSide true)
  | exponent {t l r} (left : l.unknowns = 0) (right : 0 < r.unknowns) :
      Obstacle (.binary t .pow l r) .variableInExponent
  | remainder {t l r} (single : l.unknowns = 0 ∨ r.unknowns = 0) :
      Obstacle (.binary t .mod l r) (.unsupported "mod")
  | function {t f us} (other : ¬(us.length = 1 ∧ (f = .sqrt ∨ f = .ln))) :
      Obstacle (.call t f us) (.unsupported f.name)
  | nested {t side l r} : Obstacle (.equality t side l r) (.ambiguousSide false)

variable {e u : Expr ν} {error : SolveError}

theorem Obstacle.unique {other : SolveError} (obstacle : Obstacle e error)
    (also : Obstacle e other) : error = other := by
  cases obstacle with
  | both left right =>
    cases also with
    | both => rfl
    | exponent none => omega
    | remainder single => omega
  | exponent none =>
    cases also with
    | both left right => omega
    | exponent => rfl
  | remainder single =>
    cases also with
    | both left right => omega
    | remainder => rfl
  | function other =>
    cases also with
    | function => rfl
  | nested =>
    cases also with
    | nested => rfl

variable [Arithmetic ν]

/-- One turn of isolation, from the two sides of an equation to the next two. The operand without
the variable, if there is one, moves across. -/
inductive Move : (lhs rhs lhs' rhs' : Expr ν) → Prop where
  | firstTerm {t u b c} (free : b.unknowns = 0) : Move (.binary t .add u b) c u (.op .sub c b)
  | secondTerm {t a u c} (free : a.unknowns = 0) : Move (.binary t .add a u) c u (.op .sub c a)
  | minuend {t u b c} (free : b.unknowns = 0) : Move (.binary t .sub u b) c u (.op .add c b)
  | subtrahend {t a u c} (free : a.unknowns = 0) : Move (.binary t .sub a u) c u (.op .sub a c)
  | firstFactor {t u b c} (free : b.unknowns = 0) : Move (.binary t .mul u b) c u (.op .div c b)
  | secondFactor {t a u c} (free : a.unknowns = 0) : Move (.binary t .mul a u) c u (.op .div c a)
  | timesOne {t u b c} (one : isOne b = true) : Move (.binary t .mul u b) c u c
  | oneTimes {t a u c} (one : isOne a = true) : Move (.binary t .mul a u) c u c
  | dividend {t u b c} (free : b.unknowns = 0) : Move (.binary t .div u b) c u (.op .mul c b)
  | divisor {t a u c} (free : a.unknowns = 0) : Move (.binary t .div a u) c u (.op .div a c)
  | overOne {t u b c} (one : isOne b = true) : Move (.binary t .div u b) c u c
  | base {t u b c} (free : b.unknowns = 0) :
      Move (.binary t .pow u b) c u (.op .pow c (.op .div (.number (Arithmetic.ofInt 1)) b))
  | plus {t u c} : Move (.unary t .plus u) c u c
  | minus {t u c} : Move (.unary t .minus u) c u (.sign .minus c)
  | radicand {t u c} : Move (.call t .sqrt [u]) c u (.op .pow c (.number (Arithmetic.ofInt 2)))
  | logarithm {t u c} : Move (.call t .ln [u]) c u (.op .pow (.const .e) c)

variable {c c' : Expr ν}

theorem isOne_free (one : isOne e = true) : e.unknowns = 0 := by
  cases e with
  | number value => rfl
  | atom a | binary t o l r | unary t o u | call t f us | equality t side l r => cases one

namespace Move

theorem member (move : Move e c u c') : u ∈ e.children := by
  cases move <;> simp [Expr.children]

/-- The operand that stays holds all the variables of its side. -/
theorem unknowns_left (move : Move e c u c') : e.unknowns = u.unknowns := by
  cases move with
  | timesOne one | oneTimes one | overOne one =>
    have free := isOne_free one
    simp only [Expr.unknowns]
    omega
  | firstTerm | secondTerm | minuend | subtrahend | firstFactor | secondFactor | dividend
  | divisor | base =>
    simp only [Expr.unknowns]
    omega
  | plus | minus => rfl
  | radicand | logarithm => simp [Expr.unknowns]

/-- The other side takes over no variable. -/
theorem unknowns_right (move : Move e c u c') : c'.unknowns = c.unknowns := by
  cases move with
  | firstTerm free | secondTerm free | minuend free | subtrahend free | firstFactor free
  | secondFactor free | dividend free | divisor free | base free =>
    simp [Expr.op, Expr.unknowns, free]
  | timesOne | oneTimes | overOne | plus | minus => rfl
  | radicand | logarithm => simp [Expr.op, Expr.const, Expr.unknowns]

/-- Whatever moves across, the other side stays a part of what it becomes. -/
theorem occurs (move : Move e c u c') : c.Occurs c' := by
  cases move with
  | timesOne | oneTimes | overOne | plus => exact .here c
  | firstTerm | secondTerm | minuend | subtrahend | firstFactor | secondFactor | dividend
  | divisor | base | minus | radicand | logarithm => exact .inside (by simp) (.here c)

end Move

/-- Moving operands across ends with a variable alone on the left. -/
inductive Isolation : (lhs rhs : Expr ν) → Solution ν → Prop where
  | done {name : String} {rhs : Expr ν} : Isolation (.atom (.var name)) rhs ⟨name, rhs⟩
  | move {lhs rhs lhs' rhs' : Expr ν} {solution : Solution ν} (first : Move lhs rhs lhs' rhs')
      (rest : Isolation lhs' rhs' solution) : Isolation lhs rhs solution

/-- Isolation starts with a single variable on the left, and the other side ends up with the
variables that it started with. -/
theorem Isolation.unknowns {solution : Solution ν} (isolation : Isolation e c solution) :
    e.unknowns = 1 ∧ solution.value.unknowns = c.unknowns := by
  induction isolation with
  | done => exact ⟨rfl, rfl⟩
  | move first rest ih =>
    exact ⟨first.unknowns_left.trans ih.1, ih.2.trans first.unknowns_right⟩

theorem Isolation.occurs {solution : Solution ν} (isolation : Isolation e c solution) :
    c.Occurs solution.value := by
  induction isolation with
  | done => exact .here _
  | move first rest ih => exact ih.trans first.occurs

theorem moveRight_cases (o : BinaryOp) (t : Tags) (l r c : Expr ν) (free : r.unknowns = 0) :
    (∃ c', moveRight o c r = .ok c' ∧ Move (.binary t o l r) c l c') ∨
      ∃ error, moveRight o c r = .error error ∧ Obstacle (.binary t o l r) error := by
  cases o with
  | add => exact .inl ⟨_, rfl, .firstTerm free⟩
  | sub => exact .inl ⟨_, rfl, .minuend free⟩
  | mul =>
    by_cases one : isOne r = true
    · exact .inl ⟨c, by simp [moveRight, one], .timesOne one⟩
    · exact .inl ⟨_, by simp [moveRight, one], .firstFactor free⟩
  | div =>
    by_cases one : isOne r = true
    · exact .inl ⟨c, by simp [moveRight, one], .overOne one⟩
    · exact .inl ⟨_, by simp [moveRight, one], .dividend free⟩
  | mod => exact .inr ⟨_, rfl, .remainder (.inr free)⟩
  | pow => exact .inl ⟨_, rfl, .base free⟩

theorem moveLeft_cases (o : BinaryOp) (t : Tags) (l r c : Expr ν) (free : l.unknowns = 0)
    (holds : 0 < r.unknowns) :
    (∃ c', moveLeft o l c = .ok c' ∧ Move (.binary t o l r) c r c') ∨
      ∃ error, moveLeft o l c = .error error ∧ Obstacle (.binary t o l r) error := by
  cases o with
  | add => exact .inl ⟨_, rfl, .secondTerm free⟩
  | sub => exact .inl ⟨_, rfl, .subtrahend free⟩
  | mul =>
    by_cases one : isOne l = true
    · exact .inl ⟨c, by simp [moveLeft, one], .oneTimes one⟩
    · exact .inl ⟨_, by simp [moveLeft, one], .secondFactor free⟩
  | div => exact .inl ⟨_, rfl, .divisor free⟩
  | mod => exact .inr ⟨_, rfl, .remainder (.inl free)⟩
  | pow => exact .inr ⟨_, rfl, .exponent free holds⟩

/-- What peeling does to a fresh tree that holds a variable: it is done, it meets an obstacle, or it
goes on with the operand that holds the variable. Unless it is done, it notes the two sides first. -/
theorem peel_cases (fresh : e.Fresh) (holds : 0 < e.unknowns) (c : Expr ν) :
    (∃ name, e = .atom (.var name) ∧ peel e c = ⟨[], .ok ⟨name, c⟩⟩) ∨
      (∃ error, Obstacle e error ∧ peel e c = .after (.isolating e c) (.fail error)) ∨
        ∃ u c', Move e c u c' ∧ peel e c = .after (.isolating e c) (peel u c') := by
  cases e with
  | number value => simp [Expr.unknowns] at holds
  | atom a =>
    cases a with
    | var name => exact .inl ⟨name, rfl, rfl⟩
    | const constant => simp [Expr.unknowns] at holds
  | binary t o l r =>
    have left : l.Fresh := fresh.operands (by simp [Expr.children])
    have right : r.Fresh := fresh.operands (by simp [Expr.children])
    refine .inr ?_
    cases leftTag : l.tags.var with
    | false =>
      have free := left.var_eq_false.mp leftTag
      have rightHolds : 0 < r.unknowns := by
        simp only [Expr.unknowns] at holds
        omega
      rcases moveLeft_cases o t l r c free rightHolds with ⟨c', moved, move⟩ | ⟨error, stopped, obstacle⟩
      · exact .inr ⟨r, c', move, by simp [peel, leftTag, moved]⟩
      · exact .inl ⟨error, obstacle, by simp [peel, leftTag, stopped]⟩
    | true =>
      have leftHolds := left.var_iff.mp leftTag
      cases rightTag : r.tags.var with
      | true =>
        refine .inl ⟨_, .both leftHolds (right.var_iff.mp rightTag), ?_⟩
        simp [peel, leftTag, rightTag]
      | false =>
        have free := right.var_eq_false.mp rightTag
        rcases moveRight_cases o t l r c free with
          ⟨c', moved, move⟩ | ⟨error, stopped, obstacle⟩
        · exact .inr ⟨l, c', move, by simp [peel, leftTag, rightTag, moved]⟩
        · exact .inl ⟨error, obstacle, by simp [peel, leftTag, rightTag, stopped]⟩
  | unary t o u =>
    cases o with
    | plus => exact .inr (.inr ⟨u, _, .plus, by simp [peel]⟩)
    | minus => exact .inr (.inr ⟨u, _, .minus, by simp [peel]⟩)
  | call t f us =>
    refine .inr ?_
    by_cases single : us.length = 1 ∧ (f = .sqrt ∨ f = .ln)
    · obtain ⟨one, function⟩ := single
      obtain ⟨u, rfl⟩ := List.length_eq_one_iff.mp one
      rcases function with rfl | rfl
      · exact .inr ⟨u, _, .radicand, by simp [peel]⟩
      · exact .inr ⟨u, _, .logarithm, by simp [peel]⟩
    · refine .inl ⟨_, .function single, ?_⟩
      rw [peel]
      · rintro u rfl rfl
        exact single ⟨rfl, .inl rfl⟩
      · rintro u rfl rfl
        exact single ⟨rfl, .inr rfl⟩
  | equality t side l r => exact .inr (.inl ⟨_, .nested, by simp [peel]⟩)

/-- Whatever peeling returns is the end of a row of moves. -/
theorem peel_isolation {solution : Solution ν} (fresh : e.Fresh) (holds : 0 < e.unknowns)
    (peeled : (peel e c).outcome = .ok solution) : Isolation e c solution := by
  induction e using Expr.inductionOnChildren generalizing c with
  | node e inner =>
    rcases peel_cases fresh holds c with
      ⟨name, rfl, done⟩ | ⟨error, -, stopped⟩ | ⟨u, c', move, same⟩
    · rw [done] at peeled
      cases peeled
      exact .done
    · rw [stopped] at peeled
      cases peeled
    · have stays : 0 < u.unknowns := by rwa [← move.unknowns_left]
      rw [same] at peeled
      exact .move move (inner u move.member (fresh.operands move.member) stays peeled)

/-- Isolating refuses an equation at once, though not for being none, or it peels the side that
holds the variable. -/
theorem isolate_cases (lhs rhs : Expr ν) :
    (∃ error, error ≠ .notAnEquation ∧ isolate lhs rhs = .fail error) ∨
      (0 < lhs.unknowns ∧ rhs.unknowns = 0 ∧ isolate lhs rhs = peel lhs.tagged rhs.tagged) ∨
        (lhs.unknowns = 0 ∧ 0 < rhs.unknowns ∧ isolate lhs rhs = peel rhs.tagged lhs.tagged) := by
  have holds {e : Expr ν} (tag : e.tagged.tags.var = true) : 0 < e.unknowns :=
    (Expr.var_tagged e).mp tag
  have free {e : Expr ν} (tag : e.tagged.tags.var = false) : e.unknowns = 0 := by
    rw [← Expr.unknowns_tagged]
    exact (Expr.fresh_tagged e).var_eq_false.mp tag
  unfold isolate
  split
  · exact .inl ⟨.tooDeep _, nofun, rfl⟩
  · dsimp only
    cases left : lhs.tagged.tags.var <;> cases right : rhs.tagged.tags.var <;>
      simp only [Side.ofTags, left, right]
    · exact .inl ⟨.ambiguousSide false, nofun, rfl⟩
    · exact .inr (.inr ⟨free left, holds right, trivial⟩)
    · exact .inr (.inl ⟨holds left, free right, trivial⟩)
    · exact .inl ⟨.ambiguousSide true, nofun, rfl⟩

end Equation

end AlgebraEngine
