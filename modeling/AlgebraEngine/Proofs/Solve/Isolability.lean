import AlgebraEngine.Proofs.Expr.Arithmetical
import AlgebraEngine.Proofs.Number.Exact
import AlgebraEngine.Proofs.Solve.Move
import AlgebraEngine.Solve.Solve

/-! Exactly which equations can be solved for their variable, and what is wrong with the others. The
variable has to occur once, below operations that can be undone; otherwise the error names the first
obstacle on the way to it. -/
namespace AlgebraEngine

variable {ν : Type}

namespace Equation

/-! ## Ways to a variable -/

/-- A variable literal lies below operations that can be undone only. -/
inductive Exposed : Expr ν → Prop where
  | var (name : String) : Exposed (.atom (.var name))
  | left {t o l r} (undone : o.isArithmetic = true ∨ o = .pow) (inner : Exposed l) :
      Exposed (.binary t o l r)
  | right {t o l r} (undone : o.isArithmetic = true) (inner : Exposed r) :
      Exposed (.binary t o l r)
  | sign {t o u} (inner : Exposed u) : Exposed (.unary t o u)
  | sqrt {t u} (inner : Exposed u) : Exposed (.call t .sqrt [u])
  | ln {t u} (inner : Exposed u) : Exposed (.call t .ln [u])

/-- The first obstacle on the way from the root of a tree to its variable. -/
inductive Obstructed : Expr ν → SolveError → Prop where
  | here {e error} (obstacle : Obstacle e error) : Obstructed e error
  | inside {e u error} (clear : ∀ other, ¬Obstacle e other) (member : u ∈ e.children)
      (holds : 0 < u.unknowns) (inner : Obstructed u error) : Obstructed e error

/-- The first obstacle in an equation with the given sides. -/
inductive Refused : (lhs rhs : Expr ν) → SolveError → Prop where
  | both {lhs rhs} (left : 0 < lhs.unknowns) (right : 0 < rhs.unknowns) :
      Refused lhs rhs (.ambiguousSide true)
  | neither {lhs rhs} (left : lhs.unknowns = 0) (right : rhs.unknowns = 0) :
      Refused lhs rhs (.ambiguousSide false)
  | left {lhs rhs error} (holds : 0 < lhs.unknowns) (free : rhs.unknowns = 0)
      (inner : Obstructed lhs error) : Refused lhs rhs error
  | right {lhs rhs error} (free : lhs.unknowns = 0) (holds : 0 < rhs.unknowns)
      (inner : Obstructed rhs error) : Refused lhs rhs error

variable {e u c c' : Expr ν} {error : SolveError}

theorem Exposed.unknowns_pos (exposed : Exposed e) : 0 < e.unknowns := by
  induction exposed with
  | var name => simp [Expr.unknowns]
  | left undone inner ih | right undone inner ih =>
    simp only [Expr.unknowns]
    omega
  | sign inner ih => exact ih
  | sqrt inner ih | ln inner ih => simpa [Expr.unknowns] using ih

/-- An obstacle hides every variable below it, unless there are several. -/
theorem Obstacle.hides (obstacle : Obstacle e error) (single : e.unknowns = 1) : ¬Exposed e := by
  intro exposed
  cases obstacle with
  | both left right =>
    simp only [Expr.unknowns] at single
    omega
  | exponent none =>
    cases exposed with
    | left undone inner =>
      have some := inner.unknowns_pos
      omega
    | right undone inner => cases undone
  | remainder =>
    cases exposed with
    | left undone inner => rcases undone with undone | undone <;> cases undone
    | right undone inner => cases undone
  | function other =>
    cases exposed with
    | sqrt inner => exact other ⟨rfl, .inl rfl⟩
    | ln inner => exact other ⟨rfl, .inr rfl⟩
  | nested => cases exposed

variable [Arithmetic ν]

/-- A move passes no obstacle. -/
theorem Move.clear (move : Move e c u c') (holds : 0 < u.unknowns) : ¬Obstacle e error := by
  intro obstacle
  cases move with
  | timesOne one | oneTimes one | overOne one =>
    have free := isOne_free one
    cases obstacle
    omega
  | firstTerm | secondTerm | minuend | subtrahend | firstFactor | secondFactor | dividend
  | divisor =>
    cases obstacle
    omega
  | base => cases obstacle <;> omega
  | plus | minus => cases obstacle
  | radicand =>
    cases obstacle with
    | function other => exact other ⟨rfl, .inl rfl⟩
  | logarithm =>
    cases obstacle with
    | function other => exact other ⟨rfl, .inr rfl⟩

omit [Arithmetic ν] in
private theorem operand_of_free {l r v : Expr ν} (member : v ∈ [l, r]) (holds : 0 < v.unknowns) :
    (r.unknowns = 0 → v = l) ∧ (l.unknowns = 0 → v = r) := by
  simp only [List.mem_cons, List.not_mem_nil, or_false] at member
  rcases member with rfl | rfl
  · exact ⟨fun _ => rfl, fun free => by omega⟩
  · exact ⟨fun free => by omega, fun _ => rfl⟩

/-- A move goes on with the only operand that holds a variable. -/
theorem Move.only (move : Move e c u c') {v : Expr ν} (member : v ∈ e.children)
    (holds : 0 < v.unknowns) : v = u := by
  cases move with
  | firstTerm free | minuend free | firstFactor free | dividend free | base free =>
    exact (operand_of_free member holds).1 free
  | secondTerm free | subtrahend free | secondFactor free | divisor free =>
    exact (operand_of_free member holds).2 free
  | timesOne one | overOne one => exact (operand_of_free member holds).1 (isOne_free one)
  | oneTimes one => exact (operand_of_free member holds).2 (isOne_free one)
  | plus | minus | radicand | logarithm => exact List.mem_singleton.mp member

theorem Move.exposed_iff (move : Move e c u c') : Exposed e ↔ Exposed u := by
  constructor
  · intro exposed
    cases exposed with
    | var name => cases move
    | left undone inner | right undone inner | sign inner | sqrt inner | ln inner =>
      rw [← move.only (by simp [Expr.children]) inner.unknowns_pos]
      exact inner
  · intro inner
    cases move with
    | firstTerm | minuend | firstFactor | timesOne | dividend | overOne => exact .left (.inl rfl) inner
    | secondTerm | subtrahend | secondFactor | oneTimes | divisor => exact .right rfl inner
    | base => exact .left (.inr rfl) inner
    | plus | minus => exact .sign inner
    | radicand => exact .sqrt inner
    | logarithm => exact .ln inner

theorem Move.obstructed_iff (move : Move e c u c') (holds : 0 < u.unknowns) :
    Obstructed e error ↔ Obstructed u error := by
  constructor
  · intro obstructed
    cases obstructed with
    | here obstacle => exact absurd obstacle (move.clear holds)
    | inside clear member holds inner =>
      rw [← move.only member holds]
      exact inner
  · exact .inside (fun other => move.clear holds) move.member holds

/-- Peeling a side succeeds exactly if its only variable is exposed, and otherwise ends with the
first obstacle. -/
theorem peel_outcome (fresh : e.Fresh) (holds : 0 < e.unknowns) (c : Expr ν) :
    ((∃ solution, (peel e c).outcome = .ok solution) ↔ e.unknowns = 1 ∧ Exposed e) ∧
      ∀ error, (peel e c).outcome = .error error ↔ Obstructed e error := by
  induction e using Expr.inductionOnChildren generalizing c with
  | node e inner =>
    rcases peel_cases fresh holds c with
      ⟨name, rfl, done⟩ | ⟨error, obstacle, stopped⟩ | ⟨u, c', move, same⟩
    · constructor
      · simp only [done, Except.ok.injEq, exists_eq', true_iff]
        exact ⟨rfl, .var name⟩
      · intro error
        simp only [done, reduceCtorEq, false_iff]
        intro obstructed
        cases obstructed with
        | here obstacle => cases obstacle
        | inside clear member => simp [Expr.children] at member
    · constructor
      · simp only [stopped, Traced.outcome_after, Traced.outcome_fail, reduceCtorEq, exists_false,
          false_iff, not_and]
        exact fun single => obstacle.hides single
      · intro other
        simp only [stopped, Traced.outcome_after, Traced.outcome_fail, Except.error.injEq]
        constructor
        · rintro rfl
          exact .here obstacle
        · intro obstructed
          cases obstructed with
          | here also => exact obstacle.unique also
          | inside clear => exact absurd obstacle (clear error)
    · have stays : 0 < u.unknowns := by rwa [← move.unknowns_left]
      have below := inner u move.member (fresh.operands move.member) stays c'
      simp only [same, Traced.outcome_after, move.unknowns_left, move.exposed_iff,
        move.obstructed_iff stays]
      exact below

/-! ## Tags -/

omit [Arithmetic ν] in
/-- Tagging exposes nothing and hides nothing. It keeps the number of arguments, and only a call with
one of them is exposed. -/
theorem exposed_tagged : Exposed e.tagged ↔ Exposed e := by
  induction e with
  | number value | atom a => exact Iff.rfl
  | binary t o l r left right =>
    constructor
    · intro exposed
      cases exposed with
      | left undone inner => exact .left undone (left.mp inner)
      | right undone inner => exact .right undone (right.mp inner)
    · intro exposed
      cases exposed with
      | left undone inner => exact .left undone (left.mpr inner)
      | right undone inner => exact .right undone (right.mpr inner)
  | unary t o u inner =>
    constructor
    · intro exposed
      cases exposed with
      | sign below => exact .sign (inner.mp below)
    · intro exposed
      cases exposed with
      | sign below => exact .sign (inner.mpr below)
  | call t f us inner =>
    constructor
    · intro exposed
      match us, exposed with
      | [u], .sqrt below => exact .sqrt ((inner u (by simp)).mp below)
      | [u], .ln below => exact .ln ((inner u (by simp)).mp below)
    · intro exposed
      cases exposed with
      | sqrt below => exact .sqrt ((inner _ (by simp)).mpr below)
      | ln below => exact .ln ((inner _ (by simp)).mpr below)
  | equality t side l r =>
    constructor
    · intro exposed
      cases exposed
    · intro exposed
      cases exposed

omit [Arithmetic ν] in
theorem obstacle_tagged : Obstacle e.tagged error ↔ Obstacle e error := by
  constructor
  · intro obstacle
    cases e with
    | number value | atom a => cases obstacle
    | binary t o l r =>
      cases obstacle with
      | both left right => exact .both (by simpa using left) (by simpa using right)
      | exponent left right => exact .exponent (by simpa using left) (by simpa using right)
      | remainder single => exact .remainder (by simpa using single)
    | unary t o u => cases obstacle
    | call t f us =>
      cases obstacle with
      | function other => exact .function (by simpa using other)
    | equality t side l r =>
      cases obstacle with
      | nested => exact .nested
  · intro obstacle
    cases obstacle with
    | both left right => exact .both (by simpa using left) (by simpa using right)
    | exponent left right => exact .exponent (by simpa using left) (by simpa using right)
    | remainder single => exact .remainder (by simpa using single)
    | function other => exact .function (by simpa using other)
    | nested => exact .nested

omit [Arithmetic ν] in
theorem obstructed_tagged : Obstructed e.tagged error ↔ Obstructed e error := by
  induction e using Expr.inductionOnChildren with
  | node e operands =>
    constructor
    · intro obstructed
      cases obstructed with
      | here obstacle => exact .here (obstacle_tagged.mp obstacle)
      | inside clear there holds inner =>
        rw [Expr.children_tagged] at there
        obtain ⟨u, member, rfl⟩ := List.mem_map.mp there
        rw [Expr.unknowns_tagged] at holds
        exact .inside (fun other obstacle => clear other (obstacle_tagged.mpr obstacle)) member holds
          ((operands u member).mp inner)
    · intro obstructed
      cases obstructed with
      | here obstacle => exact .here (obstacle_tagged.mpr obstacle)
      | @inside _ u _ clear member holds inner =>
        have there : u.tagged ∈ e.tagged.children := by
          rw [Expr.children_tagged]
          exact List.mem_map_of_mem member
        exact .inside (fun other obstacle => clear other (obstacle_tagged.mp obstacle)) there
          (by rwa [Expr.unknowns_tagged]) ((operands u member).mpr inner)

/-- What peeling does to the side of an equation that holds the variable, before it is tagged. -/
theorem peel_tagged_outcome (holds : 0 < e.unknowns) (c : Expr ν) :
    ((∃ solution, (peel e.tagged c).outcome = .ok solution) ↔ e.unknowns = 1 ∧ Exposed e) ∧
      ∀ error, (peel e.tagged c).outcome = .error error ↔ Obstructed e error := by
  have peeled := peel_outcome (Expr.fresh_tagged e) (by rwa [Expr.unknowns_tagged]) c
  simpa only [Expr.unknowns_tagged, exposed_tagged, obstructed_tagged] using peeled

omit [Arithmetic ν] in
theorem refused_neither {lhs rhs : Expr ν} (left : lhs.unknowns = 0) (right : rhs.unknowns = 0) :
    Refused lhs rhs error ↔ error = .ambiguousSide false := by
  constructor
  · intro refused
    cases refused with
    | neither => rfl
    | both | left | right => omega
  · rintro rfl
    exact .neither left right

omit [Arithmetic ν] in
theorem refused_both {lhs rhs : Expr ν} (left : 0 < lhs.unknowns) (right : 0 < rhs.unknowns) :
    Refused lhs rhs error ↔ error = .ambiguousSide true := by
  constructor
  · intro refused
    cases refused with
    | both => rfl
    | neither | left | right => omega
  · rintro rfl
    exact .both left right

omit [Arithmetic ν] in
theorem refused_left {lhs rhs : Expr ν} (left : 0 < lhs.unknowns) (right : rhs.unknowns = 0) :
    Refused lhs rhs error ↔ Obstructed lhs error := by
  constructor
  · intro refused
    cases refused with
    | left _ _ inner => exact inner
    | both | neither | right => omega
  · exact .left left right

omit [Arithmetic ν] in
theorem refused_right {lhs rhs : Expr ν} (left : lhs.unknowns = 0) (right : 0 < rhs.unknowns) :
    Refused lhs rhs error ↔ Obstructed rhs error := by
  constructor
  · intro refused
    cases refused with
    | right _ _ inner => exact inner
    | both | neither | left => omega
  · exact .right left right

omit [Arithmetic ν] in
theorem not_exposed (free : e.unknowns = 0) : ¬Exposed e := by
  intro exposed
  have holds := exposed.unknowns_pos
  omega

end Equation

open Equation

/-- Exactly which equations can be isolated. Isolating succeeds if and only if the equation holds a
single variable and only operations that can be undone lie between it and the root. It fails with
the first obstacle on the way from the root to a variable, and with nothing else. -/
theorem Expr.isolate_outcome [Arithmetic ν] (t : Tags) (side : Side) (lhs rhs : Expr ν)
    (shallow : (equality t side lhs rhs).depth ≤ maxDepth) :
    ((∃ solution, (equality t side lhs rhs).isolate.outcome = .ok solution) ↔
        (equality t side lhs rhs).unknowns = 1 ∧ (Exposed lhs ∨ Exposed rhs)) ∧
      ∀ error, (equality t side lhs rhs).isolate.outcome = .error error ↔
        Refused lhs rhs error := by
  have accepted : checkDepth (equal lhs rhs) = .ok () := if_neg (Nat.not_lt.mpr shallow)
  have left := (var_tagged lhs).trans Nat.pos_iff_ne_zero
  have right := (var_tagged rhs).trans Nat.pos_iff_ne_zero
  simp only [isolate, Equation.isolate, accepted, unknowns]
  rcases Nat.eq_zero_or_pos lhs.unknowns with leftFree | leftHolds
  · have leftTag : lhs.tagged.tags.var = false := by simpa [leftFree] using left
    rcases Nat.eq_zero_or_pos rhs.unknowns with rightFree | rightHolds
    · have rightTag : rhs.tagged.tags.var = false := by simpa [rightFree] using right
      simp [Side.ofTags, Traced.fail, leftTag, rightTag, leftFree, rightFree,
        refused_neither leftFree rightFree, eq_comm]
    · have rightTag : rhs.tagged.tags.var = true := (var_tagged rhs).mpr rightHolds
      simpa [Side.ofTags, leftTag, rightTag, leftFree, not_exposed leftFree,
        refused_right leftFree rightHolds] using peel_tagged_outcome rightHolds lhs.tagged
  · have leftTag : lhs.tagged.tags.var = true := (var_tagged lhs).mpr leftHolds
    rcases Nat.eq_zero_or_pos rhs.unknowns with rightFree | rightHolds
    · have rightTag : rhs.tagged.tags.var = false := by simpa [rightFree] using right
      simpa [Side.ofTags, leftTag, rightTag, rightFree, not_exposed rightFree,
        refused_left leftHolds rightFree] using peel_tagged_outcome leftHolds rhs.tagged
    · have rightTag : rhs.tagged.tags.var = true := (var_tagged rhs).mpr rightHolds
      have several : lhs.unknowns + rhs.unknowns ≠ 1 := by omega
      simp [Side.ofTags, Traced.fail, leftTag, rightTag, several,
        refused_both leftHolds rightHolds, eq_comm]

/-- `5 = 6 / sqrt(x)` can be isolated, and in `2 ^ (x % x) = 8` the exponent is the first obstacle,
although the operation inside could not be undone either. -/
theorem Expr.isolate_outcome_examples :
    (∃ solution, (Expr.equal (.number (.rational 5)) (.op .div (.number (.rational 6))
        (.apply .sqrt [.var "x"])) : Expr Exact).isolate.outcome = .ok solution) ∧
      (Expr.equal (.op .pow (.number (.rational 2)) (.op .mod (.var "x") (.var "x")))
        (.number (.rational 8)) : Expr Exact).isolate.outcome = .error .variableInExponent := by
  constructor
  · refine (isolate_outcome _ _ _ _ (by decide)).1.mpr ⟨rfl, .inr ?_⟩
    exact .right rfl (.sqrt (.var "x"))
  · refine ((isolate_outcome _ _ _ _ (by decide)).2 _).mpr (.left (by decide) rfl ?_)
    exact .here (.exponent rfl (by decide))

end AlgebraEngine
