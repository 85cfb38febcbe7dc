import AlgebraEngine.Proofs.Expr.Measures
import AlgebraEngine.Proofs.Parser.Outcome

/-! How deep the trees are that the parser builds. It measures chains of operators, implicit products
and factorials while it builds them. Signs, powers, equalities and the other calls are put around
what has been read without being measured, so that a tree can be deeper than what is measured by as
many levels as the nesting leaves room for. -/
namespace AlgebraEngine

variable {ν : Type}

namespace Expr

/-- Leaves, and nodes that are measured when they are built. -/
def measured : Expr ν → Bool
  | number _ | atom _ => true
  | binary _ o _ _ => o != .pow
  | call _ f _ => f == .factorial
  | unary .. | equality .. => false

/-- The depth of a tree that is read where a number of levels may still be entered. A node that is
not measured stands on a level of its own, a power of a call on the same level as the call. -/
structure Nested (room : Nat) (e : Expr ν) : Prop where
  measured : e.measured = true → e.depth ≤ maxTreeDepth
  enterable : 0 < room
  depth_le : e.depth + 2 ≤ maxTreeDepth + 2 * room

/-- The depth of an operand whose parts are read where a number of levels may still be entered. -/
structure Enclosing (room : Nat) (e : Expr ν) : Prop where
  measured : e.measured = true → e.depth ≤ maxTreeDepth
  depth_le : e.depth ≤ maxTreeDepth ∨ 0 < room ∧ e.depth + 1 ≤ maxTreeDepth + 2 * room

variable {room : Nat} {e : Expr ν}

theorem Nested.of_shallow (shallow : e.depth ≤ maxTreeDepth) : e.Nested (room + 1) where
  measured _ := shallow
  enterable := Nat.succ_pos room
  depth_le := by omega

theorem Enclosing.of_shallow (shallow : e.depth ≤ maxTreeDepth) : e.Enclosing room where
  measured _ := shallow
  depth_le := .inl shallow

theorem Nested.enclosing (nested : e.Nested room) : e.Enclosing room where
  measured := nested.measured
  depth_le := .inr ⟨nested.enterable, by have bound := nested.depth_le; omega⟩

theorem Enclosing.nested (enclosing : e.Enclosing room) : e.Nested (room + 1) where
  measured := enclosing.measured
  enterable := Nat.succ_pos room
  depth_le := by rcases enclosing.depth_le with shallow | ⟨enterable, bound⟩ <;> omega

theorem Nested.outer (nested : e.Nested room) : e.Nested (room + 1) := nested.enclosing.nested

theorem Nested.sign (nested : e.Nested room) (o : UnaryOp) : (Expr.sign o e).Enclosing room where
  measured measured := absurd measured Bool.false_ne_true
  depth_le := .inr ⟨nested.enterable, by have bound := nested.depth_le; rw [depth_sign]; omega⟩

theorem Nested.apply {us : List (Expr ν)} (f : Func) (enterable : 0 < room)
    (nested : ∀ u ∈ us, u.Nested room) (unmeasured : f ≠ .factorial) :
    (Expr.apply f us).Enclosing room where
  measured measured := absurd (beq_iff_eq.mp measured) unmeasured
  depth_le := by
    have bound : (Expr.apply f us).depth ≤ maxTreeDepth + 2 * room - 2 + 1 :=
      depth_apply_le_iff.mpr fun u member => by have bound := (nested u member).depth_le; omega
    exact .inr ⟨enterable, by omega⟩

theorem Nested.power {b : Expr ν} (nested : e.Nested room) (base : b.Enclosing room) :
    (op .pow b e).Nested (room + 1) where
  measured measured := absurd measured Bool.false_ne_true
  enterable := Nat.succ_pos room
  depth_le := by
    have exponent := nested.depth_le
    have enterable := nested.enterable
    rw [depth_op]
    rcases base.depth_le with shallow | ⟨-, bound⟩ <;> omega

end Expr

namespace Parse

/-- Whatever a reader returns is as described. -/
def Builds (built : Expr ν → Prop) (read : Parse (Expr ν)) : Prop :=
  ∀ p, Outcome read p (fun e _ => built e) fun _ => True

section Loops

variable {built : Expr ν → Prop} {read : Parse (Expr ν)}
  (shallow : ∀ e : Expr ν, e.depth ≤ maxTreeDepth → built e)

include shallow

/-- The depth that a chain counts is that of the tree built so far. -/
theorem chainFrom_builds (ops : List BinaryOp) (links : Nat) (p : Parser) {lhs : Expr ν}
    (operands : Builds built read) (before : built lhs) :
    Outcome (chainFrom ops read links lhs lhs.depth) p (fun e _ => built e) fun _ => True := by
  induction links generalizing p lhs with
  | zero => exact before
  | succ links ih =>
    simp only [chainFrom, outcome_bind, outcome_operator?]
    split
    · exact before
    · rename_i o _
      simp only [outcome_bind, outcome_next, implies_true, and_true]
      intro _ _ _
      refine (operands p.advance).mono ?_
      intro rhs p' _
      simp only [outcome_checkTreeDepth, implies_true, and_true, ← Expr.depth_op o]
      intro measured
      exact ih p' (shallow _ measured)

theorem chain_builds (ops : List BinaryOp) (operands : Builds built read) :
    Builds built (chain ops read) := by
  intro p
  simp only [chain, outcome_bind, outcome_get]
  exact (operands p).mono fun lhs p' before => chainFrom_builds shallow ops _ p' operands before

theorem juxtaposedFrom_builds (links : Nat) (p : Parser) {lhs : Expr ν}
    (factors : Builds built read) (before : built lhs) :
    Outcome (juxtaposedFrom read links lhs lhs.depth) p (fun e _ => built e) fun _ => True := by
  induction links generalizing p lhs with
  | zero => exact before
  | succ links ih =>
    simp only [juxtaposedFrom, outcome_bind, outcome_peek?, outcome_ite, outcome_pure]
    refine ⟨fun _ => ?_, fun _ => before⟩
    refine (factors p).mono ?_
    intro rhs p' _
    simp only [outcome_checkTreeDepth, implies_true, and_true, ← Expr.depth_op .mul]
    intro measured
    exact ih p' (shallow _ measured)

theorem withCoefficient_built [Arithmetic ν] {e : Expr ν} (before : built e) :
    built (withCoefficient e) := by
  unfold withCoefficient
  split
  · refine shallow _ ?_
    rw [Expr.depth_op, Expr.depth_number, Expr.var, Expr.depth_atom]
    decide
  · exact before

theorem juxtaposed_builds [Arithmetic ν] (factors : Builds built read) :
    Builds built (juxtaposed read) := by
  intro p
  simp only [juxtaposed, outcome_bind, outcome_get]
  exact (factors p).mono fun lhs p' before =>
    juxtaposedFrom_builds shallow _ p' factors (withCoefficient_built shallow before)

theorem factorialsFrom_builds (marks : Nat) (p : Parser) {e : Expr ν} (before : built e) :
    Outcome (factorialsFrom marks e e.depth) p (fun e _ => built e) fun _ => True := by
  induction marks generalizing p e with
  | zero => exact before
  | succ marks ih =>
    simp only [factorialsFrom, outcome_bind, outcome_peek?, outcome_ite, outcome_pure,
      outcome_checkTreeDepth, outcome_advance, implies_true, and_true,
      ← Expr.depth_apply_singleton .factorial]
    exact ⟨fun _ measured => ih p.advance (shallow _ measured), fun _ => before⟩

theorem factorials_builds (p : Parser) {e : Expr ν} (before : built e) :
    Outcome (factorials e) p (fun e _ => built e) fun _ => True := by
  simp only [factorials, outcome_bind, outcome_get]
  exact factorialsFrom_builds shallow _ p before

theorem literal_builds [Numeral ν] : Builds built (literal (ν := ν)) := by
  have leaf (e : Expr ν) (single : e.depth = 1) : built e := shallow e (by rw [single]; decide)
  intro p
  simp only [literal, outcome_bind, outcome_next, implies_true, and_true]
  intro token _ _
  split
  · exact leaf _ (Expr.depth_number _)
  · exact leaf _ (Expr.depth_atom _)
  · exact leaf _ (Expr.depth_atom _)
  · simp only [outcome_bind, outcome_useVariable, outcome_pure, implies_true, and_true]
    exact ⟨fun _ => leaf _ (Expr.depth_atom _), fun _ _ _ => leaf _ (Expr.depth_atom _)⟩
  · trivial

end Loops

end Parse

namespace Grammar

open Parse

variable {inner : Grammar ν} {room : Nat}

/-- Every part of a grammar builds trees that fit a number of levels. -/
structure Builds (room : Nat) (grammar : Grammar ν) : Prop where
  sum : Parse.Builds (Expr.Nested room) grammar.sum
  juxtaposition : Parse.Builds (Expr.Nested room) grammar.juxtaposition
  power : Parse.Builds (Expr.Nested room) grammar.power
  signed : Parse.Builds (Expr.Nested room) grammar.signed

theorem parenthesized_builds (builds : Builds room inner) :
    Parse.Builds (Expr.Enclosing room) (parenthesized inner) := by
  intro p
  simp only [parenthesized, outcome_bind, outcome_next, outcome_peek?, outcome_ite, outcome_get,
    outcome_failAt, outcome_pure, outcome_close, implies_true, true_and, and_true]
  intro _ _ _ _
  exact (builds.sum p.advance).mono fun e p' nested _ => nested.enclosing

theorem application_builds (builds : Builds room inner) {f : Func} (unmeasured : f ≠ .factorial) :
    Parse.Builds (Expr.Enclosing room) (application inner f) := by
  intro p
  simp only [application, outcome_bind, outcome_next, outcome_attempt, outcome_expect,
    outcome_close, outcome_pure, implies_true, and_true]
  intro _ _ _ _ _ _ _
  refine (builds.sum p.advance.advance).mono ?_
  intro e p' nested _
  exact Expr.Nested.apply f nested.enterable (by simpa using nested) unmeasured

theorem components_build (builds : Builds room inner) (count : Nat) (p : Parser) :
    Outcome (components inner count) p (fun us _ => ∀ u ∈ us, u.Nested room) fun _ => True := by
  induction count generalizing p with
  | zero => simp [components]
  | succ count ih =>
    simp only [components, outcome_bind, outcome_peek?, outcome_ite, outcome_advance, outcome_pure]
    refine ⟨fun _ => ?_, fun _ => by simp⟩
    refine (builds.sum p.advance).mono ?_
    intro e p' nested
    refine (ih p').mono ?_
    intro us p'' behind
    simpa using ⟨nested, behind⟩

theorem vector_builds (builds : Builds room inner) :
    Parse.Builds (Expr.Enclosing room) (vector inner) := by
  intro p
  simp only [vector, outcome_bind, outcome_next, outcome_peek?, outcome_ite, outcome_get,
    outcome_failAt, outcome_pure, outcome_close, implies_true, true_and, and_true]
  intro _ _ _ _
  refine (builds.sum p.advance).mono ?_
  intro e p' nested
  refine (components_build builds _ p').mono ?_
  intro us p'' behind _
  exact Expr.Nested.apply .vector nested.enterable (by simpa using ⟨nested, behind⟩) (by decide)

variable [Numeral ν]

theorem primary_builds (builds : Builds room inner) (kind : TokenKind) :
    Parse.Builds (Expr.Enclosing room) (primary inner kind) := by
  unfold primary
  split
  · exact parenthesized_builds builds
  · exact vector_builds builds
  · intro p
    simp
  · intro p
    simp
  · split
    · rename_i f function
      refine application_builds builds ?_
      rintro rfl
      cases kind <;> cases function
    · exact literal_builds fun _ => .of_shallow

theorem operand_builds (builds : Builds room inner) :
    Parse.Builds (Expr.Enclosing room) (operand inner) := by
  intro p
  simp only [operand, outcome_bind, outcome_peek?]
  split
  · simp
  · rename_i kind _
    split
    · rename_i o _
      simp only [outcome_bind, outcome_advance, outcome_pure]
      exact (builds.signed p.advance).mono fun e p' nested => nested.sign o
    · simp only [outcome_bind]
      exact (primary_builds builds kind p).mono fun e p' primary =>
        factorials_builds (fun _ => .of_shallow) p' primary

theorem raised_builds (builds : Builds room inner) :
    Parse.Builds (Expr.Nested (room + 1)) (raised inner) := by
  intro p
  simp only [raised, outcome_bind, outcome_peek?, outcome_ite, outcome_advance, outcome_pure]
  refine (operand_builds builds p).mono ?_
  intro b p' base
  refine ⟨fun _ => ?_, fun _ => base.nested⟩
  exact (builds.power p'.advance).mono fun e p'' exponent => exponent.power base

theorem enclosing_builds (builds : Builds room inner) : Builds (room + 1) (enclosing inner) where
  sum := chain_builds (fun _ => .of_shallow) _ <| chain_builds (fun _ => .of_shallow) _ <|
    chain_builds (fun _ => .of_shallow) _ <| juxtaposed_builds (fun _ => .of_shallow) <|
      raised_builds builds
  juxtaposition := juxtaposed_builds (fun _ => .of_shallow) (raised_builds builds)
  power := raised_builds builds
  signed := fun p => (builds.juxtaposition p).mono fun _ _ nested => nested.outer

/-- Where no level is left nothing is built, and each level adds at most two nodes that are not
measured to what is built inside it. -/
theorem within_builds (room : Nat) : Builds room (within (ν := ν) room) := by
  induction room with
  | zero =>
    exact {
      sum := by intro p; simp [within, refused]
      juxtaposition := by intro p; simp [within, refused]
      power := by intro p; simp [within, refused]
      signed := by intro p; simp [within, refused] }
  | succ room ih => exact enclosing_builds ih

end Grammar

theorem Parse.equation_builds {grammar : Grammar ν} {room : Nat} (builds : grammar.Builds room) :
    Parse.Builds (fun e => (e.measured = true → e.depth ≤ maxTreeDepth) ∧
      e.depth < maxTreeDepth + 2 * room) (equation grammar) := by
  intro p
  simp only [equation, outcome_bind, outcome_peek?, outcome_ite, outcome_advance, outcome_pure]
  refine (builds.sum p).mono ?_
  intro l p' left
  have bound := left.depth_le
  refine ⟨fun _ => ?_, fun _ => ⟨left.measured, by omega⟩⟩
  refine (builds.sum p'.advance).mono ?_
  intro r p'' right
  have bound' := right.depth_le
  refine ⟨fun measured => absurd measured Bool.false_ne_true, ?_⟩
  rw [Expr.depth_equal]
  omega

theorem Parse.complete_builds [Numeral ν] (source : String) :
    Outcome (complete (expression (ν := ν))) (.ofSource source)
      (fun e _ => (e.measured = true → e.depth ≤ maxTreeDepth) ∧
        e.depth < maxTreeDepth + 2 * maxNesting) fun _ => True := by
  simp only [outcome_complete, expression, outcome_bind, outcome_get, implies_true, and_true]
  exact (equation_builds (Grammar.within_builds _) _).mono fun e p built _ => built

/-- A tree that a source denotes is as deep as is measured, if its root is measured, and deeper by
less than two levels for each level of nesting in any case. -/
theorem Expr.depth_of_parse [Numeral ν] {source : String} {e : Expr ν}
    (parsed : Expr.parse source = .ok e) :
    (e.measured = true → e.depth ≤ maxTreeDepth) ∧ e.depth < maxTreeDepth + 2 * maxNesting :=
  (Parse.complete_builds source).of_parse parsed

end AlgebraEngine
