import AlgebraEngine.Proofs.Number.Zeros
import AlgebraEngine.Proofs.Simplify.Formed
import AlgebraEngine.Proofs.Simplify.Making
import AlgebraEngine.Proofs.Simplify.Redex

/-! Simplifying what the text of a normal form is read as. The tree that is read differs from the
normal form in its leaves: a negative number has become a minus sign in front of its magnitude, and
variables have got a coefficient. One pass puts the numbers back together. The coefficients stay,
since a variable that had none was the last factor of a product, and with one it is no longer the
atom that rules look for there. -/
namespace AlgebraEngine

open AlgebraEngine.Expr

variable {ν : Type} [Arithmetic ν] {named : String → Prop} {alone : Bool}

namespace Expr

section Shapes

variable {g : ν → ν} {e : Expr ν} {coefficient : Bool}

theorem number?_spelled :
    (e.spelled (number ∘ g) coefficient).number? = e.number?.map g := by
  cases e with
  | atom a =>
    cases a with
    | var name => cases coefficient <;> rfl
    | const constant => rfl
  | _ => rfl

/-- Atoms are no numbers, and neither are variables with a coefficient. -/
theorem fraction?_spelled :
    (e.spelled (number ∘ g) coefficient).fraction? = e.fraction?.map (Prod.map g g) := by
  cases e with
  | atom a =>
    cases a with
    | var name => cases coefficient <;> rfl
    | const constant => rfl
  | binary t o l r =>
    cases o with
    | div =>
      cases l with
      | number n =>
        cases r with
        | atom a => cases a <;> rfl
        | _ => rfl
      | atom a => cases a <;> rfl
      | _ => rfl
    | _ => rfl
  | _ => rfl

theorem isSome_rational?_spelled :
    (Rule.rational? (e.spelled (number ∘ g) coefficient)).isSome = (Rule.rational? e).isSome := by
  simp only [Rule.rational?, number?_spelled, fraction?_spelled]
  cases e.number? with
  | some x => rfl
  | none => simp

/-- A product that ends in an atom was one before, since the variable does not end it any more. -/
theorem term?_of_spelled (formed : Formed named false e) {c' : Expr ν} {a : Atom}
    (term : (e.spelled (number ∘ g) true).term? = some (c', a)) :
    ∃ c, e.term? = some (c, a) ∧ c' = c.spelled (number ∘ g) true := by
  cases formed with
  | number value | const constant | unary operand | vector | call => cases term
  | @binary _ t o l r left right =>
    cases o with
    | mul =>
      cases r with
      | atom b =>
        cases b with
        | var name => cases term
        | const constant =>
          cases term
          exact ⟨l, rfl, rfl⟩
      | _ => cases term
    | _ => cases term

theorem isSymbolic_of_spelled
    (symbolic : Rule.isSymbolic (e.spelled (number ∘ g) coefficient) = true) :
    Rule.isSymbolic e = true := by
  cases e with
  | number value => cases symbolic
  | atom a => rfl
  | binary t o l r =>
    cases o with
    | mul =>
      cases r with
      | atom b => rfl
      | _ => cases symbolic
    | _ => cases symbolic
  | _ => cases symbolic

theorem takesSign_of_spelled (formed : Formed named false e)
    (takes : (e.spelled (number ∘ g) true).TakesSign) : e.TakesSign := by
  rw [takesSign_iff] at takes ⊢
  rcases takes with number | ⟨c', a, term, coefficient⟩ | ⟨t, o, l, r, sum, either⟩ | ⟨t, u, minus⟩
  · rw [number?_spelled, Option.isSome_map] at number
    exact .inl number
  · obtain ⟨c, before, rfl⟩ := term?_of_spelled formed term
    rw [number?_spelled, fraction?_spelled, Option.isSome_map, Option.isSome_map] at coefficient
    exact .inr (.inl ⟨c, a, before, coefficient⟩)
  · cases formed with
    | binary left right =>
      cases sum
      exact .inr (.inr (.inl ⟨_, _, _, _, rfl, either⟩))
    | _ => cases sum
  · cases formed with
    | unary operand =>
      cases minus
      exact .inr (.inr (.inr ⟨_, _, rfl⟩))
    | _ => cases minus

/-- Spelling goes on in the operands of every node but a variable, which may have got some. -/
theorem children_spelled (coefficient : Bool) (compound : ∀ name, e ≠ .var name) :
    ∃ flag, (e.spelled (number ∘ g) coefficient).children =
      e.children.map (spelled (number ∘ g) flag) := by
  cases e with
  | number value => exact ⟨true, rfl⟩
  | atom a =>
    cases a with
    | var name => exact absurd rfl (compound name)
    | const constant => exact ⟨true, rfl⟩
  | binary t o l r => exact ⟨_, rfl⟩
  | unary t o u => exact ⟨true, rfl⟩
  | call t f us => exact ⟨_, spelledList_eq _ _ us⟩
  | equality t side l r => exact ⟨true, rfl⟩

end Shapes

end Expr

/-! ## Normal forms stay normal -/

variable {e : Expr Binary64}

/-- A quotient that stays a fraction has no zero in it, so that the sign of zero does not matter. -/
theorem Rule.quotientOf_plain {n d : Binary64}
    (kept : (quotientOf n d == Expr.fraction n d) = true) :
    (quotientOf n.plain d.plain == Expr.fraction n.plain d.plain) = true := by
  by_cases zero : n.isZero = true ∨ d.isZero = true
  · have number : quotientOf n d = .number (n / d) := by
      unfold quotientOf
      rcases Binary64.quotient_of_zero zero with integer | infinite
      · simp [integer]
      · simp [infinite]
    rw [number] at kept
    cases kept
  · simp only [not_or, Bool.not_eq_true] at zero
    rwa [Binary64.plain_of_nonzero zero.1, Binary64.plain_of_nonzero zero.2]

private theorem any_isZero_plain (x : Option Binary64) :
    (x.map Binary64.plain).any Fraction.isZero = x.any Fraction.isZero := by
  cases x <;> simp [Binary64.fraction_isZero]

/-- A redex among spelled nodes was one before, as the coefficient of a variable is not zero. -/
theorem Redex.of_spelled {coefficient : Bool} (formed : Formed named alone e)
    (redex : Redex (e.spelled (number ∘ Binary64.plain) coefficient)) : Redex e := by
  cases formed with
  | number | const | vector | call => cases redex
  | var =>
    cases coefficient with
    | false => cases redex
    | true =>
      cases redex with
      | sumOfNumbers sum | sumOfFractions sum | likeTerms sum =>
        rcases sum with sum | sum <;> cases sum
      | productOfNumbers left right | productOfFractions left right => cases right
      | zeroLeft zero symbolic => exact absurd zero (by decide +kernel)
      | zeroRight symbolic zero => cases zero
  | @binary _ t o l r left right =>
    cases redex with
    | sumOfNumbers sum left' right' =>
      rw [number?_spelled, Option.isSome_map] at left' right'
      exact .sumOfNumbers sum left' right'
    | sumOfFractions sum left' right' =>
      rw [fraction?_spelled, Option.isSome_map] at left' right'
      exact .sumOfFractions sum left' right'
    | likeTerms sum left' right' =>
      have flags : decide (o = .pow) = false ∧ decide (o = .pow ∨ o = .mul) = false ∧
          decide (o ≠ .pow) = true := by
        rcases sum with rfl | rfl <;> decide
      rw [flags.1] at left
      rw [flags.2.1] at right
      rw [flags.2.2] at left' right'
      obtain ⟨c, before, -⟩ := term?_of_spelled left left'
      obtain ⟨c', before', -⟩ := term?_of_spelled right right'
      exact .likeTerms sum before before'
    | productOfNumbers left' right' =>
      rw [number?_spelled, Option.isSome_map] at left' right'
      exact .productOfNumbers left' right'
    | productOfFractions left' right' =>
      rw [fraction?_spelled, Option.isSome_map] at left' right'
      exact .productOfFractions left' right'
    | zeroLeft zero symbolic =>
      rw [number?_spelled, any_isZero_plain] at zero
      exact .zeroLeft zero (isSymbolic_of_spelled symbolic)
    | zeroRight symbolic zero =>
      rw [number?_spelled, any_isZero_plain] at zero
      exact .zeroRight (isSymbolic_of_spelled symbolic) zero
    | quotient left' right' reducible =>
      simp only [number?_spelled, Option.map_eq_some_iff] at left' right'
      obtain ⟨n, left', rfl⟩ := left'
      obtain ⟨d, right', rfl⟩ := right'
      refine .quotient left' right' (eq_false_of_ne_true fun kept => ?_)
      rw [Rule.quotientOf_plain kept] at reducible
      cases reducible
    | quotientByFraction left' right' =>
      rw [isSome_rational?_spelled] at left'
      rw [fraction?_spelled, Option.isSome_map] at right'
      exact .quotientByFraction left' right'
  | unary operand =>
    cases redex with
    | plus => exact .plus
    | minus takes => exact .minus (takesSign_of_spelled operand takes)

theorem RuleBook.keeps_spelled {coefficient : Bool} (formed : Formed named alone e)
    (fresh : e.Fresh) (keeps : RuleBook.Keeps Rule.forNode e) :
    RuleBook.Keeps Rule.forNode (e.spelled (number ∘ Binary64.plain) coefficient) :=
  RuleBook.keeps_of_not_redex fun redex => (redex.of_spelled formed).not_keeps fresh keeps

namespace Expr

/-- A variable with a coefficient is as simple as the variable alone. -/
theorem normal_spelled_var (literal : Binary64 → Expr Binary64) (coefficient : Bool)
    (name : String) : ((var name).spelled literal coefficient).Normal Rule.forNode := by
  cases coefficient with
  | false => exact normal_atom _
  | true =>
    have formed : Formed (fun _ => True) true (var name : Expr Binary64) := .var trivial
    have keeps : RuleBook.Keeps Rule.forNode ((var name).spelled (number ∘ Binary64.plain) true) :=
      RuleBook.keeps_spelled formed rfl (normal_iff.mp (normal_atom _)).1
    refine normal_iff.mpr ⟨keeps, ?_⟩
    show ∀ u ∈ [number _, var name], u.Normal Rule.forNode
    simpa using ⟨normal_number _, normal_atom _⟩

/-- What a normal form spells out is a normal form as well, if it is written without signs. -/
theorem Formed.normal_spelled (formed : Formed named alone e) (fresh : e.Fresh)
    (normal : e.Normal Rule.forNode) (coefficient : Bool) :
    (e.spelled (Expr.number ∘ Binary64.plain) coefficient).Normal Rule.forNode := by
  induction e using Expr.inductionOnChildren generalizing alone coefficient with
  | node e inner =>
    by_cases bare : ∃ name, e = .var name
    · obtain ⟨name, rfl⟩ := bare
      exact normal_spelled_var _ coefficient name
    · obtain ⟨keeps, below⟩ := normal_iff.mp normal
      obtain ⟨flag, children⟩ :=
        children_spelled (g := Binary64.plain) coefficient (not_exists.mp bare)
      refine normal_iff.mpr ⟨RuleBook.keeps_spelled formed fresh keeps, ?_⟩
      rw [children, List.forall_mem_map]
      intro u member
      obtain ⟨alone', formed'⟩ := formed.of_mem_children member
      exact inner u member formed' (fresh.operands member) (below u member) flag

/-- No rule looks at an equality. -/
theorem Whole.normal_spelled (whole : Whole named e) (fresh : e.Fresh)
    (normal : e.Normal Rule.forNode) :
    (e.spelled (number ∘ Binary64.plain) true).Normal Rule.forNode := by
  cases whole with
  | expression formed => exact formed.normal_spelled fresh normal true
  | equality left right =>
    have below := (normal_iff.mp normal).2
    simp only [children, List.forall_mem_cons, List.not_mem_nil, false_imp_iff, implies_true,
      and_true] at below
    refine normal_iff.mpr ⟨RuleBook.keeps_of_not_redex (by rintro ⟨⟩), ?_⟩
    simp only [spelled, equal, children, List.forall_mem_cons, List.not_mem_nil, false_imp_iff,
      implies_true, and_true]
    exact ⟨left.normal_spelled (fresh.operands (by simp [children])) below.1 true,
      right.normal_spelled (fresh.operands (by simp [children])) below.2 true⟩

end Expr

/-! ## One pass puts numbers together -/

/-- A minus sign in front of a number becomes part of it. -/
theorem Sweep.makes_negation (x : ν) :
    Makes Rule.forNode (.sign .minus (.number x)) (.number (-x)) := rfl

namespace Expr

theorem makes_spelled {coefficient : Bool} (finite : ∀ x ∈ e.numbers, x.isFinite = true)
    (normal : (e.spelled (number ∘ Binary64.plain) coefficient).Normal Rule.forNode) :
    Sweep.Makes Rule.forNode (e.spelled Expr.reread coefficient)
      (e.spelled (number ∘ Binary64.plain) coefficient) := by
  induction e generalizing coefficient with
  | number value =>
    rcases Binary64.reread_cases (finite value (by simp [numbers])) with ⟨read, written⟩ | read
    · simp only [spelled, read, Function.comp_apply, written]
      exact Sweep.makes_negation value.abs
    · simp only [spelled, read, Function.comp_apply] at normal ⊢
      exact Sweep.makes_of_normal normal
  | atom a => cases a <;> exact Sweep.makes_of_normal normal
  | binary t o l r left right =>
    obtain ⟨keeps, below⟩ := normal_iff.mp normal
    simp only [numbers, List.forall_mem_append] at finite
    simp only [spelled, children_op, List.forall_mem_cons] at below
    exact .op (left finite.1 below.1) (right finite.2 below.2.1) keeps
  | unary t o u inner =>
    obtain ⟨keeps, below⟩ := normal_iff.mp normal
    simp only [spelled, children_sign, List.forall_mem_cons] at below
    exact .sign (inner finite below.1) keeps
  | call t f us inner =>
    obtain ⟨keeps, below⟩ := normal_iff.mp normal
    simp only [numbers, numbersOfList_eq, List.mem_flatMap] at finite
    simp only [spelled, spelledList_eq, apply, children, List.forall_mem_map] at keeps below ⊢
    exact .apply (fun u member => inner u member (fun x deeper => finite x ⟨u, member, deeper⟩)
      (below u member)) keeps
  | equality t side l r left right =>
    obtain ⟨keeps, below⟩ := normal_iff.mp normal
    simp only [numbers, List.forall_mem_append] at finite
    simp only [spelled, equal, children, List.forall_mem_cons] at below
    exact .equal (left finite.1 below.1) (right finite.2 below.2.1) keeps

/-- Simplifying what the text of a normal form is read as gives the normal form, spelled out with
coefficients for its variables. -/
theorem Whole.tree_run_reread (whole : Whole named e) (fresh : e.Fresh)
    (normal : e.Normal Rule.forNode) (finite : ∀ x ∈ e.numbers, x.isFinite = true)
    {limit : Nat} (two : 2 ≤ limit) :
    (Simplification.run Rule.forNode limit (e.spelled Expr.reread true)).tree =
      (e.spelled (Expr.number ∘ Binary64.plain) true).tagged := by
  have settled := whole.normal_spelled fresh normal
  exact Simplification.tree_run_of_makes two (makes_spelled finite settled) settled

end Expr

end AlgebraEngine
