import AlgebraEngine.Proofs.Simplify.Freshness
import AlgebraEngine.Proofs.Simplify.NormalForm

/-! The nodes that rules change, by what their operands look like. The list says the same as the
rule table does, but without the order of the rules and without caches, so that it can be compared
between trees of similar shape. -/
namespace AlgebraEngine

variable {ν : Type}

namespace Expr

variable (e : Expr ν)

@[simp] theorem number?_tagged : e.tagged.number? = e.number? := by
  cases e <;> rfl

@[simp] theorem atom?_tagged : e.tagged.atom? = e.atom? := by
  cases e <;> rfl

@[simp] theorem fraction?_tagged : e.tagged.fraction? = e.fraction? := by
  cases e with
  | binary t o l r =>
    cases o with
    | div => cases l <;> cases r <;> rfl
    | _ => rfl
  | _ => rfl

@[simp] theorem term?_tagged : e.tagged.term? = e.term?.map fun p => (p.1.tagged, p.2) := by
  cases e with
  | binary t o l r =>
    cases o with
    | mul => cases r <;> rfl
    | _ => rfl
  | _ => rfl

@[simp] theorem isSymbolic_tagged : Rule.isSymbolic e.tagged = Rule.isSymbolic e := by
  simp [Rule.isSymbolic]

@[simp] theorem rational?_tagged [Arithmetic ν] : Rule.rational? e.tagged = Rule.rational? e := by
  simp [Rule.rational?]

variable {e}

theorem isSome_number? : e.number?.isSome = true ↔ ∃ x, e = .number x := by
  cases e <;> simp [number?]

theorem isSome_fraction? : e.fraction?.isSome = true ↔
    ∃ t n d, e = .binary t .div (.number n) (.number d) := by
  constructor
  · intro found
    obtain ⟨⟨n, d⟩, found⟩ := Option.isSome_iff_exists.mp found
    obtain ⟨t, rfl⟩ := fraction?_eq_some found
    exact ⟨t, n, d, rfl⟩
  · rintro ⟨t, n, d, rfl⟩
    rfl

/-- What a minus sign moves into, by the shapes that the rules look for. -/
theorem takesSign_iff : e.TakesSign ↔ e.number?.isSome = true ∨
    (∃ c a, e.term? = some (c, a) ∧ (c.number?.isSome = true ∨ c.fraction?.isSome = true)) ∨
    (∃ t o l r, e = .binary t o l r ∧ (o = .add ∨ o = .sub)) ∨ ∃ t u, e = .unary t .minus u := by
  constructor
  · rintro (_ | _ | _ | ⟨t, l, r⟩ | ⟨t, l, r⟩ | ⟨t, u⟩)
    · exact .inl rfl
    · exact .inr (.inl ⟨_, _, rfl, .inl rfl⟩)
    · exact .inr (.inl ⟨_, _, rfl, .inr rfl⟩)
    · exact .inr (.inr (.inl ⟨t, _, l, r, rfl, .inl rfl⟩))
    · exact .inr (.inr (.inl ⟨t, _, l, r, rfl, .inr rfl⟩))
    · exact .inr (.inr (.inr ⟨t, u, rfl⟩))
  · rintro (number | ⟨c, a, term, number | fraction⟩ | ⟨t, o, l, r, rfl, rfl | rfl⟩ | ⟨t, u, rfl⟩)
    · obtain ⟨x, rfl⟩ := isSome_number?.mp number
      exact .number x
    · obtain ⟨t, rfl⟩ := term?_eq_some term
      obtain ⟨x, rfl⟩ := isSome_number?.mp number
      exact .term t x a
    · obtain ⟨t, rfl⟩ := term?_eq_some term
      obtain ⟨s, n, d, rfl⟩ := isSome_fraction?.mp fraction
      exact .fractionTerm t s n d a
    · exact .sum t l r
    · exact .difference t l r
    · exact .minus t u

end Expr

open AlgebraEngine.Expr Arithmetic

variable [Arithmetic ν]

/-- A node that the rules change. -/
inductive Redex : Expr ν → Prop where
  | sumOfNumbers {t o l r} (sum : o = .add ∨ o = .sub) (left : l.number?.isSome = true)
      (right : r.number?.isSome = true) : Redex (.binary t o l r)
  | sumOfFractions {t o l r} (sum : o = .add ∨ o = .sub) (left : l.fraction?.isSome = true)
      (right : r.fraction?.isSome = true) : Redex (.binary t o l r)
  | likeTerms {t o l r c c' a} (sum : o = .add ∨ o = .sub) (left : l.term? = some (c, a))
      (right : r.term? = some (c', a)) : Redex (.binary t o l r)
  | productOfNumbers {t l r} (left : l.number?.isSome = true) (right : r.number?.isSome = true) :
      Redex (.binary t .mul l r)
  | productOfFractions {t l r} (left : l.fraction?.isSome = true)
      (right : r.fraction?.isSome = true) : Redex (.binary t .mul l r)
  | zeroLeft {t l r} (zero : l.number?.any Fraction.isZero = true)
      (symbolic : Rule.isSymbolic r = true) : Redex (.binary t .mul l r)
  | zeroRight {t l r} (symbolic : Rule.isSymbolic l = true)
      (zero : r.number?.any Fraction.isZero = true) : Redex (.binary t .mul l r)
  | quotient {t l r n d} (left : l.number? = some n) (right : r.number? = some d)
      (reducible : (Rule.quotientOf n d == Expr.fraction n d) = false) : Redex (.binary t .div l r)
  | quotientByFraction {t l r} (left : (Rule.rational? l).isSome = true)
      (right : r.fraction?.isSome = true) : Redex (.binary t .div l r)
  | plus {t u} : Redex (.unary t .plus u)
  | minus {t u} (takes : u.TakesSign) : Redex (.unary t .minus u)

variable {e after : Expr ν} {step : Step}

/-- The rules add numbers to numbers only: if a sum is a redex, both operands are numbers or neither
of them is. -/
theorem Redex.number_iff {t : Tags} {o : BinaryOp} {l r : Expr ν} (redex : Redex (.binary t o l r))
    (sum : o = .add ∨ o = .sub) : l.number?.isSome = true ↔ r.number?.isSome = true := by
  cases redex with
  | sumOfNumbers _ left right => exact iff_of_true left right
  | sumOfFractions _ left right =>
    obtain ⟨s, n, d, rfl⟩ := isSome_fraction?.mp left
    obtain ⟨s', n', d', rfl⟩ := isSome_fraction?.mp right
    exact Iff.rfl
  | likeTerms _ left right =>
    obtain ⟨s, rfl⟩ := term?_eq_some left
    obtain ⟨s', rfl⟩ := term?_eq_some right
    exact Iff.rfl
  | productOfNumbers | productOfFractions | zeroLeft | zeroRight | quotient | quotientByFraction =>
    rcases sum with sum | sum <;> cases sum

/-- Whether a node is a redex does not depend on what it caches. -/
theorem Redex.of_tagged (redex : Redex e.tagged) : Redex e := by
  cases e with
  | number value | atom a | call t f us | equality t side l r => cases redex
  | binary t o l r =>
    cases redex with
    | sumOfNumbers sum left right =>
      rw [number?_tagged] at left right
      exact .sumOfNumbers sum left right
    | sumOfFractions sum left right =>
      rw [fraction?_tagged] at left right
      exact .sumOfFractions sum left right
    | likeTerms sum left right =>
      simp only [term?_tagged, Option.map_eq_some_iff, Prod.exists, Prod.mk.injEq] at left right
      obtain ⟨c, a, left, -, rfl⟩ := left
      obtain ⟨c', _, right, -, rfl⟩ := right
      exact .likeTerms sum left right
    | productOfNumbers left right =>
      rw [number?_tagged] at left right
      exact .productOfNumbers left right
    | productOfFractions left right =>
      rw [fraction?_tagged] at left right
      exact .productOfFractions left right
    | zeroLeft zero symbolic =>
      rw [number?_tagged] at zero
      rw [isSymbolic_tagged] at symbolic
      exact .zeroLeft zero symbolic
    | zeroRight symbolic zero =>
      rw [number?_tagged] at zero
      rw [isSymbolic_tagged] at symbolic
      exact .zeroRight symbolic zero
    | quotient left right reducible =>
      rw [number?_tagged] at left right
      exact .quotient left right reducible
    | quotientByFraction left right =>
      rw [rational?_tagged] at left
      rw [fraction?_tagged] at right
      exact .quotientByFraction left right
  | unary t o u =>
    cases redex with
    | plus => exact .plus
    | minus takes =>
      refine .minus ?_
      rw [takesSign_iff] at takes ⊢
      rcases takes with number | ⟨c, a, term, coefficient⟩ | ⟨s, o, l, r, sum, either⟩ |
        ⟨s, v, minus⟩
      · exact .inl (by rwa [number?_tagged] at number)
      · simp only [term?_tagged, Option.map_eq_some_iff, Prod.exists, Prod.mk.injEq] at term
        obtain ⟨c, a, term, rfl, rfl⟩ := term
        rw [number?_tagged, fraction?_tagged] at coefficient
        exact .inr (.inl ⟨c, a, term, coefficient⟩)
      · cases u <;> cases sum
        exact .inr (.inr (.inl ⟨_, _, _, _, rfl, either⟩))
      · cases u <;> cases minus
        exact .inr (.inr (.inr ⟨_, _, rfl⟩))

/-! ## Redexes are changed -/

namespace Rule

theorem make_beq {n d : ν} {t : Tags} {o : BinaryOp} {l r : Expr ν}
    (compound : o = .div → r.number? = none) : (Fraction.make n d == .binary t o l r) = false := by
  refine make_elim (P := fun e => (e == .binary t o l r) = false) ?_ ?_ n d
  · intro x
    rfl
  · intro n' d'
    show (BinaryOp.div == o && Expr.number n' == l && Expr.number d' == r) = false
    by_cases quotient : o = .div
    · have other := compound quotient
      cases r with
      | number value => cases other
      | _ => exact Bool.and_false _
    · have differs : (BinaryOp.div == o) = false := by
        simpa using Ne.symm quotient
      rw [differs]
      rfl

private theorem not_keeps_of_first? (fresh : e.Fresh)
    (first : RuleBook.first? forNode e = some (step, after)) (differs : (after == e) = false) :
    ¬ RuleBook.Keeps forNode e := by
  intro keeps
  have same := fresh.keeps_iff.mp keeps _ _ first
  rw [differs] at same
  cases same

/-- Terms with one atom are combined, since tags that are fresh record it for both. -/
theorem first?_likeTerms {t : Tags} {o : BinaryOp} {l r c c' : Expr ν} {a : Atom}
    (sum : o = .add ∨ o = .sub) (left : l.term? = some (c, a)) (right : r.term? = some (c', a))
    (fresh : (Expr.binary t o l r).Fresh) :
    RuleBook.first? forNode (.binary t o l r) =
      some (.combineLikeTerms, .op .mul (.op o c c') (.atom a)) := by
  have applies := (combineLikeTerms_isSome_iff fresh).mpr ⟨c, c', a, left, right⟩
  obtain ⟨s, rfl⟩ := Expr.term?_eq_some left
  obtain ⟨s', rfl⟩ := Expr.term?_eq_some right
  have combines : combineLikeTerms (.binary t o (.binary s .mul c (.atom a))
      (.binary s' .mul c' (.atom a))) = some (.op .mul (.op o c c') (.atom a)) := by
    simp only [combineLikeTerms, Expr.term?, Option.bind_eq_bind, Option.bind_some] at applies ⊢
    split at applies
    · rename_i shared
      rw [if_pos shared]
    · cases applies
  rcases sum with rfl | rfl <;>
    simp [RuleBook.first?, forNode, sumRules, foldSum, addFractions, keepApart, combines, number?,
      fraction?]

/-- No rule for products comes before the one that multiplies an atom or a term by zero. -/
theorem first?_zero {t : Tags} {l r : Expr ν}
    (zero : l.number?.any Fraction.isZero = true ∧ isSymbolic r = true ∨
      isSymbolic l = true ∧ r.number?.any Fraction.isZero = true) :
    RuleBook.first? forNode (.binary t .mul l r) =
      some (.multiplyByZero, .number (Arithmetic.ofInt 0)) := by
  have compound {u : Expr ν} (symbolic : isSymbolic u = true) :
      u.number? = none ∧ u.fraction? = none := by
    cases u with
    | number value => cases symbolic
    | binary s o v w =>
      cases o with
      | div => cases symbolic
      | _ => exact ⟨rfl, rfl⟩
    | _ => exact ⟨rfl, rfl⟩
  have multiplies : multiplyByZero (.binary t .mul l r) = some (.number (Arithmetic.ofInt 0)) := by
    simpa only [multiplyByZero, Bool.or_eq_true, Bool.and_eq_true, ite_eq_left_iff, reduceCtorEq,
      imp_false, not_not] using zero
  rcases zero with ⟨-, symbolic⟩ | ⟨symbolic, -⟩ <;>
    simp [RuleBook.first?, forNode, productRules, foldProduct, multiplyFractions, multiplies,
      compound symbolic]

end Rule

open Rule in
/-- The rules change a redex. -/
theorem Redex.not_keeps (redex : Redex e) (fresh : e.Fresh) :
    ¬ RuleBook.Keeps Rule.forNode e := by
  cases redex with
  | sumOfNumbers sum left right =>
    obtain ⟨x, rfl⟩ := isSome_number?.mp left
    obtain ⟨y, rfl⟩ := isSome_number?.mp right
    rcases sum with rfl | rfl <;> exact not_keeps_of_first? fresh rfl rfl
  | sumOfFractions sum left right =>
    obtain ⟨s, n, d, rfl⟩ := isSome_fraction?.mp left
    obtain ⟨s', n', d', rfl⟩ := isSome_fraction?.mp right
    rcases sum with rfl | rfl <;> exact not_keeps_of_first? fresh rfl (make_beq nofun)
  | likeTerms sum left right =>
    refine not_keeps_of_first? fresh (first?_likeTerms sum left right fresh) ?_
    rcases sum with rfl | rfl <;> rfl
  | productOfNumbers left right =>
    obtain ⟨x, rfl⟩ := isSome_number?.mp left
    obtain ⟨y, rfl⟩ := isSome_number?.mp right
    exact not_keeps_of_first? fresh rfl rfl
  | productOfFractions left right =>
    obtain ⟨s, n, d, rfl⟩ := isSome_fraction?.mp left
    obtain ⟨s', n', d', rfl⟩ := isSome_fraction?.mp right
    exact not_keeps_of_first? fresh rfl (make_beq nofun)
  | zeroLeft zero symbolic =>
    exact not_keeps_of_first? fresh (first?_zero (.inl ⟨zero, symbolic⟩)) rfl
  | zeroRight symbolic zero =>
    exact not_keeps_of_first? fresh (first?_zero (.inr ⟨symbolic, zero⟩)) rfl
  | @quotient t l r n d left right reducible =>
    obtain rfl := number?_eq_some left
    obtain rfl := number?_eq_some right
    exact not_keeps_of_first? fresh (first?_quotient t n d) (by rw [beq_binary]; exact reducible)
  | @quotientByFraction t l r left right =>
    obtain ⟨⟨n, d⟩, left⟩ := Option.isSome_iff_exists.mp left
    obtain ⟨s', n', d', rfl⟩ := isSome_fraction?.mp right
    have first : RuleBook.first? forNode
        (.binary t .div l (.binary s' .div (.number n') (.number d'))) =
          some (.multiplyByReciprocal, Fraction.make (n * d') (d * n')) := by
      simp [RuleBook.first?, forNode, quotientRules, divideNumbers, divideByFraction, left, number?,
        fraction?]
    exact not_keeps_of_first? fresh first (make_beq fun _ => rfl)
  | plus => exact not_keeps_plus fresh
  | minus takes => exact not_keeps_minus takes fresh

/-- Nothing but a redex is changed by the rules. -/
theorem Rule.redex_of_fires [ReflBEq ν] (fires : Fires step e after)
    (differs : (after == e) = false) : Redex e := by
  cases fires with
  | foldSum sum => exact .sumOfNumbers sum rfl rfl
  | addFractions sum => exact .sumOfFractions sum rfl rfl
  | keepApart =>
    rw [BEq.rfl] at differs
    cases differs
  | combineLikeTerms sum => exact .likeTerms sum rfl rfl
  | foldProduct => exact .productOfNumbers rfl rfl
  | multiplyFractions => exact .productOfFractions rfl rfl
  | zeroLeft zero symbolic => exact .zeroLeft (by simpa [number?] using zero) symbolic
  | zeroRight zero symbolic => exact .zeroRight symbolic (by simpa [number?] using zero)
  | divideNumbers =>
    rw [beq_binary] at differs
    exact .quotient rfl rfl differs
  | divideByFraction rational => exact .quotientByFraction (by rw [rational]; rfl) rfl
  | removePlus => exact .plus
  | negateConstant => exact .minus (.number _)
  | negateCoefficient => exact .minus (.term _ _ _)
  | negateFraction => exact .minus (.fractionTerm _ _ _ _ _)
  | negateSum => exact .minus (.sum _ _ _)
  | negateDifference => exact .minus (.difference _ _ _)
  | cancelNegations => exact .minus (.minus _ _)

/-- The rules leave everything but redexes alone. -/
theorem RuleBook.keeps_of_not_redex [ReflBEq ν] (other : ¬ Redex e) :
    RuleBook.Keeps Rule.forNode e := by
  intro step after first
  by_contra differs
  have redex := Rule.redex_of_fires (Rule.fires_of_first? first) (eq_false_of_ne_true differs)
  exact other redex.of_tagged

/-- A sum is simple if its operands are and just one of them is a number. -/
theorem Expr.normal_sum_apart [ReflBEq ν] {o : BinaryOp} {l r : Expr ν} (sum : o = .add ∨ o = .sub)
    (left : l.Normal Rule.forNode) (right : r.Normal Rule.forNode)
    (apart : ¬ (l.number?.isSome = true ↔ r.number?.isSome = true)) :
    (op o l r).Normal Rule.forNode := by
  have keeps : RuleBook.Keeps Rule.forNode (op o l r) :=
    RuleBook.keeps_of_not_redex fun redex => apart (redex.number_iff sum)
  refine normal_iff.mpr ⟨keeps, ?_⟩
  have operands := And.intro left right
  simpa using operands

end AlgebraEngine
