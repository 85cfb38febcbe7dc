import AlgebraEngine.Proofs.Simplify.Derivation

/-! What each rule can do to a node, one case for each rule, with the shapes it looks for written
out. Every property of the rule table is proved by cases on this relation, and not by opening the
rules again. -/
namespace AlgebraEngine

variable {ν : Type}

namespace Expr

theorem number?_eq_some {e : Expr ν} {x : ν} (found : e.number? = some x) : e = .number x := by
  cases e <;> simp_all [number?]

theorem fraction?_eq_some {e : Expr ν} {n d : ν} (found : e.fraction? = some (n, d)) :
    ∃ t, e = .binary t .div (.number n) (.number d) := by
  unfold fraction? at found
  split at found
  · cases found
    exact ⟨_, rfl⟩
  · cases found

theorem term?_eq_some {e c : Expr ν} {a : Atom} (found : e.term? = some (c, a)) :
    ∃ t, e = .binary t .mul c (.atom a) := by
  unfold term? at found
  split at found
  · cases found
    exact ⟨_, rfl⟩
  · cases found

end Expr

/-- The first rule that applies is a rule of the node's group. -/
theorem RuleBook.mem_of_first? {book : RuleBook ν} {e after : Expr ν} {step : Step}
    (first : book.first? e = some (step, after)) :
    ∃ rule ∈ book e, rule.step = step ∧ rule.rewrite? e = some after := by
  obtain ⟨rule, member, applies⟩ := List.exists_of_findSome?_eq_some first
  obtain ⟨result, rewrites, same⟩ := Option.map_eq_some_iff.mp applies
  cases same
  exact ⟨rule, member, rfl, rewrites⟩

namespace Rule

open Arithmetic

variable [Arithmetic ν]

/-- What the division of two numbers leaves: their quotient, or a fraction in lowest terms where the
quotient of two integers is finite and no integer. -/
def quotientOf (n d : ν) : Expr ν :=
  if !isInteger n || !isInteger d || isInteger (n / d) || !isFinite (n / d) then .number (n / d)
  else Fraction.reduce n d

/-- What holds of numbers and of quotients of numbers holds of a fraction that is made. -/
theorem make_elim {P : Expr ν → Prop} (number : ∀ x, P (.number x))
    (fraction : ∀ n d, P (.fraction n d)) (n d : ν) : P (Fraction.make n d) := by
  unfold Fraction.make
  dsimp only
  split
  · exact number _
  · split <;> exact fraction _ _

theorem quotientOf_elim {P : Expr ν → Prop} (number : ∀ x, P (.number x))
    (fraction : ∀ n d, P (.fraction n d)) (n d : ν) : P (quotientOf n d) := by
  unfold quotientOf Fraction.reduce
  split
  · exact number _
  · dsimp only
    split <;> exact make_elim number fraction _ _

/-- A step that the rules take at a node, and what it leaves there. -/
inductive Fires : Step → Expr ν → Expr ν → Prop where
  | foldSum {t o x y} (sum : o = .add ∨ o = .sub) :
      Fires .foldConstants (.binary t o (.number x) (.number y)) (.number (sumOf o x y))
  | addFractions {t o s n d s' n' d'} (sum : o = .add ∨ o = .sub) :
      Fires .combineFractions
        (.binary t o (.binary s .div (.number n) (.number d))
          (.binary s' .div (.number n') (.number d')))
        (Fraction.make (sumOf o (n * (Fraction.lcm d d' / d)) (n' * (Fraction.lcm d d' / d')))
          (Fraction.lcm d d'))
  | keepApart {t o l r} : Fires .keepApart (.binary t o l r) (.binary t o l r)
  | combineLikeTerms {t o s c s' c' a} (sum : o = .add ∨ o = .sub) :
      Fires .combineLikeTerms
        (.binary t o (.binary s .mul c (.atom a)) (.binary s' .mul c' (.atom a)))
        (.op .mul (.op o c c') (.atom a))
  | foldProduct {t x y} :
      Fires .foldConstants (.binary t .mul (.number x) (.number y)) (.number (x * y))
  | multiplyFractions {t s n d s' n' d'} :
      Fires .combineFractions
        (.binary t .mul (.binary s .div (.number n) (.number d))
          (.binary s' .div (.number n') (.number d')))
        (Fraction.make (n * n') (d * d'))
  | zeroLeft {t x r} (zero : Fraction.isZero x = true) (symbolic : isSymbolic r = true) :
      Fires .multiplyByZero (.binary t .mul (.number x) r) (.number (ofInt 0))
  | zeroRight {t x l} (zero : Fraction.isZero x = true) (symbolic : isSymbolic l = true) :
      Fires .multiplyByZero (.binary t .mul l (.number x)) (.number (ofInt 0))
  | divideNumbers {t n d} :
      Fires .divideNumbers (.binary t .div (.number n) (.number d)) (quotientOf n d)
  | divideByFraction {t l n d s n' d'} (rational : rational? l = some (n, d)) :
      Fires .multiplyByReciprocal
        (.binary t .div l (.binary s .div (.number n') (.number d')))
        (Fraction.make (n * d') (d * n'))
  | removePlus {t u} : Fires .removePlus (.unary t .plus u) u
  | negateConstant {t x} : Fires .negateConstant (.unary t .minus (.number x)) (.number (-x))
  | negateCoefficient {t s x a} :
      Fires .negateCoefficient (.unary t .minus (.binary s .mul (.number x) (.atom a)))
        (.op .mul (.number (-x)) (.atom a))
  | negateFraction {t s s' n d a} :
      Fires .negateFraction
        (.unary t .minus (.binary s .mul (.binary s' .div (.number n) (.number d)) (.atom a)))
        (.op .mul (.fraction (-n) d) (.atom a))
  | negateSum {t s l r} :
      Fires .distributeNegation (.unary t .minus (.binary s .add l r))
        (.op .sub (.sign .minus l) r)
  | negateDifference {t s l r} :
      Fires .distributeNegation (.unary t .minus (.binary s .sub l r))
        (.op .add (.sign .minus l) r)
  | cancelNegations {t s u} : Fires .cancelNegations (.unary t .minus (.unary s .minus u)) u

variable {t : Tags} {o : BinaryOp} {l r u after : Expr ν}

private theorem foldSum_fires (sum : o = .add ∨ o = .sub)
    (applies : foldSum (.binary t o l r) = some after) :
    Fires .foldConstants (.binary t o l r) after := by
  simp only [foldSum, Option.pure_def, Option.bind_eq_bind, Option.bind_eq_some_iff,
    Option.some.injEq] at applies
  obtain ⟨x, left, y, right, rfl⟩ := applies
  rw [Expr.number?_eq_some left, Expr.number?_eq_some right]
  exact .foldSum sum

private theorem addFractions_fires (sum : o = .add ∨ o = .sub)
    (applies : addFractions (.binary t o l r) = some after) :
    Fires .combineFractions (.binary t o l r) after := by
  simp only [addFractions, Option.pure_def, Option.bind_eq_bind, Option.bind_eq_some_iff,
    Option.some.injEq] at applies
  obtain ⟨⟨n, d⟩, left, ⟨n', d'⟩, right, rfl⟩ := applies
  obtain ⟨s, rfl⟩ := Expr.fraction?_eq_some left
  obtain ⟨s', rfl⟩ := Expr.fraction?_eq_some right
  exact .addFractions sum

private theorem keepApart_fires (applies : keepApart (.binary t o l r) = some after) :
    Fires .keepApart (.binary t o l r) after := by
  simp only [keepApart] at applies
  split at applies
  · cases applies
    exact .keepApart
  · cases applies

private theorem combineLikeTerms_fires (sum : o = .add ∨ o = .sub)
    (applies : combineLikeTerms (.binary t o l r) = some after) :
    Fires .combineLikeTerms (.binary t o l r) after := by
  simp only [combineLikeTerms, Option.bind_eq_bind, Option.bind_eq_some_iff] at applies
  obtain ⟨⟨c, a⟩, left, ⟨c', a'⟩, right, applies⟩ := applies
  split at applies
  · rename_i shared
    simp only [Bool.and_eq_true, beq_iff_eq] at shared
    obtain ⟨s, rfl⟩ := Expr.term?_eq_some left
    obtain ⟨s', rfl⟩ := Expr.term?_eq_some right
    obtain ⟨-, rfl⟩ := shared
    cases applies
    exact .combineLikeTerms sum
  · cases applies

private theorem foldProduct_fires (applies : foldProduct (.binary t .mul l r) = some after) :
    Fires .foldConstants (.binary t .mul l r) after := by
  simp only [foldProduct, Option.pure_def, Option.bind_eq_bind, Option.bind_eq_some_iff,
    Option.some.injEq] at applies
  obtain ⟨x, left, y, right, rfl⟩ := applies
  rw [Expr.number?_eq_some left, Expr.number?_eq_some right]
  exact .foldProduct

private theorem multiplyFractions_fires
    (applies : multiplyFractions (.binary t .mul l r) = some after) :
    Fires .combineFractions (.binary t .mul l r) after := by
  simp only [multiplyFractions, Option.pure_def, Option.bind_eq_bind, Option.bind_eq_some_iff,
    Option.some.injEq] at applies
  obtain ⟨⟨n, d⟩, left, ⟨n', d'⟩, right, rfl⟩ := applies
  obtain ⟨s, rfl⟩ := Expr.fraction?_eq_some left
  obtain ⟨s', rfl⟩ := Expr.fraction?_eq_some right
  exact .multiplyFractions

private theorem multiplyByZero_fires (applies : multiplyByZero (.binary t .mul l r) = some after) :
    Fires .multiplyByZero (.binary t .mul l r) after := by
  simp only [multiplyByZero] at applies
  split at applies
  · rename_i either
    cases applies
    simp only [Bool.or_eq_true, Bool.and_eq_true, Option.any_eq_true] at either
    rcases either with ⟨⟨x, left, zero⟩, symbolic⟩ | ⟨symbolic, x, right, zero⟩
    · rw [Expr.number?_eq_some left]
      exact .zeroLeft zero symbolic
    · rw [Expr.number?_eq_some right]
      exact .zeroRight zero symbolic
  · cases applies

private theorem divideNumbers_fires (applies : divideNumbers (.binary t .div l r) = some after) :
    Fires .divideNumbers (.binary t .div l r) after := by
  simp only [divideNumbers, Option.pure_def, Option.bind_eq_bind, Option.bind_eq_some_iff]
    at applies
  obtain ⟨n, left, d, right, applies⟩ := applies
  rw [Expr.number?_eq_some left, Expr.number?_eq_some right]
  have result : quotientOf n d = after := by
    unfold quotientOf
    split at applies <;> simp_all
  exact result ▸ .divideNumbers

private theorem divideByFraction_fires
    (applies : divideByFraction (.binary t .div l r) = some after) :
    Fires .multiplyByReciprocal (.binary t .div l r) after := by
  simp only [divideByFraction, Option.pure_def, Option.bind_eq_bind, Option.bind_eq_some_iff,
    Option.some.injEq] at applies
  obtain ⟨⟨n, d⟩, rational, ⟨n', d'⟩, right, rfl⟩ := applies
  obtain ⟨s, rfl⟩ := Expr.fraction?_eq_some right
  exact .divideByFraction rational

private theorem negateConstant_fires (applies : negateConstant (.unary t .minus u) = some after) :
    Fires .negateConstant (.unary t .minus u) after := by
  simp only [negateConstant, Option.pure_def, Option.bind_eq_bind, Option.bind_eq_some_iff,
    Option.some.injEq] at applies
  obtain ⟨x, number, rfl⟩ := applies
  rw [Expr.number?_eq_some number]
  exact .negateConstant

private theorem negateCoefficient_fires
    (applies : negateCoefficient (.unary t .minus u) = some after) :
    Fires .negateCoefficient (.unary t .minus u) after := by
  simp only [negateCoefficient, Option.pure_def, Option.bind_eq_bind, Option.bind_eq_some_iff,
    Option.some.injEq] at applies
  obtain ⟨⟨c, a⟩, term, x, number, rfl⟩ := applies
  obtain ⟨s, rfl⟩ := Expr.term?_eq_some term
  obtain rfl := Expr.number?_eq_some number
  exact .negateCoefficient

private theorem negateFraction_fires (applies : negateFraction (.unary t .minus u) = some after) :
    Fires .negateFraction (.unary t .minus u) after := by
  simp only [negateFraction, Option.pure_def, Option.bind_eq_bind, Option.bind_eq_some_iff,
    Option.some.injEq] at applies
  obtain ⟨⟨c, a⟩, term, ⟨n, d⟩, fraction, rfl⟩ := applies
  obtain ⟨s, rfl⟩ := Expr.term?_eq_some term
  obtain ⟨s', rfl⟩ := Expr.fraction?_eq_some fraction
  exact .negateFraction

private theorem distributeNegation_fires
    (applies : distributeNegation (.unary t .minus u) = some after) :
    Fires .distributeNegation (.unary t .minus u) after := by
  unfold distributeNegation at applies
  split at applies
  · rename_i same
    cases same
    cases applies
    exact .negateSum
  · rename_i same
    cases same
    cases applies
    exact .negateDifference
  · cases applies

private theorem cancelNegations_fires
    (applies : cancelNegations (.unary t .minus u) = some after) :
    Fires .cancelNegations (.unary t .minus u) after := by
  unfold cancelNegations at applies
  split at applies
  · rename_i same
    cases same
    cases applies
    exact .cancelNegations
  · cases applies

private theorem sum_fires {rule : Rule ν} (sum : o = .add ∨ o = .sub) (member : rule ∈ sumRules)
    (applies : rule.rewrite? (.binary t o l r) = some after) :
    Fires rule.step (.binary t o l r) after := by
  simp only [sumRules, List.mem_cons, List.not_mem_nil, or_false] at member
  rcases member with rfl | rfl | rfl | rfl
  · exact foldSum_fires sum applies
  · exact addFractions_fires sum applies
  · exact keepApart_fires applies
  · exact combineLikeTerms_fires sum applies

private theorem product_fires {rule : Rule ν} (member : rule ∈ productRules)
    (applies : rule.rewrite? (.binary t .mul l r) = some after) :
    Fires rule.step (.binary t .mul l r) after := by
  simp only [productRules, List.mem_cons, List.not_mem_nil, or_false] at member
  rcases member with rfl | rfl | rfl
  · exact foldProduct_fires applies
  · exact multiplyFractions_fires applies
  · exact multiplyByZero_fires applies

private theorem quotient_fires {rule : Rule ν} (member : rule ∈ quotientRules)
    (applies : rule.rewrite? (.binary t .div l r) = some after) :
    Fires rule.step (.binary t .div l r) after := by
  simp only [quotientRules, List.mem_cons, List.not_mem_nil, or_false] at member
  rcases member with rfl | rfl
  · exact divideNumbers_fires applies
  · exact divideByFraction_fires applies

private theorem minus_fires {rule : Rule ν} (member : rule ∈ minusRules)
    (applies : rule.rewrite? (.unary t .minus u) = some after) :
    Fires rule.step (.unary t .minus u) after := by
  simp only [minusRules, List.mem_cons, List.not_mem_nil, or_false] at member
  rcases member with rfl | rfl | rfl | rfl | rfl
  · exact negateConstant_fires applies
  · exact negateCoefficient_fires applies
  · exact negateFraction_fires applies
  · exact distributeNegation_fires applies
  · exact cancelNegations_fires applies

/-- What a rule of the table does to a node of its group is one of the listed cases. -/
theorem fires_of_mem {rule : Rule ν} {e : Expr ν} (member : rule ∈ forNode e)
    (applies : rule.rewrite? e = some after) : Fires rule.step e after := by
  cases e with
  | number value | atom a | call t f us | equality t side l r => cases member
  | binary t o l r =>
    cases o with
    | add => exact sum_fires (.inl rfl) member applies
    | sub => exact sum_fires (.inr rfl) member applies
    | mul => exact product_fires member applies
    | div => exact quotient_fires member applies
    | mod | pow => cases member
  | unary t o u =>
    cases o with
    | plus =>
      simp only [forNode, plusRules, List.mem_singleton] at member
      subst member
      cases applies
      exact .removePlus
    | minus => exact minus_fires member applies

/-- Whatever the rule table does to a node is one of the listed cases. -/
theorem fires_of_first? {e : Expr ν} {step : Step}
    (first : RuleBook.first? forNode e = some (step, after)) : Fires step e after := by
  obtain ⟨rule, member, rfl, applies⟩ := RuleBook.mem_of_first? first
  exact fires_of_mem member applies

end Rule

/-- No rule rewrites an equality itself, so each side is derived on its own. -/
theorem derivation_sides [Arithmetic ν] {steps : List Step} {l r e' : Expr ν}
    (derived : Derivation Rule.forNode steps (.equal l r) e') :
    ∃ l' r' first second, e' = .equal l' r' ∧ Derivation Rule.forNode first l l' ∧
      Derivation Rule.forNode second r r' := by
  generalize same : Expr.equal l r = e at derived
  induction derived generalizing l r with
  | done => exact ⟨l, r, [], [], same.symm, .done l, .done r⟩
  | step step rest ih =>
    subst same
    cases step with
    | node first differs => cases Rule.fires_of_first? first
    | leftSide r inner =>
      obtain ⟨l', r', first, second, rfl, left, right⟩ := ih rfl
      exact ⟨l', r', _, second, rfl, .step inner left, right⟩
    | rightSide l inner =>
      obtain ⟨l', r', first, second, rfl, left, right⟩ := ih rfl
      exact ⟨l', r', first, _, rfl, left, .step inner right⟩

end AlgebraEngine
