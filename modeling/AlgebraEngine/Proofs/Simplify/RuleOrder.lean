import Mathlib.Data.List.Find
import Mathlib.Data.List.Nodup
import AlgebraEngine.Proofs.Simplify.Freshness

/-! The rules of a group never compete. The forms of a node's operands decide which rule of its
group can apply, whatever is cached in the node, so the order in which a group lists its rules has no
influence on a simplification. -/
namespace AlgebraEngine

variable {ν : Type}

/-- What the rules for sums, products and quotients can tell about an operand. -/
inductive Form where
  | number
  | atom
  | fraction
  | term
  | other
  deriving DecidableEq, Repr

namespace Expr

/-- The form of an expression. No expression has two forms. -/
def form : Expr ν → Form
  | number _ => .number
  | atom _ => .atom
  | binary _ .div (number _) (number _) => .fraction
  | binary _ .mul _ (atom _) => .term
  | _ => .other

@[simp] theorem form_number (x : ν) : (number x).form = .number := rfl

@[simp] theorem form_fraction (t : Tags) (n d : ν) :
    (binary t .div (number n) (number d)).form = .fraction := rfl

@[simp] theorem form_term (t : Tags) (c : Expr ν) (a : Atom) :
    (binary t .mul c (atom a)).form = .term := rfl

theorem form_of_number? {e : Expr ν} (found : e.number?.isSome) : e.form = .number := by
  obtain ⟨x, found⟩ := Option.isSome_iff_exists.mp found
  rw [number?_eq_some found, form_number]

theorem form_of_term? {e : Expr ν} (found : e.term?.isSome) : e.form = .term := by
  obtain ⟨⟨c, a⟩, found⟩ := Option.isSome_iff_exists.mp found
  obtain ⟨t, rfl⟩ := term?_eq_some found
  rfl

theorem form_of_atom? {e : Expr ν} (found : e.atom?.isSome) : e.form = .atom := by
  cases e with
  | atom a => rfl
  | number | binary | unary | call | equality => cases found

end Expr

namespace Form

/-- The step of the only rule for sums and differences that can apply to operands of these forms. -/
def sumStep? : Form → Form → Option Step
  | number, number => some .foldConstants
  | fraction, fraction => some .combineFractions
  | number, term | term, number => some .keepApart
  | term, term => some .combineLikeTerms
  | _, _ => none

/-- The step of the only rule for products that can apply to operands of these forms. -/
def productStep? : Form → Form → Option Step
  | number, number => some .foldConstants
  | fraction, fraction => some .combineFractions
  | number, atom | number, term | atom, number | term, number => some .multiplyByZero
  | _, _ => none

/-- The step of the only rule for quotients that can apply to operands of these forms. -/
def quotientStep? : Form → Form → Option Step
  | number, number => some .divideNumbers
  | number, fraction | fraction, fraction => some .multiplyByReciprocal
  | _, _ => none

/-- The step of the only rule that can apply to a minus sign in front of a term, by the form of the
term's coefficient. -/
def coefficientStep? : Form → Option Step
  | number => some .negateCoefficient
  | fraction => some .negateFraction
  | _ => none

end Form

namespace Rule

/-- The step of the only rule that can apply to a minus sign in front of this operand. -/
def minusStep? : Expr ν → Option Step
  | .number _ => some .negateConstant
  | .binary _ .mul c (.atom _) => c.form.coefficientStep?
  | .binary _ .add _ _ => some .distributeNegation
  | .binary _ .sub _ _ => some .distributeNegation
  | .unary _ .minus _ => some .cancelNegations
  | _ => none

/-- The step of the only rule that can apply to a node. Whether it does apply depends on more: like
terms need one atom, and a product vanishes only with zero. -/
def candidate? : Expr ν → Option Step
  | .binary _ .add l r => l.form.sumStep? r.form
  | .binary _ .sub l r => l.form.sumStep? r.form
  | .binary _ .mul l r => l.form.productStep? r.form
  | .binary _ .div l r => l.form.quotientStep? r.form
  | .unary _ .plus _ => some .removePlus
  | .unary _ .minus u => minusStep? u
  | _ => none

theorem form_of_isSymbolic {e : Expr ν} (symbolic : isSymbolic e) :
    e.form = .atom ∨ e.form = .term := by
  rcases Bool.or_eq_true_iff.mp symbolic with atom | term
  · exact .inl (Expr.form_of_atom? atom)
  · exact .inr (Expr.form_of_term? term)

/-- A number and a term are kept apart where that is the candidate. -/
theorem candidate_of_keepApart {t : Tags} {o : BinaryOp} {l r after : Expr ν}
    (sum : o = .add ∨ o = .sub) (applies : keepApart (.binary t o l r) = some after) :
    candidate? (.binary t o l r) = some .keepApart := by
  have candidate : l.form.sumStep? r.form = some .keepApart := by
    simp only [keepApart, Option.ite_none_right_eq_some, Bool.or_eq_true, Bool.and_eq_true]
      at applies
    rcases applies.1 with ⟨number, term⟩ | ⟨term, number⟩
    · rw [Expr.form_of_number? number, Expr.form_of_term? term]
      rfl
    · rw [Expr.form_of_term? term, Expr.form_of_number? number]
      rfl
  rcases sum with rfl | rfl <;> exact candidate

variable [Arithmetic ν] {rule rule' : Rule ν} {e : Expr ν}

theorem form_of_rational? {n d : ν} (rational : rational? e = some (n, d)) :
    e.form = .number ∨ e.form = .fraction := by
  unfold rational? at rational
  split at rational
  · rename_i found
    exact .inl (Expr.form_of_number? (Option.isSome_of_eq_some found))
  · obtain ⟨t, rfl⟩ := Expr.fraction?_eq_some rational
    exact .inr rfl

/-- Every step is taken where it is the candidate, save that of `keepApart`: the list of what the
rules can do leaves open where that one applies. -/
theorem candidate_of_fires {step : Step} {after : Expr ν} (fires : Fires step e after)
    (rewrites : step ≠ .keepApart) : candidate? e = some step := by
  cases fires with
  | foldSum sum | addFractions sum | combineLikeTerms sum => rcases sum with rfl | rfl <;> rfl
  | keepApart => exact absurd rfl rewrites
  | zeroLeft zero symbolic =>
    rcases form_of_isSymbolic symbolic with atom | term
    · simp [candidate?, atom, Form.productStep?]
    · simp [candidate?, term, Form.productStep?]
  | zeroRight zero symbolic =>
    rcases form_of_isSymbolic symbolic with atom | term
    · simp [candidate?, atom, Form.productStep?]
    · simp [candidate?, term, Form.productStep?]
  | divideByFraction rational =>
    rcases form_of_rational? rational with number | fraction
    · simp [candidate?, number, Form.quotientStep?]
    · simp [candidate?, fraction, Form.quotientStep?]
  | foldProduct | multiplyFractions | divideNumbers | removePlus | negateConstant
  | negateCoefficient | negateFraction | negateSum | negateDifference | cancelNegations => rfl

/-- Only sums and differences have a rule that keeps a number and a term apart. -/
theorem keepApart_of_mem (member : rule ∈ forNode e) (step : rule.step = .keepApart) :
    ∃ t o l r, e = .binary t o l r ∧ (o = .add ∨ o = .sub) ∧ rule.rewrite? = keepApart := by
  cases e with
  | number | atom | call | equality => cases member
  | binary t o l r =>
    cases o with
    | add | sub =>
      simp only [forNode, sumRules, List.mem_cons, List.not_mem_nil, or_false] at member
      rcases member with rfl | rfl | rfl | rfl
      case inr.inr.inl => exact ⟨t, _, l, r, rfl, by simp, rfl⟩
      all_goals cases step
    | mul =>
      simp only [forNode, productRules, List.mem_cons, List.not_mem_nil, or_false] at member
      rcases member with rfl | rfl | rfl <;> cases step
    | div =>
      simp only [forNode, quotientRules, List.mem_cons, List.not_mem_nil, or_false] at member
      rcases member with rfl | rfl <;> cases step
    | mod | pow => cases member
  | unary t o u =>
    cases o with
    | plus =>
      simp only [forNode, plusRules, List.mem_singleton] at member
      subst member
      cases step
    | minus =>
      simp only [forNode, minusRules, List.mem_cons, List.not_mem_nil, or_false] at member
      rcases member with rfl | rfl | rfl | rfl | rfl <;> cases step

/-! ## No competition -/

/-- Whether a rule applies to a node. -/
def applies (rule : Rule ν) (e : Expr ν) : Bool := (rule.rewrite? e).isSome

/-- A rule of a node's group that applies to the node is the candidate. -/
theorem candidate_of_applies (member : rule ∈ forNode e) (applies : rule.applies e) :
    candidate? e = some rule.step := by
  obtain ⟨after, rewrites⟩ := Option.isSome_iff_exists.mp applies
  by_cases step : rule.step = .keepApart
  · obtain ⟨t, o, l, r, rfl, sum, same⟩ := keepApart_of_mem member step
    rw [same] at rewrites
    rw [step, candidate_of_keepApart sum rewrites]
  · exact candidate_of_fires (fires_of_mem member rewrites) step

/-- No two rules of a group take the same step. -/
theorem nodup_steps (e : Expr ν) : ((forNode e).map step).Nodup := by
  cases e with
  | number | atom | call | equality => exact .nil
  | binary t o l r => cases o <;> simp [forNode, sumRules, productRules, quotientRules]
  | unary t o u => cases o <;> simp [forNode, plusRules, minusRules]

/-- Two rules of a node's group that both apply to the node are the same rule. -/
theorem eq_of_applies (member : rule ∈ forNode e) (member' : rule' ∈ forNode e)
    (applies : rule.applies e) (applies' : rule'.applies e) : rule = rule' := by
  have candidates : some rule.step = some rule'.step := by
    rw [← candidate_of_applies member applies, candidate_of_applies member' applies']
  exact List.inj_on_of_nodup_map (nodup_steps e) member member' (Option.some.inj candidates)

theorem length_filter_applies (e : Expr ν) :
    ((forNode e).filter (·.applies e)).length ≤ 1 := by
  have distinct : ((forNode e).filter (·.applies e)).Nodup :=
    (List.Nodup.of_map step (nodup_steps e)).filter _
  have alone : ∀ rule ∈ (forNode e).filter (·.applies e),
      ∀ rule' ∈ (forNode e).filter (·.applies e), rule = rule' := by
    intro rule member rule' member'
    obtain ⟨member, applies⟩ := List.mem_filter.mp member
    obtain ⟨member', applies'⟩ := List.mem_filter.mp member'
    exact eq_of_applies member member' applies applies'
  generalize (forNode e).filter (·.applies e) = chosen at distinct alone ⊢
  match chosen with
  | [] => exact Nat.zero_le 1
  | [rule] => exact Nat.le_refl 1
  | rule :: rule' :: rules =>
    have same : rule = rule' := alone rule (by simp) rule' (by simp)
    exact absurd same (List.ne_of_not_mem_cons (List.nodup_cons.mp distinct).1)

end Rule

namespace RuleBook

/-- Looking for the first rule that applies comes before rewriting by it. -/
theorem first?_eq_find? (book : RuleBook ν) (e : Expr ν) :
    book.first? e = ((book e).find? (·.applies e)).bind fun rule =>
      (rule.rewrite? e).map (rule.step, ·) := by
  unfold first?
  induction book e with
  | nil => rfl
  | cons rule rules ih =>
    have applies : rule.applies e = (rule.rewrite? e).isSome := rfl
    cases rewrites : rule.rewrite? e with
    | none => simp [applies, rewrites, ih]
    | some after => simp [applies, rewrites]

end RuleBook

/-- The order of the rules for a node does not matter to what they make of it. -/
theorem Rule.first?_of_perm [Arithmetic ν] {book : RuleBook ν} {e : Expr ν}
    (reordered : (book e).Perm (forNode e)) : book.first? e = RuleBook.first? forNode e := by
  have same : (book e).find? (·.applies e) = (forNode e).find? (·.applies e) := by
    refine List.find?_eq_find?_of_perm reordered ?_
    rintro rule ⟨member, applies⟩ rule' ⟨member', applies'⟩
    exact eq_of_applies (reordered.subset member) (reordered.subset member') applies applies'
  rw [RuleBook.first?_eq_find?, RuleBook.first?_eq_find?, same]

/-- Rules of a group never compete. At most one of them applies to a node, whatever the node and
its operands have cached. Hence a book that lists the rules of each group in another order takes the
same steps to the same tree, with any limit. -/
theorem Expr.simplifyBy_reordered [Arithmetic ν] :
    (∀ e : Expr ν, ((Rule.forNode e).filter (·.applies e)).length ≤ 1) ∧
      ∀ book : RuleBook ν, (∀ e, (book e).Perm (Rule.forNode e)) →
        ∀ (limit : Nat) (e : Expr ν), e.simplifyBy book limit = e.simplifyWith limit := by
  refine ⟨Rule.length_filter_applies, ?_⟩
  intro book reordered limit e
  have run : Simplification.run book limit e = Simplification.run Rule.forNode limit e :=
    Simplification.run_congr fun node _ => Rule.first?_of_perm (reordered node)
  rw [simplifyWith, simplifyBy, simplifyBy, run]

/-- Tried in the opposite order, the rules make the same of `2x + 3x`. -/
theorem Expr.simplifyBy_reordered_reverse :
    ((Expr.op .add (.op .mul (.number (.rational 2)) (.var "x"))
        (.op .mul (.number (.rational 3)) (.var "x")) : Expr Exact).simplifyBy
      (fun e => (Rule.forNode e).reverse) 64).map Simplification.steps =
        .ok [.combineLikeTerms, .foldConstants] := by
  rw [simplifyBy_reordered.2 _ fun e => List.reverse_perm _]
  decide +kernel

end AlgebraEngine
