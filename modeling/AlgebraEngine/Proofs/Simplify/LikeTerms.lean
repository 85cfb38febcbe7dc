import AlgebraEngine.Proofs.Simplify.Making
import AlgebraEngine.Proofs.Simplify.Passes
import AlgebraEngine.Proofs.Simplify.Redex

/-! Sums and differences of multiples of one atom. The first pass works its way up from the leaves:
what it writes for two operands is a term again, so the node above finds like terms as well, and in
the end there is one term, with the coefficients added up in the shape of the whole tree. The second
pass folds that shape to a number. Nothing is left for a third one. -/
namespace AlgebraEngine

open AlgebraEngine.Expr Arithmetic

variable {ν : Type} [Arithmetic ν]

namespace Expr

/-- A tree of sums and differences over multiples of an atom, none of them by zero, and what their
coefficients come to if they are added and subtracted in the same shape. -/
inductive LikeTerms (a : Atom) : Expr ν → ν → Prop where
  | term {t k} (nonzero : Fraction.isZero k = false) :
      LikeTerms a (.binary t .mul (.number k) (.atom a)) k
  | sum {t l r x y} (left : LikeTerms a l x) (right : LikeTerms a r y) :
      LikeTerms a (.binary t .add l r) (x + y)
  | difference {t l r x y} (left : LikeTerms a l x) (right : LikeTerms a r y) :
      LikeTerms a (.binary t .sub l r) (x - y)

/-- A multiple of an atom, which is the number zero if there is nothing of it. -/
def multiple (k : ν) (a : Atom) : Expr ν :=
  if Fraction.isZero k then .number (ofInt 0) else .op .mul (.number k) (.atom a)

/-- A tree of sums and differences over numbers, and its value. -/
inductive Total : Expr ν → ν → Prop where
  | number (k : ν) : Total (.number k) k
  | sum {t l r x y} (left : Total l x) (right : Total r y) : Total (.binary t .add l r) (x + y)
  | difference {t l r x y} (left : Total l x) (right : Total r y) :
      Total (.binary t .sub l r) (x - y)

variable {a : Atom} {k : ν} {e c c' l r : Expr ν} {t : Tags} {o : BinaryOp}

/-- No rule for products looks at a multiple of an atom, unless it is zero times it. -/
private theorem keeps_term (nonzero : Fraction.isZero k = false) :
    RuleBook.Keeps Rule.forNode (.op .mul (.number k) (.atom a)) := by
  intro step after first
  have none : RuleBook.first? Rule.forNode (Expr.op .mul (.number k) (.atom a)).tagged = none := by
    simp [op, tagged, retag, RuleBook.first?, Rule.forNode, Rule.productRules, Rule.foldProduct,
      Rule.multiplyFractions, Rule.multiplyByZero, Rule.isSymbolic, number?, fraction?, atom?,
      term?, nonzero]
  rw [none] at first
  cases first

theorem normal_multiple (k : ν) (a : Atom) : (multiple k a).Normal Rule.forNode := by
  unfold multiple
  split
  · exact normal_number _
  · rename_i nonzero
    refine normal_iff.mpr ⟨keeps_term (eq_false_of_ne_true nonzero), ?_⟩
    have operands : (number k).Normal Rule.forNode ∧ (atom a : Expr ν).Normal Rule.forNode :=
      ⟨normal_number k, normal_atom a⟩
    simpa using operands

/-- Like terms that a pass has made of the operands are combined in the same pass. Both record the
atom, since what a pass writes is tagged before the node above sees it. -/
theorem makes_term (sum : o = .add ∨ o = .sub)
    (left : Sweep.Makes Rule.forNode l (.op .mul c (.atom a)))
    (right : Sweep.Makes Rule.forNode r (.op .mul c' (.atom a))) :
    Sweep.Makes Rule.forNode (.binary t o l r) (.op .mul (.op o c c') (.atom a)) := by
  have first := Rule.first?_likeTerms sum rfl rfl
    (fresh_tagged (op o (op .mul c (.atom a)) (op .mul c' (.atom a))))
  have made := Sweep.Makes.rewrite (t := t) left right first (by rcases sum with rfl | rfl <;> rfl)
  rw [Sweep.Makes] at made ⊢
  rw [made]
  exact tagged_congr (by simp [op, untagged])

/-- The first pass leaves one term. -/
theorem LikeTerms.makes (terms : LikeTerms a e k) :
    ∃ c, Total c k ∧ Sweep.Makes Rule.forNode e (.op .mul c (.atom a)) := by
  induction terms with
  | @term t k nonzero =>
    have number : Sweep.Makes Rule.forNode (.number k) (.number k) :=
      Sweep.makes_of_normal (normal_number k)
    exact ⟨.number k, .number k, number.op rfl (keeps_term nonzero)⟩
  | sum left right ihl ihr =>
    obtain ⟨c, total, makes⟩ := ihl
    obtain ⟨c', total', makes'⟩ := ihr
    exact ⟨.op .add c c', .sum total total', makes_term (.inl rfl) makes makes'⟩
  | difference left right ihl ihr =>
    obtain ⟨c, total, makes⟩ := ihl
    obtain ⟨c', total', makes'⟩ := ihr
    exact ⟨.op .sub c c', .difference total total', makes_term (.inr rfl) makes makes'⟩

/-- A pass folds sums and differences of numbers, up to the root. -/
theorem Total.makes (total : Total c k) : Sweep.Makes Rule.forNode c (.number k) := by
  induction total with
  | number k => exact Sweep.makes_of_normal (normal_number k)
  | sum left right ihl ihr | difference left right ihl ihr => exact ihl.rewrite ihr rfl rfl

/-- The second pass leaves a multiple of the atom. -/
theorem Total.makes_multiple (total : Total c k) (a : Atom) :
    Sweep.Makes Rule.forNode (.op .mul c (.atom a)) (multiple k a) := by
  have atom : Sweep.Makes Rule.forNode (.atom a : Expr ν) (.atom a) :=
    Sweep.makes_of_normal (normal_atom a)
  unfold multiple
  split
  · rename_i zero
    exact total.makes.rewrite atom (Rule.first?_zero (.inl ⟨zero, rfl⟩)) rfl
  · rename_i nonzero
    exact total.makes.op atom (keeps_term (eq_false_of_ne_true nonzero))

/-- Like terms combine, whatever the grouping. With any limit of at least three passes, a tree of
sums and differences over multiples of one atom is simplified to one multiple of the atom, with the
coefficients added and subtracted in the same shape, and to zero if they come to that. Three passes
are enough to settle. -/
theorem simplify_likeTerms (terms : LikeTerms a e k) (accepted : checkDepth e = .ok ()) :
    ∃ s, e.simplify = .ok s ∧ (∀ limit, 3 ≤ limit → e.simplifyWith limit = .ok s) ∧
      s.tree = (multiple k a).tagged ∧ s.settled = true ∧ s.passes.length ≤ 3 := by
  obtain ⟨c, total, makes⟩ := terms.makes
  have settles := ((Simplification.settlesOn_of_normal (normal_multiple k a)).of_makes
    (total.makes_multiple a)).of_makes makes
  have limited (limit : Nat) (three : 3 ≤ limit) :
      e.simplifyWith limit = .ok (Simplification.run Rule.forNode 3 e) := by
    rw [simplifyWith_eq limit (checkDepth_eq_ok_iff.mp accepted), settles.run_eq three]
  exact ⟨_, limited _ (by decide), limited, settles.tree, settles.settled,
    Simplification.length_passes_le _ 3 e⟩

/-- `2x - (3x - 5x)` is `4x` after at most three passes, and nothing is left of `(2x - 3x) + 1x`. -/
theorem simplify_likeTerms_nested : ∃ left none : Simplification Binary64,
    (Expr.op .sub (.op .mul (.number (.ofInt 2)) (.var "x"))
      (.op .sub (.op .mul (.number (.ofInt 3)) (.var "x"))
        (.op .mul (.number (.ofInt 5)) (.var "x"))) : Expr Binary64).simplify = .ok left ∧
      left.tree = (Expr.op .mul (.number (.ofInt 4)) (.var "x")).tagged ∧
      left.passes.length ≤ 3 ∧
    (Expr.op .add (.op .sub (.op .mul (.number (.ofInt 2)) (.var "x"))
        (.op .mul (.number (.ofInt 3)) (.var "x")))
      (.op .mul (.number (.ofInt 1)) (.var "x")) : Expr Binary64).simplify = .ok none ∧
      none.tree = .number (.ofInt 0) ∧ none.passes.length ≤ 3 := by
  have term (n : ℤ) (nonzero : Fraction.isZero (Binary64.ofInt n) = false) :
      LikeTerms (.var "x") (.op .mul (.number (Binary64.ofInt n)) (.var "x")) (.ofInt n) :=
    .term nonzero
  have two := term 2 (by decide +kernel)
  have three := term 3 (by decide +kernel)
  obtain ⟨s, simplified, -, tree, -, passes⟩ :=
    simplify_likeTerms (two.difference (three.difference (term 5 (by decide +kernel)))) rfl
  obtain ⟨s', simplified', -, tree', -, passes'⟩ :=
    simplify_likeTerms ((two.difference three).sum (term 1 (by decide +kernel))) rfl
  have total : Binary64.ofInt 2 - (.ofInt 3 - .ofInt 5) = .ofInt 4 := by decide +kernel
  have zero : Fraction.isZero (Binary64.ofInt 2 - .ofInt 3 + .ofInt 1) = true := by decide +kernel
  have nonzero : Fraction.isZero (Binary64.ofInt 4) = false := by decide +kernel
  rw [total, multiple, if_neg (by simp [nonzero])] at tree
  rw [multiple, if_pos zero] at tree'
  exact ⟨s, s', simplified, tree, passes, simplified', tree', passes'⟩

end Expr

end AlgebraEngine
