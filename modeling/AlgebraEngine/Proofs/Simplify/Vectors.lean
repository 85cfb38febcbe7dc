import AlgebraEngine.Proofs.Simplify.Depth
import AlgebraEngine.Proofs.Simplify.VectorRules

/-! Simplification of a regular tree keeps the scalar or the vector that the tree evaluates to. A
step keeps it in every context, and the tree it leaves is regular again. -/
namespace AlgebraEngine.ExactAnalysis

variable {K : Type} [Field K] [DecidableEq K] {A : ExactAnalysis K}
variable {t : Tags} {e e' l l' r r' u u' after : Expr Exact} {v : Value A.Number} {step : Step}
variable {steps : List Step}

/-- What a step keeps, so that the whole tree keeps what it evaluates to and stays regular. -/
structure Improves (A : ExactAnalysis K) (e e' : Expr Exact) : Prop where
  refined : A.RefinedBy e e'
  regular : A.Regular e'
  negatable : A.Negatable e → A.Negatable e'
  atomic : e'.isAtomic = e.isAtomic
  multiple : e'.isMultiple = true → e.isMultiple = true

private theorem fits_sum {o : BinaryOp} (sum : o = .add ∨ o = .sub) :
    A.Fits (.binary t o l r) := by
  rcases sum with rfl | rfl <;> trivial

/-- No zero can stand in front of a multiple of an atom here, as the right factor is an atom. -/
private theorem fits_term {c : Expr Exact} {a : Atom} : A.Fits (.binary t .mul c (.atom a)) := by
  refine ⟨fun _ impossible => ?_, fun impossible => ?_⟩ <;> cases impossible

/-- The tree is a number or a quotient of numbers. -/
private def IsQuotient (e : Expr Exact) : Prop :=
  (∃ x, e = .number x) ∨ ∃ n d, e = .fraction n d

private theorem isQuotient_make (n d : Exact) : IsQuotient (Fraction.make n d) :=
  Rule.make_elim (fun x => .inl ⟨x, rfl⟩) (fun n d => .inr ⟨n, d, rfl⟩) n d

private theorem isQuotient_quotientOf (n d : Exact) : IsQuotient (Rule.quotientOf n d) :=
  Rule.quotientOf_elim (fun x => .inl ⟨x, rfl⟩) (fun n d => .inr ⟨n, d, rfl⟩) n d

private theorem improves_of_isQuotient (refined : A.RefinedBy e after)
    (atomic : e.isAtomic = false) (quotient : IsQuotient after) : A.Improves e after := by
  rcases quotient with ⟨x, rfl⟩ | ⟨n, d, rfl⟩
  · exact {
      refined := refined
      regular := regular_number x
      negatable := fun _ => trivial
      atomic := atomic.symm
      multiple := nofun }
  · exact {
      refined := refined
      regular := regular_binary.mpr ⟨trivial, regular_number n, regular_number d⟩
      negatable := fun _ => by rintro (impossible | impossible) <;> cases impossible
      atomic := atomic.symm
      multiple := nofun }

private theorem isSum_opposite {o : BinaryOp} (sum : o = .add ∨ o = .sub) :
    opposite o = .add ∨ opposite o = .sub := by
  rcases sum with rfl | rfl
  · exact .inr rfl
  · exact .inl rfl

private theorem covers_negated (covers : A.Covers l r) : A.Covers (.sign .minus l) r := by
  intro xs ys left right
  obtain ⟨x, value, negated⟩ := evaluates_unary.mp left
  cases x with
  | vector zs =>
    cases negated
    simpa using covers zs ys value right
  | scalar x | symbolic text => cases negated

private theorem distributed_improves {s : Tags} {o : BinaryOp} (sum : o = .add ∨ o = .sub)
    (regular : A.Regular (.unary t .minus (.binary s o l r)))
    (refined : A.RefinedBy (.unary t .minus (.binary s o l r))
      (.op (opposite o) (.sign .minus l) r)) :
    A.Improves (.unary t .minus (.binary s o l r)) (.op (opposite o) (.sign .minus l) r) := by
  obtain ⟨negatable, inner⟩ := regular_unary.mp regular
  obtain ⟨covers, first⟩ := negatable sum
  obtain ⟨-, left, right⟩ := regular_binary.mp inner
  have negated : A.Regular (.sign .minus l) := regular_unary.mpr ⟨first, left⟩
  exact {
    refined := refined
    regular := regular_binary.mpr ⟨fits_sum (isSum_opposite sum), negated, right⟩
    negatable := fun _ _ => ⟨covers_negated covers, first⟩
    atomic := rfl
    multiple := by rcases sum with rfl | rfl <;> exact id }

/-- A step at a regular node. -/
private theorem fires_improves [CharZero K] (fires : Rule.Fires step e after)
    (regular : A.Regular e) : A.Improves e after := by
  have refined := fires_refinedBy fires regular.fits
  have product {c : Expr Exact} {a : Atom} : A.Negatable (.op .mul c (.atom a)) := by
    rintro (impossible | impossible) <;> cases impossible
  cases fires with
  | foldSum | foldProduct | zeroLeft | zeroRight | negateConstant =>
    exact improves_of_isQuotient refined rfl (.inl ⟨_, rfl⟩)
  | addFractions | multiplyFractions | divideByFraction =>
    exact improves_of_isQuotient refined rfl (isQuotient_make _ _)
  | divideNumbers => exact improves_of_isQuotient refined rfl (isQuotient_quotientOf _ _)
  | keepApart => exact ⟨refined, regular, id, rfl, id⟩
  | combineLikeTerms sum =>
    obtain ⟨-, left, right⟩ := regular_binary.mp regular
    have total : A.Regular (.op _ _ _) := regular_binary.mpr
      ⟨fits_sum sum, (regular_binary.mp left).2.1, (regular_binary.mp right).2.1⟩
    exact {
      refined := refined
      regular := regular_binary.mpr ⟨fits_term, total, regular_atom _⟩
      negatable := fun _ => product
      atomic := rfl
      multiple := fun _ => by rcases sum with rfl | rfl <;> rfl }
  | removePlus => exact ⟨refined, (regular_unary.mp regular).2, id, rfl, id⟩
  | negateCoefficient =>
    exact {
      refined := refined
      regular := regular_binary.mpr ⟨fits_term, regular_number _, regular_atom _⟩
      negatable := fun _ => product
      atomic := rfl
      multiple := fun _ => rfl }
  | @negateFraction _ _ _ n d =>
    have negated : A.Regular (.fraction (-n) d) :=
      regular_binary.mpr ⟨trivial, regular_number _, regular_number _⟩
    exact {
      refined := refined
      regular := regular_binary.mpr ⟨fits_term, negated, regular_atom _⟩
      negatable := fun _ => product
      atomic := rfl
      multiple := fun _ => rfl }
  | negateSum => exact distributed_improves (.inl rfl) regular refined
  | negateDifference => exact distributed_improves (.inr rfl) regular refined
  | cancelNegations =>
    exact ⟨refined, (regular_unary.mp (regular_unary.mp regular).2).2, id, rfl, id⟩

/-! ## Contexts -/

private theorem RefinedBy.vector (refined : A.RefinedBy e e') (evaluates : A.Evaluates e v)
    {ys : List A.Number} (vector : A.Evaluates e' (.vector ys)) :
    ∃ xs, A.Evaluates e (.vector xs) ∧ xs.length = ys.length := by
  obtain ⟨v', evaluates', same⟩ := refined v evaluates
  obtain rfl := evaluates'.unique vector
  cases same with
  | vector below => exact ⟨_, evaluates, below.length_eq⟩

private theorem RefinedBy.below (refined : A.RefinedBy e e') (evaluates : A.Evaluates e v)
    {y : A.Number} (scalar : A.Evaluates e' (.scalar y)) :
    ∃ x, A.Evaluates e (.scalar x) ∧ Below x y := by
  obtain ⟨v', evaluates', same⟩ := refined v evaluates
  obtain rfl := evaluates'.unique scalar
  cases same with
  | scalar below => exact ⟨_, evaluates, below⟩

private theorem Covers.refine {w : Value A.Number} (covers : A.Covers l r)
    (left : A.RefinedBy l l') (right : A.RefinedBy r r') (valueLeft : A.Evaluates l v)
    (valueRight : A.Evaluates r w) : A.Covers l' r' := by
  intro xs ys vectorLeft vectorRight
  obtain ⟨xs', first, sameLeft⟩ := left.vector valueLeft vectorLeft
  obtain ⟨ys', second, sameRight⟩ := right.vector valueRight vectorRight
  exact sameLeft ▸ sameRight ▸ covers xs' ys' first second

private theorem Scales.refine {w : Value A.Number} (scales : A.Scales l r)
    (left : A.Improves l l') (right : A.Improves r r') (valueLeft : A.Evaluates l v)
    (valueRight : A.Evaluates r w) : A.Scales l' r' := by
  intro compound multiple x ys scalar vector
  obtain ⟨x', first, below⟩ := left.refined.below valueLeft scalar
  obtain ⟨ys', second, -⟩ := right.refined.vector valueRight vector
  obtain ⟨k, nonzero, rfl⟩ :=
    scales (left.atomic ▸ compound) (right.multiple multiple) x' ys' first second
  rcases below with impossible | rfl
  · cases impossible
  · exact ⟨k, nonzero, rfl⟩

theorem Improves.refl (regular : A.Regular e) : A.Improves e e :=
  ⟨refinedBy_refl e, regular, id, rfl, id⟩

theorem Improves.op {o : BinaryOp} (left : A.Improves l l') (right : A.Improves r r')
    (regular : A.Regular (.op o l r)) (evaluates : A.Evaluates (.op o l r) v) :
    A.Improves (.op o l r) (.op o l' r') := by
  obtain ⟨x, y, valueLeft, valueRight, -⟩ := evaluates_binary.mp evaluates
  have fits : A.Fits (.op o l' r') := by
    have before := regular.fits
    cases o with
    | mul =>
      exact ⟨before.1.refine left right valueLeft valueRight,
        before.2.refine right left valueRight valueLeft⟩
    | add | sub | div | mod | pow => trivial
  exact {
    refined := left.refined.op right.refined
    regular := regular_binary.mpr ⟨fits, left.regular, right.regular⟩
    negatable := fun negatable sum =>
      ⟨(negatable sum).1.refine left.refined right.refined valueLeft valueRight,
        left.negatable (negatable sum).2⟩
    atomic := rfl
    multiple := by
      cases o with
      | add | sub =>
        simp only [Expr.op, Expr.isMultiple, Bool.and_eq_true]
        exact And.imp left.multiple right.multiple
      | mul => exact right.atomic.symm.trans
      | div | mod | pow => exact id }

theorem Improves.sign {o : UnaryOp} (inner : A.Improves u u') (regular : A.Regular (.sign o u)) :
    A.Improves (.sign o u) (.sign o u') := by
  have fits : A.Fits (.sign o u') := by
    have before := regular.fits
    cases o with
    | plus => trivial
    | minus => exact inner.negatable before
  exact {
    refined := inner.refined.sign
    regular := regular_unary.mpr ⟨fits, inner.regular⟩
    negatable := inner.negatable
    atomic := inner.atomic
    multiple := inner.multiple }

theorem Improves.apply (f : Func) (us vs : List (Expr Exact)) (inner : A.Improves u u')
    (regular : A.Regular (.apply f (us ++ u :: vs))) :
    A.Improves (.apply f (us ++ u :: vs)) (.apply f (us ++ u' :: vs)) := by
  have arguments : ∀ w ∈ us ++ u' :: vs, A.Regular w := by
    have before := regular_call.mp regular
    simp only [List.mem_append, List.mem_cons] at before ⊢
    rintro w (member | rfl | member)
    · exact before w (.inl member)
    · exact inner.regular
    · exact before w (.inr (.inr member))
  exact {
    refined := inner.refined.apply f us vs
    regular := regular_call.mpr arguments
    negatable := fun _ => trivial
    atomic := rfl
    multiple := id }

theorem improves_untagged : A.Improves e.untagged e'.untagged ↔ A.Improves e e' := by
  have refined : A.RefinedBy e.untagged e'.untagged ↔ A.RefinedBy e e' := by
    simp only [RefinedBy, evaluates_untagged]
  constructor
  · rintro ⟨refines, regular, negatable, atomic, multiple⟩
    rw [negatable_untagged, negatable_untagged] at negatable
    exact ⟨refined.mp refines, regular_untagged.mp regular, negatable, by simpa using atomic,
      by simpa using multiple⟩
  · rintro ⟨refines, regular, negatable, atomic, multiple⟩
    rw [← negatable_untagged, ← negatable_untagged (e := e')] at negatable
    exact ⟨refined.mpr refines, regular_untagged.mpr regular, negatable, by simpa using atomic,
      by simpa using multiple⟩

variable [CharZero K]

/-- A step in a regular tree improves it, wherever in the tree it is taken. -/
theorem rewrites_improves (rewrites : Rewrites Rule.forNode step e e') (regular : A.Regular e)
    (evaluates : A.Evaluates e v) : A.Improves e e' := by
  induction rewrites generalizing v with
  | @node e after first differs =>
    have tagged : A.Regular e.tagged := by
      rwa [← regular_untagged, Expr.untagged_tagged, regular_untagged]
    have fired := fires_improves (Rule.fires_of_first? first) tagged
    rw [← improves_untagged, Expr.untagged_tagged] at fired
    rwa [← improves_untagged, Expr.untagged_untagged]
  | left o r inner ih =>
    obtain ⟨-, left, right⟩ := regular_binary.mp regular
    obtain ⟨x, y, value, -, -⟩ := evaluates_binary.mp evaluates
    exact (ih left value).op (.refl right) regular evaluates
  | right o l inner ih =>
    obtain ⟨-, left, right⟩ := regular_binary.mp regular
    obtain ⟨x, y, -, value, -⟩ := evaluates_binary.mp evaluates
    exact (Improves.refl left).op (ih right value) regular evaluates
  | operand o inner ih =>
    obtain ⟨x, value, -⟩ := evaluates_unary.mp evaluates
    exact (ih (regular_unary.mp regular).2 value).sign regular
  | @argument u u' f us vs inner ih =>
    have member : u ∈ us ++ u :: vs := by simp
    obtain ⟨x, value⟩ := evaluates_argument evaluates member
    exact (ih (regular_call.mp regular u member) value).apply f us vs regular
  | leftSide r inner ih | rightSide l inner ih => exact absurd evaluates not_evaluates_equality

theorem derivation_refinedBy (derived : Derivation Rule.forNode steps e e')
    (regular : A.Regular e) : A.RefinedBy e e' := by
  induction derived with
  | done => exact refinedBy_refl _
  | step first rest ih =>
    intro v evaluates
    have improves := rewrites_improves first regular evaluates
    obtain ⟨w, middle, refined⟩ := improves.refined v evaluates
    obtain ⟨v', last, refined'⟩ := ih improves.regular w middle
    exact ⟨v', last, refined.trans refined'⟩

/-- Simplifying a regular tree that is shallow enough keeps the scalar or the vector that it
evaluates to with exact arithmetic, however many passes are made. -/
theorem simplifyWith_value (A : ExactAnalysis K) (limit : Nat) {e : Expr Exact}
    (shallow : e.depth ≤ maxDepth) (regular : A.Regular e) {v : Value A.Number}
    (value : A.value e = .ok v) (defined : Defined v) :
    ∃ s, e.simplifyWith limit = .ok s ∧ A.value s.tree = .ok v := by
  have accepted : (Simplification.run Rule.forNode limit e).tree.depth ≤ maxDepth :=
    (Simplification.depth_run_le limit e).trans shallow
  refine ⟨_, Expr.simplifyWith_eq limit shallow, ?_⟩
  rw [A.value_eq_outcome shallow] at value
  rw [A.value_eq_outcome accepted]
  have plain : v.isSymbolic = false := by
    cases v with
    | scalar x | vector xs => rfl
    | symbolic text => exact defined.elim
  have refined : A.RefinedBy e.untagged _ :=
    derivation_refinedBy (Simplification.run_derived Rule.forNode limit e)
      (regular_untagged.mpr regular)
  obtain ⟨w, evaluates, same⟩ := refined v (evaluates_untagged.mpr ⟨value, plain⟩)
  rw [same.eq_of_defined defined]
  exact (evaluates_untagged.mp evaluates).1

/-- The rational numbers, with three for every symbol. -/
def rationals : ExactAnalysis ℚ :=
  { Interpretation.threeForVariable with
    integer? := fun q => if q.den = 1 then some q.num else none }

/-- A vector of literals. -/
def literals (qs : List ℚ) : Expr Exact :=
  .apply .vector (qs.map fun q => .number (.rational q))

omit [CharZero K] in
private theorem covers_literals {ps qs : List ℚ} (longer : qs.length ≤ ps.length) :
    A.Covers (literals ps) (literals qs) := by
  intro xs ys left right
  obtain ⟨xs', components, same⟩ := evaluates_vector.mp left
  obtain ⟨ys', components', same'⟩ := evaluates_vector.mp right
  cases same
  cases same'
  simpa [← components.length_eq, ← components'.length_eq] using longer

omit [CharZero K] in
private theorem regular_literals (qs : List ℚ) : A.Regular (literals qs) := by
  refine regular_call.mpr fun u member => ?_
  obtain ⟨q, -, rfl⟩ := List.mem_map.mp member
  exact regular_number _

/-- `(8 / 10) * -([1, 2] - [3])` -/
theorem simplifyWith_value_scaled :
    ∃ s : Simplification Exact,
      (Expr.op .mul (.fraction (.rational 8) (.rational 10))
        (.sign .minus (.op .sub (literals [1, 2]) (literals [3])))).simplifyWith 64 = .ok s ∧
        rationals.value s.tree = .ok (.vector [some (8 / 5), some (-8 / 5)]) := by
  have difference : rationals.Regular (.op .sub (literals [1, 2]) (literals [3])) :=
    regular_binary.mpr ⟨trivial, regular_literals _, regular_literals _⟩
  have negated : rationals.Regular (.sign .minus (.op .sub (literals [1, 2]) (literals [3]))) :=
    regular_unary.mpr ⟨fun _ => ⟨covers_literals (by decide), trivial⟩, difference⟩
  have fraction : rationals.Regular (.fraction (.rational 8) (.rational 10)) :=
    regular_binary.mpr ⟨trivial, regular_number _, regular_number _⟩
  refine simplifyWith_value rationals 64 (by decide) ?_ (by decide +kernel) ?_
  · exact regular_binary.mpr ⟨⟨fun _ => nofun, fun _ => nofun⟩, fraction, negated⟩
  · exact List.forall_mem_cons.mpr ⟨nofun, List.forall_mem_cons.mpr ⟨nofun, nofun⟩⟩

/-- On other trees the value can change. The negative of `[1] + [1, 2]` is not `-[1] - [1, 2]`, and
zero times `[1, 2]π` is not a scalar. -/
theorem simplifyWith_changes_vectors :
    (∃ s, (Expr.sign .minus (.op .add (literals [1]) (literals [1, 2]))).simplifyWith 64 = .ok s ∧
      rationals.value (.sign .minus (.op .add (literals [1]) (literals [1, 2]))) =
        .ok (.vector [some (-2), some (-2)]) ∧
      rationals.value s.tree = .ok (.vector [some (-2), some 2])) ∧
    ∃ s, (Expr.op .mul (.number (.rational 0))
        (.op .mul (literals [1, 2]) (.const .pi))).simplifyWith 64 = .ok s ∧
      rationals.value (.op .mul (.number (.rational 0))
        (.op .mul (literals [1, 2]) (.const .pi))) = .ok (.vector [some 0, some 0]) ∧
      rationals.value s.tree = .ok (.scalar (some 0)) := by
  refine ⟨⟨_, rfl, ?_, ?_⟩, _, rfl, ?_, ?_⟩ <;> decide +kernel

end AlgebraEngine.ExactAnalysis
