import AlgebraEngine.Proofs.Eval.Exact

/-! Values that refine one another. A refined value has the same type and the same number of
components, and it has a number wherever the other one has it. The evaluator is monotone: refining
an operand refines the value of the node. -/
namespace AlgebraEngine.ExactAnalysis

variable {K : Type} {A : ExactAnalysis K}

/-! ## The order of values -/

/-- A number that is another one, unless there is no result. -/
def Below (x y : A.Number) : Prop := x = none ∨ x = y

theorem below_refl (x : A.Number) : Below x x := .inr rfl

theorem Below.trans {x y z : A.Number} (first : Below x y) (second : Below y z) : Below x z := by
  rcases first with none | rfl
  · exact .inl none
  · exact second

theorem below_none (x : A.Number) : Below (none : Option K) x := .inl rfl

/-- Rows of equally many numbers, each below the other. -/
abbrev BelowList : List A.Number → List A.Number → Prop := List.Forall₂ Below

theorem belowList_refl (xs : List A.Number) : BelowList xs xs := by
  induction xs with
  | nil => exact .nil
  | cons x xs ih => exact .cons (below_refl x) ih

theorem BelowList.trans {xs ys zs : List A.Number} (first : BelowList xs ys)
    (second : BelowList ys zs) : BelowList xs zs := by
  induction first generalizing zs with
  | nil => exact second
  | cons below _ ih =>
    cases second with
    | cons below' rest => exact .cons (below.trans below') (ih rest)

theorem BelowList.map {xs ys : List A.Number} {f g : A.Number → A.Number}
    (below : BelowList xs ys) (each : ∀ {x y}, Below x y → Below (f x) (g y)) :
    BelowList (xs.map f) (ys.map g) := by
  induction below with
  | nil => exact .nil
  | cons head _ ih => exact .cons (each head) ih

/-- A value that another one refines. Texts are left out. -/
inductive Refined : Value A.Number → Value A.Number → Prop where
  | scalar {x y : A.Number} (below : Below x y) : Refined (.scalar x) (.scalar y)
  | vector {xs ys : List A.Number} (below : BelowList xs ys) : Refined (.vector xs) (.vector ys)

theorem refined_refl {v : Value A.Number} (plain : v.isSymbolic = false) : Refined v v := by
  cases v with
  | scalar x => exact .scalar (below_refl x)
  | vector xs => exact .vector (belowList_refl xs)
  | symbolic text => cases plain

theorem Refined.trans {u v w : Value A.Number} (first : Refined u v) (second : Refined v w) :
    Refined u w := by
  cases first with
  | scalar below =>
    cases second with
    | scalar below' => exact .scalar (below.trans below')
  | vector below =>
    cases second with
    | vector below' => exact .vector (below.trans below')

theorem Refined.plain {v w : Value A.Number} (refined : Refined v w) :
    v.isSymbolic = false ∧ w.isSymbolic = false := by
  cases refined <;> exact ⟨rfl, rfl⟩

/-- A scalar or a vector that has a number everywhere. -/
def Defined : Value A.Number → Prop
  | .scalar x => x ≠ none
  | .vector xs => ∀ x ∈ xs, x ≠ none
  | .symbolic _ => False

/-- A value without gaps is refined by itself alone. -/
theorem Refined.eq_of_defined {v w : Value A.Number} (refined : Refined v w)
    (defined : Defined v) : v = w := by
  cases refined with
  | scalar below => exact congrArg Value.scalar (below.resolve_left defined)
  | vector below =>
    refine congrArg Value.vector ?_
    induction below with
    | nil => rfl
    | @cons x y xs ys head _ ih =>
      have first : x = y := head.resolve_left (defined x (by simp))
      have rest := ih fun z member => defined z (List.mem_cons_of_mem _ member)
      rw [first, rest]

/-! ## Monotone operators -/

variable [Field K] [DecidableEq K]

theorem Below.lift {x x' y y' : A.Number} (o : BinaryOp) (left : Below x x')
    (right : Below y y') : Below (A.lift o x y) (A.lift o x' y') := by
  rcases left with rfl | rfl
  · exact .inl rfl
  · rcases right with rfl | rfl
    · refine .inl ?_
      cases x <;> rfl
    · exact below_refl _

theorem combine_eq (o : BinaryOp) (x y : A.Number) : Value.combine o x y = A.lift o x y := by
  cases o <;> rfl

theorem Below.combine {x x' y y' : A.Number} (o : BinaryOp) (left : Below x x')
    (right : Below y y') : Below (Value.combine o x y) (Value.combine o x' y') := by
  rw [combine_eq, combine_eq]
  exact left.lift o right

theorem Below.neg {x y : A.Number} (below : Below x y) : Below (-x) (-y) := by
  rcases below with rfl | rfl
  · exact .inl rfl
  · exact below_refl _

theorem BelowList.combineShared {xs xs' ys ys' : List A.Number} (o : BinaryOp)
    (left : BelowList xs xs') (right : BelowList ys ys') :
    BelowList (Value.combineShared o xs ys) (Value.combineShared o xs' ys') := by
  induction left generalizing ys ys' with
  | nil => simpa only [Value.combineShared] using right
  | cons head rest ih =>
    cases right with
    | nil => exact .cons head rest
    | cons head' rest' => exact .cons (head.combine o head') (ih rest')

theorem BelowList.foldl_add {xs ys : List A.Number} (below : BelowList xs ys) {x y : A.Number}
    (start : Below x y) : Below (xs.foldl (· + ·) x) (ys.foldl (· + ·) y) := by
  induction below generalizing x y with
  | nil => exact start
  | cons head _ ih => exact ih (start.combine .add head)

theorem BelowList.dot {xs xs' ys ys' : List A.Number} (left : BelowList xs xs')
    (right : BelowList ys ys') : Below (Value.dot xs ys) (Value.dot xs' ys') := by
  have products : BelowList (List.zipWith (· * ·) xs ys) (List.zipWith (· * ·) xs' ys') := by
    induction left generalizing ys ys' with
    | nil => exact .nil
    | cons head _ ih =>
      cases right with
      | nil => exact .nil
      | cons head' rest' => exact .cons (head.combine .mul head') (ih rest')
  exact products.foldl_add (below_refl _)

theorem Refined.unary {v w : Value A.Number} (o : UnaryOp) (refined : Refined v w) :
    Refined (v.unary o) (w.unary o) := by
  cases refined with
  | scalar below =>
    cases o with
    | plus => exact .scalar below
    | minus => exact .scalar below.neg
  | vector below =>
    cases o with
    | plus => exact .vector below
    | minus => exact .vector (below.map Below.neg)

/-- Operators are monotone, and which operands they refuse does not depend on numbers. -/
theorem Refined.binary {o : BinaryOp} {l l' r r' v : Value A.Number} (left : Refined l l')
    (right : Refined r r') (combined : Value.binary o l r = .ok v) :
    ∃ v', Value.binary o l' r' = .ok v' ∧ Refined v v' := by
  cases left with
  | scalar below =>
    cases right with
    | scalar below' =>
      cases combined
      exact ⟨_, rfl, .scalar (below.combine o below')⟩
    | vector below' =>
      cases o with
      | mul =>
        cases combined
        exact ⟨_, rfl, .vector (below'.map (below.combine .mul))⟩
      | div =>
        cases combined
        exact ⟨_, rfl, .vector (below'.map (below.combine .div))⟩
      | add | sub | mod | pow => cases combined
  | vector below =>
    cases right with
    | scalar below' =>
      cases o with
      | mul =>
        cases combined
        exact ⟨_, rfl, .vector (below.map fun head => head.combine .mul below')⟩
      | div =>
        cases combined
        exact ⟨_, rfl, .vector (below.map fun head => head.combine .div below')⟩
      | add | sub | mod | pow => cases combined
    | vector below' =>
      cases o with
      | add =>
        cases combined
        exact ⟨_, rfl, .vector (below.combineShared .add below')⟩
      | sub =>
        cases combined
        exact ⟨_, rfl, .vector (below.combineShared .sub below')⟩
      | mul =>
        simp only [Value.binary] at combined ⊢
        split at combined
        · rename_i same
          cases combined
          rw [if_pos (below.length_eq ▸ below'.length_eq ▸ same)]
          exact ⟨_, rfl, .scalar (below.dot below')⟩
        · cases combined
      | div | mod | pow => cases combined

private theorem func_plain {x : A.Number} {f : Func} {v : Value A.Number}
    (applied : f.outcome 0 x = .ok v) : v.isSymbolic = false := by
  unfold Func.outcome Func.factorialOutcome at applied
  split at applied
  · cases applied
    rfl
  · split at applied
    · cases applied
    · split at applied
      · cases applied
      · cases applied
        rfl

/-- Functions are monotone as well. -/
theorem Below.func {x x' : A.Number} {f : Func} {v : Value A.Number} (below : Below x x')
    (applied : f.outcome 0 x = .ok v) : ∃ v', f.outcome 0 x' = .ok v' ∧ Refined v v' := by
  rcases below with rfl | rfl
  · cases f with
    | sqrt | abs | sin | cos | tan | ln =>
      cases applied
      exact ⟨_, rfl, .scalar (below_none _)⟩
    | vector | factorial => cases applied
  · exact ⟨v, applied, refined_refl (func_plain applied)⟩

/-! ## Trees that evaluate to a scalar or a vector -/

/-- A tree evaluates to a value that is not a text. -/
def Evaluates (A : ExactAnalysis K) (e : Expr Exact) (v : Value A.Number) : Prop :=
  A.outcome e = .ok v ∧ v.isSymbolic = false

variable {t : Tags} {e e' l l' r r' u u' : Expr Exact} {v : Value A.Number}

theorem evaluates_number {x : Exact} :
    A.Evaluates (.number x) v ↔ v = .scalar (A.read x) := by
  rw [Evaluates, outcome_number]
  constructor
  · rintro ⟨same, -⟩
    cases same
    rfl
  · rintro rfl
    exact ⟨rfl, rfl⟩

theorem evaluates_atom {a : Atom} :
    A.Evaluates (.atom a) v ↔ (∃ c, a = .const c) ∧ v = .scalar (some (A.atom a)) := by
  cases a with
  | var name =>
    constructor
    · rintro ⟨same, plain⟩
      rw [outcome, Expr.map, Expr.outcome] at same
      cases same
      cases plain
    · rintro ⟨⟨c, impossible⟩, -⟩
      cases impossible
  | const c =>
    rw [Evaluates, outcome_const]
    constructor
    · rintro ⟨same, -⟩
      cases same
      exact ⟨⟨c, rfl⟩, rfl⟩
    · rintro ⟨-, rfl⟩
      exact ⟨rfl, rfl⟩

private theorem binary_plain {o : BinaryOp} {x y : Value A.Number} (left : x.isSymbolic = false)
    (right : y.isSymbolic = false) (combined : Value.binary o x y = .ok v) :
    v.isSymbolic = false := by
  obtain ⟨_, -, refined⟩ := (refined_refl left).binary (refined_refl right) combined
  exact refined.plain.1

theorem evaluates_binary {o : BinaryOp} :
    A.Evaluates (.binary t o l r) v ↔
      ∃ x y, A.Evaluates l x ∧ A.Evaluates r y ∧ Value.binary o x y = .ok v := by
  rw [Evaluates, outcome_binary]
  constructor
  · rintro ⟨same, plain⟩
    cases left : A.outcome l with
    | error error => simp [left, Except.bind] at same
    | ok x =>
      cases right : A.outcome r with
      | error error => simp [left, right, Except.bind] at same
      | ok y =>
        simp only [left, right, Except.bind] at same
        split at same
        · cases same
          cases plain
        · rename_i numbers
          simp only [Bool.or_eq_true, not_or, Bool.not_eq_true] at numbers
          exact ⟨x, y, ⟨left, numbers.1⟩, ⟨right, numbers.2⟩, same⟩
  · rintro ⟨x, y, ⟨left, plain⟩, ⟨right, plain'⟩, combined⟩
    simp only [left, right, Except.bind, plain, plain', Bool.or_false, Bool.false_eq_true, if_false]
    exact ⟨combined, binary_plain plain plain' combined⟩

theorem evaluates_unary {o : UnaryOp} :
    A.Evaluates (.unary t o u) v ↔ ∃ x, A.Evaluates u x ∧ x.unary o = v := by
  rw [Evaluates, outcome_unary]
  constructor
  · rintro ⟨same, plain⟩
    cases inner : A.outcome u with
    | error error => simp [inner, Except.bind] at same
    | ok x =>
      simp only [inner, Except.bind] at same
      split at same
      · cases same
        cases plain
      · rename_i number
        cases same
        exact ⟨x, ⟨inner, by simpa using number⟩, rfl⟩
  · rintro ⟨x, ⟨inner, plain⟩, rfl⟩
    simp only [inner, Except.bind, plain, Bool.false_eq_true, if_false]
    exact ⟨trivial, ((refined_refl plain).unary o).plain.1⟩

private theorem outcomes_eq_ok {us : List (Expr Exact)} {xs : List A.Number} :
    Expr.outcomes 0 (us.map (Expr.map A.read)) = .ok xs ↔
      List.Forall₂ (fun u x => A.Evaluates u (.scalar x)) us xs := by
  induction us generalizing xs with
  | nil =>
    rw [List.forall₂_nil_left_iff]
    simp [Expr.outcomes, eq_comm]
  | cons u us ih =>
    simp only [List.map_cons, Expr.outcomes, List.forall₂_cons_left_iff, ← ih]
    constructor
    · intro same
      cases first : (u.map A.read).outcome 0 with
      | error error => simp [first, bind, Except.bind] at same
      | ok value =>
        cases value with
        | vector ys | symbolic text => simp [first, bind, Except.bind] at same
        | scalar x =>
          cases rest : Expr.outcomes 0 (us.map (Expr.map A.read)) with
          | error error => simp [first, rest, bind, Except.bind] at same
          | ok ys =>
            simp only [first, rest, bind, Except.bind] at same
            cases same
            exact ⟨x, ys, ⟨first, rfl⟩, rfl, rfl⟩
    · rintro ⟨x, ys, ⟨first, -⟩, rest, rfl⟩
      have first : (u.map A.read).outcome 0 = .ok (.scalar x) := first
      simp [first, rest, bind, Except.bind]

theorem evaluates_vector {us : List (Expr Exact)} :
    A.Evaluates (.call t .vector us) v ↔
      ∃ xs, List.Forall₂ (fun u x => A.Evaluates u (.scalar x)) us xs ∧ v = .vector xs := by
  simp only [← outcomes_eq_ok]
  rw [Evaluates, outcome, Expr.map, Expr.outcome_vector, Expr.mapList_eq]
  constructor
  · rintro ⟨same, -⟩
    cases components : Expr.outcomes 0 (us.map (Expr.map A.read)) with
    | error error => simp [components, Except.bind] at same
    | ok xs =>
      rw [components] at same
      cases same
      exact ⟨xs, rfl, rfl⟩
  · rintro ⟨xs, components, rfl⟩
    rw [components]
    exact ⟨rfl, rfl⟩

theorem evaluates_call {f : Func} {us : List (Expr Exact)} (scalar : f ≠ .vector) :
    A.Evaluates (.call t f us) v ↔
      ∃ u x, us = [u] ∧ A.Evaluates u (.scalar x) ∧ f.outcome 0 x = .ok v := by
  rw [Evaluates, outcome, Expr.map, Expr.mapList_eq]
  constructor
  · rintro ⟨same, plain⟩
    rcases us with - | ⟨u, - | ⟨w, us⟩⟩
    · simp [Expr.outcome] at same
    · rw [List.map_singleton, Expr.outcome_call _ _ scalar] at same
      cases inner : (u.map A.read).outcome 0 with
      | error error => simp [inner, Except.bind] at same
      | ok value =>
        rw [inner] at same
        cases value with
        | scalar x => exact ⟨u, x, rfl, ⟨inner, rfl⟩, same⟩
        | vector xs => cases same
        | symbolic text =>
          cases same
          cases plain
    · simp [Expr.outcome] at same
  · rintro ⟨u, x, rfl, ⟨inner, -⟩, applied⟩
    have inner : (u.map A.read).outcome 0 = .ok (.scalar x) := inner
    rw [List.map_singleton, Expr.outcome_call _ _ scalar, inner]
    exact ⟨applied, func_plain applied⟩

/-- The arguments of a call that evaluates are scalars. -/
theorem evaluates_argument {f : Func} {us : List (Expr Exact)}
    (evaluates : A.Evaluates (.call t f us) v) (member : u ∈ us) :
    ∃ x, A.Evaluates u (.scalar x) := by
  by_cases vector : f = .vector
  · subst vector
    obtain ⟨xs, each, -⟩ := evaluates_vector.mp evaluates
    have scalars := each.imp fun u x value =>
      (⟨⟨x, value⟩, value⟩ : (∃ x, A.Evaluates u (.scalar x)) ∧ A.Evaluates u (.scalar x))
    exact ((List.forall₂_and_left _ _).mp scalars).1 u member
  · obtain ⟨w, x, rfl, value, -⟩ := (evaluates_call vector).mp evaluates
    obtain rfl := List.mem_singleton.mp member
    exact ⟨x, value⟩

theorem not_evaluates_equality {side : Side} : ¬A.Evaluates (.equality t side l r) v := by
  rintro ⟨same, plain⟩
  simp only [outcome, Expr.map, Expr.outcome] at same
  cases left : (l.map A.read).outcome 0 with
  | error error => simp [left, bind, Except.bind] at same
  | ok x =>
    cases right : (r.map A.read).outcome 0 with
    | error error => simp [left, right, bind, Except.bind] at same
    | ok y =>
      simp only [left, right, bind, Except.bind] at same
      cases same
      cases plain

/-- Caches have no part in what a tree evaluates to. -/
theorem evaluates_untagged : A.Evaluates e.untagged v ↔ A.Evaluates e v := by
  rw [Evaluates, outcome_untagged, Evaluates]

theorem Evaluates.unique {w : Value A.Number} (first : A.Evaluates e v) (second : A.Evaluates e w) :
    v = w := by
  have same := first.1.symm.trans second.1
  cases same
  rfl

/-- Whatever scalar or vector the first tree evaluates to, the second one evaluates to a value that
refines it. -/
def RefinedBy (A : ExactAnalysis K) (e e' : Expr Exact) : Prop :=
  ∀ v, A.Evaluates e v → ∃ v', A.Evaluates e' v' ∧ Refined v v'

theorem refinedBy_refl (e : Expr Exact) : A.RefinedBy e e :=
  fun v evaluates => ⟨v, evaluates, refined_refl evaluates.2⟩

theorem RefinedBy.op {o : BinaryOp} (left : A.RefinedBy l l') (right : A.RefinedBy r r') :
    A.RefinedBy (.op o l r) (.op o l' r') := by
  intro v evaluates
  obtain ⟨x, y, valueLeft, valueRight, combined⟩ := evaluates_binary.mp evaluates
  obtain ⟨x', valueLeft', refinedLeft⟩ := left x valueLeft
  obtain ⟨y', valueRight', refinedRight⟩ := right y valueRight
  obtain ⟨v', combined', refined⟩ := refinedLeft.binary refinedRight combined
  exact ⟨v', evaluates_binary.mpr ⟨x', y', valueLeft', valueRight', combined'⟩, refined⟩

theorem RefinedBy.sign {o : UnaryOp} (inner : A.RefinedBy u u') :
    A.RefinedBy (.sign o u) (.sign o u') := by
  intro v evaluates
  obtain ⟨x, value, rfl⟩ := evaluates_unary.mp evaluates
  obtain ⟨x', value', refined⟩ := inner x value
  exact ⟨_, evaluates_unary.mpr ⟨x', value', rfl⟩, refined.unary o⟩

theorem RefinedBy.scalar {x : A.Number} (inner : A.RefinedBy u u')
    (value : A.Evaluates u (.scalar x)) : ∃ x', A.Evaluates u' (.scalar x') ∧ Below x x' := by
  obtain ⟨v', value', refined⟩ := inner _ value
  cases refined with
  | scalar below => exact ⟨_, value', below⟩

private theorem components_replace (us vs : List (Expr Exact)) (inner : A.RefinedBy u u')
    {xs : List A.Number}
    (each : List.Forall₂ (fun u x => A.Evaluates u (.scalar x)) (us ++ u :: vs) xs) :
    ∃ ys, List.Forall₂ (fun u x => A.Evaluates u (.scalar x)) (us ++ u' :: vs) ys ∧
      BelowList xs ys := by
  induction us generalizing xs with
  | nil =>
    cases each with
    | cons value rest =>
      obtain ⟨y, value', below⟩ := inner.scalar value
      exact ⟨_, .cons value' rest, .cons below (belowList_refl _)⟩
  | cons w us ih =>
    cases each with
    | cons value rest =>
      obtain ⟨ys, rest', below⟩ := ih rest
      exact ⟨_, .cons value rest', .cons (below_refl _) below⟩

theorem RefinedBy.apply (f : Func) (us vs : List (Expr Exact)) (inner : A.RefinedBy u u') :
    A.RefinedBy (.apply f (us ++ u :: vs)) (.apply f (us ++ u' :: vs)) := by
  intro v evaluates
  by_cases vector : f = .vector
  · subst vector
    obtain ⟨xs, each, rfl⟩ := evaluates_vector.mp evaluates
    obtain ⟨ys, each', below⟩ := components_replace us vs inner each
    exact ⟨_, evaluates_vector.mpr ⟨ys, each', rfl⟩, .vector below⟩
  · obtain ⟨w, x, single, value, applied⟩ := (evaluates_call vector).mp evaluates
    obtain ⟨rfl, rfl, rfl⟩ : us = [] ∧ u = w ∧ vs = [] := by
      cases us <;> simp_all
    obtain ⟨x', value', below⟩ := inner.scalar value
    obtain ⟨v', applied', refined⟩ := below.func applied
    exact ⟨v', (evaluates_call vector).mpr ⟨u', x', rfl, value', applied'⟩, refined⟩

/-- A tree of numbers, constants, the four operations and signs evaluates to a scalar, which is its
meaning. -/
theorem evaluates_arithmetical (shape : e.Arithmetical Atom.IsConst) :
    A.Evaluates e (.scalar (A.meaning e)) := by
  induction shape with
  | number x => exact evaluates_number.mpr rfl
  | atom constant => exact evaluates_atom.mpr ⟨constant, rfl⟩
  | @binary t o l r _ _ _ left right =>
    refine evaluates_binary.mpr ⟨_, _, left, right, ?_⟩
    have scalars (x y : A.Number) : Value.binary o (.scalar x) (.scalar y) =
        .ok (.scalar (A.lift o x y)) := by
      cases o <;> rfl
    exact scalars (A.meaning l) (A.meaning r)
  | @unary t o u _ inner =>
    refine evaluates_unary.mpr ⟨_, inner, ?_⟩
    cases o with
    | plus => exact congrArg Value.scalar Option.map_id'.symm
    | minus => rfl

/-- Between trees of scalars, keeping the meaning is enough. -/
theorem refinedBy_of_refines (shape : e.Arithmetical Atom.IsConst)
    (shape' : e'.Arithmetical Atom.IsConst) (refines : A.Refines e e') : A.RefinedBy e e' := by
  intro v evaluates
  obtain rfl := evaluates.unique (evaluates_arithmetical shape)
  refine ⟨_, evaluates_arithmetical shape', .scalar ?_⟩
  cases value : A.meaning e with
  | none => exact below_none _
  | some x => exact .inr (refines x value).symm

end AlgebraEngine.ExactAnalysis
