import AlgebraEngine.Proofs.Eval.Refinement
import AlgebraEngine.Proofs.Simplify.Computation
import AlgebraEngine.Proofs.Simplify.Preservation

/-! The rules on vectors. They are laws of scalars, and two of them do not hold for vectors as the
evaluator computes with them. A sum keeps the components that only one operand has as they are, so
`-(a + b)` is not `(-a) - b` where `b` is the longer vector, and zero times a vector is a vector of
zeros, not zero. A tree in which neither can come up is regular, and on regular trees every rule
keeps what a node evaluates to. -/
namespace AlgebraEngine

namespace Expr

variable {ν : Type}

/-- Whether a tree is an atom behind any signs. -/
def isAtomic : Expr ν → Bool
  | atom _ => true
  | unary _ _ u => u.isAtomic
  | _ => false

/-- Whether rewriting can turn a tree into a multiple of an atom. -/
def isMultiple : Expr ν → Bool
  | binary _ .mul _ r => r.isAtomic
  | binary _ .add l r => l.isMultiple && r.isMultiple
  | binary _ .sub l r => l.isMultiple && r.isMultiple
  | unary _ _ u => u.isMultiple
  | _ => false

@[simp] theorem isAtomic_untagged (e : Expr ν) : e.untagged.isAtomic = e.isAtomic := by
  induction e with
  | number x | atom a | binary t o l r left right | call t f us inner
  | equality t side l r left right => rfl
  | unary t o u inner => exact inner

@[simp] theorem isMultiple_untagged (e : Expr ν) : e.untagged.isMultiple = e.isMultiple := by
  induction e with
  | number x | atom a | call t f us inner | equality t side l r left right => rfl
  | binary t o l r left right => cases o <;> simp [untagged, op, isMultiple, left, right]
  | unary t o u inner => exact inner

end Expr

namespace ExactAnalysis

variable {K : Type} [Field K] [DecidableEq K] (A : ExactAnalysis K)

/-- Where both operands are vectors, the right one has no components that the left one lacks. -/
def Covers (l r : Expr Exact) : Prop :=
  ∀ xs ys, A.Evaluates l (.vector xs) → A.Evaluates r (.vector ys) → ys.length ≤ xs.length

/-- A minus sign can be moved to the left operands of the sums and differences that a tree starts
with. -/
def Negatable : Expr Exact → Prop
  | .binary _ o l r => o = .add ∨ o = .sub → A.Covers l r ∧ Negatable l
  | .unary _ _ u => Negatable u
  | _ => True

/-- The first tree is no zero that multiplies a vector which can become a multiple of an atom. -/
def Scales (l r : Expr Exact) : Prop :=
  l.isAtomic = false → r.isMultiple = true → ∀ x ys, A.Evaluates l (.scalar x) →
    A.Evaluates r (.vector ys) → ∃ k, k ≠ 0 ∧ x = some k

/-- What the rules ask of a node: a minus sign stands in front of a tree it can be moved into, and
no zero multiplies a vector that can become a multiple of an atom. -/
def Fits : Expr Exact → Prop
  | .unary _ .minus u => A.Negatable u
  | .binary _ .mul l r => A.Scales l r ∧ A.Scales r l
  | _ => True

/-- A tree whose nodes are as the rules ask. -/
def Regular (e : Expr Exact) : Prop := ∀ u : Expr Exact, u.Occurs e → A.Fits u

variable {A} {t : Tags} {e l l' r r' u u' after : Expr Exact} {v : Value A.Number} {step : Step}

theorem regular_iff : A.Regular e ↔ A.Fits e ∧ ∀ u ∈ e.children, A.Regular u := by
  constructor
  · intro regular
    exact ⟨regular e (.here e), fun u member w occurs => regular w (.inside member occurs)⟩
  · rintro ⟨fits, inner⟩ w occurs
    cases occurs with
    | here => exact fits
    | inside member occurs => exact inner _ member w occurs

theorem Regular.fits (regular : A.Regular e) : A.Fits e := regular e (.here e)

@[simp] theorem regular_number (x : Exact) : A.Regular (.number x) := by
  rw [regular_iff]
  simp [Fits, Expr.children]

@[simp] theorem regular_atom (a : Atom) : A.Regular (.atom a) := by
  rw [regular_iff]
  simp [Fits, Expr.children]

theorem regular_binary {o : BinaryOp} :
    A.Regular (.binary t o l r) ↔ A.Fits (.binary t o l r) ∧ A.Regular l ∧ A.Regular r := by
  rw [regular_iff]
  simp [Expr.children]

theorem regular_unary {o : UnaryOp} :
    A.Regular (.unary t o u) ↔ A.Fits (.unary t o u) ∧ A.Regular u := by
  rw [regular_iff]
  simp [Expr.children]

theorem regular_call {f : Func} {us : List (Expr Exact)} :
    A.Regular (.call t f us) ↔ ∀ u ∈ us, A.Regular u := by
  rw [regular_iff]
  simp [Fits, Expr.children]

theorem covers_untagged : A.Covers l.untagged r.untagged ↔ A.Covers l r := by
  simp only [Covers, evaluates_untagged]

theorem negatable_untagged : A.Negatable e.untagged ↔ A.Negatable e := by
  induction e with
  | number x | atom a | call t f us inner | equality t side l r left right => rfl
  | binary t o l r left right =>
    simp only [Expr.untagged, Expr.op, Negatable, covers_untagged, left]
  | unary t o u inner => exact inner

theorem scales_untagged : A.Scales l.untagged r.untagged ↔ A.Scales l r := by
  simp only [Scales, evaluates_untagged, Expr.isAtomic_untagged, Expr.isMultiple_untagged]

theorem fits_untagged : A.Fits e.untagged ↔ A.Fits e := by
  cases e with
  | number x | atom a | call t f us | equality t side l r => rfl
  | binary t o l r => cases o <;> simp [Expr.untagged, Expr.op, Fits, scales_untagged]
  | unary t o u => cases o <;> simp [Expr.untagged, Expr.sign, Fits, negatable_untagged]

theorem regular_untagged : A.Regular e.untagged ↔ A.Regular e := by
  induction e using Expr.inductionOnChildren with
  | node e inner =>
    have children : e.untagged.children = e.children.map Expr.untagged := by
      cases e <;> simp [Expr.untagged, Expr.children, Expr.op, Expr.sign, Expr.apply, Expr.equal]
    rw [regular_iff, regular_iff (e := e), fits_untagged, children]
    refine and_congr_right fun _ => ?_
    simp only [List.forall_mem_map]
    exact forall₂_congr inner

/-! ## Laws of the evaluator -/

section Laws

variable {o : BinaryOp} {x y : A.Number} {xs ys : List A.Number}

theorem combine_distributes (sum : o = .add ∨ o = .sub) (k : A.Number) :
    Value.combine o (Value.combine .mul x k) (Value.combine .mul y k) =
      Value.combine .mul (Value.combine o x y) k := by
  simp only [combine_eq]
  match x, y, k with
  | none, _, _ => rfl
  | some x, none, none | some x, none, some k => rfl
  | some x, some y, none => rcases sum with rfl | rfl <;> rfl
  | some x, some y, some k =>
    rcases sum with rfl | rfl
    · exact congrArg some (add_mul x y k).symm
    · exact congrArg some (sub_mul x y k).symm

theorem combineShared_distributes (sum : o = .add ∨ o = .sub) (k : A.Number)
    (xs ys : List A.Number) :
    Value.combineShared o (xs.map (Value.combine .mul · k)) (ys.map (Value.combine .mul · k)) =
      (Value.combineShared o xs ys).map (Value.combine .mul · k) := by
  induction xs generalizing ys with
  | nil => simp only [List.map_nil, Value.combineShared]
  | cons x xs ih =>
    cases ys with
    | nil => rfl
    | cons y ys =>
      simp only [List.map_cons, Value.combineShared, combine_distributes sum, ih]

/-- The operation whose result is the negative one if its left operand is negated. -/
def opposite : BinaryOp → BinaryOp
  | .add => .sub
  | .sub => .add
  | o => o

theorem neg_combine (sum : o = .add ∨ o = .sub) :
    -Value.combine o x y = Value.combine (opposite o) (-x) y := by
  match x, y with
  | none, y => rcases sum with rfl | rfl <;> rfl
  | some x, none => rcases sum with rfl | rfl <;> rfl
  | some x, some y =>
    rcases sum with rfl | rfl
    · exact congrArg some (neg_add' x y)
    · exact congrArg some ((neg_sub x y).trans (neg_add_eq_sub x y).symm)

/-- Components that only the left vector has are negated with it, and there must be no others. -/
theorem neg_combineShared (sum : o = .add ∨ o = .sub) (covers : ys.length ≤ xs.length) :
    (Value.combineShared o xs ys).map (-·) = Value.combineShared (opposite o) (xs.map (-·)) ys := by
  induction xs generalizing ys with
  | nil =>
    obtain rfl := List.length_eq_zero_iff.mp (Nat.le_zero.mp covers)
    rfl
  | cons x xs ih =>
    cases ys with
    | nil => rfl
    | cons y ys =>
      simp only [List.map_cons, Value.combineShared, neg_combine sum,
        ih (Nat.le_of_succ_le_succ covers)]

theorem neg_neg_number (x : A.Number) : - -x = x := by
  match x with
  | none => rfl
  | some x => exact congrArg some (neg_neg x)

theorem unary_unary (v : Value A.Number) : (v.unary .minus).unary .minus = v := by
  cases v with
  | scalar x => exact congrArg Value.scalar (neg_neg_number x)
  | vector xs =>
    refine congrArg Value.vector ?_
    rw [List.map_map]
    exact (List.map_congr_left fun x _ => neg_neg_number x).trans (List.map_id xs)
  | symbolic text => rfl

/-- A sign moves to the left operand of a sum or difference of values where that is not the shorter
vector. -/
theorem neg_binary {v w u : Value A.Number} (sum : o = .add ∨ o = .sub)
    (covers : ∀ xs ys, v = .vector xs → w = .vector ys → ys.length ≤ xs.length)
    (combined : Value.binary o v w = .ok u) :
    Value.binary (opposite o) (v.unary .minus) w = .ok (u.unary .minus) := by
  cases v with
  | scalar x =>
    cases w with
    | scalar y =>
      cases combined
      exact congrArg (Except.ok ∘ Value.scalar) (neg_combine sum).symm
    | vector ys | symbolic text => rcases sum with rfl | rfl <;> cases combined
  | vector xs =>
    cases w with
    | vector ys =>
      have result := neg_combineShared sum (covers xs ys rfl rfl)
      rcases sum with rfl | rfl <;> cases combined <;>
        exact congrArg (Except.ok ∘ Value.vector) result.symm
    | scalar y | symbolic text => rcases sum with rfl | rfl <;> cases combined
  | symbolic text => rcases sum with rfl | rfl <;> cases w <;> cases combined

/-- The sum of two multiples of a number is a multiple of that number, be the multiples scalars or
vectors. -/
theorem binary_distributes {v w v' w' u : Value A.Number} {k : A.Number}
    (sum : o = .add ∨ o = .sub) (left : Value.binary .mul v (.scalar k) = .ok v')
    (right : Value.binary .mul w (.scalar k) = .ok w') (combined : Value.binary o v' w' = .ok u) :
    ∃ total, Value.binary o v w = .ok total ∧ Value.binary .mul total (.scalar k) = .ok u := by
  cases v with
  | scalar x =>
    cases left
    cases w with
    | scalar y =>
      cases right
      cases combined
      refine ⟨_, rfl, ?_⟩
      exact congrArg (Except.ok ∘ Value.scalar) (combine_distributes sum k).symm
    | vector ys =>
      cases right
      rcases sum with rfl | rfl <;> cases combined
    | symbolic text => cases right
  | vector xs =>
    cases left
    cases w with
    | vector ys =>
      cases right
      have result := combineShared_distributes sum k xs ys
      rcases sum with rfl | rfl <;> cases combined <;>
        exact ⟨_, rfl, congrArg (Except.ok ∘ Value.vector) result.symm⟩
    | scalar y =>
      cases right
      rcases sum with rfl | rfl <;> cases combined
    | symbolic text => cases right
  | symbolic text => cases left

end Laws

/-! ## Rules on vectors -/

/-- A minus sign moves to the left operand where that is not the shorter vector. -/
theorem negate_refinedBy {s : Tags} {o : BinaryOp} (sum : o = .add ∨ o = .sub)
    (covers : A.Covers l r) :
    A.RefinedBy (.unary t .minus (.binary s o l r)) (.op (opposite o) (.sign .minus l) r) := by
  intro v evaluates
  obtain ⟨w, inner, rfl⟩ := evaluates_unary.mp evaluates
  obtain ⟨x, y, left, right, combined⟩ := evaluates_binary.mp inner
  have negated : A.Evaluates (.sign .minus l) (x.unary .minus) :=
    evaluates_unary.mpr ⟨x, left, rfl⟩
  have result : Value.binary (opposite o) (x.unary .minus) y = .ok (w.unary .minus) := by
    refine neg_binary sum ?_ combined
    rintro xs ys rfl rfl
    exact covers xs ys left right
  exact ⟨_, evaluates_binary.mpr ⟨_, y, negated, right, result⟩, refined_refl evaluates.2⟩

/-- Two multiples of an atom have the multiple by the sum of their coefficients as their sum. -/
theorem combineLikeTerms_refinedBy {s s' : Tags} {o : BinaryOp} {c c' : Expr Exact} {a : Atom}
    (sum : o = .add ∨ o = .sub) :
    A.RefinedBy (.binary t o (.binary s .mul c (.atom a)) (.binary s' .mul c' (.atom a)))
      (.op .mul (.op o c c') (.atom a)) := by
  intro v evaluates
  obtain ⟨x, y, left, right, combined⟩ := evaluates_binary.mp evaluates
  obtain ⟨k, b, coefficient, atom, first⟩ := evaluates_binary.mp left
  obtain ⟨k', b', coefficient', atom', second⟩ := evaluates_binary.mp right
  obtain ⟨-, rfl⟩ := evaluates_atom.mp atom
  obtain ⟨-, rfl⟩ := evaluates_atom.mp atom'
  obtain ⟨total, added, result⟩ := binary_distributes sum first second combined
  have coefficients : A.Evaluates (.op o c c') total :=
    evaluates_binary.mpr ⟨k, k', coefficient, coefficient', added⟩
  exact ⟨v, evaluates_binary.mpr ⟨total, _, coefficients, atom, result⟩, refined_refl evaluates.2⟩

/-- What a zero can multiply so that it is left out is a scalar, unless it is a multiple of an atom
by a vector. -/
theorem scalar_of_scales {x : Exact} {w : Value A.Number} (zero : Fraction.isZero x = true)
    (symbolic : Rule.isSymbolic u = true) (scales : A.Scales (.number x) u)
    (evaluates : A.Evaluates u w) : ∃ y : A.Number, w = .scalar y := by
  cases w with
  | scalar y => exact ⟨y, rfl⟩
  | symbolic text => cases evaluates.2
  | vector ys =>
    have multiple : u.isMultiple = true := by
      cases u with
      | atom a =>
        obtain ⟨-, impossible⟩ := evaluates_atom.mp evaluates
        cases impossible
      | binary t o l r =>
        simp only [Rule.isSymbolic, Expr.atom?, Option.isSome_none, Bool.false_or,
          Option.isSome_iff_exists] at symbolic
        obtain ⟨⟨c, a⟩, term⟩ := symbolic
        obtain ⟨s, same⟩ := Expr.term?_eq_some term
        cases same
        rfl
      | number x | unary t o u | call t f us | equality t side l r => cases symbolic
    obtain ⟨k, nonzero, same⟩ :=
      scales rfl multiple _ ys (evaluates_number.mpr rfl) evaluates
    rw [Exact.isZero_iff.mp zero] at same
    have vanishes : (some ((0 : ℚ) : K) : Option K) = some k := same
    simp only [Rat.cast_zero, Option.some.injEq] at vanishes
    exact absurd vanishes.symm nonzero

/-- A product with zero is below zero, as it has no result only where the other factor has none. -/
theorem below_zero (y : A.Number) :
    Below (Value.combine .mul (A.read (.rational 0)) y) (A.read (.rational 0)) ∧
      Below (Value.combine .mul y (A.read (.rational 0))) (A.read (.rational 0)) := by
  rw [combine_eq, combine_eq]
  match y with
  | none => exact ⟨.inl rfl, .inl rfl⟩
  | some y =>
    have left : ((0 : ℚ) : K) * y = (0 : ℚ) := by rw [Rat.cast_zero, zero_mul]
    have right : y * ((0 : ℚ) : K) = (0 : ℚ) := by rw [Rat.cast_zero, mul_zero]
    exact ⟨.inr (congrArg some left), .inr (congrArg some right)⟩

private theorem evaluates_zero {x : Exact} (zero : Fraction.isZero x = true)
    (evaluates : A.Evaluates (.number x) v) : v = .scalar (A.read (.rational 0)) := by
  rw [Exact.isZero_iff.mp zero] at evaluates
  exact evaluates_number.mp evaluates

private theorem multiplyByZero_refinedBy {x : Exact} (zero : Fraction.isZero x = true)
    (symbolic : Rule.isSymbolic u = true) (scales : A.Scales (.number x) u) :
    A.RefinedBy (.binary t .mul (.number x) u) (.number (.rational 0)) ∧
      A.RefinedBy (.binary t .mul u (.number x)) (.number (.rational 0)) := by
  constructor
  · intro v evaluates
    obtain ⟨z, w, factor, other, combined⟩ := evaluates_binary.mp evaluates
    obtain rfl := evaluates_zero zero factor
    obtain ⟨y, rfl⟩ := scalar_of_scales zero symbolic scales other
    cases combined
    exact ⟨_, evaluates_number.mpr rfl, .scalar (below_zero y).1⟩
  · intro v evaluates
    obtain ⟨w, z, other, factor, combined⟩ := evaluates_binary.mp evaluates
    obtain rfl := evaluates_zero zero factor
    obtain ⟨y, rfl⟩ := scalar_of_scales zero symbolic scales other
    cases combined
    exact ⟨_, evaluates_number.mpr rfl, .scalar (below_zero y).2⟩

private theorem unary_plus (w : Value A.Number) : w.unary .plus = w := by
  cases w <;> rfl

private theorem arithmetical_of_rational {allowed : Atom → Prop} {n d : Exact}
    (rational : Rule.rational? e = some (n, d)) : e.Arithmetical allowed := by
  unfold Rule.rational? at rational
  split at rational
  · rename_i x number
    rw [Expr.number?_eq_some number]
    exact .number x
  · obtain ⟨s, rfl⟩ := Expr.fraction?_eq_some rational
    simp

/-- A multiple of an atom evaluates to a number only where the atom is a constant. -/
private theorem isConst_of_evaluates {s : Tags} {c : Expr Exact} {a : Atom}
    (evaluates : A.Evaluates (.unary t .minus (.binary s .mul c (.atom a))) v) : a.IsConst := by
  obtain ⟨w, inner, -⟩ := evaluates_unary.mp evaluates
  obtain ⟨x, y, -, atom, -⟩ := evaluates_binary.mp inner
  exact (evaluates_atom.mp atom).1

variable [CharZero K]

/-- Where a node is a tree of scalars, the laws of scalars are enough. -/
private theorem fires_refinedBy_of_shape (fires : Rule.Fires step e after)
    (shape : ∀ v, A.Evaluates e v → e.Arithmetical Atom.IsConst) : A.RefinedBy e after := by
  intro v evaluates
  have scalars := shape v evaluates
  exact refinedBy_of_refines scalars (Expr.fires_arithmetical fires scalars)
    (Interpretation.fires_refines fires) v evaluates

/-- Every rule keeps what a node evaluates to if the node is as the rules ask. -/
theorem fires_refinedBy (fires : Rule.Fires step e after) (fits : A.Fits e) :
    A.RefinedBy e after := by
  cases fires with
  | foldSum sum =>
    refine fires_refinedBy_of_shape (.foldSum sum) fun v _ => ?_
    rcases sum with rfl | rfl <;> simp
  | addFractions sum =>
    refine fires_refinedBy_of_shape (.addFractions sum) fun v _ => ?_
    rcases sum with rfl | rfl <;> simp
  | keepApart => exact refinedBy_refl _
  | combineLikeTerms sum => exact combineLikeTerms_refinedBy sum
  | foldProduct => exact fires_refinedBy_of_shape .foldProduct fun v _ => by simp
  | multiplyFractions => exact fires_refinedBy_of_shape .multiplyFractions fun v _ => by simp
  | zeroLeft zero symbolic => exact (multiplyByZero_refinedBy zero symbolic fits.1).1
  | zeroRight zero symbolic => exact (multiplyByZero_refinedBy zero symbolic fits.2).2
  | divideNumbers => exact fires_refinedBy_of_shape .divideNumbers fun v _ => by simp
  | divideByFraction rational =>
    refine fires_refinedBy_of_shape (.divideByFraction rational) fun v _ => ?_
    simpa using arithmetical_of_rational rational
  | removePlus =>
    intro v evaluates
    obtain ⟨x, inner, rfl⟩ := evaluates_unary.mp evaluates
    exact ⟨x, inner, by rw [unary_plus]; exact refined_refl inner.2⟩
  | negateConstant => exact fires_refinedBy_of_shape .negateConstant fun v _ => by simp
  | negateCoefficient =>
    refine fires_refinedBy_of_shape .negateCoefficient fun v evaluates => ?_
    simpa using isConst_of_evaluates evaluates
  | negateFraction =>
    refine fires_refinedBy_of_shape .negateFraction fun v evaluates => ?_
    simpa using isConst_of_evaluates evaluates
  | negateSum => exact negate_refinedBy (.inl rfl) (fits (.inl rfl)).1
  | negateDifference => exact negate_refinedBy (.inr rfl) (fits (.inr rfl)).1
  | cancelNegations =>
    intro v evaluates
    obtain ⟨x, outer, rfl⟩ := evaluates_unary.mp evaluates
    obtain ⟨y, inner, rfl⟩ := evaluates_unary.mp outer
    exact ⟨y, inner, by rw [unary_unary]; exact refined_refl inner.2⟩

end ExactAnalysis

end AlgebraEngine
