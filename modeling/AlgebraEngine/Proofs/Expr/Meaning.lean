import AlgebraEngine.Proofs.Number.Exact
import AlgebraEngine.Proofs.Expr.Unknowns

/-! The value of a tree over a field. Numbers stand for themselves and the four operations are those
of the field; everything that is not rational arithmetic is left open. A tree has no value where a
literal is not rational, a divisor is zero or an open function has none, and an equality never has
one. -/
namespace AlgebraEngine

/-- What the symbols of a tree stand for: a value for every atom, and a partial function for every
operation that the rules never carry out. -/
structure Interpretation (K : Type*) where
  atom : Atom → K
  rem : K → K → Option K
  pow : K → K → Option K
  call : Func → List K → Option K

namespace Interpretation

variable {K : Type*} [Field K] [DecidableEq K] (I : Interpretation K)

/-- The value of an operation on two values, where it has one. -/
def operate : BinaryOp → K → K → Option K
  | .add, x, y => some (x + y)
  | .sub, x, y => some (x - y)
  | .mul, x, y => some (x * y)
  | .div, x, y => if y = 0 then none else some (x / y)
  | .mod, x, y => I.rem x y
  | .pow, x, y => I.pow x y

/-- The value behind a sign. -/
def signed : UnaryOp → K → K
  | .plus, x => x
  | .minus, x => -x

mutual

/-- The value of a tree, where it has one. -/
def meaning : Expr Exact → Option K
  | .number x => x.value?.map fun q : ℚ => (q : K)
  | .atom a => some (I.atom a)
  | .binary _ o l r => (meaning l).bind fun x => (meaning r).bind fun y => I.operate o x y
  | .unary _ o u => (meaning u).map (signed o)
  | .call _ f us => (meanings us).bind (I.call f)
  | .equality .. => none

/-- The values of arguments, where all of them have one. -/
def meanings : List (Expr Exact) → Option (List K)
  | [] => some []
  | u :: us => (meaning u).bind fun x => (meanings us).map (x :: ·)

end

attribute [grind =] meaning meanings

/-- A tree that has every value another one has. It can have a value where the other has none. -/
def Refines (e e' : Expr Exact) : Prop := ∀ v, I.meaning e = some v → I.meaning e' = some v

variable {I} {e e' l l' r r' u u' : Expr Exact} {v : K}

theorem meaning_number {x : Exact} :
    I.meaning (.number x) = some v ↔ ∃ q, x = .rational q ∧ (q : K) = v := by
  cases x <;> simp [meaning, Exact.value?]

theorem meaning_binary {t : Tags} {o : BinaryOp} :
    I.meaning (.binary t o l r) = some v ↔
      ∃ x y, I.meaning l = some x ∧ I.meaning r = some y ∧ I.operate o x y = some v := by
  simp only [meaning, Option.bind_eq_some_iff]
  constructor
  · rintro ⟨x, left, y, right, result⟩
    exact ⟨x, y, left, right, result⟩
  · rintro ⟨x, y, left, right, result⟩
    exact ⟨x, left, y, right, result⟩

theorem meaning_unary {t : Tags} {o : UnaryOp} :
    I.meaning (.unary t o u) = some v ↔ ∃ x, I.meaning u = some x ∧ signed o x = v := by
  simp only [meaning, Option.map_eq_some_iff]

theorem meaning_call {t : Tags} {f : Func} :
    I.meaning (.call t f [u]) = some v ↔ ∃ x, I.meaning u = some x ∧ I.call f [x] = some v := by
  simp [meaning, meanings, Option.bind_eq_some_iff]

theorem meaning_ofInt [CharZero K] (n : ℤ) :
    I.meaning (.number (Arithmetic.ofInt n)) = some (n : K) := by
  simp [meaning, Exact.value?]

theorem operate_div {x y : K} : I.operate .div x y = some v ↔ y ≠ 0 ∧ x / y = v := by
  simp [operate]

theorem meaning_fraction [CharZero K] {t : Tags} {n d : Exact} :
    I.meaning (.binary t .div (.number n) (.number d)) = some v ↔
      ∃ p q : ℚ, n = .rational p ∧ d = .rational q ∧ q ≠ 0 ∧ ((p / q : ℚ) : K) = v := by
  simp only [meaning_binary, meaning_number, operate_div]
  constructor
  · rintro ⟨x, y, ⟨p, rfl, rfl⟩, ⟨q, rfl, rfl⟩, nonzero, result⟩
    exact ⟨p, q, rfl, rfl, by simpa using nonzero, by simpa using result⟩
  · rintro ⟨p, q, rfl, rfl, nonzero, result⟩
    exact ⟨p, q, ⟨p, rfl, rfl⟩, ⟨q, rfl, rfl⟩, by simpa using nonzero, by simpa using result⟩

theorem meaning_term {t : Tags} {c : Expr Exact} {a : Atom} :
    I.meaning (.binary t .mul c (.atom a)) = some v ↔
      ∃ x, I.meaning c = some x ∧ x * I.atom a = v := by
  simp [meaning, operate, Option.bind_eq_some_iff]

theorem meaning_op {x y : K} (o : BinaryOp) (left : I.meaning l = some x)
    (right : I.meaning r = some y) : I.meaning (.op o l r) = I.operate o x y := by
  simp [Expr.op, meaning, left, right]

private theorem meaning_of_argument {us : List (Expr Exact)} {values : List K}
    (all : I.meanings us = some values) (member : u ∈ us) : ∃ x, I.meaning u = some x := by
  induction us generalizing values with
  | nil => cases member
  | cons w us ih =>
    simp only [meanings, Option.bind_eq_some_iff, Option.map_eq_some_iff] at all
    obtain ⟨x, here, rest, there, -⟩ := all
    rcases List.mem_cons.mp member with rfl | member
    · exact ⟨x, here⟩
    · exact ih there member

/-- A tree that has a value has one for every tree below it. -/
theorem meaning_of_occurs (occurs : e'.Occurs e) (value : I.meaning e = some v) :
    ∃ x, I.meaning e' = some x := by
  induction occurs generalizing v with
  | here => exact ⟨v, value⟩
  | @inside u e member _ ih =>
    cases e with
    | number x | atom a => cases member
    | binary t o l r =>
      obtain ⟨x, y, left, right, -⟩ := meaning_binary.mp value
      simp only [Expr.children, List.mem_cons, List.not_mem_nil, or_false] at member
      rcases member with rfl | rfl
      · exact ih left
      · exact ih right
    | unary t o w =>
      obtain ⟨x, inner, -⟩ := meaning_unary.mp value
      obtain rfl := List.mem_singleton.mp member
      exact ih inner
    | call t f us =>
      simp only [meaning, Option.bind_eq_some_iff] at value
      obtain ⟨values, all, -⟩ := value
      obtain ⟨x, inner⟩ := meaning_of_argument all member
      exact ih inner
    | equality t side l r => cases value

/-- Caches have no part in the value of a tree. -/
@[simp] theorem meaning_untagged (e : Expr Exact) : I.meaning e.untagged = I.meaning e := by
  induction e with
  | number x | atom a => rfl
  | binary t o l r left right => simp [Expr.untagged, Expr.op, meaning, left, right]
  | unary t o u inner => simp [Expr.untagged, Expr.sign, meaning, inner]
  | call t f us inner =>
    have same : I.meanings (us.map Expr.untagged) = I.meanings us := by
      induction us with
      | nil => rfl
      | cons u us ih =>
        have others := ih fun v member => inner v (List.mem_cons_of_mem _ member)
        simp [meanings, inner u (by simp), others]
    simp [Expr.untagged, Expr.apply, meaning, same]
  | equality t side l r => rfl

@[simp] theorem meaning_tagged (e : Expr Exact) : I.meaning e.tagged = I.meaning e := by
  rw [← meaning_untagged, Expr.untagged_tagged, meaning_untagged]

theorem Refines.refl (e : Expr Exact) : I.Refines e e := fun _ value => value

theorem Refines.trans {m : Expr Exact} (first : I.Refines e m) (second : I.Refines m e') :
    I.Refines e e' := fun v value => second v (first v value)

theorem Refines.op {o : BinaryOp} (left : I.Refines l l') (right : I.Refines r r') :
    I.Refines (.op o l r) (.op o l' r') := by
  intro v value
  obtain ⟨x, y, valueLeft, valueRight, result⟩ := meaning_binary.mp value
  exact meaning_binary.mpr ⟨x, y, left x valueLeft, right y valueRight, result⟩

theorem Refines.sign {o : UnaryOp} (inner : I.Refines u u') :
    I.Refines (.sign o u) (.sign o u') := by
  intro v value
  obtain ⟨x, valueInner, result⟩ := meaning_unary.mp value
  exact meaning_unary.mpr ⟨x, inner x valueInner, result⟩

private theorem meanings_replace (us vs : List (Expr Exact)) (inner : I.Refines u u')
    {values : List K} (all : I.meanings (us ++ u :: vs) = some values) :
    I.meanings (us ++ u' :: vs) = some values := by
  induction us generalizing values with
  | nil =>
    simp only [List.nil_append, meanings, Option.bind_eq_some_iff] at all ⊢
    obtain ⟨x, value, rest⟩ := all
    exact ⟨x, inner x value, rest⟩
  | cons w us ih =>
    simp only [List.cons_append, meanings, Option.bind_eq_some_iff, Option.map_eq_some_iff] at all ⊢
    obtain ⟨x, value, rest, found, result⟩ := all
    exact ⟨x, value, rest, ih found, result⟩

theorem Refines.apply (f : Func) (us vs : List (Expr Exact)) (inner : I.Refines u u') :
    I.Refines (.apply f (us ++ u :: vs)) (.apply f (us ++ u' :: vs)) := by
  intro v value
  simp only [Expr.apply, meaning, Option.bind_eq_some_iff] at value ⊢
  obtain ⟨values, all, result⟩ := value
  exact ⟨values, meanings_replace us vs inner all, result⟩

/-- The interpretation that gives a variable another value. -/
def assign (I : Interpretation K) (x : String) (v : K) : Interpretation K :=
  { I with atom := fun a => if a = .var x then v else I.atom a }

@[simp] theorem meaning_assign_var (x : String) (v : K) :
    (I.assign x v).meaning (.atom (.var x)) = some v := by
  simp [meaning, assign]

/-- The value of a tree without variables does not depend on any. -/
theorem meaning_assign {x : String} (free : e.unknowns = 0) :
    (I.assign x v).meaning e = I.meaning e := by
  induction e with
  | number value => rfl
  | atom a =>
    cases a with
    | var name => simp [Expr.unknowns] at free
    | const c => simp [meaning, assign]
  | binary t o l r left right =>
    obtain ⟨leftFree, rightFree⟩ := Nat.add_eq_zero_iff.mp free
    have operates : (I.assign x v).operate o = I.operate o := by
      cases o <;> rfl
    simp only [meaning, left leftFree, right rightFree, operates]
  | unary t o u inner => simp only [meaning, inner free]
  | call t f us inner =>
    have same : (I.assign x v).meanings us = I.meanings us := by
      induction us with
      | nil => rfl
      | cons u us ih =>
        obtain ⟨here, there⟩ := Nat.add_eq_zero_iff.mp free
        have others := ih (fun w member => inner w (List.mem_cons_of_mem _ member)) there
        simp only [meanings, inner u (by simp) here, others]
    simp only [meaning, same]
    rfl
  | equality t side l r => rfl

end Interpretation

end AlgebraEngine
