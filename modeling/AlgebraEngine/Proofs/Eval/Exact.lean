import AlgebraEngine.Proofs.Eval.Outcome
import AlgebraEngine.Proofs.Expr.Arithmetical
import AlgebraEngine.Proofs.Expr.Meaning
import AlgebraEngine.Proofs.Expr.Measures
import AlgebraEngine.Proofs.Expr.Text

/-! Evaluation with exact arithmetic. The evaluator runs on numbers of a field, with none for what
has no result, and nothing is rounded. -/
namespace AlgebraEngine

namespace Expr

variable {ν μ : Type}

mutual

/-- A tree with another number in the place of each one. -/
def map (f : ν → μ) : Expr ν → Expr μ
  | number x => number (f x)
  | atom a => atom a
  | binary t o l r => binary t o (l.map f) (r.map f)
  | unary t o u => unary t o (u.map f)
  | call t g us => call t g (mapList f us)
  | equality t side l r => equality t side (l.map f) (r.map f)

/-- A list of arguments with another number in the place of each one. -/
def mapList (f : ν → μ) : List (Expr ν) → List (Expr μ)
  | [] => []
  | u :: us => u.map f :: mapList f us

end

@[simp] theorem mapList_eq (f : ν → μ) (us : List (Expr ν)) : mapList f us = us.map (map f) := by
  induction us with
  | nil => rfl
  | cons u us ih => simp [mapList, ih]

theorem map_untagged (f : ν → μ) (e : Expr ν) : e.untagged.map f = (e.map f).untagged := by
  induction e with
  | number x | atom a => rfl
  | binary t o l r left right => simp [untagged, map, op, left, right]
  | unary t o u inner => simp [untagged, map, sign, inner]
  | call t g us inner => simpa [untagged, map, apply] using inner
  | equality t side l r left right => simp [untagged, map, equal, left, right]

@[simp] theorem height_map (f : ν → μ) (e : Expr ν) : (e.map f).height = e.height := by
  induction e with
  | number x | atom a => rfl
  | binary t o l r left right | equality t side l r left right => simp [map, height, left, right]
  | unary t o u inner => simp [map, height, inner]
  | call t g us inner =>
    have same : heightOfList (us.map (map f)) = heightOfList us := by
      induction us with
      | nil => rfl
      | cons u us ih =>
        have rest := ih fun v member => inner v (List.mem_cons_of_mem _ member)
        simp only [List.map_cons, heightOfList, inner u (by simp), rest]
    simp [map, height, same]

@[simp] theorem depth_map (f : ν → μ) (e : Expr ν) : (e.map f).depth = e.depth := by
  rw [depth_eq_height, depth_eq_height, height_map]

section Outcome

variable [Analysis ν] {precision : Nat}

theorem outcome_vector (t : Tags) (us : List (Expr ν)) :
    (call t .vector us).outcome precision = (outcomes precision us).bind (.ok <| .vector ·) := by
  rw [outcome]
  rfl

theorem outcome_call (t : Tags) {f : Func} (u : Expr ν) (scalar : f ≠ .vector) :
    (call t f [u]).outcome precision = (u.outcome precision).bind fun
      | .scalar x => f.outcome precision x
      | .symbolic _ => .ok (.symbolic (call t f [u]).text)
      | .vector _ => .error (.invalidArgument f .vector) := by
  rw [outcome]
  · rfl
  · exact scalar

theorem outcomes_congr {g : Expr ν → Expr ν} {us : List (Expr ν)}
    (same : ∀ u ∈ us, (g u).outcome precision = u.outcome precision) :
    outcomes precision (us.map g) = outcomes precision us := by
  induction us with
  | nil => rfl
  | cons u us ih =>
    have rest := ih fun v member => same v (List.mem_cons_of_mem _ member)
    simp only [List.map_cons, outcomes, same u (by simp), rest]

/-- Caches have no part in what an evaluation ends with. -/
theorem outcome_untagged (e : Expr ν) : e.untagged.outcome precision = e.outcome precision := by
  induction e with
  | number x | atom a => rfl
  | binary t o l r left right =>
    have text := text_untagged (binary t o l r)
    simp only [untagged, op] at text ⊢
    simp only [outcome, left, right, text]
  | unary t o u inner =>
    have text := text_untagged (unary t o u)
    simp only [untagged, sign] at text ⊢
    simp only [outcome, inner, text]
  | call t f us inner =>
    have text := text_untagged (call t f us)
    simp only [untagged, untaggedList_eq, apply] at text ⊢
    by_cases vector : f = .vector
    · subst vector
      rw [outcome_vector, outcome_vector, outcomes_congr inner]
    · rcases us with - | ⟨u, - | ⟨v, us⟩⟩
      · simp [outcome]
      · simp only [List.map_cons, List.map_nil] at text ⊢
        rw [outcome_call _ _ vector, outcome_call _ _ vector, inner u (by simp), text]
      · simp [outcome]
  | equality t side l r left right => simp [untagged, equal, outcome, left, right]

end Outcome

end Expr

deriving instance DecidableEq for Value, EvalError

/-- What evaluating with exact arithmetic asks of a field beyond the interpretation of symbols:
which of its numbers are integers. -/
structure ExactAnalysis (K : Type) extends Interpretation K where
  integer? : K → Option Int

namespace ExactAnalysis

variable {K : Type} [Field K] [DecidableEq K]

/-- A number of the field, or none where there is no result. -/
def Number (_ : ExactAnalysis K) : Type := Option K

variable (A : ExactAnalysis K)

/-- An operation on two numbers. It has no result where an operand is missing. -/
def lift (o : BinaryOp) (x y : A.Number) : A.Number :=
  Option.bind x fun x => Option.bind y fun y => A.operate o x y

/-- A function of a number. -/
def call₁ (f : Func) (x : A.Number) : A.Number := Option.bind x fun x => A.call f [x]

instance : DecidableEq A.Number := inferInstanceAs (DecidableEq (Option K))

/-- Nothing is rounded, and what would be infinite has no result. The evaluation of trees without
variables never writes a number and never asks for its sign. -/
instance : Analysis A.Number where
  toBEq := instBEqOfDecidableEq
  add := A.lift .add
  sub := A.lift .sub
  mul := A.lift .mul
  div := A.lift .div
  neg := Option.map (Interpretation.signed .minus)
  ofInt n := some (n : K)
  abs := A.call₁ .abs
  toInt? x := Option.bind x A.integer?
  isFinite := Option.isSome
  isNegative _ := false
  ofDecimal d := some (d.digits * (10 : K) ^ d.exponent)
  text _ := ""
  outline _ := ""
  isSigned _ := false
  euler := some (A.atom (.const .e))
  pi := some (A.atom (.const .pi))
  infinity := none
  rem := A.lift .mod
  pow := A.lift .pow
  sqrt := A.call₁ .sqrt
  sin := A.call₁ .sin
  cos := A.call₁ .cos
  tan := A.call₁ .tan
  ln := A.call₁ .ln
  round _ x := x

/-- A literal as a number of the field. -/
def read (x : Exact) : A.Number := x.value?.map fun q : ℚ => (q : K)

/-- What an evaluation with exact arithmetic ends with. -/
def outcome (e : Expr Exact) : Except (EvalError A.Number) (Value A.Number) :=
  (e.map A.read).outcome 0

/-- The value of a tree with exact arithmetic, as the evaluator gives it in a fresh context. -/
def value (e : Expr Exact) : Except (EvalError A.Number) (Value A.Number) :=
  (e.map A.read).value 0

/-- A tree that is shallow enough has the value it evaluates to. -/
theorem value_eq_outcome {e : Expr Exact} (shallow : e.depth ≤ maxDepth) :
    A.value e = A.outcome e :=
  Expr.value_eq_outcome (by rwa [Expr.depth_map])

theorem outcome_untagged (e : Expr Exact) : A.outcome e.untagged = A.outcome e := by
  rw [outcome, Expr.map_untagged, Expr.outcome_untagged, outcome]

variable {A} {t : Tags} {l r u : Expr Exact}

theorem outcome_number (x : Exact) : A.outcome (.number x) = .ok (.scalar (A.read x)) := by
  rw [outcome, Expr.map, Expr.outcome]
  rfl

theorem outcome_const (c : Constant) :
    A.outcome (.atom (.const c)) = .ok (.scalar (some (A.atom (.const c)))) := by
  rw [outcome, Expr.map, Expr.outcome]
  cases c <;> rfl

theorem outcome_binary {o : BinaryOp} :
    A.outcome (.binary t o l r) = (A.outcome l).bind fun x => (A.outcome r).bind fun y =>
      if x.isSymbolic || y.isSymbolic then
        .ok (.symbolic (Expr.map A.read (.binary t o l r)).text)
      else Value.binary o x y := by
  simp only [outcome, Expr.map, Expr.outcome]
  rfl

theorem outcome_unary {o : UnaryOp} :
    A.outcome (.unary t o u) = (A.outcome u).bind fun x =>
      if x.isSymbolic then .ok (.symbolic (Expr.map A.read (.unary t o u)).text)
      else .ok (x.unary o) := by
  simp only [outcome, Expr.map, Expr.outcome]
  rfl

end ExactAnalysis

end AlgebraEngine
