import AlgebraEngine.Number.Machine
import AlgebraEngine.Proofs.Eval.Level
import AlgebraEngine.Proofs.Expr.Unknowns

/-! When an evaluation ends with a text. A variable or an equality anywhere in an expression turns
the value of every node above it into a text, and nothing else does: an operator, a sign or a
function that meets a text gives back its own, and a vector has no place for one. -/
namespace AlgebraEngine

variable {ν : Type}

namespace Expr

/-- A variable or an equality occurs in the expression. -/
def Symbolic (e : Expr ν) : Prop :=
  (∃ x, Occurs (var x) e) ∨ ∃ t side l r, Occurs (equality t side l r) e

variable {t : Tags} {l r u : Expr ν}

@[simp] theorem not_symbolic_number (x : ν) : ¬(number x).Symbolic := by
  simp [Symbolic, var]

@[simp] theorem symbolic_var (name : String) : (var name : Expr ν).Symbolic :=
  .inl ⟨name, .here _⟩

@[simp] theorem not_symbolic_const (c : Constant) : ¬(const c : Expr ν).Symbolic := by
  simp [Symbolic, var, const]

@[simp] theorem symbolic_equality (side : Side) : (equality t side l r).Symbolic :=
  .inr ⟨t, side, l, r, .here _⟩

@[simp] theorem symbolic_binary {o : BinaryOp} :
    (binary t o l r).Symbolic ↔ l.Symbolic ∨ r.Symbolic := by
  simp only [Symbolic, var, occurs_binary, reduceCtorEq, false_or, exists_or]
  exact or_or_or_comm

@[simp] theorem symbolic_unary {o : UnaryOp} : (unary t o u).Symbolic ↔ u.Symbolic := by
  simp [Symbolic, var]

@[simp] theorem symbolic_call {f : Func} {us : List (Expr ν)} :
    (call t f us).Symbolic ↔ ∃ u ∈ us, u.Symbolic := by
  simp only [Symbolic, var, occurs_call, reduceCtorEq, false_or]
  constructor
  · rintro (⟨x, u, member, occurs⟩ | ⟨t', side, l, r, u, member, occurs⟩)
    · exact ⟨u, member, .inl ⟨x, occurs⟩⟩
    · exact ⟨u, member, .inr ⟨t', side, l, r, occurs⟩⟩
  · rintro ⟨u, member, ⟨x, occurs⟩ | ⟨t', side, l, r, occurs⟩⟩
    · exact .inl ⟨x, u, member, occurs⟩
    · exact .inr ⟨t', side, l, r, u, member, occurs⟩

end Expr

namespace Eval

variable {α β : Type} {P : α → Prop} {Q : β → Prop}

/-- Whatever value a computation ends with, in whatever context, has a property. -/
def Yields (P : α → Prop) (body : Eval ν α) : Prop := ∀ c v c', body c = .ok v c' → P v

theorem yields_pure {v : α} (holds : P v) : Yields P (pure v : Eval ν α) := by
  intro c w c' ended
  cases ended
  exact holds

theorem yields_throw (error : EvalError ν) : Yields P (throw error : Eval ν α) := nofun

theorem Yields.bind {body : Eval ν α} {next : α → Eval ν β} (first : Yields P body)
    (second : ∀ v, P v → Yields Q (next v)) : Yields Q (body >>= next) := by
  intro c w c' ended
  simp only [Bind.bind, EStateM.bind] at ended
  cases run : body c with
  | ok v d =>
    rw [run] at ended
    exact second v (first c v d run) d w c' ended
  | error error d =>
    rw [run] at ended
    cases ended

theorem Yields.inside {P : Value ν → Prop} {body : Eval ν (Value ν)} (yields : Yields P body)
    (e : Expr ν) : Yields P (inside e body) := by
  intro c v c' ended
  unfold Eval.inside at ended
  split at ended
  · cases ended
  · split at ended
    · rename_i run
      cases ended
      exact yields _ _ _ run
    · cases ended

variable [Analysis ν]

theorem yields_rounded {P : Value ν → Prop} (scalar : ∀ x, P (.scalar x)) (x : ν) :
    Yields P (rounded x) := by
  intro c v c' ended
  cases ended
  exact scalar _

/-- Functions of numbers give numbers. -/
theorem yields_applied {P : Value ν → Prop} (scalar : ∀ x, P (.scalar x)) (f : Func) (x : ν) :
    Yields P (applied f x) := by
  unfold applied
  split
  · exact yields_rounded scalar _
  · unfold factorial
    split
    · exact yields_throw _
    · rename_i n _
      by_cases negative : n < 0
      · rw [if_pos negative]
        exact (yields_throw (P := fun _ => False) _).bind nofun
      · rw [if_neg negative]
        intro c v c' ended
        cases ended
        exact scalar _

end Eval

open Eval

namespace Value

/-- No operator makes a text. Vectors have a product only at equal lengths, and the operands of the
last case have no value at all. -/
theorem isSymbolic_of_binary [Analysis ν] {o : BinaryOp} {left right v : Value ν}
    (combined : Value.binary o left right = .ok v) : v.isSymbolic = false := by
  unfold Value.binary at combined
  split at combined
  case h_2 =>
    split at combined
    · cases combined
      rfl
    · cases combined
  case h_9 => cases combined
  all_goals
    cases combined
    rfl

/-- A sign neither makes a text nor changes one. -/
theorem isSymbolic_unary [Analysis ν] (o : UnaryOp) (v : Value ν) :
    (v.unary o).isSymbolic = v.isSymbolic := by
  cases o <;> cases v <;> rfl

variable [Numeral ν] {v : Value ν} {e : Expr ν}

/-- A value is a text exactly if its expression is symbolic, and then it is the text of the
expression, unless that is an equality. -/
structure Reflects (v : Value ν) (e : Expr ν) : Prop where
  isSymbolic_iff : v.isSymbolic = true ↔ e.Symbolic
  eq_text : e.isEquality = false → v.isSymbolic = true → v = .symbolic e.text

theorem reflects_text (symbolic : e.Symbolic) : Reflects (.symbolic e.text) e :=
  ⟨iff_of_true rfl symbolic, fun _ _ => rfl⟩

theorem reflects_number (numeric : ¬e.Symbolic) (number : v.isSymbolic = false) : Reflects v e where
  isSymbolic_iff := by simp [number, numeric]
  eq_text := by simp [number]

end Value

namespace Expr

open Value

variable [Analysis ν]

/-- Components that have been evaluated are numbers, so none of them is symbolic. -/
theorem evalComponents_yields {us : List (Expr ν)}
    (each : ∀ u ∈ us, Yields (Reflects · u) u.eval) :
    Yields (fun _ => ∀ u ∈ us, ¬u.Symbolic) (evalComponents us) := by
  induction us with
  | nil => exact yields_pure nofun
  | cons u us ih =>
    have behind := ih fun v member => each v (List.mem_cons_of_mem _ member)
    refine (each u (by simp)).bind fun value reflects => ?_
    cases value with
    | scalar x =>
      have numeric : ¬u.Symbolic := by simp [← reflects.isSymbolic_iff, isSymbolic]
      exact behind.bind fun xs rest => yields_pure (List.forall_mem_cons.mpr ⟨numeric, rest⟩)
    | vector xs | symbolic text => exact yields_throw _

/-- Every value an expression can evaluate to reflects it. -/
theorem eval_yields (e : Expr ν) : Yields (Reflects · e) e.eval := by
  induction e with
  | number x =>
    rw [eval]
    exact (yields_rounded (fun _ => reflects_number (not_symbolic_number x) rfl) x).inside _
  | atom a =>
    cases a with
    | var name =>
      rw [eval]
      have reflects : Reflects (.symbolic name) (var name : Expr ν) := by
        simpa [var, text, Atom.symbol] using reflects_text (ν := ν) (symbolic_var name)
      exact (yields_pure (P := (Reflects · (var name))) reflects).inside _
    | const constant =>
      rw [eval]
      exact (yields_rounded (fun _ => reflects_number (not_symbolic_const constant) rfl) _).inside _
  | binary t o l r left right =>
    rw [eval]
    refine (left.bind fun x first => right.bind fun y second => ?_).inside _
    have either : (x.isSymbolic || y.isSymbolic) = true ↔ (binary t o l r).Symbolic := by
      rw [Bool.or_eq_true, first.isSymbolic_iff, second.isSymbolic_iff, symbolic_binary]
    by_cases symbolic : (x.isSymbolic || y.isSymbolic) = true
    · rw [if_pos symbolic]
      exact yields_pure (reflects_text (either.mp symbolic))
    · rw [if_neg symbolic]
      split
      · rename_i combined
        exact yields_pure
          (reflects_number (mt either.mpr symbolic) (isSymbolic_of_binary combined))
      · exact yields_throw _
  | unary t o u inner =>
    rw [eval]
    refine (inner.bind fun x operand => ?_).inside _
    by_cases symbolic : x.isSymbolic = true
    · rw [if_pos symbolic]
      exact yields_pure (reflects_text (symbolic_unary.mpr (operand.isSymbolic_iff.mp symbolic)))
    · rw [if_neg symbolic]
      have numeric : ¬(unary t o u).Symbolic := by
        rwa [symbolic_unary, ← operand.isSymbolic_iff]
      refine yields_pure (reflects_number numeric ?_)
      rw [isSymbolic_unary, Bool.eq_false_iff]
      exact symbolic
  | call t f us inner =>
    by_cases vector : f = .vector
    · subst vector
      rw [eval]
      refine ((evalComponents_yields inner).bind fun xs numbers => ?_).inside _
      have numeric : ¬(call t .vector us).Symbolic := by simpa using numbers
      exact yields_pure (reflects_number numeric rfl)
    · by_cases single : us.length = 1
      · obtain ⟨u, rfl⟩ := List.length_eq_one_iff.mp single
        rw [eval]
        · refine ((inner u (by simp)).bind fun value operand => ?_).inside _
          have same : (call t f [u]).Symbolic ↔ value.isSymbolic = true := by
            simp [operand.isSymbolic_iff]
          cases value with
          | scalar x =>
            exact yields_applied (fun _ => reflects_number (by simp [same, isSymbolic]) rfl) f x
          | symbolic text => exact yields_pure (reflects_text (same.mpr rfl))
          | vector xs => exact yields_throw _
        · exact vector
      · rw [eval_miscounted vector single]
        exact (yields_throw _).inside _
  | equality t side l r left right =>
    rw [eval]
    refine (left.bind fun x _ => right.bind fun y _ => yields_pure ?_).inside _
    refine ⟨iff_of_true rfl (symbolic_equality side), ?_⟩
    intro plain
    cases plain

/-- Texts are the values of symbolic expressions, and of no others. In whatever context an expression
is evaluated, if it has a value, then that is a text if and only if a variable or an equality occurs
in the expression, and for any expression but an equality the text is that of the whole
expression. -/
theorem eval_symbolic_iff {e : Expr ν} {c c' : Context ν} {v : Value ν}
    (ended : e.eval c = .ok v c') :
    (v.type = .symbolic ↔
      (∃ x, Occurs (var x) e) ∨ ∃ t side l r, Occurs (equality t side l r) e) ∧
    (e.isEquality = false → v.type = .symbolic → v = .symbolic e.text) := by
  have reflects := e.eval_yields c v c' ended
  have type : v.type = .symbolic ↔ v.isSymbolic = true := by
    cases v <;> simp [Value.type, isSymbolic]
  rw [type]
  exact ⟨reflects.isSymbolic_iff, reflects.eq_text⟩

/-- Below other nodes, in a context that remembers a factorial, `-[1, e] * sqrt(2 = x)` evaluates to
its own text: the vector on the left is taken up by it, and so is the equality on the right. -/
theorem eval_symbolic_iff_product :
    let product : Expr Binary64 :=
      op .mul (sign .minus (apply .vector [number (.ofInt 1), const .e]))
        (apply .sqrt [equal (number (.ofInt 2)) (var "x")])
    let c : Context Binary64 := ⟨3, [(2, .ofInt 2)], 5⟩
    product.eval c = .ok (.symbolic product.text) c ∧
      ((Value.symbolic product.text : Value Binary64).type = .symbolic ↔
        (∃ x, Occurs (var x) product) ∨ ∃ t side l r, Occurs (equality t side l r) product) := by
  intro product c
  have rounds (x : Binary64) (c : Context Binary64) :
      rounded x c = .ok (.scalar (Analysis.round c.precision x)) c := rfl
  have ended : product.eval c = .ok (.symbolic product.text) c := by
    simp [product, c, op, sign, apply, equal, const, var, eval, evalComponents, inside, rounds,
      isSymbolic, Value.unary, bind, EStateM.bind, pure, EStateM.pure]
  exact ⟨ended, (eval_symbolic_iff ended).1⟩

end Expr

end AlgebraEngine
