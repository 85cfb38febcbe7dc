import Mathlib.Data.List.Forall2
import AlgebraEngine.Number.Machine
import AlgebraEngine.Proofs.Eval.Outcome
import AlgebraEngine.Proofs.Expr.Measures
import AlgebraEngine.Proofs.Expr.Unknowns

/-! What an evaluation decides without looking at numbers: whether there is a value, the type of the
value and the number of its components, and otherwise the error with all that it tells. Only
factorials look at their operand. -/
namespace AlgebraEngine

variable {ν : Type}

namespace Expr

/-- Two trees with the same nodes and the same variables. Their numbers are any numbers and their
constants any constants, and what they cache does not matter. -/
inductive Alike : Expr ν → Expr ν → Prop where
  | number (x y : ν) : Alike (.number x) (.number y)
  | var (name : String) : Alike (.var name) (.var name)
  | const (a b : Constant) : Alike (.const a) (.const b)
  | binary {t t' : Tags} {o : BinaryOp} {l l' r r' : Expr ν} (left : Alike l l')
      (right : Alike r r') : Alike (.binary t o l r) (.binary t' o l' r')
  | unary {t t' : Tags} {o : UnaryOp} {u u' : Expr ν} (operand : Alike u u') :
      Alike (.unary t o u) (.unary t' o u')
  | call {t t' : Tags} {f : Func} {us vs : List (Expr ν)} (count : us.length = vs.length)
      (arguments : ∀ u v, (u, v) ∈ us.zip vs → Alike u v) : Alike (.call t f us) (.call t' f vs)
  | equality {t t' : Tags} {s s' : Side} {l l' r r' : Expr ν} (left : Alike l l')
      (right : Alike r r') : Alike (.equality t s l r) (.equality t' s' l' r')

theorem heightOfList_eq_of_forall₂ {us vs : List (Expr ν)}
    (each : List.Forall₂ (fun u v => u.height = v.height) us vs) :
    heightOfList us = heightOfList vs := by
  induction each with
  | nil => rfl
  | cons first _ ih => simp [heightOfList, first, ih]

/-- Trees that are alike are equally high, so that one is too deep exactly if the other is. -/
theorem Alike.height_eq {e e' : Expr ν} (alike : Alike e e') : e.height = e'.height := by
  induction alike with
  | number | var | const => rfl
  | binary _ _ left right | equality _ _ left right => simp [height, left, right]
  | unary _ inner => simp [height, inner]
  | call count _ inner =>
    have each := List.forall₂_iff_zip.mpr ⟨count, fun {u v} => inner u v⟩
    simp [height, heightOfList_eq_of_forall₂ each]

theorem Alike.checkDepth_eq {e e' : Expr ν} (alike : Alike e e') :
    checkDepth e = checkDepth e' := by
  unfold checkDepth
  rw [depth_eq_height, depth_eq_height, alike.height_eq]

end Expr

/-- Two values of one type. Vectors have equally many components as well. -/
inductive Value.Alike : Value ν → Value ν → Prop where
  | scalar (x y : ν) : Alike (.scalar x) (.scalar y)
  | vector {xs ys : List ν} (count : xs.length = ys.length) : Alike (.vector xs) (.vector ys)
  | symbolic (s t : String) : Alike (.symbolic s) (.symbolic t)

namespace Eval

variable {α β : Type} {R : α → α → Prop} {S : β → β → Prop}

/-- Two evaluations both end with a value, and the values are related, or they end with the same
error. -/
inductive EndAlike (R : α → α → Prop) :
    Except (EvalError ν) α → Except (EvalError ν) α → Prop where
  | value {v w : α} (related : R v w) : EndAlike R (.ok v) (.ok w)
  | error (error : EvalError ν) : EndAlike R (.error error) (.error error)

/-- Two computations end alike in any two contexts that are both outside of an evaluation or both
below a node, and leave the levels as they were. -/
def RunAlike (R : α → α → Prop) (body body' : Eval ν α) : Prop :=
  ∀ c c' : Context ν, (c.level = 0 ↔ c'.level = 0) →
    EndAlike R (body.ends c).1 (body'.ends c').1 ∧
      (body.ends c).2.level = c.level ∧ (body'.ends c').2.level = c'.level

theorem runAlike_pure {v w : α} (related : R v w) :
    RunAlike R (pure v : Eval ν α) (pure w) :=
  fun _ _ _ => ⟨.value related, rfl, rfl⟩

theorem runAlike_throw (error : EvalError ν) :
    RunAlike R (throw error : Eval ν α) (throw error) :=
  fun _ _ _ => ⟨.error error, rfl, rfl⟩

theorem RunAlike.bind {body body' : Eval ν α} {next next' : α → Eval ν β}
    (first : RunAlike R body body')
    (second : ∀ v w, R v w → RunAlike S (next v) (next' w)) :
    RunAlike S (body >>= next) (body' >>= next') := by
  intro c c' levels
  obtain ⟨alike, kept, kept'⟩ := first c c' levels
  unfold ends at alike kept kept' ⊢
  simp only [Bind.bind, EStateM.bind]
  cases run : body c with
  | ok v d =>
    cases run' : body' c' with
    | ok w d' =>
      simp only [run, run'] at alike kept kept'
      cases alike with
      | value related =>
        obtain ⟨alike', further, further'⟩ := second v w related d d' (kept ▸ kept' ▸ levels)
        exact ⟨alike', further.trans kept, further'.trans kept'⟩
    | error error d' =>
      simp only [run, run'] at alike
      cases alike
  | error error d =>
    cases run' : body' c' with
    | ok w d' =>
      simp only [run, run'] at alike
      cases alike
    | error error' d' =>
      simp only [run, run'] at alike kept kept'
      cases alike with
      | error => exact ⟨.error error, kept, kept'⟩

/-- A node that is refused for its depth is refused alike with its counterpart. -/
theorem RunAlike.inside {body body' : Eval ν (Value ν)} {e e' : Expr ν}
    (below : RunAlike Value.Alike body body') (alike : e.Alike e') :
    RunAlike Value.Alike (inside e body) (inside e' body') := by
  intro c c' levels
  obtain ⟨here, kept, kept'⟩ :=
    below { c with level := c.level + 1 } { c' with level := c'.level + 1 } (by simp)
  have check : (if c.level = 0 then checkDepth e else .ok ()) =
      if c'.level = 0 then checkDepth e' else .ok () := by
    rw [alike.checkDepth_eq, if_congr levels rfl rfl]
  cases accepted : (if c.level = 0 then checkDepth e else .ok ()) with
  | ok _ =>
    rw [ends_inside accepted, ends_inside (check ▸ accepted)]
    exact ⟨here, Nat.sub_eq_of_eq_add kept, Nat.sub_eq_of_eq_add kept'⟩
  | error tooDeep =>
    have refused := check ▸ accepted
    simp only [ends, Eval.inside, accepted, refused]
    exact ⟨.error _, trivial, trivial⟩

variable [Analysis ν]

theorem runAlike_rounded (x y : ν) : RunAlike Value.Alike (rounded x) (rounded y) :=
  fun _ _ _ => ⟨.value (.scalar _ _), rfl, rfl⟩

end Eval

namespace Value

variable {v w l l' r r' : Value ν}

theorem Alike.isSymbolic_eq (alike : Alike v w) : v.isSymbolic = w.isSymbolic := by
  cases alike <;> rfl

variable [Analysis ν]

theorem length_combineShared (o : BinaryOp) (xs ys : List ν) :
    (combineShared o xs ys).length = max xs.length ys.length := by
  induction xs generalizing ys with
  | nil => simp [combineShared]
  | cons x xs ih =>
    cases ys with
    | nil => simp [combineShared]
    | cons y ys => simp [combineShared, ih]

/-- A sign keeps the type of a value. -/
theorem Alike.unary (alike : Alike v w) (o : UnaryOp) : Alike (v.unary o) (w.unary o) := by
  cases alike with
  | scalar => cases o <;> exact .scalar _ _
  | vector count =>
    cases o with
    | plus => exact .vector count
    | minus => exact .vector (by simpa using count)
  | symbolic => cases o <;> exact .symbolic _ _

/-- What an operator makes of two values depends on their types and lengths, and on nothing else. -/
theorem Alike.binary (left : Alike l l') (right : Alike r r') (o : BinaryOp) :
    Eval.EndAlike Alike (Value.binary o l r) (Value.binary o l' r') := by
  cases left with
  | scalar =>
    cases right with
    | scalar => exact .value (.scalar _ _)
    | vector count =>
      cases o with
      | mul | div => exact .value (.vector (by simpa using count))
      | add | sub | mod | pow => exact .error _
    | symbolic => exact .error _
  | vector count =>
    cases right with
    | scalar =>
      cases o with
      | mul | div => exact .value (.vector (by simpa using count))
      | add | sub | mod | pow => exact .error _
    | vector count' =>
      cases o with
      | mul =>
        simp only [Value.binary, ← count, ← count']
        split
        · exact .value (.scalar _ _)
        · exact .error _
      | add | sub => exact .value (.vector (by simp [length_combineShared, count, count']))
      | div | mod | pow => exact .error _
    | symbolic => cases o <;> exact .error _
  | symbolic => cases right <;> cases o <;> exact .error _

end Value

open Eval

namespace Expr

/-- No factorial stands in a tree. -/
def FactorialFree (e : Expr ν) : Prop := ∀ t us, ¬Occurs (.call t .factorial us) e

theorem FactorialFree.operand {u e : Expr ν} (free : e.FactorialFree) (member : u ∈ e.children) :
    u.FactorialFree :=
  fun t us occurs => free t us (.inside member occurs)

variable [Analysis ν]

theorem evalComponents_runAlike {us vs : List (Expr ν)}
    (each : List.Forall₂ (fun u v => RunAlike Value.Alike u.eval v.eval) us vs) :
    RunAlike (fun xs ys => xs.length = ys.length) (evalComponents us) (evalComponents vs) := by
  induction each with
  | nil => exact runAlike_pure rfl
  | cons first _ ih =>
    simp only [evalComponents]
    refine first.bind fun v w alike => ?_
    cases alike with
    | scalar => exact ih.bind fun xs ys count => runAlike_pure (congrArg Nat.succ count)
    | vector | symbolic => exact runAlike_throw _

/-- A function other than the factorial makes a scalar of every scalar. -/
theorem applied_runAlike {f : Func} (vector : f ≠ .vector) (factorial : f ≠ .factorial) (x y : ν) :
    RunAlike Value.Alike (applied f x) (applied f y) := by
  cases f with
  | sqrt | abs | sin | cos | tan | ln => exact runAlike_rounded _ _
  | vector => exact absurd rfl vector
  | factorial => exact absurd rfl factorial

theorem Alike.runAlike {e e' : Expr ν} (alike : Alike e e') (free : e.FactorialFree) :
    RunAlike Value.Alike e.eval e'.eval := by
  induction alike with
  | number x y =>
    rw [eval, eval]
    exact (runAlike_rounded x y).inside (.number x y)
  | var name =>
    rw [Expr.var, eval]
    exact (runAlike_pure (.symbolic name name)).inside (.var name)
  | const a b =>
    rw [Expr.const, Expr.const, eval, eval]
    exact (runAlike_rounded a.value b.value).inside (.const a b)
  | @binary _ _ o _ _ _ _ left right inner inner' =>
    rw [eval, eval]
    refine RunAlike.inside ?_ (.binary left right)
    refine (inner (free.operand (by simp [children]))).bind fun v w first => ?_
    refine (inner' (free.operand (by simp [children]))).bind fun v' w' second => ?_
    rw [← first.isSymbolic_eq, ← second.isSymbolic_eq]
    split
    · exact runAlike_pure (.symbolic _ _)
    · have combined := first.binary second o
      generalize Value.binary o v v' = x at combined ⊢
      generalize Value.binary o w w' = y at combined ⊢
      cases combined with
      | value value => exact runAlike_pure value
      | error error => exact runAlike_throw error
  | unary operand inner =>
    rw [eval, eval]
    refine RunAlike.inside ?_ (.unary operand)
    refine (inner (free.operand (by simp [children]))).bind fun v w value => ?_
    rw [← value.isSymbolic_eq]
    split
    · exact runAlike_pure (.symbolic _ _)
    · exact runAlike_pure (value.unary _)
  | @call t t' f us vs count arguments inner =>
    have operand {u v : Expr ν} (member : (u, v) ∈ us.zip vs) :
        RunAlike Value.Alike u.eval v.eval :=
      inner u v member (free.operand (List.of_mem_zip member).1)
    by_cases vector : f = .vector
    · subst vector
      rw [eval, eval]
      refine RunAlike.inside ?_ (.call count arguments)
      refine (evalComponents_runAlike (List.forall₂_iff_zip.mpr ⟨count, operand⟩)).bind ?_
      exact fun xs ys same => runAlike_pure (.vector same)
    · have factorial : f ≠ .factorial := by
        rintro rfl
        exact free t us (.here _)
      by_cases single : us.length = 1
      · obtain ⟨u, rfl⟩ := List.length_eq_one_iff.mp single
        obtain ⟨v, rfl⟩ := List.length_eq_one_iff.mp (count ▸ single)
        rw [eval, eval]
        · refine RunAlike.inside ?_ (.call count arguments)
          refine (operand (by simp)).bind fun v w value => ?_
          cases value with
          | scalar x y => exact applied_runAlike vector factorial x y
          | vector => exact runAlike_throw _
          | symbolic => exact runAlike_pure (.symbolic _ _)
        · exact vector
        · exact vector
      · rw [eval_miscounted vector single, eval_miscounted vector (count ▸ single), count]
        exact (runAlike_throw _).inside (.call count arguments)
  | equality left right inner inner' =>
    rw [eval, eval]
    refine RunAlike.inside ?_ (.equality left right)
    refine (inner (free.operand (by simp [children]))).bind fun v w _ => ?_
    refine (inner' (free.operand (by simp [children]))).bind fun v' w' _ => ?_
    exact runAlike_pure (.symbolic _ _)

/-- Evaluation is typed by the shape of an expression. Two expressions without factorials that only
differ in their numbers and constants both evaluate to values of one type, vectors to equally many
components, or are both refused with the same error, at any two precisions and in any two contexts.
-/
theorem eval_alike {e e' : Expr ν} (alike : e.Alike e') (free : e.FactorialFree) :
    (∀ precision precision' : Nat,
      EndAlike Value.Alike (e.value precision) (e'.value precision')) ∧
    ∀ c c' : Context ν, (c.level = 0 ↔ c'.level = 0) →
      EndAlike Value.Alike (e.eval.ends c).1 (e'.eval.ends c').1 := by
  have runs := alike.runAlike free
  have fresh (e : Expr ν) (precision : Nat) :
      e.value precision = (e.eval.ends (.fresh precision)).1 := by
    unfold value ends EStateM.run
    cases e.eval (.fresh precision) <;> rfl
  refine ⟨fun precision precision' => ?_, fun c c' levels => (runs c c' levels).1⟩
  rw [fresh, fresh]
  exact (runs (.fresh precision) (.fresh precision') Iff.rfl).1

/-- `1 / [0, e]` and `0 / [1, pi]` evaluate alike, whatever the quotients are. -/
theorem eval_alike_quotient :
    let quotient (x y : Binary64) (c : Constant) : Expr Binary64 :=
      op .div (number x) (apply .vector [number y, const c])
    let zero := Arithmetic.ofInt 0
    let one := Arithmetic.ofInt 1
    (quotient one zero .e).Alike (quotient zero one .pi) ∧ (quotient one zero .e).FactorialFree ∧
      EndAlike Value.Alike ((quotient one zero .e).value 8) ((quotient zero one .pi).value 2) := by
  intro quotient zero one
  have alike : (quotient one zero .e).Alike (quotient zero one .pi) := by
    refine .binary (.number _ _) (.call rfl ?_)
    simp only [List.zip_cons_cons, List.zip_nil_right, List.mem_cons, List.not_mem_nil, or_false]
    rintro u v (⟨rfl, rfl⟩ | ⟨rfl, rfl⟩)
    · exact .number _ _
    · exact .const _ _
  have free : (quotient one zero .e).FactorialFree := by
    simp [FactorialFree, quotient, op, apply, const]
  exact ⟨alike, free, (eval_alike alike free).1 8 2⟩

end Expr

end AlgebraEngine
