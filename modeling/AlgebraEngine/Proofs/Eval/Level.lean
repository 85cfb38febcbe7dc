import AlgebraEngine.Eval.Evaluate
import AlgebraEngine.Proofs.Expr.Untagged

/-! The level of an evaluation. Whatever happens below a node, the level is the same before and
after it, and nothing is refused for its depth there, so an expression is refused for its depth
exactly if the check in front of its evaluation refuses it. -/
namespace AlgebraEngine

variable {ν : Type}

namespace Context

theorem level_extend [Analysis ν] (c : Context ν) (count k : Nat) (product : ν) :
    (c.extend count k product).2.level = c.level := by
  induction count generalizing c k product with
  | zero => rfl
  | succ count ih => exact ih _ _ _

theorem level_remember (c : Context ν) (n : Nat) (result : ν) :
    (c.remember n result).level = c.level := by
  unfold remember
  split <;> rfl

theorem level_factorial [Analysis ν] (c : Context ν) (n : Nat) :
    (c.factorial n).2.level = c.level := by
  unfold factorial
  split
  · rfl
  · split
    · rfl
    · rw [level_remember, level_extend]

end Context

namespace Eval

/-- Below a node a computation leaves the level as it was, and refuses nothing for its depth. -/
def Keeps {α : Type} (body : Eval ν α) : Prop :=
  ∀ c, 0 < c.level →
    match body c with
    | .ok _ c' => c'.level = c.level
    | .error error c' => c'.level = c.level ∧ ∀ tooDeep, error ≠ .tooDeep tooDeep

variable {α β : Type}

theorem keeps_pure (value : α) : Keeps (pure value : Eval ν α) := fun _ _ => rfl

theorem keeps_throw {error : EvalError ν} (other : ∀ tooDeep, error ≠ .tooDeep tooDeep) :
    Keeps (throw error : Eval ν α) := fun _ _ => ⟨rfl, other⟩

theorem Keeps.bind {body : Eval ν α} {next : α → Eval ν β} (first : Keeps body)
    (second : ∀ value, Keeps (next value)) : Keeps (body >>= next) := by
  intro c inside
  have here := first c inside
  simp only [Bind.bind, EStateM.bind]
  cases run : body c with
  | ok value c' =>
    rw [run] at here
    have there := second value c' (here ▸ inside)
    dsimp only
    cases run' : next value c' with
    | ok value' c'' =>
      rw [run'] at there
      exact there.trans here
    | error error c'' =>
      rw [run'] at there
      exact ⟨there.1.trans here, there.2⟩
  | error error c' =>
    rw [run] at here
    exact here

theorem Keeps.inside {body : Eval ν (Value ν)} (keeps : Keeps body) (e : Expr ν) :
    Keeps (inside e body) := by
  intro c inside
  have below := keeps { c with level := c.level + 1 } (Nat.succ_pos _)
  simp only [Eval.inside, if_neg (Nat.pos_iff_ne_zero.mp inside)]
  cases run : body { c with level := c.level + 1 } with
  | ok value c' =>
    rw [run] at below
    exact Nat.sub_eq_of_eq_add below
  | error error c' =>
    rw [run] at below
    exact ⟨Nat.sub_eq_of_eq_add below.1, below.2⟩

variable [Analysis ν]

theorem keeps_rounded (x : ν) : Keeps (rounded x) := fun _ _ => rfl

theorem keeps_factorial (x : ν) : Keeps (factorial x) := by
  unfold factorial
  split
  · exact keeps_throw (by simp)
  · rename_i n _
    intro c inside
    by_cases negative : n < 0
    · simp only [if_pos negative]
      exact ⟨rfl, by simp⟩
    · simp only [if_neg negative]
      exact Context.level_factorial c n.toNat

theorem keeps_applied (f : Func) (x : ν) : Keeps (applied f x) := by
  unfold applied
  split
  · exact keeps_rounded _
  · exact keeps_factorial x

end Eval

/-- What an operator can have against its operands: the lengths of vectors, or their types. -/
theorem Value.binary_error [Analysis ν] {o : BinaryOp} {left right : Value ν}
    {error : EvalError ν} (failed : Value.binary o left right = .error error) :
    (∃ m n, error = .lengthMismatch m n) ∨ error = .invalidOperands o left.type right.type := by
  unfold Value.binary at failed
  split at failed
  case h_2 =>
    split at failed <;> cases failed
    exact .inl ⟨_, _, rfl⟩
  case h_9 =>
    cases failed
    exact .inr rfl
  all_goals cases failed

open Eval

namespace Expr

variable [Analysis ν]

theorem evalComponents_keeps {us : List (Expr ν)} (each : ∀ u ∈ us, Keeps u.eval) :
    Keeps (evalComponents us) := by
  induction us with
  | nil => exact keeps_pure []
  | cons u us ih =>
    have behind := ih fun v member => each v (List.mem_cons_of_mem _ member)
    refine (each u (by simp)).bind fun value => ?_
    split
    · exact behind.bind fun xs => keeps_pure _
    · exact keeps_throw (by simp)

/-- A call with more or fewer than one argument is refused, unless it is a vector. -/
theorem eval_miscounted {t : Tags} {f : Func} {us : List (Expr ν)} (function : f ≠ .vector)
    (count : us.length ≠ 1) :
    (call t f us).eval = inside (.call t f us) (throw (.argumentCount f us.length)) := by
  rw [eval]
  · exact function
  · rintro u rfl
    exact count rfl

/-- An expression is evaluated inside itself. -/
theorem eval_inside (e : Expr ν) : ∃ body, Keeps body ∧ e.eval = inside e body := by
  have keeps {u : Expr ν} (evaluated : ∃ body, Keeps body ∧ u.eval = inside u body) :
      Keeps u.eval := by
    obtain ⟨body, keeps, same⟩ := evaluated
    exact same ▸ keeps.inside u
  induction e with
  | number x => exact ⟨_, keeps_rounded x, by rw [eval]⟩
  | atom a =>
    cases a with
    | var name => exact ⟨_, keeps_pure (.symbolic name), by rw [eval]; rfl⟩
    | const constant => exact ⟨_, keeps_rounded constant.value, by rw [eval]; rfl⟩
  | binary t o l r left right =>
    refine ⟨_, ?_, by rw [eval]⟩
    refine (keeps left).bind fun x => (keeps right).bind fun y => ?_
    split
    · exact keeps_pure _
    · split
      · exact keeps_pure _
      · rename_i error failed
        rcases Value.binary_error failed with ⟨m, n, rfl⟩ | rfl <;> exact keeps_throw (by simp)
  | unary t o u inner =>
    refine ⟨_, ?_, by rw [eval]⟩
    refine (keeps inner).bind fun x => ?_
    split
    · exact keeps_pure _
    · exact keeps_pure _
  | call t f us inner =>
    by_cases vector : f = .vector
    · subst vector
      refine ⟨_, ?_, by rw [eval]⟩
      exact (evalComponents_keeps fun u member => keeps (inner u member)).bind fun _ => keeps_pure _
    · by_cases single : us.length = 1
      · obtain ⟨u, rfl⟩ := List.length_eq_one_iff.mp single
        refine ⟨_, ?_, by rw [eval]; exact vector⟩
        refine (keeps (inner u (by simp))).bind fun value => ?_
        split
        · exact keeps_applied _ _
        · exact keeps_pure _
        · exact keeps_throw (by simp)
      · exact ⟨_, keeps_throw (by simp), eval_miscounted vector single⟩
  | equality t side l r left right =>
    refine ⟨_, ?_, by rw [eval]⟩
    exact (keeps left).bind fun x => (keeps right).bind fun y => keeps_pure _

/-- An evaluation is refused for its depth exactly if the expression is too deep. -/
theorem value_tooDeep_iff {precision : Nat} {e : Expr ν} {tooDeep : TooDeep} :
    e.value precision = .error (.tooDeep tooDeep) ↔ checkDepth e = .error tooDeep := by
  obtain ⟨body, keeps, evaluated⟩ := eval_inside e
  have below := keeps ⟨precision, [], 1⟩ Nat.one_pos
  rw [value, evaluated, EStateM.run]
  simp only [inside, Context.fresh, if_true]
  cases checkDepth e with
  | error deep => simp
  | ok _ =>
    dsimp only
    cases run : body ⟨precision, [], 1⟩ with
    | ok value c => simp
    | error error c =>
      rw [run] at below
      simpa using below.2 tooDeep

end Expr

end AlgebraEngine
