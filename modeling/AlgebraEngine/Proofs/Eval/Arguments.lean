import AlgebraEngine.Proofs.Eval.Level
import AlgebraEngine.Proofs.Expr.Unknowns

/-! Where errors of an evaluation come from. An error is raised at a node, or else below it, so that
a wrong number of arguments is reported only for a call that has it. -/
namespace AlgebraEngine

variable {ν : Type}

namespace Eval

variable {α β : Type} {allowed : EvalError ν → Prop}

/-- Whatever error a computation ends with is one of those allowed. -/
def Raises (allowed : EvalError ν → Prop) (body : Eval ν α) : Prop :=
  ∀ c error c', body c = .error error c' → allowed error

theorem raises_pure (value : α) : Raises allowed (pure value : Eval ν α) := nofun

theorem raises_throw {error : EvalError ν} (allows : allowed error) :
    Raises allowed (throw error : Eval ν α) := by
  intro c error' c' failed
  cases failed
  exact allows

theorem Raises.mono {body : Eval ν α} {more : EvalError ν → Prop} (raises : Raises allowed body)
    (weaker : ∀ error, allowed error → more error) : Raises more body :=
  fun c error c' failed => weaker error (raises c error c' failed)

theorem Raises.bind {body : Eval ν α} {next : α → Eval ν β} (first : Raises allowed body)
    (second : ∀ value, Raises allowed (next value)) : Raises allowed (body >>= next) := by
  intro c error c' failed
  simp only [Bind.bind, EStateM.bind] at failed
  cases run : body c with
  | ok value c'' =>
    rw [run] at failed
    exact second value c'' error c' failed
  | error error' c'' =>
    rw [run] at failed
    cases failed
    exact first c error c' run

theorem Raises.inside {body : Eval ν (Value ν)} (raises : Raises allowed body) (e : Expr ν)
    (deep : ∀ tooDeep, allowed (.tooDeep tooDeep)) : Raises allowed (inside e body) := by
  intro c error c' failed
  unfold Eval.inside at failed
  split at failed
  · cases failed
    exact deep _
  · split at failed
    · cases failed
    · rename_i run
      cases failed
      exact raises _ _ _ run

variable [Analysis ν]

theorem raises_rounded (x : ν) : Raises allowed (rounded x) := nofun

/-- A factorial is refused for its operand only. -/
theorem raises_factorial (x : ν) (fractional : allowed (.nonIntegerFactorial x))
    (negative : allowed (.negativeFactorial x)) : Raises allowed (factorial x) := by
  unfold factorial
  split
  · exact raises_throw fractional
  · rename_i n _
    by_cases below : n < 0
    · rw [if_pos below]
      exact (raises_throw negative).bind fun _ => nofun
    · rw [if_neg below]
      nofun

end Eval

open Eval

namespace Expr

/-- An error that blames the number of arguments blames a call in the tree, which is neither a
vector nor has one argument. -/
def Accounts (e : Expr ν) (error : EvalError ν) : Prop :=
  ∀ f n, error = .argumentCount f n →
    f ≠ .vector ∧ n ≠ 1 ∧ ∃ t us, Occurs (.call t f us) e ∧ us.length = n

variable {e u : Expr ν} {error : EvalError ν}

theorem accounts_other (other : ∀ f n, error ≠ .argumentCount f n) : e.Accounts error :=
  fun f n same => absurd same (other f n)

theorem Accounts.of_child (accounts : u.Accounts error) (member : u ∈ e.children) :
    e.Accounts error := by
  intro f n same
  obtain ⟨function, count, t, us, occurs, length⟩ := accounts f n same
  exact ⟨function, count, t, us, .inside member occurs, length⟩

variable [Analysis ν]

theorem evalComponents_raises {us : List (Expr ν)} {allowed : EvalError ν → Prop}
    (each : ∀ u ∈ us, Raises allowed u.eval)
    (component : ∀ found, allowed (.invalidComponent found)) :
    Raises allowed (evalComponents us) := by
  induction us with
  | nil => exact raises_pure []
  | cons u us ih =>
    have behind := ih fun v member => each v (List.mem_cons_of_mem _ member)
    refine (each u (by simp)).bind fun value => ?_
    split
    · exact behind.bind fun xs => raises_pure _
    · exact raises_throw (component _)

/-- Evaluating a tree blames no number of arguments but that of a call in it. -/
theorem eval_raises (e : Expr ν) : Raises e.Accounts e.eval := by
  have deep (e : Expr ν) (tooDeep : TooDeep) : e.Accounts (.tooDeep tooDeep) :=
    accounts_other (by simp)
  have below {u e : Expr ν} (inner : Raises u.Accounts u.eval) (member : u ∈ e.children) :
      Raises e.Accounts u.eval := inner.mono fun _ accounts => accounts.of_child member
  induction e with
  | number x =>
    rw [eval]
    exact (raises_rounded x).inside _ (deep _)
  | atom a =>
    cases a with
    | var name =>
      rw [eval]
      exact (raises_pure _).inside _ (deep _)
    | const constant =>
      rw [eval]
      exact (raises_rounded _).inside _ (deep _)
  | binary t o l r left right =>
    rw [eval]
    refine Raises.inside ?_ _ (deep _)
    refine (below left (by simp [children])).bind fun x => ?_
    refine (below right (by simp [children])).bind fun y => ?_
    split
    · exact raises_pure _
    · split
      · exact raises_pure _
      · rename_i failed
        rcases Value.binary_error failed with ⟨m, n, rfl⟩ | rfl <;>
          exact raises_throw (accounts_other (by simp))
  | unary t o u inner =>
    rw [eval]
    refine Raises.inside ?_ _ (deep _)
    refine (below inner (by simp [children])).bind fun x => ?_
    split <;> exact raises_pure _
  | call t f us inner =>
    by_cases vector : f = .vector
    · subst vector
      rw [eval]
      have components : Raises (call t .vector us).Accounts (evalComponents us) :=
        evalComponents_raises (fun u member => below (inner u member) member)
          fun found => accounts_other (by simp)
      exact (components.bind fun _ => raises_pure _).inside _ (deep _)
    · by_cases single : us.length = 1
      · obtain ⟨u, rfl⟩ := List.length_eq_one_iff.mp single
        rw [eval]
        · refine Raises.inside ?_ _ (deep _)
          refine (below (inner u (by simp)) (by simp [children])).bind fun value => ?_
          split
          · unfold applied
            split
            · exact raises_rounded _
            · exact raises_factorial _ (accounts_other (by simp)) (accounts_other (by simp))
          · exact raises_pure _
          · exact raises_throw (accounts_other (by simp))
        · exact vector
      · rw [eval_miscounted vector single]
        refine (raises_throw ?_).inside _ (deep _)
        rintro _ _ ⟨⟩
        exact ⟨vector, single, t, us, .here _, rfl⟩
  | equality t side l r left right =>
    rw [eval]
    refine Raises.inside ?_ _ (deep _)
    exact (below left (by simp [children])).bind fun x =>
      (below right (by simp [children])).bind fun y => raises_pure _

end Expr

end AlgebraEngine
