import AlgebraEngine.Proofs.Eval.Outcome

/-! The history of a context. Every call leaves the memory of a context sound and its level at
zero, also one that fails, so an evaluation in a context that has been used before ends as it does
in a fresh one. -/
namespace AlgebraEngine

variable {ν : Type}

/-- A call on a context. -/
inductive ContextCall (ν : Type) where
  /-- Evaluates an expression, which can fail. -/
  | eval (e : Expr ν)
  /-- Computes a factorial. -/
  | factorial (n : Nat)
  /-- Rounds a number. -/
  | round (x : ν)
  /-- Sets the precision. -/
  | precision (places : Nat)

namespace Context

open Eval

variable [Analysis ν] {c : Context ν}

/-- The context that a call leaves behind. -/
def after (c : Context ν) : ContextCall ν → Context ν
  | .eval e => (e.eval.ends c).2
  | .factorial n => (c.factorial n).2
  | .round _ => c
  | .precision places => { c with precision := places }

/-- The context that calls, one after the other, leave behind of a fresh one. -/
def reached (precision : Nat) (calls : List (ContextCall ν)) : Context ν :=
  calls.foldl after (fresh precision)

/-- Whether a context can be used for an evaluation: its memory is sound and nothing is being
evaluated. -/
structure Ready (c : Context ν) : Prop where
  sound : c.Sound
  outside : c.level = 0

theorem ready_fresh (precision : Nat) : Ready (fresh precision : Context ν) :=
  ⟨sound_fresh precision, rfl⟩

theorem Ready.after (ready : c.Ready) (call : ContextCall ν) : (c.after call).Ready := by
  cases call with
  | eval e =>
    obtain ⟨-, continues⟩ := e.eval_ends ready.sound ready.outside
    exact ⟨continues.sound, continues.level.trans ready.outside⟩
  | factorial n => exact ⟨(ready.sound.factorial n).2, (level_factorial c n).trans ready.outside⟩
  | round x => exact ready
  | precision places => exact ⟨ready.sound, ready.outside⟩

theorem ready_reached (precision : Nat) (calls : List (ContextCall ν)) :
    (reached precision calls).Ready := by
  have run : ∀ c : Context ν, c.Ready → (calls.foldl Context.after c).Ready := by
    induction calls with
    | nil => exact fun c ready => ready
    | cons call calls ih => exact fun c ready => ih (c.after call) (ready.after call)
  exact run _ (ready_fresh precision)

/-- Two contexts that are ready and have the same precision cannot be told apart by an
evaluation. -/
theorem Ready.eval_congr {c' : Context ν} (ready : c.Ready) (ready' : c'.Ready)
    (same : c.precision = c'.precision) (e : Expr ν) : (e.eval.ends c).1 = (e.eval.ends c').1 := by
  rw [(e.eval_ends ready.sound ready.outside).1, (e.eval_ends ready'.sound ready'.outside).1, same]

/-- What a context was used for has no part in an evaluation. After any calls, failed ones among
them, an expression evaluates to the same value or error as in a fresh context of the same
precision, the refusal of an expression that is too deep included, and the level is zero
afterwards. -/
theorem eval_ignores_history (precision : Nat) (calls : List (ContextCall ν)) (e : Expr ν) :
    (e.eval.ends (reached precision calls)).1 =
        (e.eval.ends (fresh (reached precision calls).precision)).1 ∧
      (e.eval.ends (reached precision calls)).2.level = 0 := by
  have ready := ready_reached precision calls
  refine ⟨ready.eval_congr (ready_fresh _) rfl e, ?_⟩
  exact (ready.after (.eval e)).outside

end Context

end AlgebraEngine
