import AlgebraEngine.Proofs.Simplify.Derivation

/-! The passes of a simplification next to the trees that they were made on. Each pass sweeps what
the one before it has left, so each of these trees is derived from the one that was given. -/
namespace AlgebraEngine

variable {ν : Type}

/-- What a pass leaves is derived from the tree it was made on, whatever that tree had cached. -/
theorem Sweep.Sound.derived_of_tagged [BEq ν] {book : RuleBook ν} {e : Expr ν}
    {s : Sweep ν (Expr ν)} (sound : Sound book e.tagged s) :
    Derivation book (s.rewrites.map Rewrite.step) e.untagged s.result.untagged := by
  have derived := sound.derived
  rwa [Expr.untagged_tagged] at derived

namespace Simplification

/-- The passes of a simplification of `e`, each behind the tree that it was made on. -/
def passesFrom (s : Simplification ν) (e : Expr ν) : List (Expr ν × Sweep ν (Expr ν)) :=
  (e :: s.passes.map Sweep.result).zip s.passes

variable [BEq ν] {book : RuleBook ν} {limit : Nat} {e before : Expr ν} {pass : Sweep ν (Expr ν)}

/-- The first pass is made on the tree that was given, and the others are those of the rest. -/
theorem passesFrom_run_succ (limit : Nat) (e : Expr ν) :
    (run book (limit + 1) e).passesFrom e =
      (e, Sweep.ofExpr book e.tagged) ::
        if (Sweep.ofExpr book e.tagged).changed then
          (run book limit (Sweep.ofExpr book e.tagged).result).passesFrom
            (Sweep.ofExpr book e.tagged).result
        else [] := by
  cases changed : (Sweep.ofExpr book e.tagged).changed <;> simp [run, changed, passesFrom]

theorem mem_passesFrom (made : (before, pass) ∈ (run book limit e).passesFrom e) :
    pass = Sweep.ofExpr book before.tagged ∧
      ∃ steps, Derivation book steps e.untagged before.untagged := by
  induction limit generalizing e with
  | zero => cases made
  | succ limit ih =>
    rw [passesFrom_run_succ, List.mem_cons] at made
    rcases made with first | later
    · cases first
      exact ⟨rfl, [], .done _⟩
    · split at later
      · have sound : Sweep.Sound book e.tagged _ :=
          Sweep.ofExpr_sound e.tagged (Expr.fresh_tagged e)
        obtain ⟨swept, steps, derived⟩ := ih later
        exact ⟨swept, _, sound.derived_of_tagged.append derived⟩
      · cases later

/-- A run makes no more passes than its limit allows. -/
theorem length_passes_le (book : RuleBook ν) (limit : Nat) (e : Expr ν) :
    (run book limit e).passes.length ≤ limit := by
  induction limit generalizing e with
  | zero => exact Nat.le_refl 0
  | succ limit ih =>
    simp only [run]
    split
    · exact Nat.succ_le_succ (ih _)
    · exact Nat.succ_le_succ (Nat.zero_le limit)

/-- What a pass promises about the tree that it was made on. -/
theorem sound_of_mem_passesFrom (made : (before, pass) ∈ (run book limit e).passesFrom e) :
    Sweep.Sound book before.tagged pass := by
  rw [(mem_passesFrom made).1]
  exact Sweep.ofExpr_sound before.tagged (Expr.fresh_tagged before)

end Simplification

end AlgebraEngine
