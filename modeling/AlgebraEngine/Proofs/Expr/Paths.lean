import Mathlib.Order.Bounds.Defs
import AlgebraEngine.Proofs.Expr.Measures

/-! The paths of a tree, from its root to its leaves. The depth that is found with a list of pending
subtrees is the length of the longest of them, for calls with any number of arguments and for any
number of visits that is enough to look at every node. -/
namespace AlgebraEngine.Expr

variable {ν : Type}

/-- The nodes on the way from the root of a tree down to one of its leaves. A call without arguments
is a leaf. -/
inductive Path : Expr ν → List (Expr ν) → Prop where
  | number (value : ν) : Path (number value) [number value]
  | atom (a : Atom) : Path (atom a) [atom a]
  | leftOperand {t : Tags} {o : BinaryOp} {l r : Expr ν} {path : List (Expr ν)}
      (below : Path l path) : Path (binary t o l r) (binary t o l r :: path)
  | rightOperand {t : Tags} {o : BinaryOp} {l r : Expr ν} {path : List (Expr ν)}
      (below : Path r path) : Path (binary t o l r) (binary t o l r :: path)
  | operand {t : Tags} {o : UnaryOp} {u : Expr ν} {path : List (Expr ν)}
      (below : Path u path) : Path (unary t o u) (unary t o u :: path)
  | bare (t : Tags) (f : Func) : Path (call t f []) [call t f []]
  | argument {t : Tags} {f : Func} {us : List (Expr ν)} {u : Expr ν} {path : List (Expr ν)}
      (member : u ∈ us) (below : Path u path) : Path (call t f us) (call t f us :: path)
  | leftSide {t : Tags} {side : Side} {l r : Expr ν} {path : List (Expr ν)}
      (below : Path l path) : Path (equality t side l r) (equality t side l r :: path)
  | rightSide {t : Tags} {side : Side} {l r : Expr ν} {path : List (Expr ν)}
      (below : Path r path) : Path (equality t side l r) (equality t side l r :: path)

/-- No path goes below the height. -/
theorem Path.length_le_height {e : Expr ν} {path : List (Expr ν)} (leads : e.Path path) :
    path.length ≤ e.height := by
  induction leads with
  | number value | atom a => simp [height]
  | leftOperand below ih | rightOperand below ih | operand below ih | leftSide below ih
  | rightSide below ih =>
    simp only [List.length_cons, height]
    omega
  | bare t f => simp [height]
  | @argument t f us u path member below ih =>
    have within : u.height ≤ heightOfList us := heightOfList_le_iff.mp le_rfl u member
    simp only [List.length_cons, height]
    omega

/-- One of the arguments is as high as all of them together. -/
theorem exists_height_eq {us : List (Expr ν)} (nonempty : us ≠ []) :
    ∃ u ∈ us, u.height = heightOfList us := by
  induction us with
  | nil => exact absurd rfl nonempty
  | cons u us ih =>
    by_cases last : us = []
    · exact ⟨u, by simp, by simp [last, heightOfList]⟩
    · obtain ⟨v, member, highest⟩ := ih last
      rcases Nat.le_total u.height v.height with lower | lower
      · exact ⟨v, by simp [member], by rw [heightOfList, ← highest, max_eq_right lower]⟩
      · exact ⟨u, by simp, by rw [heightOfList, ← highest, max_eq_left lower]⟩

/-- Some path goes down as far as the height, through the highest operand of every node. -/
theorem exists_path (e : Expr ν) : ∃ path, e.Path path ∧ path.length = e.height := by
  induction e with
  | number value => exact ⟨_, .number value, by simp [height]⟩
  | atom a => exact ⟨_, .atom a, by simp [height]⟩
  | binary t o l r left right =>
    obtain ⟨p, below, length⟩ := left
    obtain ⟨q, below', length'⟩ := right
    rcases Nat.le_total l.height r.height with lower | lower
    · exact ⟨_, .rightOperand below', by simp [height, length', lower]⟩
    · exact ⟨_, .leftOperand below, by simp [height, length, lower]⟩
  | unary t o u inner =>
    obtain ⟨p, below, length⟩ := inner
    exact ⟨_, .operand below, by simp [height, length]⟩
  | call t f us inner =>
    by_cases empty : us = []
    · subst empty
      exact ⟨_, .bare t f, by simp [height, heightOfList]⟩
    · obtain ⟨u, member, highest⟩ := exists_height_eq empty
      obtain ⟨p, below, length⟩ := inner u member
      exact ⟨_, .argument member below, by simp [height, length, highest]⟩
  | equality t side l r left right =>
    obtain ⟨p, below, length⟩ := left
    obtain ⟨q, below', length'⟩ := right
    rcases Nat.le_total l.height r.height with lower | lower
    · exact ⟨_, .rightSide below', by simp [height, length', lower]⟩
    · exact ⟨_, .leftSide below, by simp [height, length, lower]⟩

/-- The depth of a tree is the length of its longest path. -/
theorem depth_isGreatest (e : Expr ν) :
    IsGreatest {n | ∃ path, e.Path path ∧ path.length = n} e.depth := by
  rw [depth_eq_height]
  refine ⟨exists_path e, ?_⟩
  rintro n ⟨path, leads, rfl⟩
  exact leads.length_le_height

/-- Once every node can be visited, more visits do not change the depth that is found. -/
theorem deepest_eq_depth {e : Expr ν} {visits : Nat} (enough : e.size ≤ visits) :
    deepest visits [(e, 1)] 0 = e.depth := by
  refine eq_of_forall_ge_iff fun n => ?_
  rw [depth, deepest_le_iff (by simpa using enough), deepest_le_iff (by simp)]

end AlgebraEngine.Expr
