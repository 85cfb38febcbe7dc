import Mathlib.Algebra.BigOperators.Group.List.Basic
import Mathlib.Algebra.Ring.Nat
import Mathlib.Order.MinMax
import AlgebraEngine.Proofs.Expr.Untagged

/-! Two measures of a tree, its size and its height. Equal trees agree on both, whatever they cache,
and the depth that is found with a list of pending subtrees is the height. -/
namespace AlgebraEngine.Expr

variable {ν : Type}

@[simp] theorem sizeOfList_eq (us : List (Expr ν)) : sizeOfList us = (us.map size).sum := by
  induction us with
  | nil => rfl
  | cons u us ih => simp [sizeOfList, ih]

@[simp] theorem size_untagged (e : Expr ν) : e.untagged.size = e.size := by
  induction e with
  | number value => rfl
  | atom a => rfl
  | binary t o l r left right => simp [untagged, op, size, left, right]
  | unary t o u inner => simp [untagged, sign, size, inner]
  | call t f us inner =>
    have same : (us.map untagged).map size = us.map size := by
      simpa using inner
    simpa [untagged, apply, size] using congrArg List.sum same
  | equality t side l r left right => simp [untagged, equal, size, left, right]

@[simp] theorem size_tagged (e : Expr ν) : e.tagged.size = e.size := by
  rw [← size_untagged, untagged_tagged, size_untagged]

theorem size_pos (e : Expr ν) : 0 < e.size := by
  cases e <;> simp [size]

/-- A node counts for one, beside the nodes of its operands. -/
theorem size_eq_children (e : Expr ν) : e.size = (e.children.map size).sum + 1 := by
  cases e <;> simp [size, children]

mutual

/-- The number of nodes on the longest path from the root to a leaf. -/
def height : Expr ν → Nat
  | number _ => 1
  | atom _ => 1
  | binary _ _ l r => max l.height r.height + 1
  | unary _ _ u => u.height + 1
  | call _ _ us => heightOfList us + 1
  | equality _ _ l r => max l.height r.height + 1

/-- The greatest height among a list of arguments. -/
def heightOfList : List (Expr ν) → Nat
  | [] => 0
  | u :: us => max u.height (heightOfList us)

end

attribute [grind =] height heightOfList

theorem height_pos (e : Expr ν) : 0 < e.height := by
  cases e <;> simp [height]

theorem heightOfList_le_iff {us : List (Expr ν)} {n : Nat} :
    heightOfList us ≤ n ↔ ∀ u ∈ us, u.height ≤ n := by
  induction us with
  | nil => simp [heightOfList]
  | cons u us ih => simp [heightOfList, ih]

theorem height_le_succ_iff {e : Expr ν} {n : Nat} :
    e.height ≤ n + 1 ↔ ∀ u ∈ e.children, u.height ≤ n := by
  cases e <;> simp [height, children, heightOfList_le_iff]

/-- A tree below `depth` nodes stays within a bound if its root does and its operands do, which are
below one node more. -/
theorem add_height_le_iff {e : Expr ν} {depth n : Nat} : depth + e.height ≤ n + 1 ↔
    depth ≤ n ∧ ∀ u ∈ e.children, depth + 1 + u.height ≤ n + 1 := by
  have positive := height_pos e
  constructor
  · intro bound
    refine ⟨by omega, fun u member => ?_⟩
    have below := height_le_succ_iff.mp (show e.height ≤ (n - depth) + 1 by omega) u member
    omega
  · rintro ⟨here, below⟩
    have bound : e.height ≤ (n - depth) + 1 := by
      refine height_le_succ_iff.mpr fun u member => ?_
      have inside := below u member
      omega
    omega

@[simp] theorem heightOfList_append (us vs : List (Expr ν)) :
    heightOfList (us ++ vs) = max (heightOfList us) (heightOfList vs) := by
  induction us with
  | nil => simp [heightOfList]
  | cons u us ih => simp [heightOfList, ih, max_assoc]

@[simp] theorem height_untagged (e : Expr ν) : e.untagged.height = e.height := by
  induction e with
  | number value => rfl
  | atom a => rfl
  | binary t o l r left right => simp [untagged, op, height, left, right]
  | unary t o u inner => simp [untagged, sign, height, inner]
  | call t f us inner =>
    have same : heightOfList (us.map untagged) = heightOfList us := by
      refine eq_of_forall_ge_iff fun n => ?_
      simpa [heightOfList_le_iff] using forall₂_congr fun u member => by rw [inner u member]
    simpa [untagged, apply, height] using same
  | equality t side l r left right => simp [untagged, equal, height, left, right]

@[simp] theorem height_tagged (e : Expr ν) : e.tagged.height = e.height := by
  rw [← height_untagged, untagged_tagged, height_untagged]

/-- With enough visits every pending subtree is measured to its leaves. -/
theorem deepest_le_iff {visits n found : Nat} {pending : List (Expr ν × Nat)}
    (enough : (pending.map (·.1.size)).sum ≤ visits) :
    deepest visits pending found ≤ n ↔
      found ≤ n ∧ ∀ p ∈ pending, p.2 + p.1.height ≤ n + 1 := by
  induction visits generalizing pending found with
  | zero =>
    cases pending with
    | nil => simp [deepest]
    | cons p pending =>
      have nonempty := size_pos p.1
      simp only [List.map_cons, List.sum_cons] at enough
      omega
  | succ visits ih =>
    cases pending with
    | nil => simp [deepest]
    | cons p pending =>
      obtain ⟨e, depth⟩ := p
      have spent : ((e.children.map (·, depth + 1) ++ pending).map (·.1.size)).sum ≤ visits := by
        have node := size_eq_children e
        simp only [List.map_cons, List.sum_cons] at enough
        have parts : ((e.children.map (·, depth + 1)).map (·.1.size)).sum =
            (e.children.map size).sum := by
          simp [Function.comp_def]
        rw [List.map_append, List.sum_append, parts]
        omega
      rw [deepest, ih spent]
      simp only [max_le_iff, List.forall_mem_append, List.forall_mem_map, List.forall_mem_cons,
        add_height_le_iff (e := e)]
      tauto

/-- The depth that is found with pending subtrees is the height. -/
theorem depth_eq_height (e : Expr ν) : e.depth = e.height := by
  refine eq_of_forall_ge_iff fun n => ?_
  rw [depth, deepest_le_iff (by simp)]
  simp only [List.mem_singleton, forall_eq]
  omega

@[simp] theorem depth_number (value : ν) : (number value).depth = 1 := by
  rw [depth_eq_height, height]

@[simp] theorem depth_atom (a : Atom) : (atom a : Expr ν).depth = 1 := by
  rw [depth_eq_height, height]

theorem depth_op (o : BinaryOp) (l r : Expr ν) : (op o l r).depth = max l.depth r.depth + 1 := by
  simp only [depth_eq_height, op, height]

theorem depth_sign (o : UnaryOp) (u : Expr ν) : (sign o u).depth = u.depth + 1 := by
  simp only [depth_eq_height, sign, height]

theorem depth_equal (l r : Expr ν) : (equal l r).depth = max l.depth r.depth + 1 := by
  simp only [depth_eq_height, equal, height]

theorem depth_apply_le_iff {f : Func} {us : List (Expr ν)} {n : Nat} :
    (apply f us).depth ≤ n + 1 ↔ ∀ u ∈ us, u.depth ≤ n := by
  simp only [depth_eq_height]
  exact height_le_succ_iff

theorem depth_apply_singleton (f : Func) (u : Expr ν) : (apply f [u]).depth = u.depth + 1 := by
  simp [depth_eq_height, apply, height, heightOfList]

@[simp] theorem depth_untagged (e : Expr ν) : e.untagged.depth = e.depth := by
  rw [depth_eq_height, depth_eq_height, height_untagged]

/-- The depth of a tree does not depend on what it caches. -/
theorem depth_congr {e f : Expr ν} (same : e.untagged = f.untagged) : e.depth = f.depth := by
  rw [← depth_untagged e, same, depth_untagged]

private theorem size_eq_of_sameList [BEq ν] {us vs : List (Expr ν)}
    (each : ∀ u ∈ us, ∀ v, same u v = true → u.size = v.size) (alike : sameList us vs = true) :
    (us.map size).sum = (vs.map size).sum := by
  induction us generalizing vs with
  | nil => cases vs <;> simp_all [sameList]
  | cons u us ih =>
    cases vs with
    | nil => simp [sameList] at alike
    | cons v vs =>
      simp only [sameList, Bool.and_eq_true] at alike
      have here := each u (by simp) v alike.1
      have there := ih (fun w member => each w (List.mem_cons_of_mem _ member)) alike.2
      simp only [List.map_cons, List.sum_cons, here, there]

/-- Equal trees have equally many nodes. -/
theorem size_eq_of_beq [BEq ν] {e e' : Expr ν} (alike : (e == e') = true) : e.size = e'.size := by
  change same e e' = true at alike
  induction e generalizing e' with
  | number value | atom a => cases e' <;> simp_all [same, size]
  | binary t o l r left right =>
    cases e' with
    | binary t' p l' r' =>
      simp only [same, Bool.and_eq_true] at alike
      simp only [size, left alike.1.2, right alike.2]
    | number value | atom a | unary t' p u | call t' f us | equality t' side l' r' => cases alike
  | unary t o u inner =>
    cases e' with
    | unary t' p v =>
      simp only [same, Bool.and_eq_true] at alike
      simp only [size, inner alike.2]
    | number value | atom a | binary t' p l r | call t' f us | equality t' side l r => cases alike
  | call t f us inner =>
    cases e' with
    | call t' g vs =>
      simp only [same, Bool.and_eq_true] at alike
      have each := size_eq_of_sameList (fun u member v => inner u member) alike.2
      simp only [size, sizeOfList_eq, each]
    | number value | atom a | binary t' p l r | unary t' p u | equality t' side l r => cases alike
  | equality t side l r left right =>
    cases e' with
    | equality t' side' l' r' =>
      simp only [same, Bool.and_eq_true] at alike
      simp only [size, left alike.1, right alike.2]
    | number value | atom a | binary t' p l' r' | unary t' p u | call t' f us => cases alike

end AlgebraEngine.Expr
