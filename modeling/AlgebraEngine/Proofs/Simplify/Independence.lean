import Mathlib.Logic.Function.Iterate
import AlgebraEngine.Proofs.Expr.Measures
import AlgebraEngine.Proofs.Number.Exact
import AlgebraEngine.Proofs.Simplify.Derivation

/-! Below a node without rules simplification treats each operand as if it stood alone. The operands
share the passes and their limit, but a pass over the node is a pass over each operand, and a run is
the pass repeated as often as the limit says: where a run stops early, further passes would leave
its tree alone. So neither a slow operand nor a fast one has any influence on the others. -/
namespace AlgebraEngine

variable {ν : Type}

namespace Expr

/-- What a node is apart from its operands and its caches. -/
inductive Head (ν : Type) where
  | number (value : ν)
  | atom (a : Atom)
  | binary (op : BinaryOp)
  | unary (op : UnaryOp)
  | call (func : Func)
  | equality

/-- The head of a tree. -/
def head : Expr ν → Head ν
  | number value => .number value
  | atom a => .atom a
  | binary _ o _ _ => .binary o
  | unary _ o _ => .unary o
  | call _ f _ => .call f
  | equality .. => .equality

@[simp] theorem head_retag (e : Expr ν) : e.retag.head = e.head := by
  cases e <;> rfl

@[simp] theorem head_tagged (e : Expr ν) : e.tagged.head = e.head := by
  cases e <;> rfl

@[simp] theorem children_retag (e : Expr ν) : e.retag.children = e.children := by
  cases e <;> rfl

theorem head_rebuilt (changed : Bool) (node : Expr ν) :
    (if changed then node.retag else node).head = node.head := by
  cases changed <;> simp

theorem children_rebuilt (changed : Bool) (node : Expr ν) :
    (if changed then node.retag else node).children = node.children := by
  cases changed <;> simp

end Expr

/-- Which rules can rewrite a node depends only on its head. -/
theorem Rule.forNode_congr [Arithmetic ν] {e e' : Expr ν} (same : e.head = e'.head) :
    forNode e = forNode e' := by
  cases e with
  | number | atom | call | equality =>
    cases e' <;> cases same
    rfl
  | binary t o l r =>
    cases e' with
    | binary t' o' l' r' =>
      cases same
      cases o <;> rfl
    | number | atom | unary | call | equality => cases same
  | unary t o u =>
    cases e' with
    | unary t' o' u' =>
      cases same
      cases o <;> rfl
    | number | atom | binary | call | equality => cases same

section Passes

variable [BEq ν] {book : RuleBook ν} {e : Expr ν}

namespace Sweep

theorem result_ofList (us : List (Expr ν)) :
    (ofList book us).result = us.map fun u => (ofExpr book u).result := by
  induction us with
  | nil => rfl
  | cons u us ih => simp [ofList, ih]

/-- Sweeping the operands of a node leaves its head alone. -/
theorem head_assembled (e : Expr ν) : (assembled book e).result.head = e.head := by
  cases e with
  | number value | atom a => rfl
  | binary t o l r | unary t o u | call t f us | equality t side l r => exact Expr.head_rebuilt _ _

theorem children_assembled (e : Expr ν) :
    (assembled book e).result.children = e.children.map fun u => (ofExpr book u).result := by
  cases e with
  | number value | atom a => rfl
  | binary t o l r | unary t o u | equality t side l r => exact Expr.children_rebuilt _ _
  | call t f us => exact (Expr.children_rebuilt _ _).trans (result_ofList us)

end Sweep

namespace Simplification

/-- The tree that one pass leaves. -/
def pass (book : RuleBook ν) (e : Expr ν) : Expr ν := (Sweep.ofExpr book e.tagged).result

theorem pass_of_unchanged (unchanged : (Sweep.ofExpr book e.tagged).changed = false) :
    pass book e = e.tagged := by
  rw [pass, Sweep.ofExpr_of_unchanged (Expr.fresh_tagged e) unchanged]

/-- The book has no rule for nodes with the head of this tree. -/
def Free (book : RuleBook ν) (e : Expr ν) : Prop :=
  ∀ node : Expr ν, node.head = e.head → book.first? node = none

/-- Without a rule for the node itself, a pass over it is a pass over each operand. -/
theorem pass_of_free (free : Free book e) :
    (pass book e).head = e.head ∧ (pass book e).children = e.children.map (pass book) := by
  have head : (Sweep.assembled book e.tagged).result.head = e.head := by
    rw [Sweep.head_assembled, Expr.head_tagged]
  have unruled : pass book e = (Sweep.assembled book e.tagged).result := by
    rw [pass, Sweep.ofExpr_eq]
    simp only [Sweep.finish, free _ head]
  refine ⟨unruled ▸ head, ?_⟩
  rw [unruled, Sweep.children_assembled, Expr.children_tagged, List.map_map]
  rfl

/-- A run is the pass repeated up to the limit. It stops early only at a tree that further passes
would leave alone. -/
theorem tree_run_eq_iterate (limit : Nat) (e : Expr ν) :
    (run book limit e).tree = (pass book)^[limit] e := by
  induction limit generalizing e with
  | zero => rfl
  | succ limit ih =>
    rw [Function.iterate_succ_apply]
    cases changed : (Sweep.ofExpr book e.tagged).changed with
    | true => rw [tree_run_succ_of_changed book limit changed, ih, pass]
    | false =>
      have again : (Sweep.ofExpr book e.tagged.tagged).changed = false := by
        rw [Expr.fresh_tagged e, changed]
      have fixed : pass book e.tagged = e.tagged :=
        (pass_of_unchanged again).trans (Expr.fresh_tagged e)
      rw [run_succ_of_unchanged book limit changed, pass_of_unchanged changed,
        Function.iterate_fixed fixed]

theorem iterate_of_free (free : Free book e) (n : Nat) :
    ((pass book)^[n] e).head = e.head ∧
      ((pass book)^[n] e).children = e.children.map (pass book)^[n] := by
  induction n generalizing e with
  | zero => exact ⟨rfl, (List.map_id _).symm⟩
  | succ n ih =>
    obtain ⟨head, children⟩ := pass_of_free free
    obtain ⟨head', children'⟩ := ih fun node same => free node (same.trans head)
    rw [Function.iterate_succ_apply]
    refine ⟨head'.trans head, ?_⟩
    rw [children', children, List.map_map, Function.iterate_succ]

/-- A run over a node without rules is a run over each operand. -/
theorem run_of_free (free : Free book e) (limit : Nat) :
    (run book limit e).tree.head = e.head ∧
      (run book limit e).tree.children = e.children.map fun u => (run book limit u).tree := by
  simp only [tree_run_eq_iterate]
  exact iterate_of_free free limit

end Simplification

end Passes

/-- The operands of a tree that is shallow enough are. -/
theorem Expr.depth_le_of_child {e u : Expr ν} (shallow : e.depth ≤ maxDepth)
    (member : u ∈ e.children) : u.depth ≤ maxDepth := by
  rw [depth_eq_height] at shallow ⊢
  exact height_le_succ_iff.mp (Nat.le_succ_of_le shallow) u member

/-- Simplifying a node that no rule is about, such as an equality, a call, a power or a remainder,
keeps the node and replaces each operand by what simplifying it alone with the same limit gives,
however many passes each of them needs. -/
theorem Expr.simplifyWith_operands [Arithmetic ν] (limit : Nat) (e : Expr ν)
    (ruleless : Rule.forNode e = []) (accepted : checkDepth e = .ok ()) :
    ∃ s, e.simplifyWith limit = .ok s ∧ s.tree.head = e.head ∧
      List.Forall₂ (fun u u' => ∃ alone, u.simplifyWith limit = .ok alone ∧ u' = alone.tree)
        e.children s.tree.children := by
  have shallow := checkDepth_eq_ok_iff.mp accepted
  have free : Simplification.Free Rule.forNode e := by
    intro node same
    rw [RuleBook.first?, Rule.forNode_congr same, ruleless, List.findSome?_nil]
  obtain ⟨head, children⟩ := Simplification.run_of_free free limit
  refine ⟨_, simplifyWith_eq limit shallow, head, ?_⟩
  rw [children, List.forall₂_map_right_iff, List.forall₂_same]
  intro u member
  exact ⟨_, simplifyWith_eq limit (depth_le_of_child shallow member), rfl⟩

/-- Two passes are not enough for the first component of `[-(x + x + x + x), 2 * 3]`, and the second
needs no more of them. Both come out as they do alone. -/
theorem Expr.simplifyWith_operands_vector :
    ∃ s slow fast : Simplification Exact,
      (Expr.apply .vector [.sign .minus (.op .add (.op .add (.op .add (.var "x") (.var "x"))
          (.var "x")) (.var "x")), .op .mul (.number (.rational 2)) (.number (.rational 3))] :
        Expr Exact).simplifyWith 2 = .ok s ∧
      (Expr.sign .minus (.op .add (.op .add (.op .add (.var "x") (.var "x"))
        (.var "x")) (.var "x")) : Expr Exact).simplifyWith 2 = .ok slow ∧
      (Expr.op .mul (.number (.rational 2)) (.number (.rational 3)) :
        Expr Exact).simplifyWith 2 = .ok fast ∧
      slow.settled = false ∧ fast.settled = true ∧
      s.tree.head = .call .vector ∧ s.tree.children = [slow.tree, fast.tree] := by
  obtain ⟨s, simplified, head, each⟩ := simplifyWith_operands 2
    (Expr.apply .vector [.sign .minus (.op .add (.op .add (.op .add (.var "x") (.var "x"))
      (.var "x")) (.var "x")), .op .mul (.number (.rational 2)) (.number (.rational 3))] :
        Expr Exact) rfl rfl
  generalize operands : s.tree.children = us at each
  obtain _ | ⟨⟨slow, slowly, rfl⟩, _ | ⟨⟨fast, quickly, rfl⟩, ⟨⟩⟩⟩ := each
  refine ⟨s, slow, fast, simplified, slowly, quickly, ?_, ?_, head, operands⟩
  · rw [simplifyWith_eq_run slowly]
    decide +kernel
  · rw [simplifyWith_eq_run quickly]
    decide +kernel

end AlgebraEngine
