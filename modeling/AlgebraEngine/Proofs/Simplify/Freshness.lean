import AlgebraEngine.Proofs.Number.Exact
import AlgebraEngine.Proofs.Simplify.Derivation
import AlgebraEngine.Proofs.Simplify.Firing

/-! Which nodes a simplification looks up in its rule book, and that their caches are always fresh.
The book influences a simplification at no other node, so no stale cache can. -/
namespace AlgebraEngine

variable {ν : Type}

section Lookups

variable [BEq ν]

namespace Sweep

/-- A pass over the first tree looks the second one up in the book: each node of the tree once, with
its operands swept. -/
inductive Consults (book : RuleBook ν) : Expr ν → Expr ν → Prop where
  | here (e : Expr ν) : Consults book e (assembled book e).result
  | inside {e u node : Expr ν} (member : u ∈ e.children) (inner : Consults book u node) :
      Consults book e node

variable {book book' : RuleBook ν} {e node : Expr ν}

theorem Consults.fresh (consults : Consults book e node) (fresh : e.Fresh) : node.Fresh := by
  induction consults with
  | here e =>
    exact (assembled_sound fresh fun u member => ofExpr_sound u (fresh.operands member)).fresh
  | inside member inner ih => exact ih (fresh.operands member)

theorem ofList_congr {us : List (Expr ν)} (each : ∀ u ∈ us, ofExpr book u = ofExpr book' u) :
    ofList book us = ofList book' us := by
  induction us with
  | nil => rfl
  | cons u us ih =>
    have here := each u (by simp)
    have there := ih fun v member => each v (List.mem_cons_of_mem _ member)
    simp only [ofList, here, there]

theorem assembled_congr (operands : ∀ u ∈ e.children, ofExpr book u = ofExpr book' u) :
    assembled book e = assembled book' e := by
  cases e with
  | number value | atom a => rfl
  | binary t o l r | equality t side l r =>
    have left := operands l (by simp [Expr.children])
    have right := operands r (by simp [Expr.children])
    simp only [assembled, left, right]
  | unary t o u =>
    have inner := operands u (by simp [Expr.children])
    simp only [assembled, inner]
  | call t f us =>
    have inner : ofList book us = ofList book' us := ofList_congr operands
    simp only [assembled, inner]

/-- A pass depends on the book only through the nodes it looks up. -/
theorem ofExpr_congr (agree : ∀ node, Consults book e node → book.first? node = book'.first? node) :
    ofExpr book e = ofExpr book' e := by
  induction e using Expr.inductionOnChildren with
  | node e inner =>
    have same : assembled book e = assembled book' e := assembled_congr fun u member =>
      inner u member fun node consults => agree node (.inside member consults)
    have here := agree _ (.here e)
    rw [ofExpr_eq, ofExpr_eq, ← same]
    simp only [finish, here]

end Sweep

namespace Simplification

/-- A simplification looks a node up in the book: one of its passes does, over the tree that the
passes before it have left. -/
inductive Consults (book : RuleBook ν) : (limit : Nat) → Expr ν → Expr ν → Prop where
  | first {limit : Nat} {e node : Expr ν} (pass : Sweep.Consults book e.tagged node) :
      Consults book (limit + 1) e node
  | later {limit : Nat} {e node : Expr ν} (changed : (Sweep.ofExpr book e.tagged).changed = true)
      (rest : Consults book limit (Sweep.ofExpr book e.tagged).result node) :
      Consults book (limit + 1) e node

variable {book book' : RuleBook ν} {limit : Nat} {e node : Expr ν}

/-- Every cache below a node that is looked up is what tagging afresh would store. -/
theorem Consults.fresh (consults : Consults book limit e node) : node.Fresh := by
  induction consults with
  | first pass => exact Sweep.Consults.fresh pass (Expr.fresh_tagged _)
  | later changed rest ih => exact ih

/-- A simplification depends on the book only through the nodes it looks up. -/
theorem run_congr (agree : ∀ node, Consults book limit e node →
    book.first? node = book'.first? node) : run book limit e = run book' limit e := by
  induction limit generalizing e with
  | zero => rfl
  | succ limit ih =>
    have pass : Sweep.ofExpr book e.tagged = Sweep.ofExpr book' e.tagged :=
      Sweep.ofExpr_congr fun node consults => agree node (.first consults)
    simp only [run, ← pass]
    split
    · rename_i changed
      rw [ih fun node consults => agree node (.later changed consults)]
    · rfl

/-- A pass leaves a fresh tree, and so does the last one. -/
theorem run_fresh (book : RuleBook ν) (positive : 1 ≤ limit) (e : Expr ν) :
    (run book limit e).tree.Fresh := by
  induction limit generalizing e with
  | zero => omega
  | succ limit ih =>
    have pass : Sweep.Sound book e.tagged _ := Sweep.ofExpr_sound e.tagged (Expr.fresh_tagged e)
    simp only [run]
    split
    · cases limit with
      | zero => exact pass.fresh
      | succ limit => exact ih (by omega) _
    · exact pass.fresh

end Simplification

end Lookups

theorem Tags.intersects_union_self (a : Atom) (s t : Tags) :
    (s ∪ a.tags).intersects (t ∪ a.tags) = true := by
  cases a with
  | var name => simp [Union.union, Tags.union, Tags.intersects, Atom.tags]
  | const c => cases c <;> simp [Union.union, Tags.union, Tags.intersects, Atom.tags]

/-- A fresh product records the atom that it ends in. -/
theorem Expr.Fresh.tags_term {e c : Expr ν} {a : Atom} (fresh : e.Fresh)
    (term : e.term? = some (c, a)) : e.tags = c.tags ∪ a.tags := by
  obtain ⟨t, rfl⟩ := Expr.term?_eq_some term
  have coefficient : c.tagged = c := fresh.operands (by simp [Expr.children])
  simp only [Expr.Fresh, Expr.tagged, Expr.retag, Expr.binary.injEq] at fresh
  rw [← fresh.1, coefficient]
  rfl

/-- On fresh operands the recorded atoms never hide a pair of like terms. -/
theorem Rule.combineLikeTerms_isSome_iff {t : Tags} {o : BinaryOp} {l r : Expr ν}
    (fresh : (Expr.binary t o l r).Fresh) :
    (Rule.combineLikeTerms (.binary t o l r)).isSome ↔
      ∃ c c' a, l.term? = some (c, a) ∧ r.term? = some (c', a) := by
  have left : l.Fresh := fresh.operands (by simp [Expr.children])
  have right : r.Fresh := fresh.operands (by simp [Expr.children])
  constructor
  · intro applies
    obtain ⟨after, applies⟩ := Option.isSome_iff_exists.mp applies
    simp only [combineLikeTerms, Option.bind_eq_bind, Option.bind_eq_some_iff] at applies
    obtain ⟨⟨c, a⟩, leftTerm, ⟨c', a'⟩, rightTerm, applies⟩ := applies
    split at applies
    · rename_i shared
      simp only [Bool.and_eq_true, beq_iff_eq] at shared
      exact ⟨c, c', a, leftTerm, by rw [rightTerm, shared.2]⟩
    · cases applies
  · rintro ⟨c, c', a, leftTerm, rightTerm⟩
    have shared : l.tags.intersects r.tags = true := by
      rw [left.tags_term leftTerm, right.tags_term rightTerm]
      exact Tags.intersects_union_self a c.tags c'.tags
    simp [combineLikeTerms, leftTerm, rightTerm, shared]

/-- Caches are never stale where they are read. Every node that a simplification looks up in the
rule table is fresh throughout, and nothing else that the table says has any influence. Hence like
terms are found wherever both operands are products with one atom, and the result is fresh as soon
as one pass is made. -/
theorem Expr.simplifyWith_fresh [Arithmetic ν] (limit : Nat) (e : Expr ν)
    (accepted : checkDepth e = .ok ()) :
    ∃ s, e.simplifyWith limit = .ok s ∧
      (∀ node, Simplification.Consults Rule.forNode limit e node →
        node.Fresh ∧ ∀ t o l r, node = .binary t o l r →
          ((Rule.combineLikeTerms node).isSome ↔
            ∃ c c' a, l.term? = some (c, a) ∧ r.term? = some (c', a))) ∧
      (∀ book : RuleBook ν, (∀ node, Simplification.Consults Rule.forNode limit e node →
        RuleBook.first? Rule.forNode node = book.first? node) →
          e.simplifyBy book limit = .ok s) ∧
      (1 ≤ limit → s.tree.Fresh) := by
  refine ⟨.run Rule.forNode limit e, ?_, ?_, ?_, ?_⟩
  · simp only [simplifyWith, simplifyBy, accepted]
  · intro node consults
    refine ⟨consults.fresh, ?_⟩
    rintro t o l r rfl
    exact Rule.combineLikeTerms_isSome_iff consults.fresh
  · intro book agree
    simp only [simplifyBy, accepted, Simplification.run_congr agree]
  · intro positive
    exact Simplification.run_fresh Rule.forNode positive e

/-- In `2x + 3x` the terms are found although the sum has cached other atoms. -/
theorem Expr.simplifyWith_fresh_sum :
    ∃ s, (Expr.binary ⟨false, true, true⟩ .add (.op .mul (.number (.rational 2)) (.var "x"))
        (.op .mul (.number (.rational 3)) (.var "x")) : Expr Exact).simplifyWith 64 = .ok s ∧
      s.tree.Fresh ∧
      (Rule.combineLikeTerms (Expr.binary ⟨true, false, false⟩ .add
        (.binary ⟨true, false, false⟩ .mul (.number (.rational 2)) (.var "x"))
        (.binary ⟨true, false, false⟩ .mul (.number (.rational 3)) (.var "x")) :
          Expr Exact)).isSome := by
  obtain ⟨s, simplified, consulted, -, result⟩ := simplifyWith_fresh 64
    (Expr.binary ⟨false, true, true⟩ .add (.op .mul (.number (.rational 2)) (.var "x"))
      (.op .mul (.number (.rational 3)) (.var "x")) : Expr Exact) rfl
  refine ⟨s, simplified, result (by decide), ?_⟩
  obtain ⟨-, terms⟩ := consulted _ (.first (.here _))
  exact (terms _ _ _ _ rfl).mpr ⟨_, _, _, rfl, rfl⟩

end AlgebraEngine
