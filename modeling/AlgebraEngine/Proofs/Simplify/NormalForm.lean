import AlgebraEngine.Proofs.Expr.Unknowns
import AlgebraEngine.Proofs.Simplify.Depth
import AlgebraEngine.Proofs.Simplify.ExactFraction

/-! Normal forms, that is trees that no rule changes at any node. A pass that changes nothing has
seen one, and a normal form is left alone. What a normal form cannot contain is read off the rules
that would have changed it. -/
namespace AlgebraEngine

variable {ν : Type}

open AlgebraEngine.Expr (Occurs)

section Passes

variable [BEq ν] {book : RuleBook ν} {e : Expr ν}

/-- The rules leave a node alone: none of its group applies, or the first one that does gives an
equal node back. Rules see a node only after it has been tagged. -/
def RuleBook.Keeps (book : RuleBook ν) (e : Expr ν) : Prop :=
  ∀ step after, book.first? e.tagged = some (step, after) → (after == e.tagged) = true

/-- A tree whose nodes the rules all leave alone. -/
def Expr.Normal (book : RuleBook ν) (e : Expr ν) : Prop :=
  ∀ u, Occurs u e → book.Keeps u

theorem Expr.Fresh.keeps_iff (fresh : e.Fresh) : book.Keeps e ↔
    ∀ step after, book.first? e = some (step, after) → (after == e) = true := by
  have tagged : e.tagged = e := fresh
  rw [RuleBook.Keeps, tagged]

theorem Expr.normal_iff :
    e.Normal book ↔ book.Keeps e ∧ ∀ u ∈ e.children, u.Normal book := by
  constructor
  · intro normal
    exact ⟨normal e (.here e), fun u member v occurs => normal v (.inside member occurs)⟩
  · rintro ⟨here, below⟩ u occurs
    rcases Expr.occurs_iff.mp occurs with rfl | ⟨v, member, occurs⟩
    · exact here
    · exact below v member u occurs

/-- Whether a tree is normal does not depend on what it caches. -/
@[simp] theorem Expr.normal_tagged : e.tagged.Normal book ↔ e.Normal book := by
  induction e using Expr.inductionOnChildren with
  | node e inner =>
    have root : book.Keeps e.tagged ↔ book.Keeps e := by
      rw [RuleBook.Keeps, RuleBook.Keeps, Expr.fresh_tagged e]
    rw [normal_iff, normal_iff, root, Expr.children_tagged, List.forall_mem_map]
    exact and_congr_right fun _ => forall₂_congr inner

namespace Sweep

theorem finish_of_keeps {s : Sweep ν (Expr ν)} (fresh : s.result.Fresh)
    (keeps : book.Keeps s.result) : finish book s = s := by
  unfold finish
  split
  · rfl
  · rename_i step after first
    simp [fresh.keeps_iff.mp keeps step after first]

theorem finish_of_differs {s : Sweep ν (Expr ν)} {step : Step} {after : Expr ν}
    (first : book.first? s.result = some (step, after)) (differs : (after == s.result) = false) :
    finish book s = ⟨after.tagged, true, s.rewrites ++ [⟨step, s.result, after⟩]⟩ := by
  simp [finish, first, differs]

theorem finish_unchanged_iff {s : Sweep ν (Expr ν)} :
    (finish book s).changed = false ↔ s.changed = false ∧
      ∀ step after, book.first? s.result = some (step, after) → (after == s.result) = true := by
  unfold finish
  split
  · rename_i none
    simp [none]
  · rename_i step after first
    split
    · rename_i same
      simp [first, same]
    · rename_i differs
      simp [first, differs]

theorem ofList_unchanged_iff {us : List (Expr ν)} :
    (ofList book us).changed = false ↔ ∀ u ∈ us, (ofExpr book u).changed = false := by
  induction us with
  | nil => simp [ofList]
  | cons u us ih => simp [ofList, ih]

/-- The operands of a node are swept without a change if each of them is. -/
theorem assembled_unchanged_iff :
    (assembled book e).changed = false ↔ ∀ u ∈ e.children, (ofExpr book u).changed = false := by
  cases e <;> simp [assembled, Expr.children, ofList_unchanged_iff]

/-- A pass changes nothing exactly if the tree is normal. Operands are swept first, but as long as
they stay as they are the rules see the node of the original tree. -/
theorem ofExpr_unchanged_iff (fresh : e.Fresh) :
    (ofExpr book e).changed = false ↔ e.Normal book := by
  induction e using Expr.inductionOnChildren with
  | node e inner =>
    have below : (∀ u ∈ e.children, (ofExpr book u).changed = false) ↔
        ∀ u ∈ e.children, u.Normal book :=
      forall₂_congr fun u member => inner u member (fresh.operands member)
    rw [ofExpr_eq, finish_unchanged_iff, Expr.normal_iff, fresh.keeps_iff, ← below,
      ← assembled_unchanged_iff, and_comm]
    refine and_congr_left fun unchanged => ?_
    have sound : Sound book e (assembled book e) :=
      assembled_sound fresh fun u member => ofExpr_sound u (fresh.operands member)
    rw [(sound.unchanged unchanged).1]

/-- A pass over a normal tree makes no rewrites. -/
theorem ofExpr_of_normal (normal : e.Normal book) :
    ofExpr book e.tagged = ⟨e.tagged, false, []⟩ :=
  ofExpr_of_unchanged (Expr.fresh_tagged e)
    ((ofExpr_unchanged_iff (Expr.fresh_tagged e)).mpr (Expr.normal_tagged.mpr normal))

end Sweep

namespace Simplification

/-- A normal form is tagged, and that is all. -/
theorem run_of_normal {limit : Nat} (positive : 1 ≤ limit) (normal : e.Normal book) :
    run book limit e = ⟨e.tagged, [⟨e.tagged, false, []⟩], true⟩ := by
  obtain ⟨limit, rfl⟩ := Nat.exists_eq_add_of_le' positive
  exact run_succ_of_unchanged book limit (congrArg Sweep.changed (Sweep.ofExpr_of_normal normal))

theorem tagged_run_of_normal (limit : Nat) (normal : e.Normal book) :
    (run book limit e).tree.tagged = e.tagged := by
  cases limit with
  | zero => rfl
  | succ limit =>
    rw [run_of_normal (Nat.succ_pos limit) normal]
    exact Expr.fresh_tagged e

/-- A run of at least one pass takes no step exactly if the tree it was given is normal. -/
theorem steps_eq_nil_iff {limit : Nat} (positive : 1 ≤ limit) :
    (run book limit e).steps = [] ↔ e.Normal book := by
  constructor
  · intro none
    obtain ⟨limit, rfl⟩ := Nat.exists_eq_add_of_le' positive
    have sound : Sweep.Sound book e.tagged _ := Sweep.ofExpr_sound e.tagged (Expr.fresh_tagged e)
    cases first : (Sweep.ofExpr book e.tagged).changed with
    | true =>
      rw [steps_run_succ_of_changed book limit first] at none
      have unrecorded := (List.append_eq_nil_iff.mp none).1
      exact absurd (List.map_eq_nil_iff.mp unrecorded) (sound.changed first)
    | false =>
      exact Expr.normal_tagged.mp ((Sweep.ofExpr_unchanged_iff (Expr.fresh_tagged e)).mp first)
  · intro normal
    rw [run_of_normal positive normal]
    rfl

/-- As soon as one pass changes nothing, the run has led to a normal form. -/
theorem normal_of_unchanged {limit : Nat} {pass : Sweep ν (Expr ν)}
    (made : pass ∈ (run book limit e).passes) (unchanged : pass.changed = false) :
    (run book limit e).tree.Fresh ∧ (run book limit e).tree.Normal book := by
  induction limit generalizing e with
  | zero => cases made
  | succ limit ih =>
    cases first : (Sweep.ofExpr book e.tagged).changed with
    | true =>
      simp only [run, first, ↓reduceIte, List.mem_cons] at made ⊢
      rcases made with rfl | made
      · rw [first] at unchanged
        cases unchanged
      · exact ih made
    | false =>
      rw [run_succ_of_unchanged book limit first]
      exact ⟨Expr.fresh_tagged e, (Sweep.ofExpr_unchanged_iff (Expr.fresh_tagged e)).mp first⟩

end Simplification

end Passes

/-! ## What a normal form cannot contain -/

/-- Expressions that a minus sign moves into, or that it cancels against. -/
inductive Expr.TakesSign : Expr ν → Prop where
  | number (value : ν) : TakesSign (.number value)
  | term (t : Tags) (value : ν) (a : Atom) : TakesSign (.binary t .mul (.number value) (.atom a))
  | fractionTerm (t s : Tags) (n d : ν) (a : Atom) :
      TakesSign (.binary t .mul (.binary s .div (.number n) (.number d)) (.atom a))
  | sum (t : Tags) (l r : Expr ν) : TakesSign (.binary t .add l r)
  | difference (t : Tags) (l r : Expr ν) : TakesSign (.binary t .sub l r)
  | minus (t : Tags) (u : Expr ν) : TakesSign (.unary t .minus u)

/-- A tree as simplification leaves it. Fractions are in lowest terms, there is no plus sign, and
every minus sign is as deep as it can be. -/
structure Expr.Canonical (e : Expr Exact) : Prop where
  fractions : ∀ t n d, Occurs (.binary t .div (.number n) (.number d)) e →
    ∃ m k : ℤ, n = .rational m ∧ d = .rational k ∧ Exact.Lowest m k
  no_plus : ∀ t u, ¬ Occurs (.unary t .plus u) e
  minus : ∀ t u, Occurs (.unary t .minus u) e → ¬ u.TakesSign

namespace Rule

variable [Arithmetic ν]

theorem first?_quotient (t : Tags) (n d : ν) :
    RuleBook.first? forNode (.binary t .div (.number n) (.number d)) =
      some (.divideNumbers, quotientOf n d) := by
  have divides : divideNumbers (.binary t .div (.number n) (.number d)) =
      some (quotientOf n d) := by
    simp only [divideNumbers, Expr.number?, quotientOf, Option.bind_eq_bind, Option.bind_some]
    split <;> rfl
  simp [RuleBook.first?, forNode, quotientRules, divides]

/-- A minus sign is not kept in front of what it moves into. -/
theorem not_keeps_minus {t : Tags} {u : Expr ν} (takes : u.TakesSign)
    (fresh : (Expr.unary t .minus u).Fresh) : ¬ RuleBook.Keeps forNode (.unary t .minus u) := by
  intro keeps
  rw [fresh.keeps_iff] at keeps
  cases takes with
  | number value => cases keeps _ _ rfl
  | term s value a => cases keeps _ _ rfl
  | fractionTerm s s' n d a => cases keeps _ _ rfl
  | sum s l r => cases keeps _ _ rfl
  | difference s l r => cases keeps _ _ rfl
  | minus s u =>
    have same := Expr.size_eq_of_beq (keeps _ _ rfl)
    simp only [Expr.size] at same
    omega

theorem not_keeps_plus {t : Tags} {u : Expr ν} (fresh : (Expr.unary t .plus u).Fresh) :
    ¬ RuleBook.Keeps forNode (.unary t .plus u) := by
  intro keeps
  rw [fresh.keeps_iff] at keeps
  have same := Expr.size_eq_of_beq (keeps _ _ rfl)
  simp only [Expr.size] at same
  omega

end Rule

/-- No rule looks at a number. -/
theorem Expr.normal_number [Arithmetic ν] (x : ν) : (number x).Normal Rule.forNode :=
  normal_iff.mpr ⟨nofun, nofun⟩

theorem Expr.normal_atom [Arithmetic ν] (a : Atom) : (atom a : Expr ν).Normal Rule.forNode :=
  normal_iff.mpr ⟨nofun, nofun⟩

theorem Expr.Normal.canonical {e : Expr Exact} (normal : e.Normal Rule.forNode) (fresh : e.Fresh) :
    e.Canonical where
  fractions := by
    intro t n d occurs
    have keeps := (fresh.occurs occurs).keeps_iff.mp (normal _ occurs)
    have kept := keeps _ _ (Rule.first?_quotient t n d)
    rcases Exact.quotientOf_cases n d with number | ⟨m, k, lowest, -, fraction⟩
    · rw [number] at kept
      cases kept
    · rw [fraction] at kept
      have parts : (Exact.rational m == n && Exact.rational k == d) = true := kept
      simp only [Bool.and_eq_true, beq_iff_eq] at parts
      exact ⟨m, k, parts.1.symm, parts.2.symm, lowest⟩
  no_plus := by
    intro t u occurs
    exact Rule.not_keeps_plus (fresh.occurs occurs) (normal _ occurs)
  minus := by
    intro t u occurs takes
    exact Rule.not_keeps_minus takes (fresh.occurs occurs) (normal _ occurs)

/-- A simplification that settles leads to a normal form, and only normal forms are left alone. If
a pass changes nothing, then no rule changes any node of the result. If no rule changes any node of
a tree, then one pass is made that takes no step and only tags it. With exact numbers a settled
simplification leaves fractions in lowest terms, no plus sign, and no minus sign in front of a
number, a multiple of an atom, a sum, a difference or another minus sign. -/
theorem Expr.simplifyWith_settles :
    (∀ {ν : Type} [Arithmetic ν] (limit : Nat) (e : Expr ν), 1 ≤ limit → checkDepth e = .ok () →
      ∃ s, e.simplifyWith limit = .ok s ∧
        ((∃ pass ∈ s.passes, pass.changed = false) →
          s.tree.Fresh ∧ s.tree.Normal Rule.forNode) ∧
        (e.Normal Rule.forNode →
          s.tree = e.tagged ∧ s.steps = [] ∧ s.passes.length = 1 ∧ s.settled = true)) ∧
    (∀ (limit : Nat) (e : Expr Exact), checkDepth e = .ok () →
      ∃ s, e.simplifyWith limit = .ok s ∧
        ((∃ pass ∈ s.passes, pass.changed = false) → s.tree.Canonical)) := by
  constructor
  · intro ν _ limit e positive accepted
    refine ⟨_, simplifyWith_eq limit (checkDepth_eq_ok_iff.mp accepted), ?_, ?_⟩
    · rintro ⟨pass, made, unchanged⟩
      exact Simplification.normal_of_unchanged made unchanged
    · intro normal
      rw [Simplification.run_of_normal positive normal]
      exact ⟨rfl, rfl, rfl, rfl⟩
  · intro limit e accepted
    refine ⟨_, simplifyWith_eq limit (checkDepth_eq_ok_iff.mp accepted), ?_⟩
    rintro ⟨pass, made, unchanged⟩
    obtain ⟨fresh, normal⟩ := Simplification.normal_of_unchanged made unchanged
    exact normal.canonical fresh

/-- `-(2x - 6/4)` settles within three passes. The result is canonical, and another pass over it
takes no step. -/
theorem Expr.simplifyWith_settles_difference :
    ∃ s again : Simplification Exact,
      (Expr.sign .minus (.op .sub (.op .mul (.number (.rational 2)) (.var "x"))
        (.fraction (.rational 6) (.rational 4))) : Expr Exact).simplifyWith 3 = .ok s ∧
      s.tree.Normal Rule.forNode ∧ s.tree.Canonical ∧
      s.tree.simplifyWith 1 = .ok again ∧ again.tree = s.tree.tagged ∧ again.steps = [] := by
  let e : Expr Exact := .sign .minus (.op .sub (.op .mul (.number (.rational 2)) (.var "x"))
    (.fraction (.rational 6) (.rational 4)))
  obtain ⟨s, simplified, settles, -⟩ := simplifyWith_settles.1 3 e (by decide) rfl
  obtain ⟨s', simplified', canonical⟩ := simplifyWith_settles.2 3 e rfl
  obtain rfl := simplifyWith_eq_run simplified
  obtain rfl := simplifyWith_eq_run simplified'
  have settled : ∃ pass ∈ (Simplification.run Rule.forNode 3 e).passes, pass.changed = false := by
    decide +kernel
  have normal := (settles settled).2
  obtain ⟨again, resumed, -, kept⟩ := simplifyWith_settles.1 1
    (Simplification.run Rule.forNode 3 e).tree (by decide) (Simplification.accepted_run 3 rfl)
  obtain ⟨tree, steps, -⟩ := kept normal
  exact ⟨_, again, simplified, normal, canonical settled, resumed, tree, steps⟩

end AlgebraEngine
