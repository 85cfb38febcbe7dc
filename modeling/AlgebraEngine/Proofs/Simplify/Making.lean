import AlgebraEngine.Proofs.Simplify.NormalForm

/-! What one pass makes of a tree, read off what it makes of the operands: either the rules keep the
node above them, or the first rule that applies rewrites it. A run is followed pass by pass that
way, without looking at its rewrites. -/
namespace AlgebraEngine

open AlgebraEngine.Expr

variable {ν : Type}

namespace Sweep

variable {e f l l' r r' u u' after : Expr ν} {t : Tags} {o : BinaryOp} {step : Step}

private theorem untagged_rebuilt {changed : Bool} {e' : Expr ν} (same : e.untagged = e') :
    (if changed then e.retag else e).untagged = e' := by
  cases changed
  · exact same
  · exact (untagged_retag e).trans same

variable [BEq ν] {book : RuleBook ν}

/-- A pass over one tree leads to another one, whatever they cache. -/
def Makes (book : RuleBook ν) (e f : Expr ν) : Prop := (ofExpr book e.tagged).result = f.tagged

theorem makes_of_normal (normal : e.Normal book) : Makes book e e := by
  rw [Makes, ofExpr_of_normal normal]

private theorem assembled_result (swept : (assembled book e.tagged).result.untagged = f.untagged) :
    (assembled book e.tagged).result = f.tagged := by
  have sound : Sound book e.tagged (assembled book e.tagged) :=
    assembled_sound (fresh_tagged e) fun u member =>
      ofExpr_sound u ((fresh_tagged e).operands member)
  exact sound.fresh.eq_tagged swept

/-- A node that is kept with its operands swept is what a pass leads to. -/
theorem makes_of_assembled (swept : (assembled book e.tagged).result.untagged = f.untagged)
    (keeps : book.Keeps f) : Makes book e f := by
  have same := assembled_result swept
  have keeps' : book.Keeps (assembled book e.tagged).result := by
    rw [same, RuleBook.Keeps, fresh_tagged f]
    exact keeps
  have fresh : (assembled book e.tagged).result.Fresh := by
    rw [same]
    exact fresh_tagged f
  rw [Makes, ofExpr_eq, finish_of_keeps fresh keeps', same]

/-- A node that is rewritten with its operands swept becomes what the rule leaves. -/
theorem makes_of_rewritten (swept : (assembled book e.tagged).result.untagged = f.untagged)
    (first : book.first? f.tagged = some (step, after)) (differs : (after == f.tagged) = false) :
    Makes book e after := by
  rw [← assembled_result swept] at first differs
  rw [Makes, ofExpr_eq, finish_of_differs first differs]

private theorem untagged_assembled (left : Makes book l l') (right : Makes book r r') :
    (assembled book (Expr.binary t o l r).tagged).result.untagged = (Expr.op o l' r').untagged := by
  refine untagged_rebuilt ?_
  rw [Makes] at left right
  simp only [untagged, left, right, untagged_tagged]
  rfl

theorem Makes.op (left : Makes book l l') (right : Makes book r r')
    (keeps : book.Keeps (.op o l' r')) : Makes book (.binary t o l r) (.op o l' r') :=
  makes_of_assembled (untagged_assembled left right) keeps

theorem Makes.rewrite (left : Makes book l l') (right : Makes book r r')
    (first : book.first? (Expr.op o l' r').tagged = some (step, after))
    (differs : (after == (Expr.op o l' r').tagged) = false) :
    Makes book (.binary t o l r) after :=
  makes_of_rewritten (untagged_assembled left right) first differs

theorem Makes.equal (left : Makes book l l') (right : Makes book r r')
    (keeps : book.Keeps (.equal l' r')) : Makes book (.equal l r) (.equal l' r') := by
  refine makes_of_assembled (untagged_rebuilt ?_) keeps
  rw [Makes] at left right
  simp only [untagged, left, right, untagged_tagged]
  rfl

theorem Makes.sign {o : UnaryOp} (operand : Makes book u u') (keeps : book.Keeps (.sign o u')) :
    Makes book (.sign o u) (.sign o u') := by
  refine makes_of_assembled (untagged_rebuilt ?_) keeps
  rw [Makes] at operand
  simp only [untagged, operand, untagged_tagged]
  rfl

theorem ofList_makes {us : List (Expr ν)} {g h : Expr ν → Expr ν}
    (each : ∀ u ∈ us, Makes book (g u) (h u)) :
    (ofList book ((us.map g).map tagged)).result = (us.map h).map tagged := by
  induction us with
  | nil => rfl
  | cons u us ih =>
    have here : (ofExpr book (g u).tagged).result = (h u).tagged := each u (by simp)
    have behind := ih fun v member => each v (List.mem_cons_of_mem _ member)
    simp only [List.map_cons, ofList, here, behind]

theorem Makes.apply {f : Func} {us : List (Expr ν)} {g h : Expr ν → Expr ν}
    (each : ∀ u ∈ us, Makes book (g u) (h u)) (keeps : book.Keeps (.apply f (us.map h))) :
    Makes book (.apply f (us.map g)) (.apply f (us.map h)) := by
  refine makes_of_assembled (untagged_rebuilt ?_) keeps
  simp only [untagged, taggedList_eq, untaggedList_eq, ofList_makes each]
  simp [Expr.apply, untagged]

end Sweep

namespace Simplification

variable [BEq ν] {book : RuleBook ν} {e f g : Expr ν} {limit : Nat}

/-- A run within a limit ends with a tree, because a pass has changed nothing. -/
structure SettlesOn (book : RuleBook ν) (limit : Nat) (e f : Expr ν) : Prop where
  settled : (run book limit e).settled = true
  tree : (run book limit e).tree = f.tagged

theorem settlesOn_of_normal (normal : e.Normal book) : SettlesOn book 1 e e where
  settled := by rw [run_of_normal (Nat.le_refl 1) normal]
  tree := by rw [run_of_normal (Nat.le_refl 1) normal]

/-- One more pass in front settles on the same tree. If that pass changes nothing, then it is the
only one. -/
theorem SettlesOn.of_makes (later : SettlesOn book limit f g) (makes : Sweep.Makes book e f) :
    SettlesOn book (limit + 1) e g := by
  obtain ⟨settled, tree⟩ := later
  cases limit with
  | zero => cases settled
  | succ limit =>
    have retagged : run book (limit + 1) f.tagged = run book (limit + 1) f := by
      rw [run, fresh_tagged f, run]
    cases changed : (Sweep.ofExpr book e.tagged).changed with
    | true =>
      constructor
      · rw [run, makes, retagged]
        simpa only [changed, ↓reduceIte] using settled
      · rw [tree_run_succ_of_changed book _ changed, makes, retagged, tree]
    | false =>
      have same : e.tagged = f.tagged := by
        rw [← makes, ((Sweep.ofExpr_sound e.tagged (fresh_tagged e)).unchanged changed).1]
      have only := run_succ_of_unchanged book limit changed
      rw [run, same, ← run] at only
      rw [only] at tree
      constructor
      · rw [run_succ_of_unchanged book _ changed]
      · rw [run_succ_of_unchanged book _ changed, same, ← tree]

/-- A run that settles within a limit does so within any higher one. -/
theorem SettlesOn.run_eq {higher : Nat} (settles : SettlesOn book limit e f)
    (le : limit ≤ higher) : run book higher e = run book limit e :=
  run_of_settled book e le settles.settled

theorem SettlesOn.mono {higher : Nat} (settles : SettlesOn book limit e f)
    (le : limit ≤ higher) : SettlesOn book higher e f where
  settled := by rw [settles.run_eq le, settles.settled]
  tree := by rw [settles.run_eq le, settles.tree]

/-- Simplifying does not run out of passes if fewer are enough to settle. -/
theorem SettlesOn.simplify {ν : Type} [Arithmetic ν] {limit : Nat} {e f : Expr ν}
    (settles : SettlesOn Rule.forNode limit e f) (enough : limit ≤ defaultPasses)
    (accepted : checkDepth e = .ok ()) :
    ∃ s, e.simplify = .ok s ∧ s.settled = true ∧ s.tree = f.tagged :=
  ⟨_, (simplifyWith_eq defaultPasses (checkDepth_eq_ok_iff.mp accepted)).trans
    (congrArg Except.ok (settles.run_eq enough)), settles.settled, settles.tree⟩

/-- A run ends with what its first pass leads to if that is a normal form. -/
theorem tree_run_of_makes (two : 2 ≤ limit) (makes : Sweep.Makes book e f)
    (normal : f.Normal book) : (run book limit e).tree = f.tagged := by
  have settles := (settlesOn_of_normal normal).of_makes makes
  rw [settles.run_eq two, settles.tree]

end Simplification

end AlgebraEngine
