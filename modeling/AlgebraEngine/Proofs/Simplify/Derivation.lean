import AlgebraEngine.Proofs.Expr.Untagged
import AlgebraEngine.Simplify.Simplification

/-! The recorded steps of a simplification are a derivation: each one replaces a single node by what
the first rule that applies to it makes of it, and the trees between them differ. Whatever a step
preserves in every context is therefore preserved by a pass and by a whole simplification. -/
namespace AlgebraEngine

variable {ν : Type} [BEq ν]

/-- One step, between trees without caches. The rules see the node as a fresh pass would tag it. -/
inductive Rewrites (book : RuleBook ν) (step : Step) : Expr ν → Expr ν → Prop where
  | node {e after : Expr ν} (first : book.first? e.tagged = some (step, after))
      (differs : (after == e.tagged) = false) : Rewrites book step e after.untagged
  | left {l l' : Expr ν} (o : BinaryOp) (r : Expr ν) (inner : Rewrites book step l l') :
      Rewrites book step (.op o l r) (.op o l' r)
  | right {r r' : Expr ν} (o : BinaryOp) (l : Expr ν) (inner : Rewrites book step r r') :
      Rewrites book step (.op o l r) (.op o l r')
  | operand {u u' : Expr ν} (o : UnaryOp) (inner : Rewrites book step u u') :
      Rewrites book step (.sign o u) (.sign o u')
  | argument {u u' : Expr ν} (f : Func) (us vs : List (Expr ν)) (inner : Rewrites book step u u') :
      Rewrites book step (.apply f (us ++ u :: vs)) (.apply f (us ++ u' :: vs))
  | leftSide {l l' : Expr ν} (r : Expr ν) (inner : Rewrites book step l l') :
      Rewrites book step (.equal l r) (.equal l' r)
  | rightSide {r r' : Expr ν} (l : Expr ν) (inner : Rewrites book step r r') :
      Rewrites book step (.equal l r) (.equal l r')

/-- Several steps, one after the other. -/
inductive Derivation (book : RuleBook ν) : List Step → Expr ν → Expr ν → Prop where
  | done (e : Expr ν) : Derivation book [] e e
  | step {s : Step} {steps : List Step} {e middle e' : Expr ν} (first : Rewrites book s e middle)
      (rest : Derivation book steps middle e') : Derivation book (s :: steps) e e'

namespace Derivation

variable {book : RuleBook ν} {steps later : List Step} {e middle e' : Expr ν}

theorem single {s : Step} (step : Rewrites book s e e') : Derivation book [s] e e' :=
  .step step (.done _)

theorem append (before : Derivation book steps e middle) (after : Derivation book later middle e') :
    Derivation book (steps ++ later) e e' := by
  induction before with
  | done => exact after
  | step first _ ih => exact .step first (ih after)

/-- Steps below a node are steps of the whole tree. -/
theorem within (frame : Expr ν → Expr ν)
    (lifts : ∀ {s e e'}, Rewrites book s e e' → Rewrites book s (frame e) (frame e'))
    (derived : Derivation book steps e e') : Derivation book steps (frame e) (frame e') := by
  induction derived with
  | done => exact .done _
  | step first _ ih => exact .step (lifts first) ih

/-- Two operands are rewritten one after the other. -/
theorem operands (frame : Expr ν → Expr ν → Expr ν) {l l' r r' : Expr ν}
    (lifts_left : ∀ {s l l'} (r), Rewrites book s l l' → Rewrites book s (frame l r) (frame l' r))
    (lifts_right : ∀ {s r r'} (l), Rewrites book s r r' → Rewrites book s (frame l r) (frame l r'))
    (left : Derivation book steps l l') (right : Derivation book later r r') :
    Derivation book (steps ++ later) (frame l r) (frame l' r') :=
  (left.within (frame · r) (lifts_left r)).append (right.within (frame l') (lifts_right l'))

end Derivation

namespace Sweep

variable {book : RuleBook ν}

/-- What a pass promises about a fresh tree: its result is fresh and derived by the steps it
recorded, and it reports a change exactly when it recorded a step. -/
structure Sound (book : RuleBook ν) (e : Expr ν) (s : Sweep ν (Expr ν)) : Prop where
  fresh : s.result.Fresh
  derived : Derivation book (s.rewrites.map Rewrite.step) e.untagged s.result.untagged
  unchanged : s.changed = false → s.result = e ∧ s.rewrites = []
  changed : s.changed = true → s.rewrites ≠ []

theorem finish_sound {e : Expr ν} {s : Sweep ν (Expr ν)} (sound : Sound book e s) :
    Sound book e (finish book s) := by
  unfold finish
  split
  · exact sound
  · rename_i step after first
    split
    · exact sound
    · rename_i differs
      have same : s.result.untagged.tagged = s.result :=
        (Expr.tagged_untagged _).trans sound.fresh
      have last : Rewrites book step s.result.untagged after.untagged :=
        .node (by rw [same]; exact first) (by rw [same]; simpa using differs)
      exact {
        fresh := Expr.fresh_tagged after
        derived := by
          simpa only [List.map_append, List.map_cons, List.map_nil, Expr.untagged_tagged] using
            sound.derived.append (.single last)
        unchanged := by intro impossible; cases impossible
        changed := by intro _; simp }

/-- A node whose operands have been swept is put together again, with its own cache recomputed if
anything below it changed. -/
theorem rebuild_sound {e node : Expr ν} {changed : Bool} {rewrites : List (Rewrite ν)}
    (fresh : e.Fresh) (operands : ∀ u ∈ node.children, u.Fresh)
    (derived : Derivation book (rewrites.map Rewrite.step) e.untagged node.untagged)
    (still : changed = false → node = e ∧ rewrites = [])
    (moved : changed = true → rewrites ≠ []) :
    Sound book e ⟨if changed then node.retag else node, changed, rewrites⟩ := by
  cases changed with
  | true =>
    exact {
      fresh := Expr.fresh_retag operands
      derived := by simpa using derived
      unchanged := by intro impossible; cases impossible
      changed := moved }
  | false =>
    obtain ⟨rfl, none⟩ := still rfl
    exact {
      fresh := fresh
      derived := by simpa using derived
      unchanged := by intro _; exact ⟨rfl, none⟩
      changed := by intro impossible; cases impossible }

/-- What a pass promises about fresh arguments. They are rewritten one after the other, below a call
that can have further arguments in front. -/
structure SoundList (book : RuleBook ν) (us : List (Expr ν)) (s : Sweep ν (List (Expr ν))) :
    Prop where
  fresh : ∀ u ∈ s.result, u.Fresh
  derived : ∀ f before, Derivation book (s.rewrites.map Rewrite.step)
    (.apply f (before ++ us.map Expr.untagged)) (.apply f (before ++ s.result.map Expr.untagged))
  unchanged : s.changed = false → s.result = us ∧ s.rewrites = []
  changed : s.changed = true → s.rewrites ≠ []

theorem ofList_sound (us : List (Expr ν)) (each : ∀ u ∈ us, Sound book u (ofExpr book u)) :
    SoundList book us (ofList book us) := by
  induction us with
  | nil =>
    exact {
      fresh := by simp [ofList]
      derived := by intro f before; exact .done _
      unchanged := by intro _; exact ⟨rfl, rfl⟩
      changed := by intro impossible; cases impossible }
  | cons u us ih =>
    have here := each u (by simp)
    have there := ih fun v member => each v (List.mem_cons_of_mem _ member)
    refine ⟨?_, ?_, ?_, ?_⟩
    · intro v member
      simp only [ofList, List.mem_cons] at member
      rcases member with rfl | member
      · exact here.fresh
      · exact there.fresh v member
    · intro f before
      have first := here.derived.within
        (fun e => .apply f (before ++ e :: us.map Expr.untagged)) (fun step => .argument f _ _ step)
      have second := there.derived f (before ++ [(ofExpr book u).result.untagged])
      simp only [List.append_assoc, List.singleton_append] at second
      simpa only [ofList, List.map_append, List.map_cons] using first.append second
    · intro still
      simp only [ofList, Bool.or_eq_false_iff] at still
      obtain ⟨sameHead, noneHead⟩ := here.unchanged still.1
      obtain ⟨sameTail, noneTail⟩ := there.unchanged still.2
      exact ⟨by simp [ofList, sameHead, sameTail], by simp [ofList, noneHead, noneTail]⟩
    · intro moved
      simp only [ofList, Bool.or_eq_true] at moved
      intro none
      obtain ⟨noneHead, noneTail⟩ := List.append_eq_nil_iff.mp none
      rcases moved with moved | moved
      · exact here.changed moved noneHead
      · exact there.changed moved noneTail

private theorem both_unchanged {e r : Expr ν} {s s' : Sweep ν (Expr ν)} (left : Sound book e s)
    (right : Sound book r s') (still : (s.changed || s'.changed) = false) :
    (s.result = e ∧ s'.result = r) ∧ s.rewrites ++ s'.rewrites = [] := by
  rw [Bool.or_eq_false_iff] at still
  obtain ⟨sameLeft, noneLeft⟩ := left.unchanged still.1
  obtain ⟨sameRight, noneRight⟩ := right.unchanged still.2
  exact ⟨⟨sameLeft, sameRight⟩, by simp [noneLeft, noneRight]⟩

private theorem either_changed {e r : Expr ν} {s s' : Sweep ν (Expr ν)} (left : Sound book e s)
    (right : Sound book r s') (moved : (s.changed || s'.changed) = true) :
    s.rewrites ++ s'.rewrites ≠ [] := by
  intro none
  obtain ⟨noneLeft, noneRight⟩ := List.append_eq_nil_iff.mp none
  rcases (Bool.or_eq_true _ _).mp moved with moved | moved
  · exact left.changed moved noneLeft
  · exact right.changed moved noneRight

/-- The sweep of a node whose operands have been swept, before a rule is looked up for it. -/
def assembled (book : RuleBook ν) : Expr ν → Sweep ν (Expr ν)
  | .number value => ⟨.number value, false, []⟩
  | .atom a => ⟨.atom a, false, []⟩
  | .binary t o l r =>
    let l' := ofExpr book l
    let r' := ofExpr book r
    let changed := l'.changed || r'.changed
    let node := .binary t o l'.result r'.result
    ⟨if changed then node.retag else node, changed, l'.rewrites ++ r'.rewrites⟩
  | .unary t o u =>
    let u' := ofExpr book u
    let node := .unary t o u'.result
    ⟨if u'.changed then node.retag else node, u'.changed, u'.rewrites⟩
  | .call t f us =>
    let us' := ofList book us
    let node := .call t f us'.result
    ⟨if us'.changed then node.retag else node, us'.changed, us'.rewrites⟩
  | .equality t side l r =>
    let l' := ofExpr book l
    let r' := ofExpr book r
    let changed := l'.changed || r'.changed
    let node := .equality t side l'.result r'.result
    ⟨if changed then node.retag else node, changed, l'.rewrites ++ r'.rewrites⟩

/-- A pass sweeps the operands of a node and then the node itself. -/
theorem ofExpr_eq (e : Expr ν) : ofExpr book e = finish book (assembled book e) := by
  cases e <;> rfl

/-- A node keeps the promise of a pass as soon as its operands do. -/
theorem assembled_sound {e : Expr ν} (fresh : e.Fresh)
    (operands : ∀ u ∈ e.children, Sound book u (ofExpr book u)) :
    Sound book e (assembled book e) := by
  cases e with
  | number value | atom a =>
    exact {
      fresh := fresh
      derived := .done _
      unchanged := by intro _; exact ⟨rfl, rfl⟩
      changed := by intro impossible; cases impossible }
  | binary t o l r =>
    have l' := operands l (by simp [Expr.children])
    have r' := operands r (by simp [Expr.children])
    refine rebuild_sound fresh ?_ ?_ ?_ (either_changed l' r')
    · simpa [Expr.children] using ⟨l'.fresh, r'.fresh⟩
    · simpa only [List.map_append, Expr.untagged] using Derivation.operands
        (.op o) (fun r step => .left o r step) (fun l step => .right o l step)
        l'.derived r'.derived
    · intro still
      obtain ⟨same, none⟩ := both_unchanged l' r' still
      exact ⟨by rw [same.1, same.2], none⟩
  | unary t o u =>
    have u' := operands u (by simp [Expr.children])
    refine rebuild_sound fresh ?_ ?_ ?_ u'.changed
    · simpa [Expr.children] using u'.fresh
    · exact u'.derived.within (.sign o) (fun step => .operand o step)
    · intro still
      obtain ⟨same, none⟩ := u'.unchanged still
      exact ⟨by rw [same], none⟩
  | call t f us =>
    have us' := ofList_sound us operands
    refine rebuild_sound fresh us'.fresh ?_ ?_ us'.changed
    · simpa [Expr.untagged] using us'.derived f []
    · intro still
      obtain ⟨same, none⟩ := us'.unchanged still
      exact ⟨by rw [same], none⟩
  | equality t side l r =>
    have l' := operands l (by simp [Expr.children])
    have r' := operands r (by simp [Expr.children])
    refine rebuild_sound fresh ?_ ?_ ?_ (either_changed l' r')
    · simpa [Expr.children] using ⟨l'.fresh, r'.fresh⟩
    · simpa only [List.map_append, Expr.untagged] using Derivation.operands
        (.equal) (fun r step => .leftSide r step) (fun l step => .rightSide l step)
        l'.derived r'.derived
    · intro still
      obtain ⟨same, none⟩ := both_unchanged l' r' still
      exact ⟨by rw [same.1, same.2], none⟩

/-- Every pass over a fresh tree keeps its promise, in particular it never reads a stale cache. -/
theorem ofExpr_sound (e : Expr ν) (fresh : e.Fresh) : Sound book e (ofExpr book e) := by
  induction e using Expr.inductionOnChildren with
  | node e inner =>
    rw [ofExpr_eq]
    exact finish_sound (assembled_sound fresh fun u member => inner u member (fresh.operands member))

/-- A pass that changes nothing leaves the tree that it was given and makes no rewrites. -/
theorem ofExpr_of_unchanged {e : Expr ν} (fresh : e.Fresh)
    (unchanged : (ofExpr book e).changed = false) : ofExpr book e = ⟨e, false, []⟩ := by
  obtain ⟨same, none⟩ := (ofExpr_sound e fresh).unchanged unchanged
  cases swept : ofExpr book e
  simp_all

end Sweep

namespace Simplification

variable (book : RuleBook ν)

/-- A first pass that changes nothing is the only one. -/
theorem run_succ_of_unchanged (limit : Nat) {e : Expr ν}
    (unchanged : (Sweep.ofExpr book e.tagged).changed = false) :
    run book (limit + 1) e = ⟨e.tagged, [⟨e.tagged, false, []⟩], true⟩ := by
  simp [run, Sweep.ofExpr_of_unchanged (Expr.fresh_tagged e) unchanged]

/-- A first pass that changes something hands its tree to the passes that are left. -/
theorem tree_run_succ_of_changed (limit : Nat) {e : Expr ν}
    (changed : (Sweep.ofExpr book e.tagged).changed = true) :
    (run book (limit + 1) e).tree = (run book limit (Sweep.ofExpr book e.tagged).result).tree := by
  simp [run, changed]

theorem steps_run_succ_of_changed (limit : Nat) {e : Expr ν}
    (changed : (Sweep.ofExpr book e.tagged).changed = true) :
    (run book (limit + 1) e).steps =
      (Sweep.ofExpr book e.tagged).rewrites.map Rewrite.step ++
        (run book limit (Sweep.ofExpr book e.tagged).result).steps := by
  simp [run, steps, changed]

/-- The steps of a whole simplification derive its result from the tree it was given. -/
theorem run_derived (limit : Nat) (e : Expr ν) :
    Derivation book (run book limit e).steps e.untagged (run book limit e).tree.untagged := by
  induction limit generalizing e with
  | zero => exact .done _
  | succ limit ih =>
    have sound : Sweep.Sound book e.tagged _ := Sweep.ofExpr_sound e.tagged (Expr.fresh_tagged e)
    have pass := sound.derived
    rw [Expr.untagged_tagged] at pass
    simp only [run]
    split
    · simpa only [steps, List.flatMap_cons] using pass.append (ih _)
    · simpa only [steps, List.flatMap_cons, List.flatMap_nil, List.append_nil] using pass

/-- A simplification that the limit ended has recorded a step in every pass. -/
theorem limit_le_steps (limit : Nat) (e : Expr ν) (unsettled : (run book limit e).settled = false) :
    limit ≤ (run book limit e).steps.length := by
  induction limit generalizing e with
  | zero => exact Nat.zero_le _
  | succ limit ih =>
    have pass : Sweep.Sound book e.tagged _ := Sweep.ofExpr_sound e.tagged (Expr.fresh_tagged e)
    simp only [run] at unsettled ⊢
    split at unsettled
    · rename_i moved
      have recorded := List.length_pos_iff.mpr (pass.changed moved)
      have later := ih _ unsettled
      simp only [moved, ↓reduceIte, steps, List.flatMap_cons, List.length_append,
        List.length_map] at later ⊢
      omega
    · cases unsettled

/-- The last pass of a settled simplification changes nothing. -/
theorem last_unchanged (limit : Nat) (e : Expr ν) (settled : (run book limit e).settled = true) :
    ∃ last, (run book limit e).passes.getLast? = some last ∧ last.changed = false := by
  induction limit generalizing e with
  | zero => cases settled
  | succ limit ih =>
    simp only [run] at settled ⊢
    split at settled
    · rename_i moved
      obtain ⟨last, found, unchanged⟩ := ih _ settled
      refine ⟨last, ?_, unchanged⟩
      simp [moved, List.getLast?_cons, found]
    · rename_i unchanged
      simp [unchanged]

/-- A simplification that settles is the same at every higher limit. -/
theorem run_of_settled {limit higher : Nat} (e : Expr ν) (le : limit ≤ higher)
    (settled : (run book limit e).settled = true) : run book higher e = run book limit e := by
  induction limit generalizing e higher with
  | zero => cases settled
  | succ limit ih =>
    cases higher with
    | zero => omega
    | succ higher =>
      simp only [run] at settled ⊢
      split at settled
      · rename_i moved
        simp only [moved, ↓reduceIte]
        rw [ih _ (Nat.le_of_succ_le_succ le) settled]
      · rename_i unchanged
        simp [unchanged]

end Simplification

/-- A tree that is shallow enough is always simplified. -/
theorem Expr.simplifyWith_eq {ν : Type} [Arithmetic ν] (limit : Nat) {e : Expr ν}
    (shallow : e.depth ≤ maxDepth) :
    e.simplifyWith limit = .ok (.run Rule.forNode limit e) := by
  have accepted : checkDepth e = .ok () := if_neg (Nat.not_lt.mpr shallow)
  simp only [simplifyWith, simplifyBy, accepted]

/-- A tree is simplified by a run, if it is simplified at all. -/
theorem Expr.simplifyWith_eq_run {ν : Type} [Arithmetic ν] {limit : Nat} {e : Expr ν}
    {s : Simplification ν} (simplified : e.simplifyWith limit = .ok s) :
    s = .run Rule.forNode limit e := by
  unfold simplifyWith simplifyBy at simplified
  split at simplified
  · cases simplified
    rfl
  · cases simplified

end AlgebraEngine
