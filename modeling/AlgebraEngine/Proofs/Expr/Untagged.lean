import AlgebraEngine.Expr.Depth

/-! A cache holds no information of its own. Two trees that differ only in their caches have the
same untagged form, and tagging afresh forgets what a tree cached before. -/
namespace AlgebraEngine.Expr

variable {ν : Type}

/-- Induction over trees. A call is reached from all of its arguments at once. -/
@[elab_as_elim, induction_eliminator]
theorem inductionOn {motive : Expr ν → Prop}
    (number : ∀ value, motive (.number value))
    (atom : ∀ a, motive (.atom a))
    (binary : ∀ t o l r, motive l → motive r → motive (.binary t o l r))
    (unary : ∀ t o u, motive u → motive (.unary t o u))
    (call : ∀ t f us, (∀ u ∈ us, motive u) → motive (.call t f us))
    (equality : ∀ t side l r, motive l → motive r → motive (.equality t side l r))
    (e : Expr ν) : motive e := by
  refine Expr.rec (motive_1 := motive) (motive_2 := fun us => ∀ u ∈ us, motive u)
    number atom binary unary call equality (by simp) ?_ e
  intro u us here there v member
  rcases List.mem_cons.mp member with rfl | member
  · exact here
  · exact there v member

/-- Induction over trees from the operands of a node to the node. -/
@[elab_as_elim]
theorem inductionOnChildren {motive : Expr ν → Prop}
    (node : ∀ e, (∀ u ∈ e.children, motive u) → motive e) (e : Expr ν) : motive e := by
  induction e with
  | number value | atom a => exact node _ (by simp [children])
  | binary t o l r left right => exact node _ (by simp [children, left, right])
  | unary t o u inner => exact node _ (by simp [children, inner])
  | call t f us inner => exact node _ inner
  | equality t side l r left right => exact node _ (by simp [children, left, right])

mutual

/-- A tree with the cache of every node emptied. -/
def untagged : Expr ν → Expr ν
  | number value => number value
  | atom a => atom a
  | binary _ o l r => op o l.untagged r.untagged
  | unary _ o u => sign o u.untagged
  | call _ f us => apply f (untaggedList us)
  | equality _ _ l r => equal l.untagged r.untagged

/-- A list of arguments with every cache emptied. -/
def untaggedList : List (Expr ν) → List (Expr ν)
  | [] => []
  | u :: us => u.untagged :: untaggedList us

end

attribute [grind =] tagged taggedList untagged untaggedList

/-- A tree whose caches are what tagging it afresh would store. -/
def Fresh (e : Expr ν) : Prop := e.tagged = e

@[simp] theorem untaggedList_eq (us : List (Expr ν)) : untaggedList us = us.map untagged := by
  induction us with
  | nil => rfl
  | cons u us ih => simp [untaggedList, ih]

@[simp] theorem taggedList_eq (us : List (Expr ν)) : taggedList us = us.map tagged := by
  induction us with
  | nil => rfl
  | cons u us ih => simp [taggedList, ih]

@[simp] theorem tagged_untagged (e : Expr ν) : e.untagged.tagged = e.tagged := by
  induction e with
  | number value => rfl
  | atom a => rfl
  | binary t o l r left right => simp [untagged, tagged, op, left, right, retag]
  | unary t o u inner => simp [untagged, tagged, sign, inner, retag]
  | call t f us inner =>
    have same : (us.map untagged).map tagged = us.map tagged := by
      simpa using inner
    simp [untagged, tagged, apply, retag, same]
  | equality t side l r left right => simp [untagged, tagged, equal, left, right, retag]

@[simp] theorem untagged_retag (e : Expr ν) : e.retag.untagged = e.untagged := by
  cases e <;> rfl

@[simp] theorem untagged_tagged (e : Expr ν) : e.tagged.untagged = e.untagged := by
  induction e with
  | number value => rfl
  | atom a => rfl
  | binary t o l r left right => simp [tagged, untagged, left, right]
  | unary t o u inner => simp [tagged, untagged, inner]
  | call t f us inner =>
    have same : (us.map tagged).map untagged = us.map untagged := by
      simpa using inner
    simpa [tagged, untagged] using congrArg (apply f) same
  | equality t side l r left right => simp [tagged, untagged, left, right]

@[simp] theorem untagged_untagged (e : Expr ν) : e.untagged.untagged = e.untagged := by
  rw [← untagged_tagged e.untagged, tagged_untagged, untagged_tagged]

@[simp] theorem children_op (o : BinaryOp) (l r : Expr ν) : (op o l r).children = [l, r] := rfl

@[simp] theorem children_sign (o : UnaryOp) (u : Expr ν) : (sign o u).children = [u] := rfl

@[simp] theorem children_tagged (e : Expr ν) : e.tagged.children = e.children.map tagged := by
  cases e <;> simp [tagged, retag, children]

/-- Emptying caches leaves an equality an equality. -/
theorem equality_of_untagged {e l r : Expr ν} (same : e.untagged = .equal l r) :
    ∃ t side l' r', e = .equality t side l' r' ∧ l'.untagged = l ∧ r'.untagged = r := by
  cases e with
  | equality t side l' r' =>
    cases same
    exact ⟨t, side, l', r', rfl, rfl, rfl⟩
  | number value | atom a | binary t o l r | unary t o u | call t f us => cases same

/-- Tagging stores fresh caches, whatever a tree cached before. -/
theorem fresh_tagged (e : Expr ν) : e.tagged.Fresh := by
  rw [Fresh, ← tagged_untagged e.tagged, untagged_tagged, tagged_untagged]

/-- A fresh tree is determined by what it is apart from its caches. -/
theorem Fresh.eq_tagged {e f : Expr ν} (fresh : e.Fresh) (same : e.untagged = f.untagged) :
    e = f.tagged := by
  have tagged : e.tagged = e := fresh
  rw [← tagged, ← tagged_untagged e, same, tagged_untagged]

theorem untagged_eq_of_tagged {e f : Expr ν} (same : e.tagged = f.tagged) :
    e.untagged = f.untagged := by
  rw [← untagged_tagged e, same, untagged_tagged]

/-- Trees that differ only in their caches are alike once they are tagged. -/
theorem tagged_congr {e f : Expr ν} (same : e.untagged = f.untagged) : e.tagged = f.tagged := by
  rw [← tagged_untagged e, same, tagged_untagged]

private theorem map_tagged_eq_iff {us : List (Expr ν)} :
    us.map tagged = us ↔ ∀ u ∈ us, u.Fresh := by
  simpa only [List.map_id, id, Fresh] using
    (List.map_inj_left (l := us) (f := tagged) (g := id))

/-- A node is fresh if its operands are and its own cache was just recomputed. -/
theorem fresh_retag {e : Expr ν} (operands : ∀ u ∈ e.children, u.Fresh) : e.retag.Fresh := by
  cases e with
  | number value => rfl
  | atom a => rfl
  | binary t o l r =>
    have left : l.tagged = l := operands l (by simp [children])
    have right : r.tagged = r := operands r (by simp [children])
    simp [Fresh, retag, tagged, left, right]
  | unary t o u =>
    have inner : u.tagged = u := operands u (by simp [children])
    simp [Fresh, retag, tagged, inner]
  | call t f us =>
    have inner : us.map tagged = us := map_tagged_eq_iff.mpr operands
    simp [Fresh, retag, tagged, inner]
  | equality t side l r =>
    have left : l.tagged = l := operands l (by simp [children])
    have right : r.tagged = r := operands r (by simp [children])
    simp [Fresh, retag, tagged, left, right]

/-- The operands of a fresh node are fresh. -/
theorem Fresh.operands {e u : Expr ν} (fresh : e.Fresh) (member : u ∈ e.children) : u.Fresh := by
  cases e with
  | number value => simp [children] at member
  | atom a => simp [children] at member
  | binary t o l r =>
    simp only [Fresh, tagged, retag, binary.injEq] at fresh
    simp only [children, List.mem_cons, List.not_mem_nil, or_false] at member
    rcases member with rfl | rfl
    · exact fresh.2.2.1
    · exact fresh.2.2.2
  | unary t o v =>
    simp only [Fresh, tagged, retag, unary.injEq] at fresh
    simp only [children, List.mem_singleton] at member
    exact member ▸ fresh.2.2
  | call t f us =>
    simp only [Fresh, tagged, retag, taggedList_eq, call.injEq] at fresh
    exact map_tagged_eq_iff.mp fresh.2.2 u member
  | equality t side l r =>
    simp only [Fresh, tagged, retag, equality.injEq] at fresh
    simp only [children, List.mem_cons, List.not_mem_nil, or_false] at member
    rcases member with rfl | rfl
    · exact fresh.2.2.1
    · exact fresh.2.2.2

instance [BEq ν] [ReflBEq ν] : ReflBEq (Expr ν) where
  rfl := by
    intro e
    show same e e = true
    induction e with
    | number value => simp [same]
    | atom a => simp [same]
    | binary t o l r left right => simp [same, left, right]
    | unary t o u inner => simp [same, inner]
    | call t f us inner =>
      have each : sameList us us = true := by
        induction us with
        | nil => rfl
        | cons u us ih => simp_all [sameList]
      simp [same, each]
    | equality t side l r left right => simp [same, left, right]

theorem number_beq_number [BEq ν] {x y : ν} : (number x == number y) = (x == y) := rfl

theorem op_beq_op [BEq ν] {o p : BinaryOp} {l r l' r' : Expr ν} :
    (op o l r == op p l' r') = (o == p && l == l' && r == r') := rfl

theorem sign_beq_sign [BEq ν] {o p : UnaryOp} {u v : Expr ν} :
    (sign o u == sign p v) = (o == p && u == v) := rfl

theorem apply_beq_apply [BEq ν] {f g : Func} {us vs : List (Expr ν)} :
    (apply f us == apply g vs) = (f == g && sameList us vs) := rfl

theorem equal_beq_equal [BEq ν] {l r l' r' : Expr ν} :
    (equal l r == equal l' r') = (l == l' && r == r') := rfl

theorem sameList_map [BEq ν] {f g : Expr ν → Expr ν} {us : List (Expr ν)}
    (each : ∀ u ∈ us, (f u == g u) = true) : sameList (us.map f) (us.map g) = true := by
  induction us with
  | nil => rfl
  | cons u us ih =>
    have here : same (f u) (g u) = true := each u (by simp)
    have there := ih fun v member => each v (List.mem_cons_of_mem _ member)
    simp [sameList, here, there]

private theorem sameList_untagged [BEq ν] {us vs : List (Expr ν)}
    (each : ∀ u ∈ us, ∀ v, same u v = same u.untagged v.untagged) :
    sameList us vs = sameList (us.map untagged) (vs.map untagged) := by
  induction us generalizing vs with
  | nil => cases vs <;> rfl
  | cons u us ih =>
    cases vs with
    | nil => rfl
    | cons v vs =>
      have here := each u (by simp) v
      have there : sameList us vs = sameList (us.map untagged) (vs.map untagged) :=
        ih fun w member => each w (List.mem_cons_of_mem _ member)
      simp only [sameList, List.map_cons, here, there]

private theorem same_untagged [BEq ν] (e e' : Expr ν) :
    same e e' = same e.untagged e'.untagged := by
  induction e generalizing e' with
  | number value | atom a => cases e' <;> rfl
  | binary t o l r left right | equality t side l r left right =>
    cases e' <;> simp [same, untagged, op, sign, apply, equal, left, right]
  | unary t o u inner => cases e' <;> simp [same, untagged, op, sign, apply, equal, inner]
  | call t f us inner =>
    cases e' with
    | call t' g vs => simp [same, untagged, apply, sameList_untagged inner]
    | number value | atom a | binary t' o l r | unary t' o u | equality t' side l r => rfl

/-- Equality ignores what trees cache. -/
theorem beq_congr [BEq ν] {e e' f f' : Expr ν} (left : e.untagged = f.untagged)
    (right : e'.untagged = f'.untagged) : (e == e') = (f == f') := by
  show same e e' = same f f'
  rw [same_untagged e, same_untagged f, left, right]

/-- Equality ignores what a node caches. -/
theorem beq_binary [BEq ν] (e : Expr ν) (t : Tags) (o : BinaryOp) (l r : Expr ν) :
    (e == binary t o l r) = (e == op o l r) := by
  cases e <;> rfl

private theorem sameList_iff [BEq ν] {us vs : List (Expr ν)}
    (each : ∀ u ∈ us, ∀ v, same u v = true ↔ u.untagged = v.untagged) :
    sameList us vs = true ↔ us.map untagged = vs.map untagged := by
  induction us generalizing vs with
  | nil => cases vs <;> simp [sameList]
  | cons u us ih =>
    cases vs with
    | nil => simp [sameList]
    | cons v vs =>
      have there : sameList us vs = true ↔ us.map untagged = vs.map untagged :=
        ih fun w member => each w (List.mem_cons_of_mem _ member)
      simp only [sameList, Bool.and_eq_true, each u (by simp) v, there, List.map_cons,
        List.cons.injEq]

/-- Equal trees differ in their caches at most. -/
theorem beq_iff_untagged [BEq ν] [LawfulBEq ν] {e e' : Expr ν} :
    (e == e') = true ↔ e.untagged = e'.untagged := by
  show same e e' = true ↔ _
  induction e generalizing e' with
  | number value | atom a => cases e' <;> simp [same, untagged, op, sign, apply, equal]
  | binary t o l r left right | equality t side l r left right =>
    cases e' <;> simp [same, untagged, op, sign, apply, equal, left, right, and_assoc]
  | unary t o u inner => cases e' <;> simp [same, untagged, op, sign, apply, equal, inner]
  | call t f us inner =>
    have arguments (vs : List (Expr ν)) :
        sameList us vs = true ↔ us.map untagged = vs.map untagged :=
      sameList_iff fun u member v => inner u member
    cases e' <;> simp [same, untagged, op, sign, apply, equal, arguments]

end AlgebraEngine.Expr
