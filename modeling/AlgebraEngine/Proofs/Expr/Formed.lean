import AlgebraEngine.Proofs.Expr.Spelling

/-! The form that the parser gives a tree and that rewriting keeps. A variable stands alone only as
the last factor of a product or directly under a power or a factorial, a call has as many arguments
as it takes, and there is an equality at most at the root. -/
namespace AlgebraEngine.Expr

variable {ν : Type}

/-- A tree without an equality as the parser makes it. `alone` tells whether it can be a variable
without a coefficient. -/
inductive Formed (named : String → Prop) : (alone : Bool) → Expr ν → Prop where
  | number {alone} (value : ν) : Formed named alone (number value)
  | var {name} (known : named name) : Formed named true (var name)
  | const {alone} (constant : Constant) : Formed named alone (const constant)
  | binary {alone t o l r} (left : Formed named (o = .pow) l)
      (right : Formed named (o = .pow ∨ o = .mul) r) : Formed named alone (binary t o l r)
  | unary {alone t o u} (operand : Formed named false u) : Formed named alone (unary t o u)
  | vector {alone t us} (nonempty : us ≠ []) (components : ∀ u ∈ us, Formed named false u) :
      Formed named alone (call t .vector us)
  | call {alone t f u} (function : f ≠ .vector) (argument : Formed named (f = .factorial) u) :
      Formed named alone (call t f [u])

/-- A tree as the parser makes it. -/
inductive Whole (named : String → Prop) : Expr ν → Prop where
  | expression {e} (formed : Formed named false e) : Whole named e
  | equality {t side l r} (left : Formed named false l) (right : Formed named false r) :
      Whole named (equality t side l r)

variable {named named' : String → Prop} {alone : Bool} {e l r u : Expr ν} {t : Tags}

namespace Formed

/-- Where a variable can stand alone, everything else can stand as well. -/
theorem widen (formed : Formed named false e) : Formed named alone e := by
  cases formed with
  | number value => exact .number value
  | const constant => exact .const constant
  | binary left right => exact .binary left right
  | unary operand => exact .unary operand
  | vector nonempty components => exact .vector nonempty components
  | call function argument => exact .call function argument

theorem mono (formed : Formed named alone e) (more : ∀ name, named name → named' name) :
    Formed named' alone e := by
  induction formed with
  | number value => exact .number value
  | var known => exact .var (more _ known)
  | const constant => exact .const constant
  | binary _ _ left right => exact .binary left right
  | unary _ operand => exact .unary operand
  | vector nonempty _ components => exact .vector nonempty components
  | call function _ argument => exact .call function argument

theorem binary_iff {o : BinaryOp} : Formed named alone (.binary t o l r) ↔
    Formed named (o = .pow) l ∧ Formed named (o = .pow ∨ o = .mul) r := by
  constructor
  · intro formed
    cases formed with
    | binary left right => exact ⟨left, right⟩
  · rintro ⟨left, right⟩
    exact .binary left right

theorem unary_iff {o : UnaryOp} :
    Formed named alone (.unary t o u) ↔ Formed named false u := by
  constructor
  · intro formed
    cases formed with
    | unary operand => exact operand
  · exact .unary

theorem of_mem_children (formed : Formed named alone e) (member : u ∈ e.children) :
    ∃ alone', Formed named alone' u := by
  cases formed with
  | number | var | const => cases member
  | binary left right =>
    simp only [children, List.mem_cons, List.not_mem_nil, or_false] at member
    rcases member with rfl | rfl
    · exact ⟨_, left⟩
    · exact ⟨_, right⟩
  | unary operand => exact ⟨_, List.mem_singleton.mp member ▸ operand⟩
  | vector nonempty components => exact ⟨_, components u member⟩
  | call function argument => exact ⟨_, List.mem_singleton.mp member ▸ argument⟩

theorem not_equality {side : Side} : ¬Formed named alone (.equality t side l r) := by
  intro formed
  cases formed

theorem sum_iff {o : BinaryOp} (sum : o = .add ∨ o = .sub) :
    Formed named alone (.binary t o l r) ↔ Formed named false l ∧ Formed named false r := by
  rcases sum with rfl | rfl <;> exact binary_iff

theorem fraction (n d : ν) : Formed named alone (Expr.fraction n d) :=
  .binary (.number n) (.number d)

/-- The atom of a term is the last factor of a product, where it can stand alone. -/
theorem term {c : Expr ν} {a : Atom} (coefficient : Formed named false c)
    (last : Formed named true (atom a : Expr ν)) : Formed named alone (Expr.op .mul c (atom a)) :=
  .binary coefficient last

theorem untagged_iff : Formed named alone e.untagged ↔ Formed named alone e := by
  induction e generalizing alone with
  | number x | atom a => rfl
  | binary t o l r left right => simp only [untagged, op, binary_iff, left, right]
  | unary t o u inner => simp only [untagged, sign, unary_iff, inner]
  | call t f us inner =>
    simp only [untagged, untaggedList_eq, apply]
    constructor
    · intro formed
      generalize same : us.map untagged = vs at formed
      cases formed with
      | vector nonempty components =>
        subst same
        refine .vector (by simpa using nonempty) fun u member => ?_
        exact (inner u member).mp (components _ (List.mem_map_of_mem member))
      | call function argument =>
        obtain ⟨u, rfl, rfl⟩ := List.map_eq_singleton_iff.mp same
        exact .call function ((inner u (by simp)).mp argument)
    · intro formed
      cases formed with
      | vector nonempty components =>
        refine .vector (by simpa using nonempty) ?_
        rw [List.forall_mem_map]
        exact fun u member => (inner u member).mpr (components u member)
      | call function argument => exact .call function ((inner _ (by simp)).mpr argument)
  | equality t side l r left right =>
    exact ⟨fun formed => absurd formed not_equality, fun formed => absurd formed not_equality⟩

theorem tagged_iff : Formed named alone e.tagged ↔ Formed named alone e := by
  rw [← untagged_iff, untagged_tagged, untagged_iff]

/-- A tree that is formed with one letter for the variable is printable if its numbers are. -/
theorem printable [Arithmetic ν] {letter : Char}
    (formed : Formed (fun name => name.toList = [letter]) alone e) (alpha : letter.isAlpha = true)
    (other : letter ≠ 'e') (finite : ∀ x ∈ e.numbers, Arithmetic.isFinite x = true) :
    Printable letter e := by
  induction formed with
  | number value => exact .number (finite value (by simp [numbers]))
  | var known => exact .var known alpha other
  | const constant => exact .const constant
  | binary _ _ left right =>
    exact .binary (left fun x member => finite x (by simp [numbers, member]))
      (right fun x member => finite x (by simp [numbers, member]))
  | unary _ operand => exact .unary (operand finite)
  | vector nonempty _ components =>
    refine .vector nonempty fun u member => components u member fun x deeper => finite x ?_
    simpa [numbers] using ⟨u, member, deeper⟩
  | call function _ argument =>
    exact .call function (argument fun x member => finite x (by simpa [numbers] using member))

end Formed

theorem Whole.mono (whole : Whole named e) (more : ∀ name, named name → named' name) :
    Whole named' e := by
  cases whole with
  | expression formed => exact .expression (formed.mono more)
  | equality left right => exact .equality (left.mono more) (right.mono more)

theorem Whole.untagged_iff : Whole named e.untagged ↔ Whole named e := by
  constructor
  · intro whole
    cases e with
    | equality t side l r =>
      cases whole with
      | expression formed => exact absurd formed Formed.not_equality
      | equality left right =>
        exact .equality (Formed.untagged_iff.mp left) (Formed.untagged_iff.mp right)
    | number | atom | binary | unary | call =>
      cases whole with
      | expression formed => exact .expression (Formed.untagged_iff.mp formed)
  · intro whole
    cases whole with
    | expression formed => exact .expression (Formed.untagged_iff.mpr formed)
    | equality left right =>
      exact .equality (Formed.untagged_iff.mpr left) (Formed.untagged_iff.mpr right)

/-- A whole tree that is formed with one letter can be read back if its numbers are finite. -/
theorem Whole.writable [Arithmetic ν] {letter : Char}
    (whole : Whole (fun name => name.toList = [letter]) e) (alpha : letter.isAlpha = true)
    (other : letter ≠ 'e') (finite : ∀ x ∈ e.numbers, Arithmetic.isFinite x = true) :
    Writable letter e := by
  cases whole with
  | expression formed => exact .expression (formed.printable alpha other finite)
  | equality left right =>
    exact .equality
      (left.printable alpha other fun x member => finite x (by simp [numbers, member]))
      (right.printable alpha other fun x member => finite x (by simp [numbers, member]))

end AlgebraEngine.Expr
