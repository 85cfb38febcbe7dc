import AlgebraEngine.Proofs.Expr.Unknowns

/-! Trees of the four operations. -/
namespace AlgebraEngine

variable {ν : Type}

/-- The four operations. They can be undone for either operand. -/
@[simp] def BinaryOp.isArithmetic : BinaryOp → Bool
  | add | sub | mul | div => true
  | mod | pow => false

/-- Whether an atom is a variable. -/
def Atom.IsVar (a : Atom) : Prop := ∃ name, a = .var name

/-- Whether an atom is a constant. -/
def Atom.IsConst (a : Atom) : Prop := ∃ constant, a = .const constant

namespace Expr

/-- A tree of numbers, allowed atoms, the four operations and signs. -/
inductive Arithmetical (allowed : Atom → Prop) : Expr ν → Prop where
  | number (value : ν) : Arithmetical allowed (.number value)
  | atom {a} (allows : allowed a) : Arithmetical allowed (.atom a)
  | binary {t o l r} (arithmetic : o.isArithmetic = true) (left : Arithmetical allowed l)
      (right : Arithmetical allowed r) : Arithmetical allowed (.binary t o l r)
  | unary {t o u} (inner : Arithmetical allowed u) : Arithmetical allowed (.unary t o u)

/-- A tree that computes with numbers alone. -/
abbrev Numerical (e : Expr ν) : Prop := e.Arithmetical fun _ => False

variable {allowed : Atom → Prop} {e l r u : Expr ν} {t : Tags} {o : BinaryOp} {a : Atom}

@[simp] theorem arithmetical_number (value : ν) : (number value).Arithmetical allowed :=
  .number value

@[simp] theorem arithmetical_atom : (atom a : Expr ν).Arithmetical allowed ↔ allowed a := by
  constructor
  · intro shape
    cases shape with
    | atom allows => exact allows
  · exact .atom

@[simp] theorem arithmetical_binary :
    (binary t o l r).Arithmetical allowed ↔
      o.isArithmetic = true ∧ l.Arithmetical allowed ∧ r.Arithmetical allowed := by
  constructor
  · intro shape
    cases shape with
    | binary arithmetic left right => exact ⟨arithmetic, left, right⟩
  · rintro ⟨arithmetic, left, right⟩
    exact .binary arithmetic left right

@[simp] theorem arithmetical_unary {o : UnaryOp} :
    (unary t o u).Arithmetical allowed ↔ u.Arithmetical allowed := by
  constructor
  · intro shape
    cases shape with
    | unary inner => exact inner
  · exact .unary

@[simp] theorem arithmetical_op :
    (op o l r).Arithmetical allowed ↔
      o.isArithmetic = true ∧ l.Arithmetical allowed ∧ r.Arithmetical allowed :=
  arithmetical_binary

@[simp] theorem arithmetical_sign {o : UnaryOp} :
    (sign o u).Arithmetical allowed ↔ u.Arithmetical allowed :=
  arithmetical_unary

@[simp] theorem not_arithmetical_call {f : Func} {us : List (Expr ν)} :
    ¬(call t f us).Arithmetical allowed := by
  intro shape
  cases shape

@[simp] theorem not_arithmetical_equality {side : Side} :
    ¬(equality t side l r).Arithmetical allowed := by
  intro shape
  cases shape

@[simp] theorem arithmetical_untagged :
    e.untagged.Arithmetical allowed ↔ e.Arithmetical allowed := by
  induction e with
  | number value | atom a => rfl
  | binary t o l r left right => simp [untagged, left, right]
  | unary t o u inner => simp [untagged, inner]
  | call t f us => simp [untagged, apply]
  | equality t side l r => simp [untagged, equal]

@[simp] theorem arithmetical_tagged : e.tagged.Arithmetical allowed ↔ e.Arithmetical allowed := by
  rw [← arithmetical_untagged, untagged_tagged, arithmetical_untagged]

theorem Arithmetical.operand (shape : e.Arithmetical allowed) (member : u ∈ e.children) :
    u.Arithmetical allowed := by
  cases shape with
  | number value | atom allows => cases member
  | binary arithmetic left right =>
    simp only [children, List.mem_cons, List.not_mem_nil, or_false] at member
    rcases member with rfl | rfl
    · exact left
    · exact right
  | unary inner => exact List.mem_singleton.mp member ▸ inner

/-- Without a variable only numbers are left. -/
theorem Arithmetical.numerical (shape : e.Arithmetical Atom.IsVar) (free : e.unknowns = 0) :
    e.Numerical := by
  induction shape with
  | number value => exact .number value
  | atom allows =>
    obtain ⟨name, rfl⟩ := allows
    cases free
  | binary arithmetic left right ihLeft ihRight =>
    obtain ⟨leftFree, rightFree⟩ := Nat.add_eq_zero_iff.mp free
    exact .binary arithmetic (ihLeft leftFree) (ihRight rightFree)
  | unary inner ih => exact .unary (ih free)

end Expr

end AlgebraEngine
