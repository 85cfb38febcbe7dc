import Mathlib.Algebra.Ring.Nat
import AlgebraEngine.Proofs.Expr.Untagged

/-! What occurs in a tree and how often a variable does. Fresh tags tell where there is one. -/
namespace AlgebraEngine

variable {ν : Type}

namespace Expr

/-- The first tree is the second one or lies somewhere below it. -/
inductive Occurs : Expr ν → Expr ν → Prop where
  | here (e : Expr ν) : Occurs e e
  | inside {v u e : Expr ν} (member : u ∈ e.children) (inner : Occurs v u) : Occurs v e

theorem Occurs.trans {v u e : Expr ν} (outer : Occurs u e) (inner : Occurs v u) : Occurs v e := by
  induction outer with
  | here => exact inner
  | inside member _ ih => exact .inside member ih

/-- Every part of a fresh tree is fresh. -/
theorem Fresh.occurs {u e : Expr ν} (fresh : e.Fresh) (occurs : Occurs u e) : u.Fresh := by
  induction occurs with
  | here => exact fresh
  | inside member inner ih => exact ih (fresh.operands member)

theorem occurs_iff {v e : Expr ν} : Occurs v e ↔ v = e ∨ ∃ u ∈ e.children, Occurs v u := by
  constructor
  · intro occurs
    cases occurs with
    | here => exact .inl rfl
    | inside member inner => exact .inr ⟨_, member, inner⟩
  · rintro (rfl | ⟨u, member, inner⟩)
    · exact .here v
    · exact .inside member inner

@[simp] theorem occurs_number {v : Expr ν} {value : ν} :
    Occurs v (number value) ↔ v = number value := by
  simp [occurs_iff (e := number value), children]

@[simp] theorem occurs_atom {v : Expr ν} {a : Atom} : Occurs v (atom a) ↔ v = atom a := by
  simp [occurs_iff (e := atom a), children]

@[simp] theorem occurs_binary {v l r : Expr ν} {t : Tags} {o : BinaryOp} :
    Occurs v (binary t o l r) ↔ v = binary t o l r ∨ Occurs v l ∨ Occurs v r := by
  simp [occurs_iff (e := binary t o l r), children]

@[simp] theorem occurs_unary {v u : Expr ν} {t : Tags} {o : UnaryOp} :
    Occurs v (unary t o u) ↔ v = unary t o u ∨ Occurs v u := by
  simp [occurs_iff (e := unary t o u), children]

@[simp] theorem occurs_call {v : Expr ν} {t : Tags} {f : Func} {us : List (Expr ν)} :
    Occurs v (call t f us) ↔ v = call t f us ∨ ∃ u ∈ us, Occurs v u := by
  simp [occurs_iff (e := call t f us), children]

@[simp] theorem occurs_equality {v l r : Expr ν} {t : Tags} {side : Side} :
    Occurs v (equality t side l r) ↔ v = equality t side l r ∨ Occurs v l ∨ Occurs v r := by
  simp [occurs_iff (e := equality t side l r), children]

/-- An atom is a leaf and has no cache, so it occurs with and without the caches. -/
@[simp] theorem occurs_atom_untagged {a : Atom} {e : Expr ν} :
    Occurs (atom a) e.untagged ↔ Occurs (atom a) e := by
  induction e with
  | number value | atom b => rfl
  | binary t o l r left right => simp [untagged, op, left, right]
  | unary t o u inner => simp [untagged, sign, inner]
  | call t f us inner =>
    simpa [untagged, apply] using exists_congr fun u => and_congr_right (inner u)
  | equality t side l r left right => simp [untagged, equal, left, right]

@[simp] theorem occurs_atom_tagged {a : Atom} {e : Expr ν} :
    Occurs (atom a) e.tagged ↔ Occurs (atom a) e := by
  rw [← occurs_atom_untagged, untagged_tagged, occurs_atom_untagged]

mutual

/-- The number of variable literals in a tree, whatever their names. -/
def unknowns : Expr ν → Nat
  | number _ => 0
  | atom (.var _) => 1
  | atom (.const _) => 0
  | binary _ _ l r => l.unknowns + r.unknowns
  | unary _ _ u => u.unknowns
  | call _ _ us => unknownsOfList us
  | equality _ _ l r => l.unknowns + r.unknowns

/-- The number of variable literals in a list of arguments. -/
def unknownsOfList : List (Expr ν) → Nat
  | [] => 0
  | u :: us => u.unknowns + unknownsOfList us

end

attribute [grind =] unknowns unknownsOfList

@[simp] theorem unknownsOfList_eq (us : List (Expr ν)) :
    unknownsOfList us = (us.map unknowns).sum := by
  induction us with
  | nil => rfl
  | cons u us ih => simp [unknownsOfList, ih]

@[simp] theorem unknowns_untagged (e : Expr ν) : e.untagged.unknowns = e.unknowns := by
  induction e with
  | number value => rfl
  | atom a => rfl
  | binary t o l r left right => simp [untagged, op, unknowns, left, right]
  | unary t o u inner => simp [untagged, sign, unknowns, inner]
  | call t f us inner =>
    have same : (us.map untagged).map unknowns = us.map unknowns := by
      simpa using inner
    simpa [untagged, apply, unknowns] using congrArg List.sum same
  | equality t side l r left right => simp [untagged, equal, unknowns, left, right]

@[simp] theorem unknowns_tagged (e : Expr ν) : e.tagged.unknowns = e.unknowns := by
  rw [← unknowns_untagged, untagged_tagged, unknowns_untagged]

theorem unknowns_pos_iff {e : Expr ν} : 0 < e.unknowns ↔ ∃ x, Occurs (var x) e := by
  induction e with
  | number value => simp [unknowns, var]
  | atom a => cases a <;> simp [unknowns, var]
  | binary t o l r left right | equality t side l r left right =>
    simp only [unknowns, var, occurs_binary, occurs_equality, reduceCtorEq, false_or, exists_or]
      at left right ⊢
    rw [← left, ← right]
    omega
  | unary t o u inner => simpa [unknowns, var] using inner
  | call t f us inner =>
    simp only [unknowns, unknownsOfList_eq, List.sum_pos_iff_exists_pos_nat, List.mem_map,
      exists_exists_and_eq_and, var, occurs_call, reduceCtorEq, false_or] at inner ⊢
    rw [exists_comm]
    refine exists_congr fun u => ?_
    rw [exists_and_left]
    exact and_congr_right (inner u)

/-- A tree without unknowns is one in which no variable occurs. -/
theorem unknowns_eq_zero_iff {e : Expr ν} : e.unknowns = 0 ↔ ∀ x, ¬ Occurs (var x) e := by
  rw [← not_exists, ← unknowns_pos_iff, Nat.pos_iff_ne_zero, not_not]

section Recording

variable {field : Tags → Bool}

private theorem recorded_foldl (union : ∀ s t, field (s ∪ t) = (field s || field t))
    (es : List (Expr ν)) (start : Tags) :
    field (es.foldl (fun t e => t ∪ e.tags) start) =
      (field start || es.any (field ·.tags)) := by
  induction es generalizing start with
  | nil => simp
  | cons e es ih => simp [ih, union, Bool.or_assoc]

/-- Tagging a tree marks one kind of atoms exactly if an atom of that kind occurs. -/
private theorem recorded_tagged (union : ∀ s t, field (s ∪ t) = (field s || field t))
    (none : field .empty = false) (e : Expr ν) :
    field e.tagged.tags = true ↔ ∃ a, field a.tags = true ∧ Occurs (atom a) e := by
  induction e with
  | number value => simp [tagged, tags, none]
  | atom a => simp [tagged, tags]
  | binary t o l r left right | equality t side l r left right =>
    show field (l.tagged.tags ∪ r.tagged.tags) = true ↔ _
    rw [union, Bool.or_eq_true, left, right, ← exists_or]
    simp [and_or_left]
  | unary t o u inner =>
    show field u.tagged.tags = true ↔ _
    simpa using inner
  | call t f us inner =>
    show field (tagsOfList (taggedList us)) = true ↔ _
    simp only [tagsOfList, recorded_foldl union, none, taggedList_eq, List.any_map,
      List.any_eq_true, Bool.false_or, Function.comp_apply, occurs_call, reduceCtorEq, false_or]
    constructor
    · rintro ⟨u, member, marked⟩
      obtain ⟨a, kind, occurs⟩ := (inner u member).mp marked
      exact ⟨a, kind, u, member, occurs⟩
    · rintro ⟨a, kind, u, member, occurs⟩
      exact ⟨u, member, (inner u member).mpr ⟨a, kind, occurs⟩⟩

end Recording

/-- Tagging a tree records a variable exactly if one occurs. -/
theorem var_tagged (e : Expr ν) : e.tagged.tags.var = true ↔ 0 < e.unknowns := by
  rw [recorded_tagged (fun _ _ => rfl) rfl, unknowns_pos_iff]
  constructor
  · rintro ⟨name | constant, kind, occurs⟩
    · exact ⟨name, occurs⟩
    · cases constant <;> cases kind
  · rintro ⟨x, occurs⟩
    exact ⟨.var x, rfl, occurs⟩

private theorem constant_tagged {field : Tags → Bool} {c : Constant}
    (union : ∀ s t, field (s ∪ t) = (field s || field t)) (none : field .empty = false)
    (only : ∀ a : Atom, field a.tags = true ↔ a = .const c) (e : Expr ν) :
    field e.tagged.tags = true ↔ Occurs (const c) e := by
  simp [recorded_tagged union none, only, const]

theorem euler_tagged (e : Expr ν) : e.tagged.tags.euler = true ↔ Occurs (const .e) e :=
  constant_tagged (fun _ _ => rfl) rfl
    (fun a => by rcases a with x | _ | _ <;> simp [Atom.tags]) e

theorem pi_tagged (e : Expr ν) : e.tagged.tags.pi = true ↔ Occurs (const .pi) e :=
  constant_tagged (fun _ _ => rfl) rfl
    (fun a => by rcases a with x | _ | _ <;> simp [Atom.tags]) e

/-- The tags of a node are those of the atoms that occur there. -/
structure RecordsAtoms (e : Expr ν) : Prop where
  var : e.tags.var = true ↔ ∃ x, Occurs (var x) e
  euler : e.tags.euler = true ↔ Occurs (const .e) e
  pi : e.tags.pi = true ↔ Occurs (const .pi) e

/-- Fresh tags say what occurs. -/
theorem Fresh.recordsAtoms {e : Expr ν} (fresh : e.Fresh) : e.RecordsAtoms where
  var := by rw [← unknowns_pos_iff, ← var_tagged, fresh]
  euler := by rw [← euler_tagged, fresh]
  pi := by rw [← pi_tagged, fresh]

theorem Fresh.var_iff {e : Expr ν} (fresh : e.Fresh) : e.tags.var = true ↔ 0 < e.unknowns := by
  rw [← var_tagged, fresh]

theorem Fresh.var_eq_false {e : Expr ν} (fresh : e.Fresh) :
    e.tags.var = false ↔ e.unknowns = 0 := by
  rw [← Bool.not_eq_true, fresh.var_iff]
  omega

end Expr

end AlgebraEngine
