import AlgebraEngine.Proofs.Eval.Arguments
import AlgebraEngine.Proofs.Number.Sign
import AlgebraEngine.Proofs.Parser.Formed

/-! What a tree from the parser looks like, node by node. The rules, the solver and the evaluation
rely on it: an equality is the root, calls have the arguments that they take, and a variable stands
alone in a few places only. -/
namespace AlgebraEngine

open AlgebraEngine.Expr

variable {ν : Type}

/-- The numbers of a phrase are its numerals, and the ones in front of bare variables. -/
theorem Reads.numbers [Numeral ν] {phrase : Phrase} {ts rest : List Token} {e : Expr ν}
    (reads : Reads phrase ts e rest) {x : ν} (occurs : Occurs (.number x) e) :
    x = Arithmetic.ofInt 1 ∨ ∃ d, x = Numeral.ofDecimal d := by
  induction reads with
  | sum _ ih | first _ ih | factor _ _ ih | base _ ih | marked _ ih | primary _ ih
  | parentheses _ _ _ ih | vector _ _ _ ih => exact ih occurs
  | equality _ _ _ left right | link _ _ _ _ left right | join _ _ _ left right
  | raise _ _ _ left right =>
    simp only [equal, op, occurs_equality, occurs_binary, reduceCtorEq, false_or] at occurs
    exact occurs.elim left right
  | bare => exact .inl (by simpa [op, var] using occurs)
  | sign _ _ _ ih =>
    simp only [Expr.sign, occurs_unary, reduceCtorEq, false_or] at occurs
    exact ih occurs
  | mark _ _ ih | application _ _ _ _ ih | last _ ih =>
    simp only [apply, occurs_call, reduceCtorEq, false_or, List.mem_singleton, exists_eq_left]
      at occurs
    exact ih occurs
  | number =>
    simp only [occurs_number, Expr.number.injEq] at occurs
    exact .inr ⟨_, occurs⟩
  | letter | euler | pi => simp [var, const] at occurs
  | component _ _ _ first behind =>
    simp only [apply, occurs_call, reduceCtorEq, false_or, List.exists_mem_cons_iff]
      at occurs behind
    exact occurs.elim first behind

/-- What is read caches nothing. -/
theorem Reads.caches [Numeral ν] {phrase : Phrase} {ts rest : List Token} {e : Expr ν}
    (reads : Reads phrase ts e rest) : e.untagged = e := by
  induction reads with
  | sum _ ih | first _ ih | factor _ _ ih | base _ ih | marked _ ih | primary _ ih
  | parentheses _ _ _ ih | vector _ _ _ ih => exact ih
  | equality _ _ _ left right | link _ _ _ _ left right | join _ _ _ left right
  | raise _ _ _ left right => simp [untagged, equal, op, left, right]
  | sign _ _ _ ih => simp [untagged, Expr.sign, ih]
  | mark _ _ ih | application _ _ _ _ ih | last _ ih => simp [untagged, apply, ih]
  | bare | number | letter | euler | pi => rfl
  | component _ _ _ first behind =>
    simp only [untagged, apply, untaggedList_eq, call.injEq, true_and, List.map_cons,
      List.cons.injEq] at behind ⊢
    exact ⟨first, behind⟩

namespace Expr

variable {named : String → Prop} {alone : Bool} {e u v : Expr ν}

theorem Formed.of_occurs (formed : Formed named alone e) (occurs : Occurs u e) :
    ∃ alone', Formed named alone' u := by
  induction occurs generalizing alone with
  | here => exact ⟨alone, formed⟩
  | inside member _ ih =>
    obtain ⟨alone', operand⟩ := formed.of_mem_children member
    exact ih operand

/-- The operands of a node that cannot be a variable without a coefficient: all but the last factor
of a product, the base and the exponent of a power and the operand of a factorial. -/
def multiplied : Expr ν → List (Expr ν)
  | .number _ => []
  | .atom _ => []
  | .binary _ .mul l _ => [l]
  | .binary _ .pow _ _ => []
  | .binary _ _ l r => [l, r]
  | .unary _ _ u => [u]
  | .call _ .factorial _ => []
  | .call _ _ us => us
  | .equality _ _ l r => [l, r]

theorem Formed.of_mem_multiplied (formed : Formed named alone u) (member : v ∈ u.multiplied) :
    Formed named false v := by
  cases formed with
  | number | var | const => cases member
  | @binary _ t o l r left right =>
    cases o with
    | pow => cases member
    | mul => exact List.mem_singleton.mp member ▸ left
    | add | sub | div | mod =>
      simp only [multiplied, List.mem_cons, List.not_mem_nil, or_false] at member
      rcases member with rfl | rfl
      · exact left
      · exact right
  | unary operand => exact List.mem_singleton.mp member ▸ operand
  | vector nonempty components => exact components v member
  | @call _ t f u function argument =>
    by_cases factorial : f = .factorial
    · subst factorial
      cases member
    · have operands : (Expr.call t f [u]).multiplied = [u] := by
        cases f <;> first | rfl | exact absurd rfl factorial
      rw [operands, List.mem_singleton] at member
      simpa [member, factorial] using argument

theorem Formed.not_var {name : String} (formed : Formed named false e) : e ≠ Expr.var name := by
  rintro rfl
  cases formed

theorem Formed.isEquality (formed : Formed named alone e) : e.isEquality = false := by
  cases formed <;> rfl

theorem Formed.arguments {t : Tags} {f : Func} {us : List (Expr ν)}
    (formed : Formed named alone (.call t f us)) :
    if f = .vector then us ≠ [] else us.length = 1 := by
  cases formed with
  | vector nonempty components => simpa using nonempty
  | call function argument => simp [function]

/-- What the parser can return. -/
structure Parsed (letter : Char) (e : Expr Binary64) : Prop where
  /-- An equality is nowhere but at the root. -/
  equality : ∀ u ∈ e.children, ∀ v, Occurs v u → v.isEquality = false
  /-- A vector has components, and any other call has one argument. -/
  arguments : ∀ t f us, Occurs (.call t f us) e → if f = .vector then us ≠ [] else us.length = 1
  /-- No number is below zero or undefined. -/
  numbers : ∀ x, Occurs (.number x) e → x.negative = false ∧ x.isNaN = false
  /-- There is one variable. -/
  letters : ∀ name, Occurs (var name) e → name.toList = [letter]
  /-- The variable does not stand alone, -/
  root : ∀ name, e ≠ var name
  /-- nor is it an operand that has to have a coefficient. -/
  places : ∀ u, Occurs u e → ∀ v ∈ u.multiplied, ∀ name, v ≠ var name
  /-- Nothing is cached. -/
  caches : e.untagged = e

/-- The operands of a whole tree are formed like expressions. -/
theorem Whole.of_mem_children (whole : Whole named e) (member : u ∈ e.children) :
    ∃ alone, Formed named alone u := by
  cases whole with
  | expression formed => exact formed.of_mem_children member
  | equality left right =>
    simp only [children, List.mem_cons, List.not_mem_nil, or_false] at member
    rcases member with rfl | rfl
    · exact ⟨false, left⟩
    · exact ⟨false, right⟩

/-- A node of a whole tree is formed like an expression, unless it is the equality at the root. -/
theorem Whole.of_occurs (whole : Whole named e) (occurs : Occurs u e)
    (inner : u.isEquality = false) : ∃ alone, Formed named alone u := by
  rcases occurs_iff.mp occurs with rfl | ⟨v, member, below⟩
  · cases whole with
    | expression formed => exact ⟨false, formed⟩
    | equality => cases inner
  · obtain ⟨alone, formed⟩ := whole.of_mem_children member
    exact formed.of_occurs below

theorem Whole.of_mem_multiplied (whole : Whole named e) (occurs : Occurs u e)
    (member : v ∈ u.multiplied) : Formed named false v := by
  rcases occurs_iff.mp occurs with rfl | ⟨w, child, below⟩
  · cases whole with
    | expression formed => exact formed.of_mem_multiplied member
    | equality left right =>
      simp only [multiplied, List.mem_cons, List.not_mem_nil, or_false] at member
      rcases member with rfl | rfl
      · exact left
      · exact right
  · obtain ⟨alone, formed⟩ := whole.of_mem_children child
    obtain ⟨alone', inner⟩ := formed.of_occurs below
    exact inner.of_mem_multiplied member

theorem Whole.not_var {name : String} (whole : Whole named e) : e ≠ Expr.var name := by
  cases whole with
  | expression formed => exact formed.not_var
  | equality => nofun

/-- A tree that a source denotes has the shape that everything else relies on, whatever the source.
In particular its evaluation never ends with a wrong number of arguments, in any context. -/
theorem parse_shape {source : String} {e : Expr Binary64} (parsed : Expr.parse source = .ok e) :
    (∃ letter : Char, letter.isAlpha = true ∧ letter ≠ 'e' ∧ e.Parsed letter) ∧
      ∀ c f n c', e.eval c ≠ .error (.argumentCount f n) c' := by
  obtain ⟨letter, alpha, other, whole⟩ := whole_of_parse parsed
  have reads := reads_of_parse parsed
  have shape : e.Parsed letter := {
    equality u member v occurs := by
      obtain ⟨alone, formed⟩ := whole.of_mem_children member
      obtain ⟨alone', inner⟩ := formed.of_occurs occurs
      exact inner.isEquality
    arguments t f us occurs := by
      obtain ⟨alone, formed⟩ := whole.of_occurs occurs rfl
      exact formed.arguments
    numbers x occurs := by
      rcases reads.numbers occurs with rfl | ⟨d, rfl⟩
      · decide +kernel
      · exact Binary64.ofDecimal_unsigned d
    letters name occurs := by
      obtain ⟨alone, formed⟩ := whole.of_occurs occurs rfl
      cases formed with
      | var known => exact known
    root _ := whole.not_var
    places _ occurs _ member _ := (whole.of_mem_multiplied occurs member).not_var
    caches := reads.caches }
  refine ⟨⟨letter, alpha, other, shape⟩, fun c f n c' failed => ?_⟩
  obtain ⟨function, count, t, us, occurs, length⟩ := eval_raises e c _ c' failed f n rfl
  have single := shape.arguments t f us occurs
  rw [if_neg function] at single
  exact count (length.symm.trans single)

/-- `[2x, sqrt(4)] = 3x^2!` is read, so its tree has the shape, and evaluating it in a fresh context
blames no call for its arguments. -/
theorem parse_shape_vector : ∃ e : Expr Binary64, Expr.parse "[2x, sqrt(4)] = 3x^2!" = .ok e ∧
    (∃ letter : Char, letter.isAlpha = true ∧ letter ≠ 'e' ∧ e.Parsed letter) ∧
    ∀ f n c', e.eval (.fresh Context.defaultPrecision) ≠ .error (.argumentCount f n) c' := by
  cases parsed : (Expr.parse "[2x, sqrt(4)] = 3x^2!" : Except SyntaxFault (Expr Binary64)) with
  | ok e =>
    obtain ⟨shape, counted⟩ := parse_shape parsed
    exact ⟨e, rfl, shape, counted _⟩
  | error fault =>
    have accepted : (Expr.parse "[2x, sqrt(4)] = 3x^2!" :
        Except SyntaxFault (Expr Binary64)).toOption.isSome = true := by
      decide +kernel
    rw [parsed] at accepted
    cases accepted

end Expr

end AlgebraEngine
