import AlgebraEngine.Expr.Text
import AlgebraEngine.Proofs.Expr.Spelling

/-! Text of trees that are alike. Caches are not written, numbers count by how they are written, and
a coefficient in front of the variable makes a text longer. -/
namespace AlgebraEngine.Expr

variable {ν : Type} [Numeral ν]

attribute [grind =] text listText operandText

section Arguments

variable {g h : Expr ν → Expr ν} {us : List (Expr ν)}

theorem listText_congr (each : ∀ u ∈ us, (g u).text = (h u).text) :
    listText (us.map g) = listText (us.map h) := by
  induction us with
  | nil => rfl
  | cons u us ih =>
    cases us with
    | nil => simpa [listText] using each u (by simp)
    | cons v us =>
      have rest := ih fun w member => each w (List.mem_cons_of_mem _ member)
      simp only [List.map_cons, listText] at rest ⊢
      rw [each u (by simp), rest]

theorem operandText_congr (each : ∀ u ∈ us, (g u).text = (h u).text)
    (levels : ∀ u ∈ us, (g u).precedence = (h u).precedence) :
    operandText (us.map g) = operandText (us.map h) := by
  induction us with
  | nil => rfl
  | cons u us ih =>
    have rest := ih (fun w member => each w (List.mem_cons_of_mem _ member))
      fun w member => levels w (List.mem_cons_of_mem _ member)
    simp only [List.map_cons, operandText, levels u (by simp), each u (by simp), rest]

/-- The text of a call depends on the texts of its arguments. -/
theorem text_apply_congr {f : Func} (each : ∀ u ∈ us, (g u).text = (h u).text)
    (levels : ∀ u ∈ us, (g u).precedence = (h u).precedence) :
    (apply f (us.map g)).text = (apply f (us.map h)).text := by
  cases f <;> simp only [apply, text, listText_congr each, operandText_congr each levels]

end Arguments

@[simp] theorem precedence_untagged (e : Expr ν) : e.untagged.precedence = e.precedence := by
  cases e with
  | call t f us => cases f <;> rfl
  | number x | atom a | binary t o l r | unary t o u | equality t side l r => rfl

/-- What a node caches is not written. -/
theorem text_call (t : Tags) (f : Func) (us : List (Expr ν)) :
    (call t f us).text = (apply f us).text := by
  cases f <;> rfl

@[simp] theorem text_untagged (e : Expr ν) : e.untagged.text = e.text := by
  induction e with
  | number x | atom a => rfl
  | binary t o l r left right => simp [untagged, op, text, left, right]
  | unary t o u inner => simp [untagged, sign, text, inner]
  | call t f us inner =>
    have same := text_apply_congr (f := f) (h := id) inner fun u _ => precedence_untagged u
    rw [text_call, untagged, untaggedList_eq, same, List.map_id]
  | equality t side l r left right => simp [untagged, equal, text, left, right]

@[simp] theorem text_tagged (e : Expr ν) : e.tagged.text = e.text := by
  rw [← text_untagged, untagged_tagged, text_untagged]

section Numbers

variable {g : ν → ν} (texts : ∀ x, Numeral.text (g x) = Numeral.text x)
  (signs : ∀ x, Numeral.isSigned (g x) = Numeral.isSigned x)

include signs in
theorem precedence_spelled_congr (coefficient : Bool) (e : Expr ν) :
    (e.spelled (number ∘ g) coefficient).precedence =
      (e.spelled number coefficient).precedence := by
  cases e with
  | number x => simp [spelled, precedence, signs]
  | atom a => cases a <;> rfl
  | call t f us => cases f <;> rfl
  | binary | unary | equality => rfl

include texts signs in
/-- Numbers that are written alike spell out the same text. -/
theorem text_spelled_congr (coefficient : Bool) (e : Expr ν) :
    (e.spelled (number ∘ g) coefficient).text = (e.spelled number coefficient).text := by
  have level := precedence_spelled_congr signs
  induction e generalizing coefficient with
  | number x => exact texts x
  | atom a => cases a <;> rfl
  | binary t o l r left right => simp [spelled, op, text, left, right, level]
  | unary t o u inner => simp [spelled, sign, text, inner, level]
  | call t f us inner =>
    simp only [spelled, spelledList_eq]
    exact text_apply_congr (fun u member => inner u member _) fun u _ => level _ u
  | equality t side l r left right => simp [spelled, equal, text, left, right]

end Numbers

theorem length_enclose (parenthesized : Bool) (text : String) :
    (enclose parenthesized text).length = text.length + if parenthesized then 2 else 0 := by
  cases parenthesized with
  | false => rfl
  | true =>
    have brackets : "(".length = 1 ∧ ")".length = 1 := by decide
    simp only [enclose, if_true, String.length_append, brackets.1, brackets.2]
    omega

/-- A variable with its coefficient binds less tightly, and nothing else changes. -/
theorem precedence_spelled (coefficient : Bool) (e : Expr ν) :
    e.precedence = .atom ∨ (e.spelled number coefficient).precedence = e.precedence := by
  cases e with
  | atom a => exact .inl rfl
  | call t f us => right; cases f <;> rfl
  | number | binary | unary | equality => exact .inr rfl

/-- An operand gets no shorter in its parentheses than it does without them, since none are put
around a bare variable. -/
theorem length_enclose_spelled (encloses : Precedence → Bool) (bare : encloses .atom = false)
    (coefficient : Bool) (e : Expr ν) :
    (enclose (encloses e.precedence) e.text).length + (e.spelled number coefficient).text.length ≤
      (enclose (encloses (e.spelled number coefficient).precedence)
        (e.spelled number coefficient).text).length + e.text.length := by
  rw [length_enclose, length_enclose]
  rcases precedence_spelled coefficient e with atom | same
  · rw [atom, bare]
    simp
    omega
  · rw [same]
    omega

/-- A tree is written at least as long with coefficients as without, and just as long only if it
has no variable that needs one. -/
def Lengthens (e e' : Expr ν) : Prop :=
  e.text.length ≤ e'.text.length ∧ (e'.text.length = e.text.length → e' = e.untagged)

section Arguments

variable {flag : Bool} {us : List (Expr ν)}

theorem listText_lengthens (each : ∀ u ∈ us, u.Lengthens (u.spelled number flag)) :
    (listText us).length ≤ (listText (us.map (spelled number flag))).length ∧
      ((listText (us.map (spelled number flag))).length = (listText us).length →
        us.map (spelled number flag) = us.map untagged) := by
  induction us with
  | nil => exact ⟨Nat.le_refl _, fun _ => rfl⟩
  | cons u us ih =>
    obtain ⟨le, only⟩ := each u (by simp)
    cases us with
    | nil => exact ⟨by simpa [listText] using le, by simpa [listText] using only⟩
    | cons v us =>
      obtain ⟨rest, behind⟩ := ih fun w member => each w (List.mem_cons_of_mem _ member)
      simp only [List.map_cons, listText, String.length_append] at rest behind ⊢
      refine ⟨by omega, fun same => ?_⟩
      rw [only (by omega), behind (by omega)]

theorem operandText_lengthens (each : ∀ u ∈ us, u.Lengthens (u.spelled number flag)) :
    (operandText us).length ≤ (operandText (us.map (spelled number flag))).length ∧
      ((operandText (us.map (spelled number flag))).length = (operandText us).length →
        us.map (spelled number flag) = us.map untagged) := by
  induction us with
  | nil => exact ⟨Nat.le_refl _, fun _ => rfl⟩
  | cons u us ih =>
    obtain ⟨le, only⟩ := each u (by simp)
    obtain ⟨rest, behind⟩ := ih fun w member => each w (List.mem_cons_of_mem _ member)
    have enclosed := length_enclose_spelled (· < .factorial) (by decide) flag u
    simp only [List.map_cons, operandText, String.length_append] at rest behind ⊢
    refine ⟨by omega, fun same => ?_⟩
    rw [only (by omega), behind (by omega)]

end Arguments

theorem spelled_lengthens (coefficient : Bool) (e : Expr ν) :
    e.Lengthens (e.spelled number coefficient) := by
  induction e generalizing coefficient with
  | number x => exact ⟨Nat.le_refl _, fun _ => rfl⟩
  | atom a =>
    cases a with
    | const constant => exact ⟨Nat.le_refl _, fun _ => rfl⟩
    | var name =>
      cases coefficient with
      | false => exact ⟨Nat.le_refl _, fun _ => rfl⟩
      | true =>
        have space : " ".length = 1 := by decide
        have last := length_enclose (enclosesRight .mul Precedence.atom) name
        simp only [Lengthens, spelled, if_true, op, var, text, precedence, Atom.symbol,
          String.length_append, space, last]
        refine ⟨by omega, fun same => ?_⟩
        omega
  | binary t o l r left right =>
    obtain ⟨le, only⟩ := left (o ≠ .pow)
    obtain ⟨le', only'⟩ := right (o ≠ .pow)
    have enclosed := length_enclose_spelled (enclosesLeft o) (by cases o <;> rfl) (o ≠ .pow) l
    have enclosed' := length_enclose_spelled (enclosesRight o) (by cases o <;> rfl) (o ≠ .pow) r
    simp only [Lengthens, spelled, op, text, String.length_append, untagged]
    refine ⟨by omega, fun same => ?_⟩
    rw [only (by omega), only' (by omega)]
  | unary t o u inner =>
    obtain ⟨le, only⟩ := inner true
    have enclosed := length_enclose_spelled (· ≤ o.precedence) (by cases o <;> decide) true u
    simp only [Lengthens, spelled, sign, text, String.length_append, untagged]
    refine ⟨by omega, fun same => ?_⟩
    rw [only (by omega)]
  | call t f us inner =>
    obtain ⟨le, only⟩ := listText_lengthens fun u member => inner u member (f ≠ .factorial)
    obtain ⟨le', only'⟩ := operandText_lengthens fun u member => inner u member (f ≠ .factorial)
    rw [Lengthens, text_call]
    simp only [spelled, spelledList_eq, untagged, untaggedList_eq]
    cases f with
    | factorial =>
      simp only [apply, text, String.length_append]
      exact ⟨by omega, fun same => by rw [only' (by omega)]⟩
    | _ =>
      simp only [apply, text, String.length_append]
      exact ⟨by omega, fun same => by rw [only (by omega)]⟩
  | equality t side l r left right =>
    obtain ⟨le, only⟩ := left true
    obtain ⟨le', only'⟩ := right true
    simp only [Lengthens, spelled, equal, text, String.length_append, untagged]
    refine ⟨by omega, fun same => ?_⟩
    rw [only (by omega), only' (by omega)]

/-- Coefficients show in the text, unless there are none. -/
theorem text_spelled_eq_iff {coefficient : Bool} {e : Expr ν} :
    (e.spelled number coefficient).text = e.text ↔ e.spelled number coefficient = e.untagged := by
  constructor
  · intro same
    exact (spelled_lengthens coefficient e).2 (congrArg String.length same)
  · intro same
    rw [same, text_untagged]

end AlgebraEngine.Expr
