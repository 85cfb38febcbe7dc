import AlgebraEngine.Proofs.Parser.Completeness
import AlgebraEngine.Proofs.Parser.Printing

/-! Printing and parsing agree. The text of a printable tree is refused for its nesting or it is
parsed to what the tree spells out. -/
namespace AlgebraEngine

open TokenKind (Delimited)

namespace Precedence

/-- The level of the grammar at which text of a precedence is read. Text behind a sign is read as an
implicit product. -/
def phrase : Precedence → Phrase
  | any => .equation
  | equality => .equation
  | term => .chain .sum
  | factor => .chain .product
  | quotient => .chain .quotient
  | sign => .juxtaposition
  | power => .power
  | factorial => .marked
  | atom => .primary

/-- The next looser precedence. -/
def looser : Precedence → Precedence
  | any => any
  | equality => any
  | term => equality
  | factor => term
  | quotient => factor
  | sign => quotient
  | power => sign
  | factorial => power
  | atom => factorial

theorem rank_injective {p q : Precedence} (same : p.rank = q.rank) : p = q := by
  revert same
  cases p <;> cases q <;> decide

theorem rank_looser {p : Precedence} (tight : 0 < p.rank) : p.looser.rank + 1 = p.rank := by
  revert tight
  cases p <;> decide

end Precedence

/-- Text stands for what a tree spells out, at a precedence. From a sign on the variable has a
coefficient. -/
def SpellsAt (letter : Char) (text : String) (p : Precedence) (t : Expr Binary64) : Prop :=
  Spells letter text.toList p.phrase (t.spelled Expr.reread (p ≤ .sign))

namespace SpellsAt

variable {letter : Char} {text : String} {p q : Precedence} {t : Expr Binary64}

private theorem compound (x : Binary64) (name : String) : Expr.reread x ≠ .var name := by
  unfold Expr.reread
  split <;> intro same <;> cases same

/-- What can be read at one precedence can be read at the next looser one. -/
theorem looser (spells : SpellsAt letter text p t) : SpellsAt letter text p.looser t := by
  cases p with
  | any => exact spells
  | equality => exact spells
  | term => exact spells.mono fun ts reads rest follow => .sum (reads rest follow)
  | factor | quotient | sign =>
    exact spells.mono fun ts reads rest follow => .first (reads rest follow)
  | power =>
    refine spells.mono fun ts reads rest follow => ?_
    have base : Reads .power (ts ++ rest) (t.spelled Expr.reread false) rest := reads rest trivial
    have product := base.withCoefficient
    rwa [← Expr.spelled_true compound] at product
  | factorial => exact spells.mono fun ts reads rest _ => .base (.marked (reads rest trivial))
  | atom => exact spells.mono fun ts reads rest _ => .primary (reads rest trivial)

theorem loosen (spells : SpellsAt letter text p t) (le : q ≤ p) : SpellsAt letter text q t := by
  obtain ⟨steps, rank⟩ : ∃ steps, p.rank = q.rank + steps := Nat.exists_eq_add_of_le le
  induction steps generalizing p with
  | zero => exact Precedence.rank_injective rank ▸ spells
  | succ steps ih =>
    have next := Precedence.rank_looser (p := p) (by omega)
    have rank' : p.looser.rank = q.rank + steps := by omega
    exact ih spells.looser (show q.rank ≤ p.looser.rank by omega) rank'

/-- Parentheses are never put around a bare variable. -/
private theorem spelled_eq_of_lt (loose : t.precedence < .atom) :
    t.spelled Expr.reread true = t.spelled Expr.reread false := by
  cases t with
  | atom a => exact absurd loose (by simp only [Expr.precedence]; decide)
  | number | binary | unary | call | equality => rfl

private theorem term_le (printable : t.Printable letter) : Precedence.term ≤ t.precedence := by
  cases printable with
  | @number value finite =>
    simp only [Expr.precedence]
    split <;> decide
  | var | const | vector => exact (by decide : Precedence.term ≤ .atom)
  | @binary t o l r =>
    have operator (o : BinaryOp) : Precedence.term ≤ o.precedence := by
      cases o <;> decide
    exact operator o
  | unary => exact (by decide : Precedence.term ≤ .sign)
  | @call t f u =>
    cases f with
    | factorial => exact (by decide : Precedence.term ≤ .factorial)
    | _ => exact (by decide : Precedence.term ≤ .atom)

/-- An operand in parentheses is read at every precedence, and one without them at the precedences
that its own reaches. -/
theorem enclose (spells : SpellsAt letter t.text t.precedence t) (printable : t.Printable letter)
    {encloses : Bool} (outside : encloses = false → q ≤ t.precedence)
    (inside : encloses = true → t.precedence < .atom) :
    SpellsAt letter (Expr.enclose encloses t.text) q t := by
  cases encloses with
  | false => exact spells.loosen (outside rfl)
  | true =>
    have sum : Spells letter t.text.toList (.chain .sum) (t.spelled Expr.reread true) :=
      spells.loosen (term_le printable)
    rw [spelled_eq_of_lt (inside rfl)] at sum
    have enclosed : SpellsAt letter (Expr.enclose true t.text) .atom t := by
      show Spells letter (Expr.enclose true t.text).toList .primary (t.spelled Expr.reread false)
      simpa [Expr.enclose] using sum.parentheses
    refine enclosed.loosen ?_
    cases q <;> decide

end SpellsAt

variable {letter : Char}

private theorem digits_spell {x : Binary64} (finite : x.isFinite = true) :
    Spells letter (Numeral.text x.abs).toList .primary (.number (Numeral.reread x)) := by
  have plain := Binary64.text_abs_plain finite
  refine (Scans.lexeme .number ?_ (by decide) ?_ (by simp)).mono ?_
  · intro none
    rw [none] at plain
    cases plain
  · exact fun more delimited => TokenKind.longest_number plain delimited
  · rintro ts ⟨token, rfl, kind, lexeme⟩ rest _
    have reads : Reads (ν := Binary64) .primary (token :: rest) _ rest := .number kind
    rw [lexeme, String.ofList_toList] at reads
    exact reads

theorem number_spells {x : Binary64} (finite : x.isFinite = true) :
    SpellsAt letter (Numeral.text x) (Expr.number x).precedence (.number x) := by
  have digits : Spells letter _ .primary _ := digits_spell finite
  simp only [Expr.precedence]
  split
  · rename_i signed
    have same : Expr.reread x = .sign .minus (.number (Numeral.reread x)) := if_pos signed
    have product : Spells letter (Numeral.text x.abs).toList .juxtaposition
        (.number (Numeral.reread x)) := digits.mono fun ts reads rest _ =>
      Reads.withCoefficient (.base (.marked (.primary (reads rest trivial))))
    show Spells letter (Numeral.text x).toList .juxtaposition (Expr.reread x)
    rw [same, Binary64.text_of_signed finite signed]
    exact product.sign (fun _ => rfl) (show UnaryOp.ofToken? .minus = some .minus from rfl)
  · rename_i unsigned
    have same : Expr.reread x = .number (Numeral.reread x) := if_neg unsigned
    show Spells letter (Numeral.text x).toList .primary (Expr.reread x)
    rwa [same, Binary64.text_of_unsigned (by simpa using unsigned)]

theorem var_spells {name : String} (single : name.toList = [letter]) (alpha : letter.isAlpha = true)
    (other : letter ≠ 'e') : SpellsAt letter name .atom (.var name) := by
  show Spells letter name.toList .primary (.var name)
  rw [single]
  refine (Scans.lexeme .letter (by simp) (by decide) ?_ fun _ => rfl).mono ?_
  · exact fun more delimited => TokenKind.longest_letter alpha other delimited
  · rintro ts ⟨token, rfl, kind, lexeme⟩ rest _
    have reads : Reads (ν := Binary64) .primary (token :: rest) _ rest := .letter kind
    rw [lexeme, ← single, String.ofList_toList] at reads
    exact reads

theorem const_spells (constant : Constant) :
    SpellsAt letter constant.symbol .atom (.const constant) := by
  cases constant with
  | e =>
    refine (Scans.lexeme .euler (by decide) (by decide) (fun _ _ => rfl) nofun).mono ?_
    rintro ts ⟨token, rfl, kind, -⟩ rest _
    exact .euler kind
  | pi =>
    refine (Scans.lexeme .pi (by decide) (by decide) (fun _ _ => rfl) nofun).mono ?_
    rintro ts ⟨token, rfl, kind, -⟩ rest _
    exact .pi kind

private theorem operator_symbol (o : BinaryOp) :
    ∃ c kind, o.symbol.toList = [c] ∧ BinaryOp.ofToken? kind = some o ∧
      ∀ more, TokenKind.longest (c :: more) = (kind, 1) := by
  cases o <;> exact ⟨_, _, rfl, rfl, fun _ => rfl⟩

private theorem sign_symbol (o : UnaryOp) :
    ∃ c kind, o.symbol.toList = [c] ∧ UnaryOp.ofToken? kind = some o ∧
      ∀ more, TokenKind.longest (c :: more) = (kind, 1) := by
  cases o <;> exact ⟨_, _, rfl, rfl, fun _ => rfl⟩

private theorem function_name {f : Func} (vector : f ≠ .vector) (factorial : f ≠ .factorial) :
    ∃ kind, f.name.toList ≠ [] ∧ Func.ofToken? kind = some f ∧
      ∀ more, TokenKind.longest (f.name.toList ++ '(' :: more) = (kind, f.name.toList.length) := by
  cases f with
  | vector => exact absurd rfl vector
  | factorial => exact absurd rfl factorial
  | _ => exact ⟨_, by decide, rfl, fun _ => rfl⟩

/-- The precedence at which the left operand of an operator is read. -/
def BinaryOp.leftLevel : BinaryOp → Precedence
  | add | sub => .term
  | mul | mod => .factor
  | div => .quotient
  | pow => .factorial

/-- The precedence at which the right operand of an operator is read. -/
def BinaryOp.rightLevel : BinaryOp → Precedence
  | add | sub => .factor
  | mul | mod => .quotient
  | div => .sign
  | pow => .power

/-! The printer leaves parentheses out where an operand reaches the level it is read at. -/

private theorem leftLevel_le {o : BinaryOp} {p : Precedence}
    (bare : Expr.enclosesLeft o p = false) : o.leftLevel ≤ p := by
  revert bare
  cases o <;> cases p <;> decide

private theorem lt_atom_of_enclosesLeft {o : BinaryOp} {p : Precedence}
    (enclosed : Expr.enclosesLeft o p = true) : p < .atom := by
  revert enclosed
  cases o <;> cases p <;> decide

private theorem rightLevel_le {o : BinaryOp} {p : Precedence}
    (bare : Expr.enclosesRight o p = false) : o.rightLevel ≤ p := by
  revert bare
  cases o <;> cases p <;> decide

private theorem lt_atom_of_enclosesRight {o : BinaryOp} {p : Precedence}
    (enclosed : Expr.enclosesRight o p = true) : p < .atom := by
  revert enclosed
  cases o <;> cases p <;> decide

theorem operation_spells {t : Tags} {o : BinaryOp} {l r : Expr Binary64} {left right : String}
    (spells : SpellsAt letter left o.leftLevel l) (spells' : SpellsAt letter right o.rightLevel r) :
    SpellsAt letter (left ++ " " ++ o.symbol ++ " " ++ right) o.precedence (.binary t o l r) := by
  obtain ⟨c, kind, symbol, operator, longest⟩ := operator_symbol o
  have text : (left ++ " " ++ o.symbol ++ " " ++ right).toList =
      left.toList ++ ' ' :: c :: ' ' :: right.toList := by
    simp [symbol]
  unfold SpellsAt
  rw [text]
  cases o with
  | add | sub | mul | mod | div => exact Spells.link spells spells' longest operator (by decide)
  | pow =>
    cases symbol
    exact Spells.raise spells spells'

theorem sign_spells {t : Tags} {o : UnaryOp} {u : Expr Binary64}
    (spells : SpellsAt letter u.text u.precedence u) (printable : u.Printable letter) :
    SpellsAt letter (Expr.unary t o u).text .sign (.unary t o u) := by
  obtain ⟨c, kind, symbol, operator, longest⟩ := sign_symbol o
  have operand : SpellsAt letter (Expr.enclose (u.precedence ≤ o.precedence) u.text) .sign u := by
    refine spells.enclose printable ?_ ?_
    · intro bare
      have above : ¬ u.precedence.rank ≤ 5 := of_decide_eq_false bare
      show 5 ≤ u.precedence.rank
      omega
    · intro enclosed
      have below : u.precedence.rank ≤ 5 := of_decide_eq_true enclosed
      show u.precedence.rank < 8
      omega
  have text : (Expr.unary t o u).text.toList =
      c :: (Expr.enclose (u.precedence ≤ o.precedence) u.text).toList := by
    simp [Expr.text, symbol]
  show Spells letter _ .juxtaposition _
  rw [text]
  exact Spells.sign longest operator operand

theorem factorial_spells {t : Tags} {u : Expr Binary64}
    (spells : SpellsAt letter u.text u.precedence u) (printable : u.Printable letter) :
    SpellsAt letter (Expr.call t .factorial [u]).text .factorial (.call t .factorial [u]) := by
  have operand : SpellsAt letter (Expr.enclose (u.precedence < .factorial) u.text)
      .factorial u := by
    refine spells.enclose printable ?_ ?_
    · intro bare
      have above : ¬ u.precedence.rank < 7 := of_decide_eq_false bare
      exact Nat.le_of_not_lt above
    · intro enclosed
      have below : u.precedence.rank < 7 := of_decide_eq_true enclosed
      exact Nat.lt_succ_of_lt below
  have text : (Expr.call t .factorial [u]).text.toList =
      (Expr.enclose (u.precedence < .factorial) u.text).toList ++ ['!'] := by
    simp [Expr.text, Expr.operandText]
  show Spells letter _ .marked _
  rw [text]
  exact Spells.mark operand

theorem application_spells {t : Tags} {f : Func} {u : Expr Binary64} (vector : f ≠ .vector)
    (factorial : f ≠ .factorial) (spells : SpellsAt letter u.text .term u) :
    SpellsAt letter (Expr.call t f [u]).text .atom (.call t f [u]) := by
  obtain ⟨kind, nonempty, function, longest⟩ := function_name vector factorial
  have text : (Expr.call t f [u]).text.toList =
      f.name.toList ++ '(' :: u.text.toList ++ [')'] := by
    cases f with
    | vector => exact absurd rfl vector
    | factorial => exact absurd rfl factorial
    | _ => simp [Expr.text, Expr.listText]
  have spelled : (Expr.call t f [u]).spelled Expr.reread false =
      .apply f [u.spelled Expr.reread true] := by
    simp [Expr.spelled, factorial]
  show Spells letter _ .primary ((Expr.call t f [u]).spelled Expr.reread false)
  rw [text, spelled]
  exact Spells.application nonempty function longest spells

/-- Components separated by commas, none of which is missing. -/
theorem components_spell {us : List (Expr Binary64)} (nonempty : us ≠ [])
    (printable : ∀ u ∈ us, u.Printable letter)
    (spells : ∀ u ∈ us, SpellsAt letter u.text u.precedence u) :
    Spells letter (Expr.listText us).toList .components
      (.apply .vector (us.map (Expr.spelled Expr.reread true))) := by
  induction us with
  | nil => exact absurd rfl nonempty
  | cons u us ih =>
    have here : SpellsAt letter u.text .term u :=
      (spells u (by simp)).loosen (SpellsAt.term_le (printable u (by simp)))
    cases us with
    | nil => exact Spells.last here
    | cons v us =>
      have behind := ih (by simp) (fun w member => printable w (List.mem_cons_of_mem _ member))
        fun w member => spells w (List.mem_cons_of_mem _ member)
      have text : (Expr.listText (u :: v :: us)).toList =
          u.text.toList ++ ',' :: ' ' :: (Expr.listText (v :: us)).toList := by
        simp [Expr.listText]
      rw [text]
      exact Spells.component here behind

/-- The text of a printable tree stands for what it spells out, at its own precedence. -/
theorem text_spells {t : Expr Binary64} (printable : t.Printable letter) :
    SpellsAt letter t.text t.precedence t := by
  induction printable with
  | number finite => exact number_spells finite
  | var single alpha other => exact var_spells single alpha other
  | const constant => exact const_spells constant
  | @binary t o l r printable printable' left right =>
    exact operation_spells (left.enclose printable leftLevel_le lt_atom_of_enclosesLeft)
      (right.enclose printable' rightLevel_le lt_atom_of_enclosesRight)
  | unary printable spells => exact sign_spells spells printable
  | @vector t us nonempty printable spells =>
    have text : (Expr.call t .vector us).text.toList =
        '[' :: (Expr.listText us).toList ++ [']'] := by
      simp [Expr.text]
    show Spells letter _ .primary (.apply .vector (Expr.spelledList Expr.reread true us))
    rw [text, Expr.spelledList_eq]
    exact (components_spell nonempty printable spells).vector
  | @call t f u vector printable spells =>
    by_cases factorial : f = .factorial
    · subst factorial
      exact factorial_spells spells printable
    · have level : (Expr.call t f [u]).precedence = .atom := by
        cases f with
        | factorial => exact absurd rfl factorial
        | _ => rfl
      rw [level]
      exact application_spells vector factorial (spells.loosen (SpellsAt.term_le printable))

/-- The text of a whole tree stands for an equation. -/
theorem Expr.Writable.spells {t : Expr Binary64} (writable : t.Writable letter) :
    Spells letter t.text.toList .equation (t.spelled Expr.reread true) := by
  cases writable with
  | expression printable =>
    have spells : SpellsAt letter t.text .equality t := by
      refine (text_spells printable).loosen (Nat.le_trans ?_ (SpellsAt.term_le printable))
      decide
    exact spells
  | @equality tags side l r left right =>
    have left' : SpellsAt letter l.text .term l :=
      (text_spells left).loosen (SpellsAt.term_le left)
    have right' : SpellsAt letter r.text .term r :=
      (text_spells right).loosen (SpellsAt.term_le right)
    have text : (Expr.equality tags side l r).text.toList =
        l.text.toList ++ ' ' :: '=' :: ' ' :: r.text.toList := by
      simp [Expr.text]
    rw [text]
    exact Spells.equality left' right'

/-- The text of a tree whose numbers are finite and read back is parsed to the tree itself, but that
a negative number is a minus sign in front of its magnitude and that a variable has a coefficient
unless it stands under a power or a factorial. Only nesting can refuse it. -/
theorem Expr.parse_text {t : Expr Binary64} (writable : t.Writable letter)
    (back : ∀ x ∈ t.numbers, (Numeral.reread x == Arithmetic.abs x) = true) :
    (∃ e : Expr Binary64, Expr.parse t.text = .ok e ∧
      (e == t.spelled Expr.magnitude true) = true) ∨
      ∃ fault, Expr.parse (ν := Binary64) t.text = .error fault ∧ fault.error = .tooNested := by
  obtain ⟨ts, reads, letters, tokens⟩ := writable.spells 0 [] (by simp [Delimited])
  rw [List.append_nil, Token.tokensFrom_nil, List.append_nil] at tokens
  have equation := reads [] (Phrase.closed_nil _)
  rw [List.append_nil, ← tokens, ← Token.tokenize_eq] at equation
  have named : ∀ token ∈ Token.tokenize t.text, token.kind = .letter →
      String.ofList [letter] = token.lexeme := by
    rw [Token.tokenize_eq, tokens]
    exact fun token member kind => (letters token member kind).symm
  rcases Expr.parse_of_reads equation named with parsed | ⟨fault, refused, refusal⟩
  · refine .inl ⟨_, parsed, Expr.spelled_beq (fun x member => ?_) true⟩
    exact Binary64.reread_beq (writable.finite x member) (back x member)
  · refine .inr ⟨fault, refused, ?_⟩
    generalize fault.error = error at refusal ⊢
    cases refusal with
    | tooNested => rfl
    | multipleVariables left right differ => exact absurd (left.symm.trans right) differ

/-- `-2 * x ^ 2 = [x!, x, 1.5]`, with a negative number and no coefficients. -/
def Expr.bareEquation : Expr Binary64 :=
  .equal (.op .mul (.number (.ofInt (-2))) (.op .pow (.var "x") (.number (.ofInt 2))))
    (.apply .vector [.apply .factorial [.var "x"], .var "x", .number (.ofDecimal ⟨15, -1⟩)])

/-- The sign is read apart from the number, and one variable of three gets a coefficient. -/
theorem Expr.parse_text_equation :
    Expr.bareEquation.text = "-2 * x ^ 2 = [x!, x, 1.5]" ∧ ∃ e : Expr Binary64,
      Expr.parse Expr.bareEquation.text = .ok e ∧
      (e == .equal
        (.op .mul (.sign .minus (.number (.ofInt 2))) (.op .pow (.var "x") (.number (.ofInt 2))))
        (.apply .vector [.apply .factorial [.var "x"], .op .mul (.number (.ofInt 1)) (.var "x"),
          .number (.ofDecimal ⟨15, -1⟩)])) = true := by
  have x : Expr.Printable 'x' (.var "x" : Expr Binary64) := .var rfl (by decide) (by decide)
  have written : Expr.bareEquation.Writable 'x' := by
    refine .equality (.binary (.number ?_) (.binary x (.number ?_))) (.vector (by simp) ?_)
    · decide +kernel
    · decide +kernel
    · simp only [List.forall_mem_cons]
      exact ⟨.call (by decide) x, x, .number (by decide +kernel), by simp⟩
  refine ⟨by decide +kernel, ?_⟩
  rcases Expr.parse_text written (by decide +kernel) with parsed | ⟨fault, refused, -⟩
  · exact parsed
  · have accepted : (Expr.parse (ν := Binary64) Expr.bareEquation.text).toOption.isSome = true := by
      decide +kernel
    rw [refused] at accepted
    cases accepted

end AlgebraEngine
