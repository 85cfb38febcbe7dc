import AlgebraEngine.Proofs.Expr.Text
import AlgebraEngine.Proofs.Parser.Formed
import AlgebraEngine.Proofs.Parser.RoundTrip
import AlgebraEngine.Proofs.Simplify.Rereading
import AlgebraEngine.Session.Run

/-! Simplifying the text of a simplified expression. The text of a variable is read as a multiple of
the variable, and no rule takes that apart again. Hence the text changes once for every variable
that does not stand directly under a power or a factorial, and stays as it is otherwise. -/
namespace AlgebraEngine

open AlgebraEngine.Expr

/-- A line that starts with the word for it simplifies what stands behind the word. -/
theorem CommandLine.ofLine_simplify (source : String) :
    ofLine ("simplify " ++ source) = ⟨.simplify, 8, " " ++ source⟩ := by
  have characters : ("simplify " ++ source).toList =
      ['s', 'i', 'm', 'p', 'l', 'i', 'f', 'y'] ++ ' ' :: source.toList := by simp
  have behind : " " ++ source = String.ofList (' ' :: source.toList) := by
    rw [← String.toList_inj]
    simp
  unfold ofLine
  rw [characters, behind]
  rfl

section Answers

variable {ν : Type} [Analysis ν] {source : String} {e : Expr ν} {s : Simplification ν}

theorem Command.answer_simplify (simplified : e.simplify = .ok s) :
    Command.simplify.answer e = .ok s.tree.text := by
  simp only [answer, simplified]

theorem runLine_simplify (parsed : Expr.parse (" " ++ source) = .ok e)
    (simplified : e.simplify = .ok s) :
    runLine (ν := ν) ("simplify " ++ source) = .ok s.tree.text := by
  unfold runLine
  rw [CommandLine.ofLine_simplify]
  unfold CommandLine.run
  simp only [parsed, Command.answer_simplify simplified]

theorem runLine_simplify_of_fault {fault : SyntaxFault}
    (refused : Expr.parse (ν := ν) (" " ++ source) = .error fault) :
    runLine (ν := ν) ("simplify " ++ source) =
      .error ⟨.notRead fault.error, fault.spans.map (·.shift 8)⟩ := by
  unfold runLine
  rw [CommandLine.ofLine_simplify]
  unfold CommandLine.run
  simp only [refused]

end Answers

/-- The text of a tree behind a blank is parsed to what it spells out. Only nesting can refuse
it. -/
theorem Expr.Writable.parse {letter : Char} {t : Expr Binary64} (writable : t.Writable letter) :
    Expr.parse (" " ++ t.text) = .ok (t.spelled Expr.reread true) ∨
      ∃ fault, Expr.parse (ν := Binary64) (" " ++ t.text) = .error fault ∧
        fault.error = .tooNested := by
  obtain ⟨ts, reads, letters, tokens⟩ :=
    writable.spells ' '.utf8Size [] (by simp [TokenKind.Delimited])
  have behind : Token.tokenize (" " ++ t.text) = ts := by
    have characters : (" " ++ t.text).toList = ' ' :: t.text.toList := by simp
    rw [List.append_nil, Token.tokensFrom_nil, List.append_nil] at tokens
    rw [Token.tokenize_eq, characters, Token.tokensFrom_blank rfl, Nat.zero_add, tokens]
  have equation := reads [] (Phrase.closed_nil _)
  rw [List.append_nil, ← behind] at equation
  have named : ∀ token ∈ Token.tokenize (" " ++ t.text), token.kind = .letter →
      String.ofList [letter] = token.lexeme := by
    rw [behind]
    exact fun token member kind => (letters token member kind).symm
  refine (Expr.parse_of_reads equation named).imp_right ?_
  rintro ⟨fault, refused, refusal⟩
  refine ⟨fault, refused, ?_⟩
  generalize fault.error = error at refusal ⊢
  cases refusal with
  | tooNested => rfl
  | multipleVariables left right differ => exact absurd (left.symm.trans right) differ

/-- Simplified text is stable but for its variables. Let a source be parsed to a tree whose
simplification settles with finite numbers only. The command to simplify the text that is printed
then prints the same text, but that every variable has a coefficient unless it stands directly under
a power or a factorial. This is the same text exactly if all variables stand there. Only nesting can
refuse the text, as long as no tree that it is parsed to is too deep to be simplified. -/
theorem runLine_simplify_text {source : String} {e : Expr Binary64} {s : Simplification Binary64}
    (parsed : Expr.parse source = .ok e) (simplified : e.simplify = .ok s)
    (settled : s.settled = true) (finite : ∀ x ∈ s.tree.numbers, Arithmetic.isFinite x = true)
    (accepted : ∀ e' : Expr Binary64,
      Expr.parse (" " ++ s.tree.text) = .ok e' → checkDepth e' = .ok ()) :
    Command.simplify.answer e = .ok s.tree.text ∧
    (runLine (ν := Binary64) ("simplify " ++ s.tree.text) =
        .ok (s.tree.spelled Expr.number true).text ∨
      ∃ report : Report Binary64, runLine ("simplify " ++ s.tree.text) = .error report ∧
        report.problem = .notRead .tooNested) ∧
    ((s.tree.spelled Expr.number true).text = s.tree.text ↔
      s.tree.spelled Expr.number true = s.tree.untagged) := by
  refine ⟨Command.answer_simplify simplified, ?_, text_spelled_eq_iff⟩
  obtain rfl := simplifyWith_eq_run simplified
  obtain ⟨letter, alpha, other, whole⟩ := whole_of_parse parsed
  have whole' := Simplification.whole_run defaultPasses whole
  obtain ⟨last, made, unchanged⟩ :=
    Simplification.last_unchanged Rule.forNode defaultPasses e settled
  obtain ⟨fresh, normal⟩ :=
    Simplification.normal_of_unchanged (List.mem_of_getLast? made) unchanged
  generalize (Simplification.run Rule.forNode defaultPasses e).tree = t at *
  have tree := whole'.tree_run_reread fresh normal finite (show 2 ≤ defaultPasses by decide)
  have text : (t.spelled (Expr.number ∘ Binary64.plain) true).text =
      (t.spelled Expr.number true).text :=
    text_spelled_congr Binary64.text_plain Binary64.isSigned_plain true t
  rcases (whole'.writable alpha other finite).parse with read | ⟨fault, refused, nested⟩
  · have shallow := checkDepth_eq_ok_iff.mp (accepted _ read)
    have again := runLine_simplify read (simplifyWith_eq defaultPasses shallow)
    rw [tree, text_tagged, text] at again
    exact .inl again
  · refine .inr ⟨_, runLine_simplify_of_fault refused, ?_⟩
    rw [nested]

/-- Whether a tree is simplified to one that meets the conditions above and is written like this,
without and with coefficients. -/
private def simplifiesTo (text spelled : String) (e : Expr Binary64) : Bool :=
  let s := Simplification.run Rule.forNode defaultPasses e
  e.depth ≤ maxDepth && s.settled && s.tree.numbers.all Arithmetic.isFinite &&
    (Expr.parse (ν := Binary64) (" " ++ text)).toOption.all (·.depth ≤ maxDepth) &&
    s.tree.text == text && (s.tree.spelled Expr.number true).text == spelled

private theorem exists_of_simplifiesTo (source text spelled : String)
    (simplifies : (Expr.parse source).toOption.any (simplifiesTo text spelled) = true) :
    ∃ (e : Expr Binary64) (s : Simplification Binary64), Expr.parse source = .ok e ∧
      e.simplify = .ok s ∧ s.settled = true ∧
      (∀ x ∈ s.tree.numbers, Arithmetic.isFinite x = true) ∧
      (∀ e' : Expr Binary64, Expr.parse (" " ++ s.tree.text) = .ok e' → checkDepth e' = .ok ()) ∧
      s.tree.text = text ∧ (s.tree.spelled Expr.number true).text = spelled := by
  cases parsed : Expr.parse (ν := Binary64) source with
  | error fault =>
    rw [parsed] at simplifies
    cases simplifies
  | ok e =>
    rw [parsed] at simplifies
    simp only [Except.toOption, Option.any_some, simplifiesTo, Bool.and_eq_true, decide_eq_true_eq,
      List.all_eq_true, beq_iff_eq] at simplifies
    obtain ⟨⟨⟨⟨⟨shallow, settled⟩, finite⟩, reread⟩, text_eq⟩, spelled_eq⟩ := simplifies
    refine ⟨e, _, rfl, simplifyWith_eq defaultPasses shallow, settled, finite, ?_, text_eq,
      spelled_eq⟩
    intro e' parsed'
    rw [text_eq] at parsed'
    rw [parsed'] at reread
    exact checkDepth_eq_ok_iff.mpr (by simpa [Except.toOption] using reread)

private theorem runLine_eq_ok {line text : String}
    (answers : (runLine (ν := Binary64) line).toOption = some text) :
    runLine (ν := Binary64) line = .ok text := by
  cases answered : runLine (ν := Binary64) line with
  | error report =>
    rw [answered] at answers
    cases answers
  | ok answer =>
    rw [answered] at answers
    cases answers
    rfl

/-- `x^2 * (1 - 3) + 2/4` has its variable under a power, so that its simplified text stays as it
is. -/
theorem runLine_simplify_text_square : ∃ (e : Expr Binary64) (s : Simplification Binary64),
    Expr.parse "x^2 * (1 - 3) + 2/4" = .ok e ∧ e.simplify = .ok s ∧
      s.tree.text = "x ^ 2 * -2 + 1 / 2" ∧
      runLine (ν := Binary64) ("simplify " ++ s.tree.text) = .ok "x ^ 2 * -2 + 1 / 2" := by
  obtain ⟨e, s, parsed, simplified, settled, finite, accepted, text, spelled⟩ :=
    exists_of_simplifiesTo "x^2 * (1 - 3) + 2/4" "x ^ 2 * -2 + 1 / 2" "x ^ 2 * -2 + 1 / 2"
      (by decide +kernel)
  obtain ⟨-, again, -⟩ := runLine_simplify_text parsed simplified settled finite accepted
  refine ⟨e, s, parsed, simplified, text, ?_⟩
  rcases again with answered | ⟨report, refused, -⟩
  · rw [answered, spelled]
  · have answers : (runLine (ν := Binary64) "simplify x ^ 2 * -2 + 1 / 2").toOption.isSome =
        true := by decide +kernel
    rw [text] at refused
    rw [show "simplify x ^ 2 * -2 + 1 / 2" = "simplify " ++ "x ^ 2 * -2 + 1 / 2" from rfl,
      refused] at answers
    cases answers

/-- `2x` is simplified to `2 * x`, and that text is read as twice a multiple of the variable, which
no rule multiplies out. -/
theorem simplified_text_not_stable : ∃ (e : Expr Binary64) (s : Simplification Binary64),
    Expr.parse "2x" = .ok e ∧ e.simplify = .ok s ∧ s.settled = true ∧
      (∀ x ∈ s.tree.numbers, Arithmetic.isFinite x = true) ∧
      runLine (ν := Binary64) "simplify 2x" = .ok "2 * x" ∧
      runLine (ν := Binary64) "simplify 2 * x" = .ok "2 * (1 * x)" := by
  obtain ⟨e, s, parsed, simplified, settled, finite, -⟩ :=
    exists_of_simplifiesTo "2x" "2 * x" "2 * (1 * x)" (by decide +kernel)
  exact ⟨e, s, parsed, simplified, settled, finite, runLine_eq_ok (by decide +kernel),
    runLine_eq_ok (by decide +kernel)⟩

end AlgebraEngine
