import AlgebraEngine.Number.Machine
import AlgebraEngine.Proofs.Parser.Blame
import AlgebraEngine.Proofs.Parser.Completeness
import AlgebraEngine.Proofs.Parser.Lookahead
import AlgebraEngine.Proofs.Parser.Reading

/-! The errors of the parser tell a source that goes on from one that is wrong. A source that ends
too early is the beginning of an equation, and nothing behind it helps a source with a final
error. -/
namespace AlgebraEngine

/-- A phrase is never refused with a final error. -/
theorem Refusal.isFinal_eq {names : String → Prop} {error : SyntaxError}
    (refusal : Refusal names error) : error.isFinal = false := by
  cases refusal <;> rfl

namespace Expr

variable {ν : Type} [Numeral ν] {source : String} {fault : SyntaxFault}

/-- Tokens of given kinds. -/
private def tokensOf (kinds : List TokenKind) : List Token :=
  kinds.map fun kind => ⟨kind, ⟨0, 0⟩, ""⟩

/-- A final error is found again whatever tokens follow the source, but an equation would be
read. -/
theorem not_derives_of_final (refused : parse (ν := ν) source = .error fault)
    (final : fault.error.isFinal = true) (v : List TokenKind) :
    ¬Derives .equation ((Token.tokenize source).map Token.kind ++ v) := by
  intro derives
  have kinds : (Token.tokenize source ++ tokensOf v).map Token.kind =
      (Token.tokenize source).map Token.kind ++ v := by
    simp [tokensOf, Function.comp_def]
  rw [← kinds] at derives
  obtain ⟨e, reads⟩ := derives.reads (ν := ν)
  have again := (Parse.complete_foretells (ν := ν) (tokensOf v) (.ofSource source)).elim
    (fun _ _ _ => trivial) (fun _ => id)
  obtain ⟨left, place, q, run⟩ := again.of_parse.2 fault refused final
  have here : ((Parser.ofSource source).extend (tokensOf v)).At (fun _ => True)
      (Token.tokenize source ++ tokensOf v) := {
    rest := by rw [Parser.rest_extend left]; simp [Parser.ofSource, Parser.rest]
    used := fun _ _ => trivial
    letters := fun _ _ _ => trivial }
  have outcome := Parse.complete_finds reads here
  unfold Parse.Outcome at outcome
  rw [run] at outcome
  rw [outcome.isFinal_eq] at final
  cases final

/-- If a source ends too early, some tokens behind it make an equation of it. If its error is
final, none do. -/
theorem parse_continues (refused : parse (ν := ν) source = .error fault) :
    (fault.error = .unexpectedEnd →
      ∃ v, v ≠ [] ∧ Derives .equation ((Token.tokenize source).map Token.kind ++ v)) ∧
    (fault.error.isFinal = true →
      ∀ v, ¬Derives .equation ((Token.tokenize source).map Token.kind ++ v)) := by
  refine ⟨fun ended => ?_, not_derives_of_final refused⟩
  have continued := (stops_of_parse refused).complete ended
  simpa [Phrase.Open, Parser.ofSource, Parser.rest] using continued

/-- `2 * (x +` only lacks its end, and `2 * )` cannot be helped. -/
theorem parse_continues_both :
    (∃ v, v ≠ [] ∧ Derives .equation ((Token.tokenize "2 * (x +").map Token.kind ++ v)) ∧
      ∀ v, ¬Derives .equation ((Token.tokenize "2 * )").map Token.kind ++ v) := by
  have ended : parse (ν := Binary64) "2 * (x +" = .error ⟨.unexpectedEnd, [⟨8, 8⟩]⟩ :=
    parse_of_fault? (by decide +kernel)
  have wrong : parse (ν := Binary64) "2 * )" = .error ⟨.unclosedParenthesis false, [⟨4, 5⟩]⟩ :=
    parse_of_fault? (by decide +kernel)
  exact ⟨(parse_continues ended).1 rfl, (parse_continues wrong).2 rfl⟩

end Expr

end AlgebraEngine
