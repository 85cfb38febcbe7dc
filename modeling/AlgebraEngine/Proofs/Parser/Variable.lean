import AlgebraEngine.Number.Machine
import AlgebraEngine.Proofs.Parser.Blame

/-! The variable of an expression. The parser notes the first name it comes to, wherever in the
expression that is, and never forgets it; so what it accepts and what it blames can be told from the
tokens of the source alone. -/
namespace AlgebraEngine

namespace Parser

variable {p q : Parser} {ts more : List Token} {token : Token} {name : String}

/-- Reading that starts without a variable has found the one it has noted. -/
theorem Takes.find?_letter (taken : p.Takes ts q) (unused : p.used? = none)
    (used : q.used? = some name) :
    ∃ a, ts.find? (fun token => token.kind = .letter) = some a ∧ a.lexeme = name := by
  have first := taken.used?
  rw [unused, Option.none_or, used] at first
  exact Option.map_eq_some_iff.mp first.symm

/-- No other variable is among the tokens that have been taken. -/
theorem Takes.find?_other (taken : p.Takes ts q) (used : q.used? = some name) :
    ts.find? (fun token => token.kind = .letter ∧ token.lexeme ≠ name) = none := by
  simp only [List.find?_eq_none, decide_eq_true_eq, not_and, ne_eq, Decidable.not_not]
  intro token member letter
  exact Option.some.inj ((taken.letters token member letter).symm.trans used)

end Parser

namespace Expr

variable {ν : Type} [Numeral ν]

/-- All variables of an accepted source have one name. In a source with two variables it is the
first one that differs from the first of all that is blamed. -/
theorem parse_variables (source : String) :
    (∀ e : Expr ν, parse source = .ok e →
      ∀ a ∈ Token.tokenize source, ∀ b ∈ Token.tokenize source,
        a.kind = .letter → b.kind = .letter → a.lexeme = b.lexeme) ∧
    ∀ first second spans,
      parse (ν := ν) source = .error ⟨.multipleVariables first second, spans⟩ →
      ∃ a b, (Token.tokenize source).find? (fun token => token.kind = .letter) = some a ∧
        (Token.tokenize source).find?
          (fun token => token.kind = .letter ∧ token.lexeme ≠ a.lexeme) = some b ∧
        first = a.lexeme ∧ second = b.lexeme ∧ spans = [b.span] := by
  refine ⟨fun e parsed a here b there letter letter' => ?_, fun first second spans refused => ?_⟩
  · obtain ⟨q, taken⟩ := takes_of_parse parsed
    have name := taken.letters a here letter
    exact Option.some.inj (name.symm.trans (taken.letters b there letter'))
  · obtain ⟨ts, q, taken, blames⟩ := (stops_of_parse refused).blames
    have whole : Token.tokenize source = ts ++ q.rest := taken.rest
    cases blames with
    | @multipleVariables token more _ next letter used differs =>
      obtain ⟨a, found, rfl⟩ := taken.find?_letter rfl used
      refine ⟨a, token, ?_, ?_, rfl, rfl, congrArg ([·]) (Parser.span_of_next next)⟩
      · rw [whole, List.find?_append, found, Option.some_or]
      · rw [whole, List.find?_append, taken.find?_other used, Option.none_or, next]
        exact List.find?_cons_of_pos (by simpa [letter] using Ne.symm differs)

/-- In `2x + y` the `y` is blamed, and all variables of `x^2 + 3x` are one. -/
theorem parse_variables_blame :
    (∀ a ∈ Token.tokenize "x^2 + 3x", ∀ b ∈ Token.tokenize "x^2 + 3x",
      a.kind = .letter → b.kind = .letter → a.lexeme = b.lexeme) ∧
    ∃ a b, (Token.tokenize "2x + y").find? (fun token => token.kind = .letter) = some a ∧
      (Token.tokenize "2x + y").find?
        (fun token => token.kind = .letter ∧ token.lexeme ≠ a.lexeme) = some b ∧
      "x" = a.lexeme ∧ "y" = b.lexeme ∧ [(⟨5, 6⟩ : Span)] = [b.span] := by
  have refused : parse (ν := Binary64) "2x + y" = .error ⟨.multipleVariables "x" "y", [⟨5, 6⟩]⟩ :=
    parse_of_fault? (by decide +kernel)
  have accepted : fault? Binary64 "x^2 + 3x" = none := by decide +kernel
  unfold fault? at accepted
  split at accepted
  · rename_i e parsed
    exact ⟨(parse_variables "x^2 + 3x").1 e parsed, (parse_variables "2x + y").2 _ _ _ refused⟩
  · cases accepted

end Expr

end AlgebraEngine
