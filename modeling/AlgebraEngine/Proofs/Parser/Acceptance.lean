import AlgebraEngine.Number.Machine
import AlgebraEngine.Proofs.Parser.Completeness
import AlgebraEngine.Proofs.Parser.Nesting
import AlgebraEngine.Proofs.Parser.Reading
import AlgebraEngine.Proofs.Parser.Soundness

/-! The parser accepts the language of its grammar, up to the sources that it refuses for their
nesting or their variables. -/
namespace AlgebraEngine

/-- A name that a source uses as a variable. -/
def Token.Names (source : String) (name : String) : Prop :=
  ∃ token ∈ tokenize source, token.kind = .letter ∧ token.lexeme = name

/-- A tree that is returned is what all tokens of its source stand for as an equation. Conversely
every source whose tokens are an equation is parsed, unless it is nested too deeply or uses two
variables. Wherever tokens stand for an operand with a sign in front, the sign applies to the
longest implicit product behind it. -/
theorem Expr.parse_accepts {ν : Type} [Numeral ν] (source : String) :
    (∀ e : Expr ν, Expr.parse source = .ok e →
      Derives .equation ((Token.tokenize source).map Token.kind) ∧
        Reads .equation (Token.tokenize source) e []) ∧
    (Derives .equation ((Token.tokenize source).map Token.kind) →
      (∃ e : Expr ν, Expr.parse source = .ok e ∧ Reads .equation (Token.tokenize source) e []) ∨
        ∃ fault, Expr.parse (ν := ν) source = .error fault ∧
          (fault.error = .tooNested ∨ ∃ first second, first ≠ second ∧
            Token.Names source first ∧ Token.Names source second ∧
            fault.error = .multipleVariables first second)) ∧
    ∀ {sign : Token} {o : UnaryOp} {ts rest : List Token} {e : Expr ν},
      UnaryOp.ofToken? sign.kind = some o → Reads .operand (sign :: ts) e rest →
        ∃ inner, e = .sign o inner ∧ Reads .juxtaposition ts inner rest ∧
          BehindLongest ts rest := by
  refine ⟨fun e parsed => ?_, fun derives => ?_, Reads.sign_longest⟩
  · have reads := Expr.reads_of_parse parsed
    obtain ⟨used, same, derives⟩ := reads.derives
    rw [List.append_nil] at same
    exact ⟨same ▸ derives, reads⟩
  · obtain ⟨e, reads⟩ := derives.reads (ν := ν)
    have letters : ∀ token ∈ Token.tokenize source, token.kind = .letter →
        Token.Names source token.lexeme :=
      fun token member letter => ⟨token, member, letter, rfl⟩
    rcases Expr.parse_of_reads reads letters with parsed | ⟨fault, refused, refusal⟩
    · exact .inl ⟨e, parsed, reads⟩
    · refine .inr ⟨fault, refused, ?_⟩
      generalize fault.error = error at refusal ⊢
      cases refusal with
      | tooNested => exact .inl rfl
      | multipleVariables left right differ => exact .inr ⟨_, _, differ, left, right, rfl⟩

/-- `-2x` is a sign in front of a product of two factors. -/
theorem Expr.parse_accepts_negation :
    Derives .equation ((Token.tokenize "-2x").map Token.kind) ∧
      ∃ e : Expr Binary64, Expr.parse "-2x" = .ok e ∧
        Reads .equation (Token.tokenize "-2x") e [] := by
  obtain ⟨sound, complete, -⟩ := Expr.parse_accepts (ν := Binary64) "-2x"
  have derives : Derives .equation ((Token.tokenize "-2x").map Token.kind) := by
    have kinds : (Token.tokenize "-2x").map Token.kind = [.minus, .number, .letter] := by
      decide +kernel
    have leaf (kind) (leaf : kind ∈ [TokenKind.number, .letter, .euler, .pi]) :
        Derives .power [kind] := .base (.marked (.primary (.leaf leaf)))
    have product : Derives .juxtaposition [.number, .letter] :=
      .join (u := [.number]) (.factor (leaf _ (by decide))) rfl (leaf _ (by decide))
    rw [kinds]
    exact .sum (.first (.first (.first (.factor (.base (.sign (.inr rfl) product))))))
  rcases complete derives with ⟨e, parsed, -⟩ | ⟨fault, refused, -⟩
  · exact ⟨derives, e, parsed, (sound e parsed).2⟩
  · have accepted : (Expr.parse (ν := Binary64) "-2x").toOption.isSome = true := by decide +kernel
    rw [refused] at accepted
    cases accepted

end AlgebraEngine
