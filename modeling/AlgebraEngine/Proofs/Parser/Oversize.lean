import AlgebraEngine.Number.Machine
import AlgebraEngine.Proofs.Eval.Level
import AlgebraEngine.Proofs.Parser.Depth
import AlgebraEngine.Proofs.Solve.Depth
import AlgebraEngine.Proofs.Token.Scanning

/-! What becomes of the trees that the parser builds. A tree whose root the parser has measured is
never refused for its depth. The other trees are refused where they are deeper than what is
measured, and `-1!…!` with as many factorials as can be read is one that is. -/
namespace AlgebraEngine

variable {ν : Type}

namespace Expr

/-- A tree with a number of factorials applied to it, innermost first. -/
def marked (e : Expr ν) : (marks : Nat) → Expr ν
  | 0 => e
  | marks + 1 => (apply .factorial [e]).marked marks

theorem depth_marked (e : Expr ν) (marks : Nat) : (e.marked marks).depth = e.depth + marks := by
  induction marks generalizing e with
  | zero => rfl
  | succ marks ih =>
    rw [marked, ih, depth_apply_singleton]
    omega

theorem withCoefficient_marked [Arithmetic ν] (x : ν) (marks : Nat) :
    Parse.withCoefficient ((number x).marked marks) = (number x).marked marks := by
  have call (e : Expr ν) (marks : Nat) : ∃ e', e.marked (marks + 1) = apply .factorial [e'] := by
    induction marks generalizing e with
    | zero => exact ⟨e, rfl⟩
    | succ marks ih => exact ih _
  cases marks with
  | zero => rfl
  | succ marks =>
    obtain ⟨e', same⟩ := call (number x) marks
    rw [same]
    rfl

end Expr

namespace Parse

/-- A reader returns what is described and leaves no token. -/
def Ends (read : Parse (Expr ν)) (p : Parser) (returned : Expr ν → Prop) : Prop :=
  Outcome read p (fun e p' => returned e ∧ p'.rest = []) fun _ => False

variable {read : Parse (Expr ν)} {p : Parser} {returned : Expr ν → Prop}

theorem Ends.chain (ends : Ends read p returned) (ops : List BinaryOp) :
    Ends (chain ops read) p returned := by
  simp only [Ends, Parse.chain, outcome_bind, outcome_get, Parser.remaining_eq]
  refine ends.mono ?_
  rintro e p' ⟨here, ended⟩
  rw [ended]
  exact ⟨here, ended⟩

theorem Ends.juxtaposed [Arithmetic ν] (ends : Ends read p returned)
    (whole : ∀ e, returned e → withCoefficient e = e) : Ends (juxtaposed read) p returned := by
  simp only [Ends, Parse.juxtaposed, outcome_bind, outcome_get, Parser.remaining_eq]
  refine ends.mono ?_
  rintro e p' ⟨here, ended⟩
  rw [ended, whole e here]
  exact ⟨here, ended⟩

theorem Ends.raised [Numeral ν] {inner : Grammar ν} (ends : Ends (Grammar.operand inner) p returned) :
    Ends (Grammar.raised inner) p returned := by
  simp only [Ends, Grammar.raised, outcome_bind, outcome_peek?, outcome_ite, outcome_pure]
  refine ends.mono ?_
  rintro e p' ⟨here, ended⟩
  simp [ended, here]

/-- All factorials of a row are applied, if the tree does not get too deep. -/
theorem factorialsFrom_ends (marks budget : Nat) {e : Expr ν}
    (bangs : p.rest.map Token.kind = List.replicate marks .bang) (enough : marks ≤ budget)
    (shallow : e.depth + marks ≤ maxTreeDepth) :
    Ends (factorialsFrom budget e e.depth) p (· = e.marked marks) := by
  induction marks generalizing budget p e with
  | zero =>
    have ended : p.rest = [] := by simpa using bangs
    cases budget with
    | zero => exact ⟨rfl, ended⟩
    | succ budget => simp [Ends, factorialsFrom, outcome_ite, ended, Expr.marked]
  | succ marks ih =>
    cases budget with
    | zero => omega
    | succ budget =>
      have next : p.rest.head?.map Token.kind = some .bang := by
        rw [← List.head?_map, bangs]
        rfl
      have behind : p.advance.rest.map Token.kind = List.replicate marks .bang := by
        rw [Parser.rest_advance, List.map_tail, bangs]
        rfl
      simp only [Ends, factorialsFrom, outcome_bind, outcome_peek?, outcome_ite, outcome_pure,
        outcome_checkTreeDepth, outcome_advance, next, not_true_eq_false, false_imp_iff, true_imp_iff,
        and_true, ← Expr.depth_apply_singleton .factorial]
      have deeper := Expr.depth_apply_singleton .factorial e
      exact ⟨fun _ => ih budget behind (by omega) (by omega), fun deep => absurd deep (by omega)⟩

theorem operand_ends [Numeral ν] (inner : Grammar ν) {marks : Nat}
    (kinds : p.rest.map Token.kind = .number :: List.replicate marks .bang)
    (shallow : marks < maxTreeDepth) :
    Ends (Grammar.operand inner) p fun e => ∃ x, e = (Expr.number x).marked marks := by
  obtain ⟨token, rest, tokens, number⟩ : ∃ token rest, p.rest = token :: rest ∧
      token.kind = .number := Token.cons_of_head? (by rw [← List.head?_map, kinds]; rfl)
  have behind : p.advance.rest.map Token.kind = List.replicate marks .bang := by
    rw [Parser.rest_advance, List.map_tail, kinds]
    rfl
  have leaf : Grammar.primary inner .number = literal := rfl
  have unsigned : UnaryOp.ofToken? .number = none := rfl
  simp only [Ends, Grammar.operand, outcome_bind, outcome_peek?, tokens, List.head?_cons,
    Option.map_some, number, unsigned, leaf, literal, outcome_next, factorials, outcome_get,
    Parser.remaining_eq]
  refine ⟨?_, by simp⟩
  rintro _ _ ⟨⟩
  simp only [number, outcome_pure]
  have enough : marks ≤ p.advance.rest.length := by
    simpa using (congrArg List.length behind).ge
  refine (factorialsFrom_ends marks _ behind enough ?_).mono ?_
  · rw [Expr.depth_number]
    omega
  · rintro e p' ⟨here, ended⟩
    exact ⟨⟨_, here⟩, ended⟩

/-- A number with factorials behind a sign is read as the sign in front of the factorials. -/
theorem sum_ends [Numeral ν] (room : Nat) {marks : Nat}
    (kinds : p.rest.map Token.kind = .minus :: .number :: List.replicate marks .bang)
    (shallow : marks < maxTreeDepth) :
    Ends (Grammar.within (room + 3)).sum p fun e =>
      ∃ x : ν, e = .sign .minus ((Expr.number x).marked marks) := by
  have next : p.rest.head?.map Token.kind = some .minus := by
    rw [← List.head?_map, kinds]
    rfl
  have behind : p.advance.rest.map Token.kind = .number :: List.replicate marks .bang := by
    rw [Parser.rest_advance, List.map_tail, kinds]
    rfl
  have product : Ends (Grammar.within (room + 1)).juxtaposition p.advance fun e =>
      ∃ x : ν, e = (Expr.number x).marked marks := by
    refine (operand_ends (Grammar.within room) behind shallow).raised.juxtaposed ?_
    rintro e ⟨x, rfl⟩
    exact Expr.withCoefficient_marked x marks
  have operand : Ends (Grammar.operand (Grammar.within (room + 2))) p fun e =>
      ∃ x : ν, e = .sign .minus ((Expr.number x).marked marks) := by
    have sign : UnaryOp.ofToken? .minus = some .minus := rfl
    simp only [Ends, Grammar.operand, outcome_bind, outcome_peek?, next, sign, outcome_advance,
      outcome_pure]
    refine product.mono ?_
    rintro e p' ⟨⟨x, rfl⟩, ended⟩
    exact ⟨⟨x, rfl⟩, ended⟩
  refine (((operand.raised.juxtaposed ?_).chain _).chain _).chain _
  rintro e ⟨x, rfl⟩
  rfl

/-- An expression is what reading ends with, if it is neither side of an equation. -/
theorem complete_ends [Numeral ν] (ends : Ends (Grammar.within p.room).sum p returned) :
    Ends (complete expression) p returned := by
  simp only [Ends, outcome_complete, expression, equation, outcome_bind, outcome_get,
    outcome_peek?, outcome_ite, outcome_pure]
  refine ends.mono ?_
  rintro e p' ⟨here, ended⟩
  simp [ended, here]

end Parse

/-! ## A source that is too deep -/

namespace Token

/-- A character that is a token of its own is the first one. -/
private theorem kinds_cons (offset : Nat) (c : Char) {more : List Char} {kind : TokenKind}
    (visible : kind ≠ .blank) (longest : TokenKind.longest (c :: more) = (kind, 1)) :
    ∃ stop, (tokensFrom offset (c :: more)).map Token.kind =
      kind :: (tokensFrom stop more).map Token.kind := by
  have first := tokensFrom_lexeme offset (List.cons_ne_nil c []) visible longest
  exact ⟨_, by rw [← List.singleton_append, first, List.map_cons]⟩

private theorem kinds_bangs (offset marks : Nat) :
    (tokensFrom offset (List.replicate marks '!')).map Token.kind = List.replicate marks .bang := by
  induction marks generalizing offset with
  | zero => rfl
  | succ marks ih =>
    obtain ⟨stop, tokens⟩ := kinds_cons offset '!' (by decide)
      (show TokenKind.longest ('!' :: List.replicate marks '!') = (.bang, 1) from rfl)
    rw [List.replicate_succ, tokens, ih, List.replicate_succ]

end Token

namespace Expr

/-- `-1!…!`. -/
def markedSource (marks : Nat) : String := String.ofList ('-' :: '1' :: List.replicate marks '!')

theorem kinds_markedSource (marks : Nat) : (Token.tokenize (markedSource marks)).map Token.kind =
    .minus :: .number :: List.replicate marks .bang := by
  have delimited : TokenKind.Delimited (List.replicate marks '!') := by
    cases marks <;> simp [TokenKind.Delimited, List.replicate_succ]
  have plain : TokenKind.PlainDigits ['1'] := .whole rfl (by simp)
  have digit : TokenKind.longest ('1' :: List.replicate marks '!') = (.number, 1) := by
    simpa only [List.singleton_append, List.length_singleton] using
      TokenKind.longest_number plain delimited
  obtain ⟨stop, sign⟩ := Token.kinds_cons 0 '-' (by decide)
    (show TokenKind.longest ('-' :: '1' :: List.replicate marks '!') = (.minus, 1) from rfl)
  obtain ⟨stop', number⟩ := Token.kinds_cons stop '1' (by decide) digit
  rw [Token.tokenize_eq, markedSource, String.toList_ofList, sign, number, Token.kinds_bangs]

/-- A row of factorials is read as deep as is measured, and the sign in front of it is not
measured. -/
theorem parse_markedSource [Numeral ν] {marks : Nat} (shallow : marks < maxTreeDepth) :
    ∃ e : Expr ν, parse (markedSource marks) = .ok e ∧ e.depth = marks + 2 := by
  have start : (Parser.ofSource (markedSource marks)).rest = Token.tokenize (markedSource marks) := by
    simp [Parser.ofSource, Parser.rest]
  have sum : Parse.Ends (Grammar.within (Parser.ofSource (markedSource marks)).room).sum
      (.ofSource (markedSource marks)) fun e => ∃ x : ν, e = sign .minus ((number x).marked marks) :=
    Parse.sum_ends (maxNesting - 3) (start ▸ kinds_markedSource marks) shallow
  have ends := Parse.complete_ends sum
  unfold Parse.Ends Parse.Outcome at ends
  unfold parse EStateM.run
  split at ends
  · rename_i e p ok
    obtain ⟨⟨x, rfl⟩, -⟩ := ends
    exact ⟨_, by rw [ok], by rw [depth_sign, depth_marked, depth_number]; omega⟩
  · exact ends.elim

/-- What is measured is processed. A tree that a source denotes is refused for its depth only if its
root is not measured, and then each processing refuses it with its depth, which the nesting bounds.
Solving refuses besides what the isolated variable equals, where the moves have made it too deep. -/
theorem parse_refused_iff [Analysis ν] {source : String} {e : Expr ν}
    (parsed : parse source = .ok e) :
    (e.measured = true → checkDepth e = .ok ()) ∧
      (∀ tooDeep, checkDepth e = .error tooDeep ↔
        e.measured = false ∧ maxTreeDepth < e.depth ∧ tooDeep = ⟨e.depth⟩) ∧
      e.depth < maxTreeDepth + 2 * maxNesting ∧
      (∀ limit tooDeep, e.simplifyWith limit = .error tooDeep ↔ checkDepth e = .error tooDeep) ∧
      (∀ precision tooDeep,
        e.value precision = .error (.tooDeep tooDeep) ↔ checkDepth e = .error tooDeep) ∧
      ∀ tooDeep, e.solve.outcome = .error (.tooDeep tooDeep) ↔ e.isEquality = true ∧
        (checkDepth e = .error tooDeep ∨ ∃ s solution, e.simplify = .ok s ∧
          s.tree.isolate.outcome = .ok solution ∧
          checkDepth solution.value = .error tooDeep) := by
  obtain ⟨measured, bound⟩ := depth_of_parse parsed
  refine ⟨fun root => checkDepth_eq_ok_iff.mpr (measured root), fun tooDeep => ?_, bound,
    fun _ _ => simplifyWith_eq_error_iff, fun _ _ => value_tooDeep_iff, fun _ => solve_tooDeep_iff⟩
  rw [checkDepth_eq_error_iff]
  constructor
  · rintro ⟨deep, depth⟩
    refine ⟨?_, deep, depth⟩
    rw [← Bool.not_eq_true]
    exact fun root => Nat.not_lt.mpr (measured root) deep
  · rintro ⟨-, deep, depth⟩
    exact ⟨deep, depth⟩

/-- `2x` is parsed to a tree that is accepted, so that evaluating it never fails for its depth. -/
theorem parse_refused_iff_product : ∃ e : Expr Binary64, parse "2x" = .ok e ∧
    checkDepth e = .ok () ∧ ∀ precision tooDeep, e.value precision ≠ .error (.tooDeep tooDeep) := by
  have product : (parse (ν := Binary64) "2x").toOption.any measured = true := by decide +kernel
  cases parsed : parse (ν := Binary64) "2x" with
  | error fault =>
    rw [parsed] at product
    cases product
  | ok e =>
    rw [parsed] at product
    obtain ⟨accepted, -, -, -, evaluated, -⟩ := parse_refused_iff parsed
    refine ⟨e, rfl, accepted product, fun precision tooDeep refused => ?_⟩
    rw [evaluated, accepted product] at refused
    cases refused

/-- `-1!…!` with 1023 factorials is parsed, but neither evaluated nor simplified. -/
theorem parse_markedSource_refused : ∃ e : Expr Binary64, parse (markedSource 1023) = .ok e ∧
    e.depth = 1025 ∧ checkDepth e = .error ⟨1025⟩ ∧ e.simplify = .error ⟨1025⟩ ∧
    e.value 8 = .error (.tooDeep ⟨1025⟩) := by
  obtain ⟨e, parsed, depth⟩ := parse_markedSource (ν := Binary64) (show 1023 < maxTreeDepth by decide)
  have refused : checkDepth e = .error ⟨1025⟩ :=
    checkDepth_eq_error_iff.mpr ⟨by rw [depth]; decide, by rw [depth]⟩
  exact ⟨e, parsed, depth, refused, simplifyWith_eq_error_iff.mpr refused,
    value_tooDeep_iff.mpr refused⟩

end Expr

end AlgebraEngine
