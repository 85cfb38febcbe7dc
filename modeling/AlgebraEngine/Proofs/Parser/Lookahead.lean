import AlgebraEngine.Proofs.Parser.Soundness

/-! What the parser has not looked at plays no part. As long as reading has not come to the end of
the tokens, it goes on in the same way with further tokens behind them; and an error that is found
in front of a token is found there whatever tokens follow. -/
namespace AlgebraEngine

/-- Whether an error is found in front of a token, so that no further tokens can help against it. An
unclosed bracket can be blamed for a source that has ended, and the limits on nesting and on
variables are none of the grammar. -/
def SyntaxError.isFinal : SyntaxError → Bool
  | unexpectedToken .. => true
  | expectedEnd => true
  | emptyParenthesis => true
  | emptyVector => true
  | unknownFunction _ => true
  | unclosedParenthesis opening => !opening
  | _ => false

namespace Parser

/-- The parser with further tokens behind those that it has. -/
def extend (p : Parser) (more : List Token) : Parser :=
  { p with tokens := p.tokens ++ more.toArray }

variable {p : Parser} {more : List Token}

theorem cursor_lt_of_rest (left : p.rest ≠ []) : p.cursor < p.tokens.size := by
  simpa [rest] using left

theorem rest_extend (left : p.rest ≠ []) : (p.extend more).rest = p.rest ++ more := by
  have inside := Nat.le_of_lt (cursor_lt_of_rest left)
  simp only [rest, extend, Array.toList_append]
  rw [List.drop_append_of_le_length (by simpa using inside)]

theorem head?_extend (left : p.rest ≠ []) : (p.extend more).rest.head? = p.rest.head? := by
  obtain ⟨token, rest, next⟩ := List.exists_cons_of_ne_nil left
  rw [rest_extend left, next, List.cons_append, List.head?_cons, List.head?_cons]

theorem advance_extend (left : p.rest ≠ []) :
    (p.extend more).advance = p.advance.extend more := by
  have inside := cursor_lt_of_rest left
  have inside' : (p.extend more).cursor < (p.extend more).tokens.size := by
    simp only [extend, Array.size_append]
    omega
  rw [advance, advance, if_pos inside, if_pos inside']
  rfl

theorem remaining_le_extend (p : Parser) (more : List Token) :
    p.remaining ≤ (p.extend more).remaining := by
  simp only [remaining, extend, Array.size_append]
  omega

end Parser

namespace Parse

variable {α β : Type} {more : List Token} {p : Parser}

/-! ## Two readers -/

/-- What the first reader ends with in front of some tokens, the second one ends with in front of
more of them, unless the first one has come to the end of its tokens. There it returns, or its error
is not final. -/
def Foretells (more : List Token) (read read' : Parse α) (p : Parser) : Prop :=
  Verdict read p
    (fun value q => q.rest.length ≤ p.rest.length ∧
      (q.rest ≠ [] → read' (p.extend more) = .ok value (q.extend more)))
    (fun fault => fault.error.isFinal = true →
      p.rest ≠ [] ∧ ∃ spans q, read' (p.extend more) = .error ⟨fault.error, spans⟩ q)

private theorem left_of_shorter {ts us : List Token} (shorter : ts.length ≤ us.length)
    (left : ts ≠ []) : us ≠ [] :=
  List.ne_nil_of_length_pos (Nat.lt_of_lt_of_le (List.length_pos_iff.mpr left) shorter)

/-- At the end of the tokens it does not matter what the second reader does. -/
theorem Foretells.of_ended {read read' other : Parse α} (ended : p.rest = [])
    (foretells : Foretells more read read' p) : Foretells more read other p := by
  refine foretells.elim ?_ ?_
  · rintro value q ⟨shorter, -⟩
    exact ⟨shorter, fun left => absurd ended (left_of_shorter shorter left)⟩
  · exact fun fault known final => absurd ended (known final).1

/-- Both readers can be replaced, the second one by one that does the same in front of more
tokens. -/
theorem Foretells.congr {read read' other other' : Parse α} (foretells : Foretells more read read' p)
    (here : other p = read p)
    (there : p.rest ≠ [] → other' (p.extend more) = read' (p.extend more)) :
    Foretells more other other' p := by
  have replaced : Foretells more other read' p := by
    unfold Foretells Verdict at foretells ⊢
    rwa [here]
  by_cases ended : p.rest = []
  · exact replaced.of_ended ended
  · unfold Foretells at replaced ⊢
    rwa [there ended]

theorem foretells_pure (value : α) : Foretells more (pure value) (pure value) p :=
  ⟨Nat.le_refl _, fun _ => rfl⟩

theorem Foretells.bind {read read' : Parse α} {next next' : α → Parse β}
    (here : Foretells more read read' p)
    (there : ∀ value q, read p = .ok value q → q.rest.length ≤ p.rest.length →
      Foretells more (next value) (next' value) q) :
    Foretells more (read >>= next) (read' >>= next') p := by
  simp only [Foretells, verdict_bind]
  refine here.returning.elim ?_ ?_
  · rintro value q ⟨⟨shorter, same⟩, run⟩
    have step (left : q.rest ≠ []) :
        (read' >>= next') (p.extend more) = next' value (q.extend more) := by
      simp only [Bind.bind, EStateM.bind, same left]
    refine (there value q run shorter).elim ?_ ?_
    · rintro value' r ⟨shorter', same'⟩
      refine ⟨Nat.le_trans shorter' shorter, fun left => ?_⟩
      rw [step (left_of_shorter shorter' left), same' left]
    · intro fault known final
      obtain ⟨left, place, r, run⟩ := known final
      exact ⟨left_of_shorter shorter left, place, r, by rw [step left, run]⟩
  · intro fault known final
    obtain ⟨left, place, q, run⟩ := known final
    refine ⟨left, place, q, ?_⟩
    simp only [Bind.bind, EStateM.bind, run]

theorem foretells_ite {c : Prop} [Decidable c] {read read' other other' : Parse α}
    (yes : c → Foretells more read read' p) (no : ¬c → Foretells more other other' p) :
    Foretells more (if c then read else other) (if c then read' else other') p := by
  split
  · exact yes ‹_›
  · exact no ‹_›

theorem foretells_get {next next' : Parser → Parse α}
    (there : Foretells more (next p) (next' (p.extend more)) p) :
    Foretells more (get >>= next) (get >>= next') p := there

/-- A reader looks at the same token, if there is one. -/
theorem foretells_peek? {next next' : Option TokenKind → Parse α}
    (there : Foretells more (next (p.rest.head?.map Token.kind))
      (next' (p.rest.head?.map Token.kind)) p) :
    Foretells more (peek? >>= next) (peek? >>= next') p := by
  have same : p.peek? = p.rest.head?.map Token.kind := p.peek?_eq
  refine there.congr (congrArg (fun kind => next kind p) same) fun left => ?_
  have same' : (p.extend more).peek? = p.rest.head?.map Token.kind := by
    rw [Parser.peek?_eq, Parser.head?_extend left]
  exact congrArg (fun kind => next' kind (p.extend more)) same'

theorem foretells_failAt {span span' : Span} {error : SyntaxError}
    (found : error.isFinal = true → p.rest ≠ []) :
    Foretells more (failAt span error : Parse α) (failAt span' error) p :=
  fun final => ⟨found final, [span'], p.extend more, rfl⟩

theorem foretells_fail {error : SyntaxError} (found : error.isFinal = true → p.rest ≠ []) :
    Foretells more (fail error : Parse α) (fail error) p :=
  foretells_get (foretells_failAt found)

theorem foretells_advance : Foretells more advance advance p := by
  refine ⟨?_, fun left => ?_⟩
  · simp
  · have before : p.rest ≠ [] := left_of_shorter (by simp) left
    exact congrArg (EStateM.Result.ok ()) (Parser.advance_extend before)

/-- A token that is refused is refused whatever stands behind it. -/
theorem foretells_refuse {span span' : Span} {error : SyntaxError} (left : p.rest ≠ []) :
    Foretells more (advance >>= fun _ => (failAt span error : Parse α))
      (advance >>= fun _ => failAt span' error) p :=
  fun _ => ⟨left, [span'], (p.extend more).advance, rfl⟩

theorem next_eq {token : Token} {rest : List Token} (first : p.rest = token :: rest) :
    next p = .ok token p.advance := by
  have verdict : Verdict next p (fun value q => value = token ∧ q = p.advance) fun _ => False := by
    simp [first]
  unfold Verdict at verdict
  split at verdict
  · rename_i run
    obtain ⟨rfl, rfl⟩ := verdict
    exact run
  · exact verdict.elim

/-- Taking a token fails where none is left, but that is not final. -/
theorem foretells_next {following following' : Token → Parse α}
    (there : ∀ token rest, p.rest = token :: rest →
      Foretells more (advance >>= fun _ => following token)
        (advance >>= fun _ => following' token) p) :
    Foretells more (next >>= following) (next >>= following') p := by
  cases first : p.rest with
  | nil =>
    simp only [Foretells, verdict_bind, verdict_next, first, reduceCtorEq, false_imp_iff,
      implies_true, true_and, forall_const]
    intro final
    cases final
  | cons token rest =>
    have run {f : Token → Parse α} {q : Parser} {us : List Token} (first : q.rest = token :: us) :
        (next >>= f) q = (advance >>= fun _ => f token) q := by
      simp only [bind, EStateM.bind, next_eq first]
      rfl
    refine (there token rest first).congr (run first) fun left => ?_
    have first' : (p.extend more).rest = token :: (rest ++ more) := by
      rw [Parser.rest_extend left, first, List.cons_append]
    exact run first'

theorem foretells_checkTreeDepth (depth : Nat) :
    Foretells more (checkTreeDepth depth) (checkTreeDepth depth) p :=
  foretells_ite (fun _ => foretells_fail nofun) fun _ => foretells_pure ()

theorem foretells_useVariable (name : String) (span : Span) :
    Foretells more (useVariable name span) (useVariable name span) p := by
  have same : (p.extend more).used? = p.used? := rfl
  refine foretells_get ?_
  rw [same]
  cases p.used? with
  | none => exact ⟨Nat.le_refl _, fun _ => rfl⟩
  | some first =>
    exact foretells_ite (fun _ => foretells_failAt (by simp [SyntaxError.isFinal])) fun _ =>
      foretells_pure ()

theorem Foretells.attempt {read read' : Parse α} (foretells : Foretells more read read' p) :
    Foretells more (attempt read) (attempt read') p := by
  simp only [Foretells, verdict_attempt]
  refine foretells.elim ?_ ?_
  · rintro value q ⟨shorter, same⟩
    exact ⟨shorter, fun left => by simp only [Parse.attempt, same left]⟩
  · intro fault known final
    obtain ⟨left, place, q, run⟩ := known final
    exact ⟨left, place, { q with cursor := p.cursor }, by simp only [Parse.attempt, run]; rfl⟩

theorem foretells_close {kind : TokenKind} {opening : Span} {error : SyntaxError}
    (unclosed : error.isFinal = false) :
    Foretells more (close kind opening error) (close kind opening error) p := by
  refine foretells_peek? (foretells_ite (fun _ => foretells_advance) fun _ => ?_)
  exact foretells_failAt (by simp [unclosed])

theorem foretells_expect (kind : TokenKind) :
    Foretells more (expect kind) (expect kind) p := by
  refine foretells_next fun token rest first => ?_
  have left : p.rest ≠ [] := by simp [first]
  by_cases same : token.kind = kind
  · simp only [same, if_true]
    exact foretells_advance.bind fun _ _ _ _ => foretells_pure token
  · simp only [same, if_false]
    exact foretells_refuse left

/-- A loop that takes a token in every round makes no more rounds than there are tokens, so more
rounds do not change what it does. -/
theorem foretells_loop {σ : Type} (loop : Nat → σ → Parse α) (s : σ) (p : Parser)
    (stops : ∀ s, ∃ value, loop 0 s = pure value)
    (round : ∀ count count' s q, q.rest.length ≤ count + 1 →
      (∀ s r, r.rest.length ≤ count → Foretells more (loop count s) (loop count' s) r) →
      Foretells more (loop (count + 1) s) (loop (count' + 1) s) q) :
    Foretells more (get >>= fun q => loop q.remaining s) (get >>= fun q => loop q.remaining s)
      p := by
  have rounds (count count' : Nat) (s : σ) (q : Parser) (enough : q.rest.length ≤ count)
      (further : count ≤ count') : Foretells more (loop count s) (loop count' s) q := by
    induction count generalizing count' s q with
    | zero =>
      have ended := List.length_eq_zero_iff.mp (Nat.le_zero.mp enough)
      obtain ⟨value, stopped⟩ := stops s
      rw [stopped]
      exact (foretells_pure value).of_ended ended
    | succ count ih =>
      obtain ⟨count', rfl⟩ := Nat.exists_eq_add_one.mpr (Nat.zero_lt_of_lt further)
      refine round count count' s q enough fun s r enough => ?_
      exact ih count' s r enough (Nat.le_of_succ_le_succ further)
  refine foretells_get (rounds _ _ s p ?_ (p.remaining_le_extend more))
  exact Nat.le_of_eq p.remaining_eq.symm

section Loops

variable {ν : Type}

theorem factorials_foretells (e : Expr ν) (p : Parser) :
    Foretells more (factorials e) (factorials e) p := by
  refine foretells_loop (fun marks (s : Expr ν × Nat) => factorialsFrom marks s.1 s.2)
    (e, e.depth) p (fun s => ⟨s.1, rfl⟩) ?_
  rintro marks marks' ⟨e, depth⟩ q enough again
  refine foretells_peek? (foretells_ite (fun _ => ?_) fun _ => foretells_pure e)
  refine (foretells_checkTreeDepth _).bind fun _ r _ same => ?_
  refine foretells_advance.bind fun _ _ moved _ => ?_
  cases moved
  refine again (.apply .factorial [e], depth + 1) r.advance ?_
  rw [Parser.rest_advance, List.length_tail]
  omega

variable [Numeral ν]

theorem chain_foretells (tier : Tier) {operand : Parse (Expr ν)}
    (sound : Sound tier.operand operand) (foretells : ∀ p, Foretells more operand operand p)
    (p : Parser) :
    Foretells more (chain tier.operators operand) (chain tier.operators operand) p := by
  refine (foretells p).bind fun lhs q _ _ => ?_
  refine foretells_loop
    (fun links (s : Expr ν × Nat) => chainFrom tier.operators operand links s.1 s.2)
    (lhs, lhs.depth) q (fun s => ⟨s.1, rfl⟩) ?_
  rintro links links' ⟨lhs, depth⟩ q enough again
  simp only [chainFrom, operator?, bind_assoc, pure_bind]
  refine foretells_peek? ?_
  split
  · exact foretells_pure lhs
  · rename_i o _
    refine foretells_next fun _ _ _ => foretells_advance.bind fun _ r _ _ => ?_
    refine (foretells r).bind fun rhs s run _ => ?_
    have taken := sound.length_lt run
    refine (foretells_checkTreeDepth _).bind fun _ t _ _ => ?_
    exact again (.op o lhs rhs, max depth rhs.depth + 1) t (by omega)

theorem juxtaposed_foretells {factor : Parse (Expr ν)} (sound : Sound .power factor)
    (foretells : ∀ p, Foretells more factor factor p) (p : Parser) :
    Foretells more (juxtaposed factor) (juxtaposed factor) p := by
  refine (foretells p).bind fun first q _ _ => ?_
  refine foretells_loop (fun links (s : Expr ν × Nat) => juxtaposedFrom factor links s.1 s.2)
    (withCoefficient first, (withCoefficient first).depth) q (fun s => ⟨s.1, rfl⟩) ?_
  rintro links links' ⟨lhs, depth⟩ q enough again
  refine foretells_peek? (foretells_ite (fun _ => ?_) fun _ => foretells_pure lhs)
  refine (foretells q).bind fun rhs r run _ => ?_
  have taken := sound.length_lt run
  refine (foretells_checkTreeDepth _).bind fun _ s _ _ => ?_
  exact again (.op .mul lhs rhs, max depth rhs.depth + 1) s (by omega)

end Loops

/-- A token that starts no operand is refused where it stands. -/
theorem literal_foretells {ν : Type} [Numeral ν] :
    Foretells more (literal (ν := ν)) literal p := by
  refine foretells_next fun token rest first => ?_
  have left : p.rest ≠ [] := by simp [first]
  cases token.kind with
  | number | euler | pi => exact foretells_advance.bind fun _ _ _ _ => foretells_pure _
  | letter =>
    exact foretells_advance.bind fun _ _ _ _ => (foretells_useVariable _ _).bind fun _ _ _ _ =>
      foretells_pure _
  | _ => exact foretells_refuse left

end Parse

/-! ## Levels -/

namespace Grammar

open Parse

variable {ν : Type} {inner : Grammar ν} {p : Parser} {more : List Token}

/-- Every part of a grammar reads on in the same way. -/
structure Foretells (more : List Token) (grammar : Grammar ν) : Prop where
  sum (p : Parser) : Parse.Foretells more grammar.sum grammar.sum p
  juxtaposition (p : Parser) : Parse.Foretells more grammar.juxtaposition grammar.juxtaposition p
  power (p : Parser) : Parse.Foretells more grammar.power grammar.power p
  signed (p : Parser) : Parse.Foretells more grammar.signed grammar.signed p

theorem parenthesized_foretells (foretells : Foretells more inner) :
    Parse.Foretells more (parenthesized inner) (parenthesized inner) p := by
  refine foretells_next fun opening _ _ => foretells_advance.bind fun _ q _ _ => ?_
  refine foretells_peek? (foretells_ite (fun empty => ?_) fun _ => ?_)
  · obtain ⟨closing, more, next, -⟩ := Token.cons_of_head? empty
    refine foretells_get ((foretells_failAt fun _ => ?_).bind nofun)
    simp [next]
  · exact (foretells.sum q).bind fun e _ _ _ => (foretells_close rfl).bind fun _ _ _ _ =>
      foretells_pure e

theorem application_foretells (foretells : Foretells more inner) (f : Func) :
    Parse.Foretells more (application inner f) (application inner f) p := by
  refine foretells_next fun _ _ _ => foretells_advance.bind fun _ _ _ _ => ?_
  refine (foretells_expect .openParen).attempt.bind fun _ q _ _ => ?_
  exact (foretells.sum q).bind fun e _ _ _ => (foretells_close rfl).bind fun _ _ _ _ =>
    foretells_pure (Expr.apply f [e])

variable [Numeral ν]

theorem components_foretell (sound : Sound inner) (foretells : Foretells more inner)
    (p : Parser) :
    Parse.Foretells more (get >>= fun q => components inner q.remaining)
      (get >>= fun q => components inner q.remaining) p := by
  refine foretells_loop (fun count (_ : Unit) => components inner count) () p
    (fun _ => ⟨[], rfl⟩) ?_
  intro count count' _ q enough again
  refine foretells_peek? (foretells_ite (fun _ => ?_) fun _ => foretells_pure [])
  refine foretells_advance.bind fun _ r _ _ => (foretells.sum r).bind fun e s run _ => ?_
  have taken := sound.sum.length_lt run
  exact (again () s (by omega)).bind fun es _ _ _ => foretells_pure (e :: es)

theorem vector_foretells (sound : Sound inner) (foretells : Foretells more inner) :
    Parse.Foretells more (vector inner) (vector inner) p := by
  refine foretells_next fun opening _ _ => foretells_advance.bind fun _ q _ _ => ?_
  refine foretells_peek? (foretells_ite (fun empty => ?_) fun _ => ?_)
  · obtain ⟨closing, more, next, -⟩ := Token.cons_of_head? empty
    refine foretells_get ((foretells_failAt fun _ => ?_).bind nofun)
    simp [next]
  · refine (foretells.sum q).bind fun e r _ _ => ?_
    rw [← bind_assoc]
    refine (components_foretell sound foretells r).bind fun es _ _ _ => ?_
    exact (foretells_close rfl).bind fun _ _ _ _ => foretells_pure _

/-- A primary that cannot start with the next token is refused there. -/
theorem primary_foretells (sound : Sound inner) (foretells : Foretells more inner)
    {kind : TokenKind} (first : p.rest.head?.map Token.kind = some kind) :
    Parse.Foretells more (primary inner kind) (primary inner kind) p := by
  obtain ⟨token, rest, next, -⟩ := Token.cons_of_head? first
  have left : p.rest ≠ [] := by simp [next]
  unfold primary
  split
  · exact parenthesized_foretells foretells
  · exact vector_foretells sound foretells
  · exact foretells_fail fun _ => left
  · exact foretells_next fun _ _ _ => foretells_refuse left
  · split
    · exact application_foretells foretells _
    · exact literal_foretells

theorem operand_foretells (sound : Sound inner) (foretells : Foretells more inner) (p : Parser) :
    Parse.Foretells more (operand inner) (operand inner) p := by
  refine foretells_peek? ?_
  split
  · exact foretells_fail nofun
  · rename_i kind first
    split
    · rename_i o sign
      refine foretells_advance.bind fun _ q _ _ => (foretells.signed q).bind fun e _ _ _ => ?_
      exact foretells_pure (Expr.sign o e)
    · exact (primary_foretells sound foretells first).bind fun e q _ _ => factorials_foretells e q

theorem raised_foretells (sound : Sound inner) (foretells : Foretells more inner) (p : Parser) :
    Parse.Foretells more (raised inner) (raised inner) p := by
  refine (operand_foretells sound foretells p).bind fun base q _ _ => foretells_peek? ?_
  refine foretells_ite (fun _ => ?_) fun _ => foretells_pure base
  refine foretells_advance.bind fun _ r _ _ => (foretells.power r).bind fun exponent _ _ _ => ?_
  exact foretells_pure (Expr.op .pow base exponent)

theorem enclosing_foretells (sound : Sound inner) (foretells : Foretells more inner) :
    Foretells more (enclosing inner) := by
  have power := raised_foretells sound foretells
  have factor := raised_sound sound
  have juxtaposition := juxtaposed_foretells factor power
  have quotient := chain_foretells .quotient (juxtaposed_sound factor) juxtaposition
  have product := chain_foretells .product
    (chain_sound .quotient (juxtaposed_sound factor)) quotient
  exact {
    sum := chain_foretells .sum
      (chain_sound .product (chain_sound .quotient (juxtaposed_sound factor))) product
    juxtaposition := juxtaposition
    power := power
    signed := foretells.juxtaposition }

theorem within_foretells (more : List Token) (room : Nat) :
    Foretells more (within (ν := ν) room) := by
  induction room with
  | zero =>
    have refused (p : Parser) : Parse.Foretells more (fail .tooNested : Parse (Expr ν))
        (fail .tooNested) p := foretells_fail nofun
    exact ⟨refused, refused, refused, refused⟩
  | succ room ih => exact enclosing_foretells (within_sound room) ih

end Grammar

namespace Parse

variable {ν : Type} {more : List Token}

theorem equation_foretells {grammar : Grammar ν} (foretells : grammar.Foretells more)
    (p : Parser) : Foretells more (equation grammar) (equation grammar) p := by
  refine (foretells.sum p).bind fun lhs q _ _ => foretells_peek? ?_
  refine foretells_ite (fun _ => ?_) fun _ => foretells_pure lhs
  refine foretells_advance.bind fun _ r _ _ => (foretells.sum r).bind fun rhs _ _ _ => ?_
  exact foretells_pure (Expr.equal lhs rhs)

/-- A token that is left over behind an expression stays left over. -/
theorem complete_foretells [Numeral ν] (more : List Token) (p : Parser) :
    Foretells more (complete (expression (ν := ν))) (complete expression) p := by
  have foretells := equation_foretells (Grammar.within_foretells (ν := ν) more p.room) p
  refine Foretells.bind (foretells_get foretells) fun e q _ _ => foretells_peek? ?_
  cases next : q.rest with
  | nil => exact foretells_pure e
  | cons token rest =>
    have left : q.rest ≠ [] := by simp [next]
    rw [List.head?_cons, Option.map_some]
    split
    · rename_i none
      cases none
    · exact foretells_fail fun _ => left
    · exact foretells_fail fun _ => left

end Parse

end AlgebraEngine
