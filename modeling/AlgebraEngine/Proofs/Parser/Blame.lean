import AlgebraEngine.Proofs.Parser.Soundness

/-! Where the parser gives up. Until then it has taken the tokens of the source one after the other
and has noted the first variable among them; the error fits the token that it points at; and where
the source has ended too early, something could stand behind it that completes the phrase. -/
namespace AlgebraEngine

/-- The kinds of a row of tokens are the beginning of a phrase, and something is missing behind
them. -/
def Phrase.Open (phrase : Phrase) (u : List TokenKind) : Prop :=
  ∃ v, v ≠ [] ∧ Derives phrase (u ++ v)

/-- A number is a phrase of every kind. -/
theorem derives_number (phrase : Phrase) : Derives phrase [.number] := by
  have primary : Derives .primary [.number] := .leaf (by decide)
  have juxtaposition : Derives .juxtaposition [.number] := .factor (.base (.marked (.primary primary)))
  have quotient : Derives (.chain .quotient) [.number] := .first juxtaposition
  have product : Derives (.chain .product) [.number] := .first quotient
  cases phrase with
  | equation => exact .sum (.first product)
  | chain tier =>
    cases tier with
    | sum => exact .first product
    | product => exact product
    | quotient => exact quotient
  | juxtaposition => exact juxtaposition
  | power => exact .base (.marked (.primary primary))
  | operand => exact .marked (.primary primary)
  | marked => exact .primary primary
  | primary => exact primary
  | components => exact .last (.first product)

/-- The name of the first variable among tokens. -/
def Token.firstName? (ts : List Token) : Option String :=
  (ts.find? fun token => token.kind = .letter).map Token.lexeme

namespace Parser

/-- Reading has taken these tokens. The variable of a parser is the first one it has taken, and all
variables among the tokens have this name. -/
structure Takes (p : Parser) (ts : List Token) (q : Parser) : Prop where
  tokens : q.tokens = p.tokens
  rest : p.rest = ts ++ q.rest
  used? : q.used? = p.used?.or (Token.firstName? ts)
  letters : ∀ token ∈ ts, token.kind = .letter → q.used? = some token.lexeme

variable {p q r : Parser} {ts us : List Token} {token : Token} {more : List Token}

theorem Takes.refl (p : Parser) : p.Takes [] p :=
  ⟨rfl, rfl, by simp [Token.firstName?], nofun⟩

theorem Takes.trans (first : p.Takes ts q) (second : q.Takes us r) : p.Takes (ts ++ us) r where
  tokens := second.tokens.trans first.tokens
  rest := by rw [first.rest, second.rest, List.append_assoc]
  used? := by
    rw [second.used?, first.used?, Option.or_assoc]
    simp [Token.firstName?, List.find?_append, Option.map_or]
  letters token member letter := by
    rcases List.mem_append.mp member with before | behind
    · rw [second.used?, first.letters token before letter, Option.some_or]
    · exact second.letters token behind letter

@[simp] theorem tokens_advance (p : Parser) : p.advance.tokens = p.tokens := by
  unfold advance
  split <;> rfl

theorem span_of_next (next : p.rest = token :: more) : p.span = token.span := by
  simp [span, current?_eq, next]

/-- Moving past a token that is not a variable takes it. -/
theorem takes_advance (next : p.rest = token :: more) (other : token.kind ≠ .letter) :
    p.Takes [token] p.advance where
  tokens := p.tokens_advance
  rest := by simp [next]
  used? := by simp [Token.firstName?, other]
  letters := by simp [other]

/-- A variable is taken where it is the first one. -/
theorem takes_first (next : p.rest = token :: more) (letter : token.kind = .letter)
    (unused : p.used? = none) : p.Takes [token] { p.advance with used? := some token.lexeme } where
  tokens := p.tokens_advance
  rest := by
    change p.rest = [token] ++ p.advance.rest
    simp [next]
  used? := by simp [Token.firstName?, letter, unused]
  letters := by simp

/-- A variable is taken where it is the one that has been used. -/
theorem takes_again (next : p.rest = token :: more) (used : p.used? = some token.lexeme) :
    p.Takes [token] p.advance where
  tokens := p.tokens_advance
  rest := by simp [next]
  used? := by simp [used]
  letters := by simp [used]

/-- The tokens that a reading takes are a phrase of its kind. -/
theorem Takes.derives {ν : Type} [Numeral ν] {phrase : Phrase} {e : Expr ν} (taken : p.Takes ts q)
    (reads : Reads phrase p.rest e q.rest) : Derives phrase (ts.map Token.kind) := by
  obtain ⟨used, same, derives⟩ := reads.derives
  rw [taken.rest] at same
  rwa [List.append_cancel_right same]

/-! ## Giving up -/

/-- The faults that can be found in front of the tokens that are left. -/
inductive Blames (q : Parser) : SyntaxFault → Prop where
  | unexpectedEnd (ended : q.rest = []) : Blames q ⟨.unexpectedEnd, [q.span]⟩
  | expectedEnd {token : Token} {more : List Token} (next : q.rest = token :: more) :
      Blames q ⟨.expectedEnd, [q.span]⟩
  | unexpectedToken {token : Token} {more : List Token} (next : q.rest = token :: more)
      (expected : List TokenKind) : Blames q ⟨.unexpectedToken expected token.kind, [q.span]⟩
  | unclosedParenthesis {token : Token} {more : List Token} (next : q.rest = token :: more)
      (opens : token.kind = .openParen) : Blames q ⟨.unclosedParenthesis true, [q.span]⟩
  | unopenedParenthesis {token : Token} {more : List Token} (next : q.rest = token :: more)
      (closes : token.kind = .closeParen) : Blames q ⟨.unclosedParenthesis false, [q.span]⟩
  | emptyParenthesis {opening closing : Token} {more : List Token}
      (next : q.rest = opening :: closing :: more) (opens : opening.kind = .openParen)
      (closes : closing.kind = .closeParen) :
      Blames q ⟨.emptyParenthesis, [⟨opening.span.start, closing.span.stop⟩]⟩
  | unclosedBracket {token : Token} {more : List Token} (next : q.rest = token :: more)
      (opens : token.kind = .openSquare) : Blames q ⟨.unclosedBracket, [q.span]⟩
  | emptyVector {opening closing : Token} {more : List Token}
      (next : q.rest = opening :: closing :: more) (opens : opening.kind = .openSquare)
      (closes : closing.kind = .closeSquare) :
      Blames q ⟨.emptyVector, [⟨opening.span.start, closing.span.stop⟩]⟩
  | unknownFunction {token : Token} {more : List Token} (next : q.rest = token :: more)
      (command : token.kind = .command) :
      Blames q
        ⟨.unknownFunction (String.ofList (token.lexeme.toList.dropWhile (· == '\\'))), [q.span]⟩
  | multipleVariables {token : Token} {more : List Token} {first : String}
      (next : q.rest = token :: more) (letter : token.kind = .letter)
      (used : q.used? = some first) (differs : first ≠ token.lexeme) :
      Blames q ⟨.multipleVariables first token.lexeme, [q.span]⟩
  | tooNested : Blames q ⟨.tooNested, [q.span]⟩

/-- Reading has taken a phrase. -/
def Completes (p : Parser) (phrase : Phrase) (q : Parser) : Prop :=
  ∃ ts, p.Takes ts q ∧ Derives phrase (ts.map Token.kind)

/-- Reading a phrase stops with a fault, in front of a token further on or of one that it has taken.
If the tokens have run out, they can be continued to a phrase. -/
structure Stops (p : Parser) (phrase : Phrase) (fault : SyntaxFault) : Prop where
  blames : ∃ ts q, p.Takes ts q ∧ q.Blames fault
  complete : fault.error = .unexpectedEnd → phrase.Open (p.rest.map Token.kind)

variable {phrase inner : Phrase} {fault : SyntaxFault}

theorem Takes.stops (taken : p.Takes ts q) (blames : q.Blames fault)
    (other : fault.error ≠ .unexpectedEnd) : p.Stops phrase fault :=
  ⟨⟨ts, q, taken, blames⟩, fun ended => absurd ended other⟩

/-- A fault within a phrase is one of the phrase around it, which ends with some further tokens. -/
theorem Stops.within (taken : p.Takes us q) (closing : List TokenKind)
    (forms : ∀ v, Derives inner (q.rest.map Token.kind ++ v) →
      Derives phrase (us.map Token.kind ++ (q.rest.map Token.kind ++ v) ++ closing))
    (stops : q.Stops inner fault) : p.Stops phrase fault where
  blames := by
    obtain ⟨ts, r, further, blames⟩ := stops.blames
    exact ⟨us ++ ts, r, taken.trans further, blames⟩
  complete ended := by
    obtain ⟨v, missing, derives⟩ := stops.complete ended
    refine ⟨v ++ closing, by simp [missing], ?_⟩
    simpa [taken.rest] using forms v derives

end Parser

namespace Parse

variable {ν : Type} {p q : Parser} {us : List Token}

/-- A reader takes a phrase, or it stops. -/
def Follows (phrase : Phrase) (read : Parse (Expr ν)) : Prop :=
  ∀ p, Verdict read p (fun _ q => p.Completes phrase q) (p.Stops phrase)

theorem chainFrom_follows {tier : Tier} {operand : Parse (Expr ν)}
    (follows : Follows tier.operand operand) (links : Nat) (lhs : Expr ν) (depth : Nat)
    (taken : p.Takes us q) (before : Derives (.chain tier) (us.map Token.kind)) :
    Verdict (chainFrom tier.operators operand links lhs depth) q
      (fun _ r => p.Completes (.chain tier) r) (p.Stops (.chain tier)) := by
  induction links generalizing q us lhs depth with
  | zero => exact ⟨us, taken, before⟩
  | succ links ih =>
    simp only [chainFrom, verdict_bind, verdict_operator?]
    split
    · exact ⟨us, taken, before⟩
    · rename_i o some
      obtain ⟨sign, mid, next, operator, member⟩ := operator?_eq_some some
      have chained : sign.kind ∈ tier.signs := Tier.mem_signs_iff.mpr ⟨o, member, operator⟩
      have other : sign.kind ≠ .letter := by
        intro letter
        simp [letter, BinaryOp.ofToken?] at operator
      have past := taken.trans (Parser.takes_advance next other)
      simp only [verdict_bind, verdict_next, next, reduceCtorEq, false_imp_iff, and_true]
      intro _ _ _
      refine (follows q.advance).elim ?_ ?_
      · rintro rhs r ⟨vs, further, derives⟩
        have behind := past.trans further
        simp only [verdict_checkTreeDepth]
        refine ⟨fun _ => ih _ _ behind ?_, fun _ => behind.stops .tooNested (by simp)⟩
        simpa using before.link chained derives
      · intro fault stops
        exact stops.within past [] fun v derives => by simpa using before.link chained derives

theorem chain_follows {tier : Tier} {operand : Parse (Expr ν)}
    (follows : Follows tier.operand operand) :
    Follows (.chain tier) (chain tier.operators operand) := by
  intro p
  simp only [chain, verdict_bind, verdict_get]
  refine (follows p).elim ?_ ?_
  · rintro lhs q ⟨us, taken, derives⟩
    exact chainFrom_follows follows _ _ _ taken (.first derives)
  · intro fault stops
    exact stops.within (.refl p) [] fun v derives => by simpa using .first derives

/-- An implicit product goes on from the factors that have been read. Whatever the next power is, it
starts with the token that has been looked at. -/
theorem juxtaposedFrom_follows {factor : Parse (Expr ν)} (follows : Follows .power factor)
    (links : Nat) (lhs : Expr ν) (depth : Nat) (taken : p.Takes us q)
    (before : Derives .juxtaposition (us.map Token.kind)) :
    Verdict (juxtaposedFrom factor links lhs depth) q
      (fun _ r => p.Completes .juxtaposition r) (p.Stops .juxtaposition) := by
  induction links generalizing q us lhs depth with
  | zero => exact ⟨us, taken, before⟩
  | succ links ih =>
    simp only [juxtaposedFrom, verdict_bind, verdict_peek?, verdict_ite, verdict_pure]
    refine ⟨fun factors => ?_, fun _ => ⟨us, taken, before⟩⟩
    obtain ⟨token, mid, next⟩ : ∃ token mid, q.rest = token :: mid := by
      cases rest : q.rest with
      | nil => simp [rest] at factors
      | cons token mid => exact ⟨token, mid, rfl⟩
    have starts : token.kind.startsFactor = true := by simpa [next] using factors
    have joined {v : List TokenKind} (power : Derives .power (q.rest.map Token.kind ++ v)) :
        Derives .juxtaposition (us.map Token.kind ++ (q.rest.map Token.kind ++ v)) := by
      rw [next] at power ⊢
      exact before.join starts power
    refine (follows q).elim ?_ ?_
    · rintro rhs r ⟨vs, further, derives⟩
      have behind := taken.trans further
      simp only [verdict_checkTreeDepth]
      refine ⟨fun _ => ih _ _ behind ?_, fun _ => behind.stops .tooNested (by simp)⟩
      cases vs with
      | nil => exact absurd rfl derives.ne_nil
      | cons first vs =>
        obtain ⟨rfl, -⟩ := List.cons.inj (next.symm.trans further.rest)
        simpa using before.join starts derives
    · intro fault stops
      exact stops.within taken [] fun v derives => by simpa using joined derives

theorem juxtaposed_follows [Arithmetic ν] {factor : Parse (Expr ν)}
    (follows : Follows .power factor) : Follows .juxtaposition (juxtaposed factor) := by
  intro p
  simp only [juxtaposed, verdict_bind, verdict_get]
  refine (follows p).elim ?_ ?_
  · rintro lhs q ⟨us, taken, derives⟩
    exact juxtaposedFrom_follows follows _ _ _ taken (.factor derives)
  · intro fault stops
    exact stops.within (.refl p) [] fun v derives => by simpa using .factor derives

theorem factorialsFrom_follows (marks : Nat) (e : Expr ν) (depth : Nat) (taken : p.Takes us q)
    (before : Derives .marked (us.map Token.kind)) :
    Verdict (factorialsFrom marks e depth) q (fun _ r => p.Completes .marked r)
      (p.Stops .operand) := by
  induction marks generalizing q us e depth with
  | zero => exact ⟨us, taken, before⟩
  | succ marks ih =>
    simp only [factorialsFrom, verdict_bind, verdict_peek?, verdict_ite, verdict_pure,
      verdict_checkTreeDepth, verdict_advance]
    refine ⟨fun bang => ⟨fun _ => ?_, fun _ => taken.stops .tooNested (by simp)⟩,
      fun _ => ⟨us, taken, before⟩⟩
    obtain ⟨token, mid, next, bang⟩ := Token.cons_of_head? bang
    refine ih _ _ (taken.trans (Parser.takes_advance next (by simp [bang]))) ?_
    simpa [bang] using before.mark

variable [Numeral ν]

theorem literal_follows {token : Token} {more : List Token} (next : p.rest = token :: more) :
    Verdict (literal (ν := ν)) p (fun _ q => ∃ ts, p.Takes ts q) (p.Stops .primary) := by
  have here := Parser.span_of_next next
  simp only [literal, verdict_bind, verdict_next, next, reduceCtorEq, false_imp_iff, and_true]
  rintro _ _ ⟨⟩
  split
  · rename_i number
    exact ⟨_, Parser.takes_advance next (by simp [number])⟩
  · rename_i euler
    exact ⟨_, Parser.takes_advance next (by simp [euler])⟩
  · rename_i pi
    exact ⟨_, Parser.takes_advance next (by simp [pi])⟩
  · rename_i letter
    simp only [verdict_bind, verdict_useVariable, verdict_pure, Parser.used?_advance]
    refine ⟨fun unused => ⟨_, Parser.takes_first next letter unused⟩, fun first used => ⟨?_, ?_⟩⟩
    · rintro rfl
      exact ⟨_, Parser.takes_again next used⟩
    · intro differs
      rw [← here]
      exact (Parser.Takes.refl p).stops (.multipleVariables next letter used differs) (by simp)
  · simp only [verdict_failAt]
    rw [← here]
    exact (Parser.Takes.refl p).stops (.unexpectedToken next _) (by simp)

theorem close_follows {phrase : Phrase} {kind : TokenKind} {opening : Span} {error : SyntaxError}
    (reached : ∃ ts, p.Takes ts q) (other : kind ≠ .letter)
    (stops : p.Stops phrase ⟨error, [opening]⟩) :
    Verdict (close kind opening error) q (fun _ r => ∃ ts, p.Takes ts r) (p.Stops phrase) := by
  obtain ⟨ts, taken⟩ := reached
  simp only [verdict_close]
  refine ⟨fun closes => ?_, fun _ => stops⟩
  obtain ⟨token, more, next, rfl⟩ := Token.cons_of_head? closes
  exact ⟨_, taken.trans (Parser.takes_advance next other)⟩

end Parse

/-! ## Levels -/

namespace Grammar

open Parse

variable {ν : Type} {inner : Grammar ν} {p q : Parser}

/-- Every part of a grammar takes a phrase of its kind, or it stops. -/
structure Follows (grammar : Grammar ν) : Prop where
  sum : Parse.Follows (.chain .sum) grammar.sum
  juxtaposition : Parse.Follows .juxtaposition grammar.juxtaposition
  power : Parse.Follows .power grammar.power
  signed : Parse.Follows .juxtaposition grammar.signed

theorem parenthesized_follows (follows : Follows inner) {opening : Token} {more : List Token}
    (next : p.rest = opening :: more) (opens : opening.kind = .openParen) :
    Verdict (parenthesized inner) p (fun _ q => ∃ ts, p.Takes ts q) (p.Stops .primary) := by
  have past := Parser.takes_advance next (by simp [opens])
  have here := Parser.span_of_next next
  simp only [parenthesized, verdict_bind, verdict_next, next, reduceCtorEq, false_imp_iff,
    and_true]
  rintro _ _ ⟨⟩
  simp only [verdict_bind, verdict_peek?, verdict_ite, verdict_get, verdict_failAt, verdict_pure]
  refine ⟨fun empty => ?_, fun _ => (follows.sum p.advance).elim ?_ ?_⟩
  · obtain ⟨closing, behind, next', closes⟩ := Token.cons_of_head? empty
    rw [Parser.span_of_next next']
    rw [Parser.rest_advance, next, List.tail_cons] at next'
    exact (Parser.Takes.refl p).stops (.emptyParenthesis (next' ▸ next) opens closes) (by simp)
  · rintro e q ⟨ts, taken, -⟩
    rw [← here]
    exact close_follows ⟨_, past.trans taken⟩ (by simp)
      ((Parser.Takes.refl p).stops (.unclosedParenthesis next opens) (by simp))
  · intro fault stops
    exact stops.within past [.closeParen] fun v sum => by simpa [opens] using sum.parentheses

/-- An application is read, or can be completed from where reading gave up. If the source ends behind
the name, the whole argument is missing with its parentheses. -/
theorem application_follows (follows : Follows inner) {name : Token} {more : List Token} {f : Func}
    (next : p.rest = name :: more) (function : Func.ofToken? name.kind = some f) :
    Verdict (application inner f) p (fun _ q => ∃ ts, p.Takes ts q) (p.Stops .primary) := by
  have named := Func.isFunction_of_ofToken? function
  have past : p.Takes [name] p.advance := by
    refine Parser.takes_advance next ?_
    intro letter
    simp [letter, TokenKind.isFunction] at named
  simp only [application, verdict_bind, verdict_next, next, reduceCtorEq, false_imp_iff, and_true,
    verdict_attempt, verdict_expect, verdict_pure]
  rintro _ _ ⟨⟩
  refine ⟨fun opening behind next' => ⟨fun opens => ?_, fun _ => ?_⟩, fun ended => ?_⟩
  · have entered := past.trans (Parser.takes_advance next' (by simp [opens]))
    refine (follows.sum p.advance.advance).elim ?_ ?_
    · rintro e q ⟨ts, taken, -⟩
      rw [← Parser.span_of_next next']
      exact close_follows ⟨_, entered.trans taken⟩ (by simp)
        (past.stops (.unclosedParenthesis next' opens) (by simp))
    · intro fault stops
      exact stops.within entered [.closeParen] fun v sum => by
        simpa [opens] using Derives.application named sum
  · rw [← Parser.span_of_next next']
    exact past.stops (.unexpectedToken next' _) (by simp)
  · refine ⟨⟨_, _, past, .unexpectedEnd ended⟩, fun _ => ?_⟩
    refine ⟨[.openParen, .number, .closeParen], by simp, ?_⟩
    rw [past.rest, ended]
    exact .application named (derives_number _)

theorem components_follow (follows : Follows inner) (count : Nat) {us : List Token}
    (taken : p.Takes us q)
    (forms : ∀ w, Derives .components w →
      Derives .primary (us.map Token.kind ++ .comma :: w ++ [.closeSquare])) :
    Verdict (components inner count) q (fun _ r => ∃ ts, p.Takes ts r) (p.Stops .primary) := by
  induction count generalizing q us with
  | zero => exact ⟨us, taken⟩
  | succ count ih =>
    simp only [components, verdict_bind, verdict_peek?, verdict_ite, verdict_advance, verdict_pure]
    refine ⟨fun comma => ?_, fun _ => ⟨us, taken⟩⟩
    obtain ⟨token, mid, next, comma⟩ := Token.cons_of_head? comma
    have past := taken.trans (Parser.takes_advance next (by simp [comma]))
    refine (follows.sum q.advance).elim ?_ ?_
    · rintro e r ⟨vs, further, sum⟩
      refine ih (past.trans further) fun w components => ?_
      simpa [comma] using forms _ (sum.component components)
    · intro fault stops
      exact stops.within past [.closeSquare] fun v sum => by
        simpa [comma] using forms _ (.last sum)

theorem vector_follows (follows : Follows inner) {opening : Token} {more : List Token}
    (next : p.rest = opening :: more) (opens : opening.kind = .openSquare) :
    Verdict (vector inner) p (fun _ q => ∃ ts, p.Takes ts q) (p.Stops .primary) := by
  have past := Parser.takes_advance next (by simp [opens])
  have here := Parser.span_of_next next
  simp only [vector, verdict_bind, verdict_next, next, reduceCtorEq, false_imp_iff, and_true]
  rintro _ _ ⟨⟩
  simp only [verdict_bind, verdict_peek?, verdict_ite, verdict_get, verdict_failAt, verdict_pure]
  refine ⟨fun empty => ?_, fun _ => (follows.sum p.advance).elim ?_ ?_⟩
  · obtain ⟨closing, behind, next', closes⟩ := Token.cons_of_head? empty
    rw [Parser.span_of_next next']
    rw [Parser.rest_advance, next, List.tail_cons] at next'
    exact (Parser.Takes.refl p).stops (.emptyVector (next' ▸ next) opens closes) (by simp)
  · rintro e q ⟨ts, taken, sum⟩
    refine (components_follow follows _ (past.trans taken) fun w components => ?_).elim ?_ ?_
    · simpa [opens] using (sum.component components).vector
    · intro es r reached
      rw [← here]
      exact close_follows reached (by simp)
        ((Parser.Takes.refl p).stops (.unclosedBracket next opens) (by simp))
    · exact fun _ => id
  · intro fault stops
    exact stops.within past [.closeSquare] fun v sum => by
      simpa [opens] using Derives.vector (.last sum)

variable [Numeral ν]

/-- A primary is followed up to its last token, and what it has taken then is one. -/
theorem primary_follows (sound : Sound inner) (follows : Follows inner) {kind : TokenKind}
    (first : p.rest.head?.map Token.kind = some kind) :
    Verdict (primary inner kind) p (fun _ q => p.Completes .primary q) (p.Stops .primary) := by
  have reached : Verdict (primary inner kind) p (fun _ q => ∃ ts, p.Takes ts q)
      (p.Stops .primary) := by
    obtain ⟨token, more, next, rfl⟩ := Token.cons_of_head? first
    have here := Parser.span_of_next next
    unfold primary
    split
    · rename_i opens
      exact parenthesized_follows follows next opens
    · rename_i opens
      exact vector_follows follows next opens
    · rename_i closes
      exact (Parser.Takes.refl p).stops (.unopenedParenthesis next closes) (by simp)
    · rename_i command
      simp only [verdict_bind, verdict_next, next, reduceCtorEq, false_imp_iff, and_true,
        verdict_failAt]
      rintro _ _ ⟨⟩
      rw [← here]
      exact (Parser.Takes.refl p).stops (.unknownFunction next command) (by simp)
    · split
      · rename_i f function
        exact application_follows follows next function
      · exact literal_follows next
  refine (reached.and (primary_sound sound p kind first)).elim ?_ fun _ => id
  rintro e q ⟨⟨ts, taken⟩, reads⟩
  exact ⟨ts, taken, taken.derives reads⟩

theorem operand_follows (sound : Sound inner) (follows : Follows inner) :
    Parse.Follows .operand (operand inner) := by
  intro p
  simp only [operand, verdict_bind, verdict_peek?]
  cases next : p.rest with
  | nil =>
    simp only [List.head?_nil, Option.map_none, verdict_fail]
    refine ⟨⟨_, p, .refl p, .unexpectedEnd next⟩, fun _ => ⟨[.number], by simp, ?_⟩⟩
    rw [next]
    exact derives_number _
  | cons token more =>
    simp only [List.head?_cons, Option.map_some]
    split
    · rename_i o sign
      have signed := UnaryOp.kind_of_ofToken? sign
      have other : token.kind ≠ .letter := by
        intro letter
        simp [letter] at signed
      have past := Parser.takes_advance next other
      simp only [verdict_bind, verdict_advance, verdict_pure]
      refine (follows.signed p.advance).elim ?_ ?_
      · rintro e q ⟨ts, taken, product⟩
        exact ⟨_, past.trans taken, .sign signed product⟩
      · intro fault stops
        exact stops.within past [] fun v product => by simpa using Derives.sign signed product
    · simp only [verdict_bind]
      refine (primary_follows sound follows (by simp [next])).elim ?_ ?_
      · rintro e q ⟨ts, taken, primary⟩
        simp only [factorials, verdict_bind, verdict_get]
        refine (factorialsFrom_follows _ e _ taken (.primary primary)).elim ?_ fun _ => id
        rintro e' r ⟨us, further, marked⟩
        exact ⟨us, further, .marked marked⟩
      · intro fault stops
        exact stops.within (.refl p) [] fun v primary => by
          simpa using .marked (.primary primary)

theorem raised_follows (sound : Sound inner) (follows : Follows inner) :
    Parse.Follows .power (raised inner) := by
  intro p
  simp only [raised, verdict_bind, verdict_peek?, verdict_ite, verdict_advance, verdict_pure]
  refine (operand_follows sound follows p).elim ?_ ?_
  · rintro base q ⟨us, taken, derives⟩
    refine ⟨fun caret => ?_, fun _ => ⟨us, taken, .base derives⟩⟩
    obtain ⟨token, more, next, caret⟩ := Token.cons_of_head? caret
    have past := taken.trans (Parser.takes_advance next (by simp [caret]))
    refine (follows.power q.advance).elim ?_ ?_
    · rintro exponent r ⟨vs, further, derives'⟩
      exact ⟨_, past.trans further, by simpa [caret] using derives.raise derives'⟩
    · intro fault stops
      exact stops.within past [] fun v derives' => by simpa [caret] using derives.raise derives'
  · intro fault stops
    exact stops.within (.refl p) [] fun v derives => by simpa using .base derives

theorem enclosing_follows (sound : Sound inner) (follows : Follows inner) :
    Follows (enclosing inner) where
  sum := chain_follows (chain_follows (chain_follows
    (juxtaposed_follows (raised_follows sound follows))))
  juxtaposition := juxtaposed_follows (raised_follows sound follows)
  power := raised_follows sound follows
  signed := follows.juxtaposition

/-- The grammar of every level stops like this. Where no level is left it stops at once. -/
theorem within_follows (room : Nat) : Follows (within (ν := ν) room) := by
  induction room with
  | zero =>
    have refused {phrase : Phrase} (p : Parser) : p.Stops phrase ⟨.tooNested, [p.span]⟩ :=
      (Parser.Takes.refl p).stops .tooNested (by simp)
    exact ⟨refused, refused, refused, refused⟩
  | succ room ih => exact enclosing_follows (within_sound room) ih

end Grammar

namespace Parse

variable {ν : Type}

theorem equation_follows {grammar : Grammar ν} (follows : grammar.Follows) :
    Follows .equation (equation grammar) := by
  intro p
  simp only [equation, verdict_bind, verdict_peek?, verdict_ite, verdict_advance, verdict_pure]
  refine (follows.sum p).elim ?_ ?_
  · rintro lhs q ⟨us, taken, left⟩
    refine ⟨fun equals => ?_, fun _ => ⟨us, taken, .sum left⟩⟩
    obtain ⟨token, more, next, equals⟩ := Token.cons_of_head? equals
    have past := taken.trans (Parser.takes_advance next (by simp [equals]))
    refine (follows.sum q.advance).elim ?_ ?_
    · rintro rhs r ⟨vs, further, right⟩
      exact ⟨_, past.trans further, by simpa [equals] using left.equality right⟩
    · intro fault stops
      exact stops.within past [] fun v right => by simpa [equals] using left.equality right
  · intro fault stops
    exact stops.within (.refl p) [] fun v left => by simpa using .sum left

/-- Reading a whole source takes all its tokens, or it stops. -/
theorem complete_follows [Numeral ν] (p : Parser) :
    Verdict (complete (expression (ν := ν))) p
      (fun _ _ => ∃ ts q, p.Takes ts q ∧ q.rest = []) (p.Stops .equation) := by
  simp only [verdict_complete, expression, verdict_bind, verdict_get]
  refine (equation_follows (Grammar.within_follows _) p).elim ?_ fun _ => id
  rintro e q ⟨ts, taken, -⟩
  refine ⟨fun ended => ⟨ts, q, taken, ended⟩, fun extra => ?_⟩
  obtain ⟨token, more, next⟩ := List.exists_cons_of_ne_nil extra
  rw [next, List.head?_cons, Option.map_some]
  split
  · rename_i closes
    exact taken.stops (.unopenedParenthesis next (Option.some.inj closes)) (by simp)
  · exact taken.stops (.expectedEnd next) (by simp)

end Parse

namespace Expr

variable {ν : Type} [Numeral ν] {source : String}

/-- Where parsing succeeds, all tokens have been taken. -/
theorem takes_of_parse {e : Expr ν} (parsed : parse source = .ok e) :
    ∃ q, (Parser.ofSource source).Takes (Token.tokenize source) q := by
  obtain ⟨ts, q, taken, ended⟩ := (Parse.complete_follows _).of_parse.1 e parsed
  have whole := taken.rest
  rw [ended, List.append_nil] at whole
  exact ⟨q, by simpa [← whole, Parser.ofSource, Parser.rest] using taken⟩

/-- Where parsing fails, it has stopped. -/
theorem stops_of_parse {fault : SyntaxFault} (refused : parse (ν := ν) source = .error fault) :
    (Parser.ofSource source).Stops .equation fault :=
  (Parse.complete_follows _).of_parse.2 fault refused

end Expr

end AlgebraEngine
