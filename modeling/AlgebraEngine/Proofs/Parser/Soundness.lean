import AlgebraEngine.Proofs.Parser.Outcome
import AlgebraEngine.Proofs.Parser.Phrase

/-! Whatever the parser returns is a reading of the tokens it took. Every loop carries the reading
of what it has read so far, and it ends only where no further token could belong to the phrase. -/
namespace AlgebraEngine

namespace Parse

variable {ν : Type} [Numeral ν]

/-- A value that a reader returns is what a phrase stands for, and the tokens it leaves close the
phrase. -/
def Returns (phrase : Phrase) (ts : List Token) (e : Expr ν) (p : Parser) : Prop :=
  Reads phrase ts e p.rest ∧ phrase.Closed p.rest

/-- Whenever a reader returns, it has read a phrase. -/
def Sound (phrase : Phrase) (read : Parse (Expr ν)) : Prop :=
  ∀ p, Outcome read p (Returns phrase p.rest) fun _ => True

/-- What a sound reader returns has taken at least one token. -/
theorem Sound.length_lt {phrase : Phrase} {read : Parse (Expr ν)} {e : Expr ν} {p q : Parser}
    (sound : Sound phrase read) (run : read p = .ok e q) : q.rest.length < p.rest.length := by
  have outcome := sound p
  unfold Outcome at outcome
  rw [run] at outcome
  exact outcome.1.length_lt

/-- The next operator of a chain is the next token. -/
theorem operator?_eq_some {ops : List BinaryOp} {ts : List Token} {o : BinaryOp}
    (next : ((ts.head?.map Token.kind).bind BinaryOp.ofToken?).filter (ops.contains ·) = some o) :
    ∃ sign rest, ts = sign :: rest ∧ BinaryOp.ofToken? sign.kind = some o ∧ o ∈ ops := by
  cases ts with
  | nil => simp at next
  | cons sign rest =>
    simp only [List.head?_cons, Option.map_some, Option.bind_some, Option.filter_eq_some_iff,
      List.contains_eq_mem, decide_eq_true_eq] at next
    exact ⟨sign, rest, rfl, next.1, next.2⟩

theorem operator?_eq_none {tier : Tier} {ts : List Token}
    (next : ((ts.head?.map Token.kind).bind BinaryOp.ofToken?).filter
      (tier.operators.contains ·) = none) :
    ∀ token ∈ ts.head?, token.kind ∉ tier.signs := by
  intro token first links
  obtain ⟨o, member, sign⟩ := Tier.mem_signs_iff.mp links
  rw [Option.mem_def] at first
  simp [first, sign, member] at next

theorem chainFrom_sound {tier : Tier} {operand : Parse (Expr ν)}
    (sound : Sound tier.operand operand) (ts : List Token) (links : Nat) (p : Parser)
    (lhs : Expr ν) (depth : Nat) (enough : p.rest.length ≤ links)
    (before : Reads (.chain tier) ts lhs p.rest) (closed : tier.operand.Closed p.rest) :
    Outcome (chainFrom tier.operators operand links lhs depth) p (Returns (.chain tier) ts)
      fun _ => True := by
  induction links generalizing p lhs depth with
  | zero =>
    have none : p.rest = [] := List.length_eq_zero_iff.mp (by omega)
    exact ⟨before, by simp [none]⟩
  | succ links ih =>
    simp only [chainFrom, outcome_bind, outcome_operator?]
    split
    · rename_i none
      exact ⟨before, Phrase.closed_chain_iff.mpr ⟨closed, operator?_eq_none none⟩⟩
    · rename_i o some
      obtain ⟨sign, mid, rest, operator, member⟩ := operator?_eq_some some
      simp only [outcome_bind, outcome_next, implies_true, and_true]
      intro _ _ _
      refine (sound p.advance).mono ?_
      rintro rhs p' ⟨reads, closed'⟩
      simp only [outcome_checkTreeDepth, implies_true, and_true]
      intro _
      simp only [Parser.rest_advance, rest, List.tail_cons] at reads
      have shorter := reads.length_lt
      rw [rest] at before enough
      refine ih p' _ _ ?_ (before.link operator member reads) closed'
      rw [List.length_cons] at enough
      omega

/-- A chain is read as one if its operands are read as operands. -/
theorem chain_sound (tier : Tier) {operand : Parse (Expr ν)} (sound : Sound tier.operand operand) :
    Sound (.chain tier) (chain tier.operators operand) := by
  intro p
  simp only [chain, outcome_bind, outcome_get, Parser.remaining_eq]
  refine (sound p).mono ?_
  rintro lhs p' ⟨reads, closed⟩
  exact chainFrom_sound sound p.rest _ p' lhs _ (Nat.le_refl _) (.first reads) closed

theorem juxtaposedFrom_sound {factor : Parse (Expr ν)} (sound : Sound .power factor)
    (ts : List Token) (links : Nat) (p : Parser) (lhs : Expr ν) (depth : Nat)
    (enough : p.rest.length ≤ links) (before : Reads .juxtaposition ts lhs p.rest)
    (closed : Phrase.power.Closed p.rest) :
    Outcome (juxtaposedFrom factor links lhs depth) p (Returns .juxtaposition ts)
      fun _ => True := by
  induction links generalizing p lhs depth with
  | zero =>
    have none : p.rest = [] := List.length_eq_zero_iff.mp (by omega)
    exact ⟨before, by simp [none]⟩
  | succ links ih =>
    simp only [juxtaposedFrom, outcome_bind, outcome_peek?, outcome_ite, outcome_pure]
    refine ⟨?_, ?_⟩
    · intro starts
      refine (sound p).mono ?_
      rintro rhs p' ⟨reads, closed'⟩
      simp only [outcome_checkTreeDepth, implies_true, and_true]
      intro _
      have shorter := reads.length_lt
      refine ih p' _ _ (by omega) ?_ closed'
      cases rest : p.rest with
      | nil => simp [rest] at starts
      | cons token mid =>
        rw [rest] at before reads starts
        exact before.join (by simpa using starts) reads
    · intro ends
      rw [Bool.not_eq_true] at ends
      exact ⟨before, Phrase.closed_juxtaposition_iff.mpr ⟨closed, ends⟩⟩

theorem juxtaposed_sound {factor : Parse (Expr ν)} (sound : Sound .power factor) :
    Sound .juxtaposition (juxtaposed factor) := by
  intro p
  simp only [juxtaposed, outcome_bind, outcome_get, Parser.remaining_eq]
  refine (sound p).mono ?_
  rintro lhs p' ⟨reads, closed⟩
  exact juxtaposedFrom_sound sound p.rest _ p' _ _ (Nat.le_refl _) reads.withCoefficient closed

theorem factorialsFrom_sound (ts : List Token) (marks : Nat) (p : Parser) (e : Expr ν)
    (depth : Nat) (enough : p.rest.length ≤ marks) (before : Reads .marked ts e p.rest) :
    Outcome (factorialsFrom marks e depth) p (Returns .marked ts) fun _ => True := by
  induction marks generalizing p e depth with
  | zero =>
    have none : p.rest = [] := List.length_eq_zero_iff.mp (by omega)
    exact ⟨before, by simp [none]⟩
  | succ marks ih =>
    simp only [factorialsFrom, outcome_bind, outcome_peek?, outcome_ite, outcome_pure,
      outcome_checkTreeDepth, outcome_advance, implies_true, and_true]
    cases rest : p.rest with
    | nil =>
      refine ⟨by simp, fun _ => ⟨before, by simp [rest]⟩⟩
    | cons token mid =>
      rw [rest] at before enough
      simp only [List.head?_cons, Option.map_some, Option.some.injEq]
      refine ⟨?_, ?_⟩
      · intro bang _
        refine ih p.advance _ _ ?_ ?_
        · simp only [Parser.rest_advance, rest, List.tail_cons]
          rw [List.length_cons] at enough
          omega
        · simp only [Parser.rest_advance, rest, List.tail_cons]
          exact before.mark bang
      · intro other
        refine ⟨rest ▸ before, ?_⟩
        rw [rest]
        simpa [Phrase.continues] using other

theorem factorials_sound {p : Parser} {ts : List Token} {e : Expr ν}
    (before : Reads .marked ts e p.rest) :
    Outcome (factorials e) p (Returns .marked ts) fun _ => True := by
  simp only [factorials, outcome_bind, outcome_get, Parser.remaining_eq]
  exact factorialsFrom_sound ts _ p e _ (Nat.le_refl _) before

theorem literal_sound (p : Parser) :
    Outcome (literal (ν := ν)) p (fun e p' => Reads .primary p.rest e p'.rest) fun _ => True := by
  simp only [literal, outcome_bind, outcome_next, implies_true, and_true]
  intro token rest next
  have behind : p.advance.rest = rest := by simp [next]
  rw [next]
  split
  · rename_i number
    exact behind ▸ .number number
  · rename_i euler
    exact behind ▸ .euler euler
  · rename_i pi
    exact behind ▸ .pi pi
  · rename_i letter
    simp only [outcome_bind, outcome_useVariable, outcome_pure, implies_true, and_true]
    refine ⟨fun _ => behind ▸ .letter letter, fun _ _ _ => behind ▸ .letter letter⟩
  · trivial

end Parse

namespace Grammar

open Parse

variable {ν : Type} [Numeral ν] {inner : Grammar ν}

/-- Every part of a grammar returns only what it has read. -/
structure Sound (grammar : Grammar ν) : Prop where
  sum : Parse.Sound (.chain .sum) grammar.sum
  juxtaposition : Parse.Sound .juxtaposition grammar.juxtaposition
  power : Parse.Sound .power grammar.power
  signed : Parse.Sound .juxtaposition grammar.signed

private theorem close_sound {phrase : Phrase} {ts : List Token} {e : Expr ν} {p : Parser}
    {kind : TokenKind} {opening : Span} {error : SyntaxError} {returns : Unit → Parser → Prop}
    (before : Reads phrase ts e p.rest)
    (closes : ∀ closing p', closing.kind = kind → Reads phrase ts e (closing :: p'.rest) →
      returns () p') :
    Outcome (close kind opening error) p returns fun _ => True := by
  simp only [outcome_close, implies_true, and_true]
  intro same
  cases rest : p.rest with
  | nil => simp [rest] at same
  | cons closing behind =>
    refine closes closing p.advance (by simpa [rest] using same) ?_
    rwa [Parser.rest_advance, rest, List.tail_cons, ← rest]

theorem parenthesized_sound (sound : Sound inner) (p : Parser)
    (opens : p.rest.head?.map Token.kind = some .openParen) :
    Outcome (parenthesized inner) p (fun e p' => Reads .primary p.rest e p'.rest)
      fun _ => True := by
  obtain ⟨opening, rest, next, opens⟩ := Token.cons_of_head? opens
  simp only [parenthesized, outcome_bind, outcome_next, outcome_peek?, outcome_ite, outcome_get,
    outcome_failAt, outcome_pure, implies_true, true_and, and_true]
  intro _ _ _ _
  refine (sound.sum p.advance).mono ?_
  rintro e p' ⟨reads, -⟩
  simp only [Parser.rest_advance, next, List.tail_cons] at reads ⊢
  exact close_sound reads fun closing p'' closes sum => .parentheses opens sum closes

theorem application_sound (sound : Sound inner) (p : Parser) {kind : TokenKind} {f : Func}
    (named : p.rest.head?.map Token.kind = some kind) (function : Func.ofToken? kind = some f) :
    Outcome (application inner f) p (fun e p' => Reads .primary p.rest e p'.rest)
      fun _ => True := by
  obtain ⟨name, rest, next, rfl⟩ := Token.cons_of_head? named
  simp only [application, outcome_bind, outcome_next, outcome_attempt, outcome_expect,
    outcome_pure, implies_true, and_true]
  intro _ _ _ opening rest' next' opens
  refine (sound.sum p.advance.advance).mono ?_
  rintro e p' ⟨reads, -⟩
  simp only [Parser.rest_advance, next, List.tail_cons] at next' reads ⊢
  rw [next', List.tail_cons] at reads
  rw [next']
  exact close_sound reads fun closing p'' closes sum => .application function opens sum closes

/-- The components that are read behind a first one belong to one vector. -/
theorem components_sound (sound : Sound inner) (count : Nat) (p : Parser) {ts : List Token}
    {e : Expr ν} (before : Reads (.chain .sum) ts e p.rest) :
    Outcome (components inner count) p
      (fun es p' => Reads .components ts (.apply .vector (e :: es)) p'.rest) fun _ => True := by
  induction count generalizing p ts e with
  | zero => exact .last before
  | succ count ih =>
    simp only [components, outcome_bind, outcome_peek?, outcome_ite, outcome_advance, outcome_pure]
    refine ⟨?_, fun _ => .last before⟩
    intro comma
    obtain ⟨token, rest, next, separates⟩ := Token.cons_of_head? comma
    refine (sound.sum p.advance).mono ?_
    rintro e' p' ⟨reads, -⟩
    refine (ih p' reads).mono ?_
    intro es p'' behind
    simp only [Parser.rest_advance, next, List.tail_cons] at behind
    rw [next] at before
    exact .component before separates behind

theorem vector_sound (sound : Sound inner) (p : Parser)
    (opens : p.rest.head?.map Token.kind = some .openSquare) :
    Outcome (vector inner) p (fun e p' => Reads .primary p.rest e p'.rest) fun _ => True := by
  obtain ⟨opening, rest, next, opens⟩ := Token.cons_of_head? opens
  simp only [vector, outcome_bind, outcome_next, outcome_peek?, outcome_ite, outcome_get,
    outcome_failAt, outcome_pure, implies_true, true_and, and_true]
  intro _ _ _ _
  refine (sound.sum p.advance).mono ?_
  rintro e p' ⟨reads, -⟩
  refine (components_sound sound _ p' reads).mono ?_
  intro es p'' components
  simp only [Parser.rest_advance, next, List.tail_cons] at components ⊢
  exact close_sound components fun closing q closes components => .vector opens components closes

theorem primary_sound (sound : Sound inner) (p : Parser) (kind : TokenKind)
    (first : p.rest.head?.map Token.kind = some kind) :
    Outcome (primary inner kind) p (fun e p' => Reads .primary p.rest e p'.rest)
      fun _ => True := by
  unfold primary
  split
  · exact parenthesized_sound sound p first
  · exact vector_sound sound p first
  · simp
  · simp
  · split
    · rename_i f function
      exact application_sound sound p first function
    · exact literal_sound p

theorem operand_sound (sound : Sound inner) : Parse.Sound .operand (operand inner) := by
  intro p
  simp only [operand, outcome_bind, outcome_peek?]
  split
  · simp
  · rename_i kind first
    split
    · rename_i o sign
      obtain ⟨token, rest, next, rfl⟩ := Token.cons_of_head? first
      simp only [outcome_bind, outcome_advance, outcome_pure]
      refine (sound.signed p.advance).mono ?_
      rintro e p' ⟨reads, closed⟩
      simp only [Parser.rest_advance, next, List.tail_cons] at reads
      have ends := (Phrase.closed_juxtaposition_iff.mp closed).1
      exact ⟨next ▸ .sign sign reads closed, (Phrase.closed_power_iff.mp ends).1⟩
    · simp only [outcome_bind]
      refine (primary_sound sound p kind first).mono ?_
      intro e p' primary
      refine (factorials_sound (.primary primary)).mono ?_
      rintro e' p'' ⟨marked, closed⟩
      exact ⟨.marked marked, closed⟩

theorem raised_sound (sound : Sound inner) : Parse.Sound .power (raised inner) := by
  intro p
  simp only [raised, outcome_bind, outcome_peek?, outcome_ite, outcome_advance, outcome_pure]
  refine (operand_sound sound p).mono ?_
  rintro b p' ⟨base, closed⟩
  refine ⟨?_, ?_⟩
  · intro caret
    obtain ⟨token, rest, next, caret⟩ := Token.cons_of_head? caret
    refine (sound.power p'.advance).mono ?_
    rintro e p'' ⟨exponent, closed'⟩
    rw [next] at base
    simp only [Parser.rest_advance, next, List.tail_cons] at exponent
    exact ⟨.raise base caret exponent, closed'⟩
  · intro other
    exact ⟨.base base, Phrase.closed_power_iff.mpr ⟨closed, other⟩⟩

theorem enclosing_sound (sound : Sound inner) : Sound (enclosing inner) where
  sum := chain_sound .sum (chain_sound .product
    (chain_sound .quotient (juxtaposed_sound (raised_sound sound))))
  juxtaposition := juxtaposed_sound (raised_sound sound)
  power := raised_sound sound
  signed := sound.juxtaposition

/-- The grammar of every level is sound. Where no level is left everything is refused. -/
theorem within_sound (room : Nat) : Sound (within (ν := ν) room) := by
  induction room with
  | zero =>
    exact {
      sum := by intro p; simp [within, refused]
      juxtaposition := by intro p; simp [within, refused]
      power := by intro p; simp [within, refused]
      signed := by intro p; simp [within, refused] }
  | succ room ih => exact enclosing_sound ih

end Grammar

namespace Parse

variable {ν : Type} [Numeral ν]

theorem equation_sound {grammar : Grammar ν} (sound : grammar.Sound) (p : Parser) :
    Outcome (equation grammar) p (fun e p' => Reads .equation p.rest e p'.rest) fun _ => True := by
  simp only [equation, outcome_bind, outcome_peek?, outcome_ite, outcome_advance, outcome_pure]
  refine (sound.sum p).mono ?_
  rintro l p' ⟨left, -⟩
  refine ⟨?_, fun _ => .sum left⟩
  intro equals
  obtain ⟨token, rest, next, equals⟩ := Token.cons_of_head? equals
  refine (sound.sum p'.advance).mono ?_
  rintro r p'' ⟨right, -⟩
  rw [next] at left
  simp only [Parser.rest_advance, next, List.tail_cons] at right
  exact .equality left equals right

/-- Whatever a whole source denotes is what its tokens stand for as an equation. -/
theorem complete_sound (source : String) :
    Outcome (complete (expression (ν := ν))) (.ofSource source)
      (fun e _ => Reads .equation (Token.tokenize source) e []) fun _ => True := by
  have start : (Parser.ofSource source).rest = Token.tokenize source := by
    simp [Parser.ofSource, Parser.rest]
  simp only [outcome_complete, expression, outcome_bind, outcome_get, implies_true, and_true]
  rw [← start]
  exact (equation_sound (Grammar.within_sound _) _).mono fun e p reads ended => ended ▸ reads

end Parse

/-- A tree that a source denotes is what its tokens stand for, and all of them are used. -/
theorem Expr.reads_of_parse {ν : Type} [Numeral ν] {source : String} {e : Expr ν}
    (parsed : Expr.parse source = .ok e) : Reads .equation (Token.tokenize source) e [] :=
  (Parse.complete_sound source).of_parse parsed

end AlgebraEngine
