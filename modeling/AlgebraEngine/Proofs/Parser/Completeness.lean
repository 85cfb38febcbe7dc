import AlgebraEngine.Proofs.Parser.Outcome
import AlgebraEngine.Proofs.Parser.Phrase

/-! Whatever can be read is read, and to the same tree, unless the source is nested too deeply or
uses two variables. The loops are followed from the left: reading a chain leads to the loop at its
last operand, with the tokens behind it still to be read. -/
namespace AlgebraEngine

/-- The state in front of a row of tokens. All variables, used so far or still to come, are among
the names given. -/
structure Parser.At (names : String → Prop) (p : Parser) (ts : List Token) : Prop where
  rest : p.rest = ts
  used : ∀ name, p.used? = some name → names name
  letters : ∀ token ∈ ts, token.kind = .letter → names token.lexeme

/-- The errors that a phrase can still run into: too many levels, or two of the names. -/
inductive Refusal (names : String → Prop) : SyntaxError → Prop where
  | tooNested : Refusal names .tooNested
  | multipleVariables {first second : String} (left : names first) (right : names second)
      (differ : first ≠ second) : Refusal names (.multipleVariables first second)

namespace Parser.At

variable {names : String → Prop} {p : Parser} {token : Token} {ts : List Token}

theorem advance (here : p.At names (token :: ts)) : p.advance.At names ts where
  rest := by simp [here.rest]
  used := by simpa using here.used
  letters := fun _ member => here.letters _ (List.mem_cons_of_mem _ member)

theorem head (here : p.At names (token :: ts)) :
    p.rest.head?.map Token.kind = some token.kind := by
  simp [here.rest]

end Parser.At

namespace Parse

variable {ν : Type} {names : String → Prop}

/-- A reader returns one value and leaves these tokens, or it refuses. -/
abbrev Finds {α : Type} (names : String → Prop) (read : Parse α) (p : Parser) (value : α)
    (rest : List Token) : Prop :=
  Outcome read p (fun found p' => found = value ∧ p'.At names rest) (Refusal names)

theorem factorialsFrom_closed {p : Parser} {e : Expr ν} {rest : List Token} (here : p.At names rest)
    (closed : Phrase.operand.Closed rest) (marks depth : Nat) :
    Finds names (factorialsFrom marks e depth) p e rest := by
  cases marks with
  | zero => exact ⟨rfl, here⟩
  | succ marks =>
    have ends := Phrase.closed_operand_iff.mp closed
    rw [← here.rest] at ends
    simp only [Finds, factorialsFrom, outcome_bind, outcome_peek?, ends, if_false, outcome_pure]
    exact ⟨trivial, here⟩

theorem juxtaposedFrom_closed {factor : Parse (Expr ν)} {p : Parser} {e : Expr ν}
    {rest : List Token} (here : p.At names rest) (closed : Phrase.juxtaposition.Closed rest)
    (links depth : Nat) : Finds names (juxtaposedFrom factor links e depth) p e rest := by
  cases links with
  | zero => exact ⟨rfl, here⟩
  | succ links =>
    have ends := (Phrase.closed_juxtaposition_iff.mp closed).2
    rw [← here.rest] at ends
    simp only [Finds, juxtaposedFrom, outcome_bind, outcome_peek?, ends, Bool.false_eq_true,
      if_false, outcome_pure]
    exact ⟨trivial, here⟩

theorem chainFrom_closed {tier : Tier} {operand : Parse (Expr ν)} {p : Parser} {e : Expr ν}
    {rest : List Token} (here : p.At names rest) (closed : (Phrase.chain tier).Closed rest)
    (links depth : Nat) :
    Finds names (chainFrom tier.operators operand links e depth) p e rest := by
  cases links with
  | zero => exact ⟨rfl, here⟩
  | succ links =>
    have ends : ((p.rest.head?.map Token.kind).bind BinaryOp.ofToken?).filter
        (tier.operators.contains ·) = none := by
      rw [here.rest]
      cases rest with
      | nil => rfl
      | cons token rest =>
        have other := (Phrase.closed_chain_iff.mp closed).2 token rfl
        rw [Tier.mem_signs_iff] at other
        simp only [List.head?_cons, Option.map_some, Option.bind_some, Option.filter_eq_none_iff]
        intro o sign member
        exact other ⟨o, by simpa using member, sign⟩
    simp only [Finds, chainFrom, outcome_bind, outcome_operator?, ends, outcome_pure]
    exact ⟨trivial, here⟩

theorem factorialsFrom_mark {returns : Expr ν → Parser → Prop} {p : Parser} {e : Expr ν}
    {token : Token} {rest : List Token} {marks depth : Nat} (here : p.At names (token :: rest))
    (bang : token.kind = .bang) (enough : (token :: rest).length ≤ marks)
    (continued : ∀ marks p' depth, p'.At names rest → rest.length ≤ marks →
      Outcome (factorialsFrom marks (.apply .factorial [e]) depth) p' returns (Refusal names)) :
    Outcome (factorialsFrom marks e depth) p returns (Refusal names) := by
  cases marks with
  | zero => simp at enough
  | succ marks =>
    have next : p.rest.head?.map Token.kind = some .bang := bang ▸ here.head
    simp only [factorialsFrom, outcome_bind, outcome_peek?, next, if_true, outcome_checkTreeDepth,
      outcome_advance]
    refine ⟨fun _ => continued marks p.advance _ here.advance ?_, fun _ => .tooNested⟩
    exact Nat.le_of_succ_le_succ enough

variable [Numeral ν]

/-- A reader finds every phrase of a kind where it is closed. -/
def Complete (names : String → Prop) (phrase : Phrase) (read : Parse (Expr ν)) : Prop :=
  ∀ {ts e rest p}, Reads phrase ts e rest → phrase.Closed rest → Parser.At names p ts →
    Finds names read p e rest

/-- The loop of a chain reads the next operator and its operand, and goes on behind it. -/
theorem chainFrom_link {tier : Tier} {operand : Parse (Expr ν)}
    (complete : Complete names tier.operand operand) {returns : Expr ν → Parser → Prop}
    {p : Parser} {l r : Expr ν} {sign : Token} {o : BinaryOp} {mid rest : List Token}
    {links depth : Nat} (here : p.At names (sign :: mid))
    (operator : BinaryOp.ofToken? sign.kind = some o) (member : o ∈ tier.operators)
    (reads : Reads tier.operand mid r rest) (closed : tier.operand.Closed rest)
    (enough : (sign :: mid).length ≤ links)
    (continued : ∀ links p' depth, p'.At names rest → rest.length ≤ links →
      Outcome (chainFrom tier.operators operand links (.op o l r) depth) p' returns
        (Refusal names)) :
    Outcome (chainFrom tier.operators operand links l depth) p returns (Refusal names) := by
  cases links with
  | zero => simp at enough
  | succ links =>
    have next : ((p.rest.head?.map Token.kind).bind BinaryOp.ofToken?).filter
        (tier.operators.contains ·) = some o := by
      simp [here.rest, operator, member]
    have shorter := reads.length_lt
    simp only [chainFrom, outcome_bind, outcome_operator?, next]
    simp only [outcome_next, here.rest, reduceCtorEq, false_imp_iff, and_true]
    intro _ _ _
    refine (complete reads closed here.advance).mono ?_
    rintro _ p' ⟨rfl, behind⟩
    simp only [outcome_checkTreeDepth]
    refine ⟨fun _ => continued links p' _ behind ?_, fun _ => .tooNested⟩
    rw [List.length_cons] at enough
    omega

theorem juxtaposedFrom_join {factor : Parse (Expr ν)} (complete : Complete names .power factor)
    {returns : Expr ν → Parser → Prop} {p : Parser} {l r : Expr ν} {token : Token}
    {mid rest : List Token} {links depth : Nat} (here : p.At names (token :: mid))
    (starts : token.kind.startsFactor = true) (reads : Reads .power (token :: mid) r rest)
    (closed : Phrase.power.Closed rest) (enough : (token :: mid).length ≤ links)
    (continued : ∀ links p' depth, p'.At names rest → rest.length ≤ links →
      Outcome (juxtaposedFrom factor links (.op .mul l r) depth) p' returns (Refusal names)) :
    Outcome (juxtaposedFrom factor links l depth) p returns (Refusal names) := by
  cases links with
  | zero => simp at enough
  | succ links =>
    have next : (p.rest.head?.map Token.kind).any TokenKind.startsFactor = true := by
      simp [here.rest, starts]
    have shorter := reads.length_lt
    simp only [juxtaposedFrom, outcome_bind, outcome_peek?, next, if_true]
    refine (complete reads closed here).mono ?_
    rintro _ p' ⟨rfl, behind⟩
    simp only [outcome_checkTreeDepth]
    refine ⟨fun _ => continued links p' _ behind ?_, fun _ => .tooNested⟩
    omega

/-- Reading a chain leads to the loop behind the part of it that has been read. -/
theorem chain_continues {tier : Tier} {operand : Parse (Expr ν)}
    (complete : Complete names tier.operand operand) {returns : Expr ν → Parser → Prop}
    {ts mid : List Token} {e : Expr ν} {p : Parser} (reads : Reads (.chain tier) ts e mid)
    (here : p.At names ts) (closed : tier.operand.Closed mid)
    (continued : ∀ links p' depth, p'.At names mid → mid.length ≤ links →
      Outcome (chainFrom tier.operators operand links e depth) p' returns (Refusal names)) :
    Outcome (chain tier.operators operand) p returns (Refusal names) := by
  generalize same : Phrase.chain tier = phrase at reads
  induction reads generalizing tier with
  | first reads =>
    cases same
    simp only [chain, outcome_bind, outcome_get, Parser.remaining_eq]
    refine (complete reads closed here).mono ?_
    rintro _ p' ⟨rfl, behind⟩
    exact continued _ p' _ behind
      (Nat.le_of_eq (congrArg List.length behind.rest.symm))
  | link _ operator links reads ih =>
    cases same
    have sign := Phrase.operand_continues_sign (Tier.mem_signs_iff.mpr ⟨_, links, operator⟩)
    refine ih complete here (Phrase.closed_cons.mpr sign) ?_ rfl
    intro count p' depth before enough
    exact chainFrom_link complete before operator links reads closed enough continued
  | _ => cases same

theorem chain_complete (tier : Tier) {operand : Parse (Expr ν)}
    (complete : Complete names tier.operand operand) :
    Complete names (.chain tier) (chain tier.operators operand) := by
  intro ts e rest p reads closed here
  refine chain_continues complete reads here (Phrase.closed_chain_iff.mp closed).1 ?_
  intro links p' depth behind _
  exact chainFrom_closed behind closed links depth

theorem juxtaposed_continues {factor : Parse (Expr ν)} (complete : Complete names .power factor)
    {returns : Expr ν → Parser → Prop} {ts mid : List Token} {e : Expr ν} {p : Parser}
    (reads : Reads .juxtaposition ts e mid) (here : p.At names ts)
    (closed : Phrase.power.Closed mid)
    (continued : ∀ links p' depth, p'.At names mid → mid.length ≤ links →
      Outcome (juxtaposedFrom factor links e depth) p' returns (Refusal names)) :
    Outcome (juxtaposed factor) p returns (Refusal names) := by
  have start {e : Expr ν} {mid : List Token} (power : Reads .power ts e mid)
      (closed : Phrase.power.Closed mid)
      (continued : ∀ links p' depth, p'.At names mid → mid.length ≤ links →
        Outcome (juxtaposedFrom factor links (withCoefficient e) depth) p' returns
          (Refusal names)) :
      Outcome (juxtaposed factor) p returns (Refusal names) := by
    simp only [juxtaposed, outcome_bind, outcome_get, Parser.remaining_eq]
    refine (complete power closed here).mono ?_
    rintro _ p' ⟨rfl, behind⟩
    exact continued _ p' _ behind
      (Nat.le_of_eq (congrArg List.length behind.rest.symm))
  generalize same : Phrase.juxtaposition = phrase at reads
  induction reads with
  | bare power => exact start power closed continued
  | @factor _ e _ power compound =>
    have plain : withCoefficient e = e := by
      unfold withCoefficient
      split
      · exact absurd rfl (compound _)
      · rfl
    exact start power closed (by rwa [plain])
  | @join _ _ token _ _ _ _ starts power ih =>
    refine ih here (Phrase.closed_cons.mpr (Phrase.power_continues_factor starts)) ?_ start rfl
    intro count p' depth before enough
    exact juxtaposedFrom_join complete before starts power closed enough continued
  | _ => cases same

theorem juxtaposed_complete {factor : Parse (Expr ν)} (complete : Complete names .power factor) :
    Complete names .juxtaposition (juxtaposed factor) := by
  intro ts e rest p reads closed here
  refine juxtaposed_continues complete reads here (Phrase.closed_juxtaposition_iff.mp closed).1 ?_
  intro links p' depth behind _
  exact juxtaposedFrom_closed behind closed links depth

end Parse

namespace Grammar

open Parse

variable {ν : Type} [Numeral ν] {names : String → Prop} {inner : Grammar ν}

/-- Every part of a grammar finds all phrases of its kind. -/
structure Complete (names : String → Prop) (grammar : Grammar ν) : Prop where
  sum : Parse.Complete names (.chain .sum) grammar.sum
  juxtaposition : Parse.Complete names .juxtaposition grammar.juxtaposition
  power : Parse.Complete names .power grammar.power
  signed : Parse.Complete names .juxtaposition grammar.signed

/-- A token that closes a bracket starts no phrase. -/
theorem head_of_reads {phrase : Phrase} {ts rest : List Token} {e : Expr ν}
    (reads : Reads phrase ts e rest) :
    ts.head?.map Token.kind ≠ some .closeParen ∧ ts.head?.map Token.kind ≠ some .closeSquare := by
  induction reads with
  | sign sign => rcases UnaryOp.kind_of_ofToken? sign with kind | kind <;> simp [kind]
  | number kind | letter kind | euler kind | pi kind | parentheses kind | vector kind =>
    simp [kind]
  | application function =>
    have kind := Func.isFunction_of_ofToken? function
    refine ⟨?_, ?_⟩
    · intro same
      cases Option.some.inj same ▸ kind
    · intro same
      cases Option.some.inj same ▸ kind
  | _ => assumption

private theorem outcome_close_of_kind {p : Parser} {token : Token} {rest : List Token}
    {kind : TokenKind} {opening : Span} {error : SyntaxError} {returns : Unit → Parser → Prop}
    (here : p.At names (token :: rest)) (closes : token.kind = kind)
    (continued : ∀ p', p'.At names rest → returns () p') :
    Outcome (close kind opening error) p returns (Refusal names) := by
  have next : p.rest.head?.map Token.kind = some kind := closes ▸ here.head
  simp only [outcome_close, next, ne_eq, not_true_eq_false, false_imp_iff, and_true, forall_const]
  exact continued _ here.advance

private theorem outcome_next_of_cons {p : Parser} {token : Token} {rest : List Token}
    {returns : Token → Parser → Prop} (here : p.At names (token :: rest))
    (continued : returns token p.advance) : Outcome next p returns (Refusal names) := by
  simp only [outcome_next, here.rest, reduceCtorEq, false_imp_iff, and_true]
  rintro _ _ ⟨⟩
  exact continued

theorem literal_letter {p : Parser} {token : Token} {rest : List Token}
    (here : p.At names (token :: rest)) (letter : token.kind = .letter) :
    Finds names (literal (ν := ν)) p (.var token.lexeme) rest := by
  have name : names token.lexeme := here.letters token (by simp) letter
  simp only [Finds, literal, outcome_bind]
  refine outcome_next_of_cons here ?_
  simp only [letter, outcome_bind, outcome_useVariable, outcome_pure, true_and]
  refine ⟨fun _ => ?_, fun first used => ⟨fun _ => here.advance, fun differ => ?_⟩⟩
  · exact {
      rest := here.advance.rest
      used := by
        rintro _ ⟨⟩
        exact name
      letters := here.advance.letters }
  · exact .multipleVariables (here.advance.used first used) name differ

theorem parenthesized_finds (complete : Complete names inner) {p : Parser} {opening closing : Token}
    {ts rest : List Token} {e : Expr ν} (here : p.At names (opening :: ts))
    (sum : Reads (.chain .sum) ts e (closing :: rest)) (closes : closing.kind = .closeParen) :
    Finds names (parenthesized inner) p e rest := by
  have filled := (head_of_reads sum).1
  rw [← here.advance.rest] at filled
  simp only [Finds, parenthesized, outcome_bind]
  refine outcome_next_of_cons here ?_
  simp only [outcome_peek?, filled, if_false, outcome_bind, outcome_pure]
  refine (complete.sum sum (by simp [closes]; rfl) here.advance).mono ?_
  rintro _ p' ⟨rfl, behind⟩
  exact outcome_close_of_kind behind closes fun p'' last => ⟨rfl, last⟩

theorem application_finds (complete : Complete names inner) {p : Parser}
    {name opening closing : Token} {f : Func} {ts rest : List Token} {e : Expr ν}
    (here : p.At names (name :: opening :: ts)) (opens : opening.kind = .openParen)
    (sum : Reads (.chain .sum) ts e (closing :: rest)) (closes : closing.kind = .closeParen) :
    Finds names (application inner f) p (.apply f [e]) rest := by
  simp only [Finds, application, outcome_bind]
  refine outcome_next_of_cons here ?_
  simp only [outcome_attempt, expect, outcome_bind]
  refine outcome_next_of_cons here.advance ?_
  simp only [opens, if_true, outcome_pure]
  refine (complete.sum sum (by simp [closes]; rfl) here.advance.advance).mono ?_
  rintro _ p' ⟨rfl, behind⟩
  exact outcome_close_of_kind behind closes fun p'' last => ⟨rfl, last⟩

/-- Reading the first component leads to the loop that finds the others. -/
theorem components_continue (complete : Complete names inner) {ts rest : List Token}
    {closing : Token} {es : List (Expr ν)} {p : Parser}
    (reads : Reads .components ts (.apply .vector es) (closing :: rest))
    (closes : closing.kind = .closeSquare) (here : p.At names ts) :
    Outcome inner.sum p
      (fun e p' => p'.rest.length < ts.length ∧ ∀ count, p'.rest.length ≤ count →
        Outcome (components inner count) p'
          (fun found p'' => e :: found = es ∧ p''.At names (closing :: rest)) (Refusal names))
      (Refusal names) := by
  generalize phrase : Phrase.components = phrase at reads
  generalize vector : Expr.apply .vector es = e at reads
  generalize behind : closing :: rest = after at reads
  induction reads generalizing es p with
  | last sum =>
    cases vector
    subst behind
    refine (complete.sum sum (by simp [closes]; rfl) here).mono ?_
    rintro _ p' ⟨rfl, before⟩
    refine ⟨before.rest ▸ sum.length_lt, fun count _ => ?_⟩
    cases count with
    | zero => exact ⟨rfl, before⟩
    | succ count =>
      have ends : p'.rest.head?.map Token.kind ≠ some .comma := by
        simp [before.rest, closes]
      simp only [components, outcome_bind, outcome_peek?, ends, if_false, outcome_pure]
      exact ⟨trivial, before⟩
  | component sum separates components _ ih =>
    cases vector
    subst behind
    refine (complete.sum sum (by simp [separates]; rfl) here).mono ?_
    rintro _ p' ⟨rfl, before⟩
    refine ⟨before.rest ▸ sum.length_lt, fun count enough => ?_⟩
    rw [before.rest] at enough
    cases count with
    | zero => simp at enough
    | succ count =>
      have next : p'.rest.head?.map Token.kind = some .comma := separates ▸ before.head
      simp only [Grammar.components, outcome_bind, outcome_peek?, next, if_true, outcome_advance,
        outcome_pure]
      refine (ih before.advance rfl rfl rfl).mono ?_
      rintro e p'' ⟨shorter, found⟩
      rw [List.length_cons] at enough
      refine (found count (by omega)).mono ?_
      rintro es last ⟨rfl, behind⟩
      exact ⟨rfl, behind⟩
  | _ => cases phrase

theorem vector_finds (complete : Complete names inner) {p : Parser} {opening closing : Token}
    {ts rest : List Token} {es : List (Expr ν)} (here : p.At names (opening :: ts))
    (reads : Reads .components ts (.apply .vector es) (closing :: rest))
    (closes : closing.kind = .closeSquare) :
    Finds names (vector inner) p (.apply .vector es) rest := by
  have filled := (head_of_reads reads).2
  rw [← here.advance.rest] at filled
  simp only [Finds, vector, outcome_bind]
  refine outcome_next_of_cons here ?_
  simp only [outcome_peek?, filled, if_false, outcome_bind, outcome_pure, outcome_get,
    Parser.remaining_eq]
  refine (components_continue complete reads closes here.advance).mono ?_
  rintro e p' ⟨-, found⟩
  refine (found _ (Nat.le_refl _)).mono ?_
  rintro es p'' ⟨rfl, behind⟩
  exact outcome_close_of_kind behind closes fun p'' last => ⟨rfl, last⟩

private theorem primary_function (inner : Grammar ν) {kind : TokenKind} {f : Func}
    (function : Func.ofToken? kind = some f) :
    UnaryOp.ofToken? kind = none ∧ primary inner kind = application inner f := by
  cases kind <;> simp_all [Func.ofToken?, UnaryOp.ofToken?, primary]

/-- The first token of a primary tells which one it is, and no sign starts one. -/
theorem primary_finds (complete : Complete names inner) {p : Parser} {ts rest : List Token}
    {e : Expr ν} (reads : Reads .primary ts e rest) (here : p.At names ts) :
    ∃ kind, p.rest.head?.map Token.kind = some kind ∧ UnaryOp.ofToken? kind = none ∧
      Finds names (primary inner kind) p e rest := by
  cases reads with
  | number kind | euler kind | pi kind =>
    refine ⟨_, here.head, by rw [kind]; rfl, ?_⟩
    rw [kind]
    simp only [Finds, primary, Func.ofToken?, literal, outcome_bind]
    refine outcome_next_of_cons here ?_
    simp only [kind, outcome_pure, true_and]
    exact here.advance
  | letter kind =>
    refine ⟨_, here.head, by rw [kind]; rfl, ?_⟩
    rw [kind]
    exact literal_letter here kind
  | parentheses opens sum closes =>
    refine ⟨_, here.head, by rw [opens]; rfl, ?_⟩
    rw [opens]
    exact parenthesized_finds complete here sum closes
  | @application name f opening ts e closing _ function opens sum closes =>
    obtain ⟨unsigned, same⟩ := primary_function inner function
    refine ⟨_, here.head, unsigned, ?_⟩
    rw [same]
    exact application_finds complete here opens sum closes
  | vector opens components closes =>
    refine ⟨_, here.head, by rw [opens]; rfl, ?_⟩
    rw [opens]
    exact vector_finds complete here components closes

/-- Reading a primary with factorials leads to the loop behind those that have been read. -/
theorem marked_continues (complete : Complete names inner) {p : Parser} {ts mid : List Token}
    {e : Expr ν} (reads : Reads .marked ts e mid) (here : p.At names ts) :
    ∃ kind, p.rest.head?.map Token.kind = some kind ∧ UnaryOp.ofToken? kind = none ∧
      ∀ returns : Expr ν → Parser → Prop,
        (∀ marks p' depth, p'.At names mid → mid.length ≤ marks →
          Outcome (factorialsFrom marks e depth) p' returns (Refusal names)) →
        Outcome (primary inner kind) p
          (fun e p' => Outcome (factorials e) p' returns (Refusal names)) (Refusal names) := by
  generalize same : Phrase.marked = phrase at reads
  induction reads with
  | primary reads =>
    obtain ⟨kind, first, unsigned, found⟩ := primary_finds complete reads here
    refine ⟨kind, first, unsigned, fun returns continued => found.mono ?_⟩
    rintro _ p' ⟨rfl, behind⟩
    simp only [factorials, outcome_bind, outcome_get, Parser.remaining_eq]
    exact continued _ p' _ behind (Nat.le_of_eq (congrArg List.length behind.rest.symm))
  | mark _ bang ih =>
    obtain ⟨kind, first, unsigned, found⟩ := ih here rfl
    refine ⟨kind, first, unsigned, fun returns continued => found returns ?_⟩
    intro marks p' depth before enough
    exact factorialsFrom_mark before bang enough continued
  | _ => cases same

theorem operand_complete (complete : Complete names inner) :
    Parse.Complete names .operand (operand inner) := by
  intro ts e rest p reads closed here
  cases reads with
  | sign sign product ends =>
    simp only [Finds, operand, outcome_bind, outcome_peek?, here.head, sign, outcome_advance,
      outcome_pure]
    refine (complete.signed product ends here.advance).mono ?_
    rintro _ p' ⟨rfl, behind⟩
    exact ⟨rfl, behind⟩
  | marked reads =>
    obtain ⟨kind, first, unsigned, found⟩ := marked_continues complete reads here
    simp only [Finds, operand, outcome_bind, outcome_peek?, first, unsigned]
    refine found _ ?_
    intro marks p' depth behind _
    exact factorialsFrom_closed behind closed marks depth

theorem raised_complete (complete : Complete names inner) :
    Parse.Complete names .power (raised inner) := by
  intro ts e rest p reads closed here
  simp only [Finds, raised, outcome_bind, outcome_peek?]
  cases reads with
  | base reads =>
    obtain ⟨ends, other⟩ := Phrase.closed_power_iff.mp closed
    refine (operand_complete complete reads ends here).mono ?_
    rintro _ p' ⟨rfl, behind⟩
    rw [← behind.rest] at other
    simp only [other, if_false, outcome_pure]
    exact ⟨trivial, behind⟩
  | raise reads caret exponent =>
    refine (operand_complete complete reads (by simp [caret]; rfl) here).mono ?_
    rintro _ p' ⟨rfl, before⟩
    have next : p'.rest.head?.map Token.kind = some .caret := caret ▸ before.head
    simp only [next, if_true, outcome_bind, outcome_advance, outcome_pure]
    refine (complete.power exponent closed before.advance).mono ?_
    rintro _ p'' ⟨rfl, behind⟩
    exact ⟨rfl, behind⟩

/-! ## Levels -/

theorem enclosing_complete (complete : Complete names inner) :
    Complete names (enclosing inner) where
  sum := chain_complete .sum (chain_complete .product
    (chain_complete .quotient (juxtaposed_complete (raised_complete complete))))
  juxtaposition := juxtaposed_complete (raised_complete complete)
  power := raised_complete complete
  signed := complete.juxtaposition

/-- The grammar of every level is complete. Where no level is left the refusal is for nesting. -/
theorem within_complete (room : Nat) : Complete names (within (ν := ν) room) := by
  induction room with
  | zero =>
    exact {
      sum := fun _ _ _ => .tooNested
      juxtaposition := fun _ _ _ => .tooNested
      power := fun _ _ _ => .tooNested
      signed := fun _ _ _ => .tooNested }
  | succ room ih => exact enclosing_complete ih

end Grammar

namespace Parse

variable {ν : Type} [Numeral ν] {names : String → Prop}

theorem equation_complete {grammar : Grammar ν} (complete : grammar.Complete names) {p : Parser}
    {ts : List Token} {e : Expr ν} (reads : Reads .equation ts e []) (here : p.At names ts) :
    Finds names (equation grammar) p e [] := by
  simp only [Finds, equation, outcome_bind, outcome_peek?]
  cases reads with
  | sum sum =>
    refine (complete.sum sum (by simp) here).mono ?_
    rintro _ p' ⟨rfl, behind⟩
    simp only [behind.rest, List.head?_nil, Option.map_none, reduceCtorEq, if_false, outcome_pure]
    exact ⟨trivial, behind⟩
  | equality left equals right =>
    refine (complete.sum left (by simp [equals]; rfl) here).mono ?_
    rintro _ p' ⟨rfl, before⟩
    have next : p'.rest.head?.map Token.kind = some .equals := equals ▸ before.head
    simp only [next, if_true, outcome_bind, outcome_advance, outcome_pure]
    refine (complete.sum right (by simp) before.advance).mono ?_
    rintro _ p'' ⟨rfl, behind⟩
    exact ⟨rfl, behind⟩

/-- Reading all of a row of tokens finds what it stands for as an equation. -/
theorem complete_finds {p : Parser} {ts : List Token} {e : Expr ν} (reads : Reads .equation ts e [])
    (here : p.At names ts) :
    Outcome (complete expression) p (fun found _ => found = e) (Refusal names) := by
  simp only [complete, expression, outcome_bind, outcome_get, outcome_peek?]
  refine (equation_complete (Grammar.within_complete _) reads here).mono ?_
  rintro _ p' ⟨rfl, behind⟩
  simp [behind.rest]

end Parse

/-- A source whose tokens stand for a tree denotes that tree, unless it is refused. -/
theorem Expr.parse_of_reads {ν : Type} [Numeral ν] {names : String → Prop} {source : String}
    {e : Expr ν} (reads : Reads .equation (Token.tokenize source) e [])
    (letters : ∀ token ∈ Token.tokenize source, token.kind = .letter → names token.lexeme) :
    Expr.parse source = .ok e ∨
      ∃ fault, Expr.parse (ν := ν) source = .error fault ∧ Refusal names fault.error := by
  have here : (Parser.ofSource source).At names (Token.tokenize source) := {
    rest := by simp [Parser.ofSource, Parser.rest]
    used := by simp [Parser.ofSource]
    letters := letters }
  have outcome := Parse.complete_finds reads here
  unfold Expr.parse EStateM.run
  unfold Parse.Outcome at outcome
  split
  · rename_i value p ok
    rw [ok] at outcome
    exact .inl (congrArg Except.ok outcome)
  · rename_i fault p error
    rw [error] at outcome
    exact .inr ⟨fault, rfl, outcome⟩

end AlgebraEngine
