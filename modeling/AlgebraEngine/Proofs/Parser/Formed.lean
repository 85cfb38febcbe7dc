import AlgebraEngine.Proofs.Expr.Formed
import AlgebraEngine.Proofs.Parser.Completeness
import AlgebraEngine.Proofs.Parser.Soundness
import AlgebraEngine.Proofs.Token.Covering

/-! The form of what the parser returns. A variable without a coefficient is the last factor of a
product, the base or the exponent of a power, or the operand of a factorial, and the whole tree uses
one letter, the one that the parser has recorded. -/
namespace AlgebraEngine

open AlgebraEngine.Expr

namespace Token

/-- A name of one letter other than the one that stands for a constant. -/
def IsLetter (name : String) : Prop := ∃ c, name.toList = [c] ∧ c.isAlpha = true ∧ c ≠ 'e'

/-- The kind of a constant is tried before that of a letter. -/
theorem isLetter_of_chosen {lexeme cs : List Char}
    (chosen : TokenKind.Chosen .letter lexeme cs) : IsLetter (String.ofList lexeme) := by
  generalize kind : TokenKind.letter = k at chosen
  generalize shape : k.pattern = pattern at *
  have matched := chosen.matched
  rw [shape] at matched
  subst kind
  cases shape
  cases matched with
  | @letter c alpha =>
    refine ⟨c, String.toList_ofList, alpha, ?_⟩
    rintro rfl
    exact absurd (chosen.specific .euler (.character 'e')) (by decide)

theorem Splits.isLetter {offset : Nat} {cs : List Char} {tokens : List Token}
    (split : Splits offset cs tokens) :
    ∀ token ∈ tokens, token.kind = .letter → IsLetter token.lexeme := by
  induction split with
  | done => simp
  | token nonempty chosen behind ih =>
    intro token member letter
    rcases List.mem_cons.mp member with rfl | member
    · cases letter
      exact isLetter_of_chosen chosen
    · exact ih token member letter

theorem isLetter_of_mem_tokenize {source : String} :
    ∀ token ∈ tokenize source, token.kind = .letter → IsLetter token.lexeme :=
  fun token member => (scanFrom_splits 0 source.toList).isLetter token (List.mem_filter.mp member).1

end Token

namespace Parser

variable {p q r : Parser}

/-- What reading keeps: a recorded variable stays, and no names are used or to come that were not
before. -/
structure Onward (p q : Parser) : Prop where
  used? : ∀ name, p.used? = some name → q.used? = some name
  names : ∀ names, p.At names p.rest → q.At names q.rest

theorem Onward.refl (p : Parser) : p.Onward p := ⟨fun _ => id, fun _ => id⟩

theorem Onward.trans (first : p.Onward q) (second : q.Onward r) : p.Onward r :=
  ⟨fun name => second.used? name ∘ first.used? name,
    fun names => second.names names ∘ first.names names⟩

theorem onward_advance (p : Parser) : p.Onward p.advance where
  used? := by simp
  names names here := by
    refine ⟨rfl, by simpa using here.used, fun token member => here.letters token ?_⟩
    rw [rest_advance] at member
    exact List.mem_of_mem_tail member

theorem onward_use {token : Token} {rest : List Token} (next : p.rest = token :: rest)
    (letter : token.kind = .letter) (unused : p.used? = none) :
    p.Onward { p.advance with used? := some token.lexeme } where
  used? name used := by simp [unused] at used
  names names here := by
    have behind := (p.onward_advance).names names here
    refine ⟨rfl, ?_, behind.letters⟩
    rintro _ ⟨⟩
    exact here.letters token (by simp [next]) letter

end Parser

namespace Parse

variable {ν : Type} {alone : Bool} {e : Expr ν} {p q r : Parser}

/-- A tree that has been read is formed with the variable that is recorded by then. -/
def Made (alone : Bool) (p : Parser) (e : Expr ν) (q : Parser) : Prop :=
  Formed (q.used? = some ·) alone e ∧ p.Onward q

/-- Whenever a reader returns, the tree is formed. -/
def Forms (alone : Bool) (read : Parse (Expr ν)) : Prop :=
  ∀ p, Outcome read p (Made alone p) fun _ => True

theorem Made.onward (made : Made alone p e q) (onward : q.Onward r) : Made alone p e r :=
  ⟨made.1.mono onward.used?, made.2.trans onward⟩

theorem chainFrom_forms {ops : List BinaryOp} {operand : Parse (Expr ν)}
    (forms : Forms false operand) (below : .pow ∉ ops) (links : Nat) (start p : Parser)
    (lhs : Expr ν) (depth : Nat) (before : Made false start lhs p) :
    Outcome (chainFrom ops operand links lhs depth) p (Made false start) fun _ => True := by
  induction links generalizing p lhs depth with
  | zero => exact before
  | succ links ih =>
    simp only [chainFrom, outcome_bind, outcome_operator?]
    split
    · exact before
    · rename_i o some
      obtain ⟨sign, mid, -, -, member⟩ := operator?_eq_some some
      simp only [outcome_bind, outcome_next, implies_true, and_true]
      intro _ _ _
      refine (forms p.advance).mono ?_
      rintro rhs p' ⟨right, onward⟩
      simp only [outcome_checkTreeDepth, implies_true, and_true]
      intro _
      have left := before.onward ((p.onward_advance).trans onward)
      have loose : o ≠ .pow := fun pow => below (pow ▸ member)
      refine ih p' _ _ ⟨.binary ?_ right.widen, left.2⟩
      simpa [loose] using left.1

theorem chain_forms {ops : List BinaryOp} {operand : Parse (Expr ν)} (forms : Forms false operand)
    (below : .pow ∉ ops) : Forms false (chain ops operand) := by
  intro p
  simp only [chain, outcome_bind, outcome_get]
  refine (forms p).mono ?_
  intro lhs p' made
  exact chainFrom_forms forms below _ p p' lhs _ made

theorem juxtaposedFrom_forms {factor : Parse (Expr ν)} (forms : Forms true factor) (links : Nat)
    (start p : Parser) (lhs : Expr ν) (depth : Nat) (before : Made false start lhs p) :
    Outcome (juxtaposedFrom factor links lhs depth) p (Made false start) fun _ => True := by
  induction links generalizing p lhs depth with
  | zero => exact before
  | succ links ih =>
    simp only [juxtaposedFrom, outcome_bind, outcome_peek?, outcome_ite, outcome_pure]
    refine ⟨fun _ => ?_, fun _ => before⟩
    refine (forms p).mono ?_
    rintro rhs p' ⟨right, onward⟩
    simp only [outcome_checkTreeDepth, implies_true, and_true]
    intro _
    have left := before.onward onward
    exact ih p' _ _ ⟨.binary left.1 right, left.2⟩

theorem withCoefficient_formed [Arithmetic ν] {named : String → Prop}
    (formed : Formed named true e) : Formed named false (withCoefficient e) := by
  cases formed with
  | var known => exact .binary (.number _) (.var known)
  | number value => exact .number value
  | const constant => exact .const constant
  | binary left right => exact .binary left right
  | unary operand => exact .unary operand
  | vector nonempty components => exact .vector nonempty components
  | call function argument => exact .call function argument

theorem juxtaposed_forms [Arithmetic ν] {factor : Parse (Expr ν)} (forms : Forms true factor) :
    Forms false (juxtaposed factor) := by
  intro p
  simp only [juxtaposed, outcome_bind, outcome_get]
  refine (forms p).mono ?_
  rintro lhs p' ⟨formed, onward⟩
  exact juxtaposedFrom_forms forms _ p p' _ _ ⟨withCoefficient_formed formed, onward⟩

theorem factorialsFrom_forms (marks : Nat) (start p : Parser) (e : Expr ν) (depth : Nat)
    (before : Made true start e p) :
    Outcome (factorialsFrom marks e depth) p (Made true start) fun _ => True := by
  induction marks generalizing p e depth with
  | zero => exact before
  | succ marks ih =>
    simp only [factorialsFrom, outcome_bind, outcome_peek?, outcome_ite, outcome_pure,
      outcome_checkTreeDepth, outcome_advance, implies_true, and_true]
    refine ⟨fun _ _ => ?_, fun _ => before⟩
    have operand := before.onward p.onward_advance
    exact ih p.advance _ _ ⟨.call (by decide) operand.1, operand.2⟩

theorem literal_forms [Numeral ν] : Forms true (literal (ν := ν)) := by
  intro p
  simp only [literal, outcome_bind, outcome_next, implies_true, and_true]
  intro token rest next
  split
  · exact ⟨.number _, p.onward_advance⟩
  · exact ⟨.const .e, p.onward_advance⟩
  · exact ⟨.const .pi, p.onward_advance⟩
  · rename_i letter
    simp only [outcome_bind, outcome_useVariable, outcome_pure, implies_true, and_true,
      Parser.used?_advance]
    refine ⟨fun unused => ⟨.var rfl, Parser.onward_use next letter unused⟩, ?_⟩
    rintro _ used rfl
    exact ⟨.var (by simpa using used), p.onward_advance⟩
  · trivial

end Parse

namespace Grammar

open Parse

variable {ν : Type} {inner : Grammar ν}

/-- Every part of a grammar returns formed trees. -/
structure Forms (grammar : Grammar ν) : Prop where
  sum : Parse.Forms false grammar.sum
  juxtaposition : Parse.Forms false grammar.juxtaposition
  power : Parse.Forms true grammar.power
  signed : Parse.Forms false grammar.signed

private theorem close_forms {alone : Bool} {e : Expr ν} {start p : Parser} {kind : TokenKind}
    {opening : Span} {error : SyntaxError} (before : Made alone start e p) :
    Outcome (close kind opening error) p (fun _ q => Made alone start e q) fun _ => True := by
  simp only [outcome_close, implies_true, and_true]
  exact fun _ => before.onward p.onward_advance

theorem parenthesized_forms (forms : Forms inner) : Parse.Forms true (parenthesized inner) := by
  intro p
  simp only [parenthesized, outcome_bind, outcome_next, outcome_peek?, outcome_ite, outcome_get,
    outcome_failAt, outcome_pure, implies_true, true_and, and_true]
  intro _ _ _ _
  refine (forms.sum p.advance).mono ?_
  rintro e p' ⟨formed, onward⟩
  exact close_forms ⟨formed.widen, (p.onward_advance).trans onward⟩

theorem application_forms (forms : Forms inner) {f : Func} (scalar : f ≠ .vector) :
    Parse.Forms true (application inner f) := by
  intro p
  simp only [application, outcome_bind, outcome_next, outcome_attempt, outcome_expect,
    outcome_pure, implies_true, and_true]
  intro _ _ _ _ _ _ _
  refine (forms.sum p.advance.advance).mono ?_
  rintro e p' ⟨formed, onward⟩
  have start : p.Onward p' := ((p.onward_advance).trans p.advance.onward_advance).trans onward
  have made : Made true p (.apply f [e]) p' := ⟨.call scalar formed.widen, start⟩
  exact close_forms made

/-- The components that are read behind those of a vector are formed as they are. -/
theorem components_forms (forms : Forms inner) (count : Nat) (start p : Parser)
    (before : start.Onward p) :
    Outcome (components inner count) p
      (fun es q => (∀ e ∈ es, Formed (q.used? = some ·) false e) ∧ p.Onward q)
      fun _ => True := by
  induction count generalizing p with
  | zero => exact ⟨by simp, .refl p⟩
  | succ count ih =>
    simp only [components, outcome_bind, outcome_peek?, outcome_ite, outcome_advance, outcome_pure]
    refine ⟨fun _ => ?_, fun _ => ⟨by simp, .refl p⟩⟩
    refine (forms.sum p.advance).mono ?_
    rintro e p' ⟨formed, onward⟩
    have here := (p.onward_advance).trans onward
    refine (ih p' (before.trans here)).mono ?_
    rintro es q ⟨behind, onward'⟩
    refine ⟨?_, here.trans onward'⟩
    rw [List.forall_mem_cons]
    exact ⟨formed.mono onward'.used?, behind⟩

theorem vector_forms (forms : Forms inner) : Parse.Forms true (vector inner) := by
  intro p
  simp only [vector, outcome_bind, outcome_next, outcome_peek?, outcome_ite, outcome_get,
    outcome_failAt, outcome_pure, implies_true, true_and, and_true]
  intro _ _ _ _
  refine (forms.sum p.advance).mono ?_
  rintro e p' ⟨formed, onward⟩
  have here := (p.onward_advance).trans onward
  refine (components_forms forms _ p p' here).mono ?_
  rintro es q ⟨behind, onward'⟩
  refine close_forms ⟨.vector (by simp) ?_, here.trans onward'⟩
  rw [List.forall_mem_cons]
  exact ⟨formed.mono onward'.used?, behind⟩

variable [Numeral ν]

private theorem scalar_of_ofToken? {kind : TokenKind} {f : Func}
    (function : Func.ofToken? kind = some f) : f ≠ .vector := by
  cases kind <;> simp_all [Func.ofToken?] <;> rintro rfl <;> cases function

theorem primary_forms (forms : Forms inner) (kind : TokenKind) :
    Parse.Forms true (primary inner kind) := by
  unfold primary
  split
  · exact parenthesized_forms forms
  · exact vector_forms forms
  · intro p
    simp
  · intro p
    simp
  · split
    · rename_i f function
      exact application_forms forms (scalar_of_ofToken? function)
    · exact literal_forms

theorem operand_forms (forms : Forms inner) : Parse.Forms true (operand inner) := by
  intro p
  simp only [operand, outcome_bind, outcome_peek?]
  split
  · simp
  · split
    · simp only [outcome_bind, outcome_advance, outcome_pure]
      refine (forms.signed p.advance).mono ?_
      rintro e p' ⟨formed, onward⟩
      exact ⟨.unary formed, (p.onward_advance).trans onward⟩
    · simp only [outcome_bind, factorials, outcome_get]
      exact (primary_forms forms _ p).mono fun e p' made => factorialsFrom_forms _ p p' e _ made

theorem raised_forms (forms : Forms inner) : Parse.Forms true (raised inner) := by
  intro p
  simp only [raised, outcome_bind, outcome_peek?, outcome_ite, outcome_advance, outcome_pure]
  refine (operand_forms forms p).mono ?_
  intro b p' base
  refine ⟨fun _ => ?_, fun _ => base⟩
  refine (forms.power p'.advance).mono ?_
  rintro e p'' ⟨exponent, onward⟩
  have left := base.onward ((p'.onward_advance).trans onward)
  exact ⟨.binary left.1 exponent, left.2⟩

theorem enclosing_forms (forms : Forms inner) : Forms (enclosing inner) where
  sum := chain_forms (chain_forms (chain_forms (juxtaposed_forms (raised_forms forms))
    (by decide)) (by decide)) (by decide)
  juxtaposition := juxtaposed_forms (raised_forms forms)
  power := raised_forms forms
  signed := forms.juxtaposition

/-- The grammar of every level returns formed trees. -/
theorem within_forms (room : Nat) : Forms (within (ν := ν) room) := by
  induction room with
  | zero =>
    exact {
      sum := by intro p; simp [within, refused]
      juxtaposition := by intro p; simp [within, refused]
      power := by intro p; simp [within, refused]
      signed := by intro p; simp [within, refused] }
  | succ room ih => exact enclosing_forms ih

end Grammar

namespace Parse

variable {ν : Type}

theorem equation_forms {grammar : Grammar ν} (forms : grammar.Forms) (p : Parser) :
    Outcome (equation grammar) p (fun e q => Whole (q.used? = some ·) e ∧ p.Onward q)
      fun _ => True := by
  simp only [equation, outcome_bind, outcome_peek?, outcome_ite, outcome_advance, outcome_pure]
  refine (forms.sum p).mono ?_
  intro l p' left
  refine ⟨fun _ => ?_, fun _ => ⟨.expression left.1, left.2⟩⟩
  refine (forms.sum p'.advance).mono ?_
  rintro r p'' ⟨right, onward⟩
  have left' := left.onward ((p'.onward_advance).trans onward)
  exact ⟨.equality left'.1 right, left'.2⟩

/-- Reading all of a source returns a tree that is formed with one letter for the variable, with any
letter if it has none. -/
theorem complete_forms [Numeral ν] (source : String) :
    Outcome (complete (expression (ν := ν))) (.ofSource source)
      (fun e _ => ∃ letter : Char, letter.isAlpha = true ∧ letter ≠ 'e' ∧
        e.Whole fun name => name.toList = [letter]) fun _ => True := by
  have start : (Parser.ofSource source).At Token.IsLetter (Parser.ofSource source).rest := by
    refine ⟨rfl, by simp [Parser.ofSource], ?_⟩
    simpa [Parser.ofSource, Parser.rest] using Token.isLetter_of_mem_tokenize
  simp only [outcome_complete, expression, outcome_bind, outcome_get, implies_true, and_true]
  refine (equation_forms (Grammar.within_forms _) _).mono ?_
  rintro e q ⟨whole, onward⟩ -
  cases used : q.used? with
  | none =>
    refine ⟨'x', by decide, by decide, whole.mono fun name known => ?_⟩
    rw [used] at known
    cases known
  | some name =>
    obtain ⟨letter, spelled, alpha, other⟩ := (onward.names _ start).used name used
    refine ⟨letter, alpha, other, whole.mono fun name' known => ?_⟩
    rw [used] at known
    cases known
    exact spelled

end Parse

/-- A tree that a source denotes is formed with one letter for the variable. -/
theorem Expr.whole_of_parse {ν : Type} [Numeral ν] {source : String} {e : Expr ν}
    (parsed : Expr.parse source = .ok e) :
    ∃ letter : Char, letter.isAlpha = true ∧ letter ≠ 'e' ∧
      e.Whole fun name => name.toList = [letter] :=
  (Parse.complete_forms source).of_parse parsed

end AlgebraEngine
