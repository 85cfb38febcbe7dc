import AlgebraEngine.Parser.Grammar

/-! What a reader can do from a state, read off its code step by step. A state is described by the
tokens that are left; the cursor and the array of all tokens only stand for that list. -/
namespace AlgebraEngine

theorem Token.cons_of_head? {ts : List Token} {kind : TokenKind}
    (first : ts.head?.map Token.kind = some kind) :
    ∃ token rest, ts = token :: rest ∧ token.kind = kind := by
  cases ts with
  | nil => simp at first
  | cons token rest => exact ⟨token, rest, rfl, by simpa using first⟩

namespace Parser

/-- The tokens still to be read. -/
def rest (p : Parser) : List Token := p.tokens.toList.drop p.cursor

theorem current?_eq (p : Parser) : p.current? = p.rest.head? := by
  simp [current?, rest]

theorem peek?_eq (p : Parser) : p.peek? = p.rest.head?.map Token.kind := by
  rw [peek?, current?_eq]

theorem remaining_eq (p : Parser) : p.remaining = p.rest.length := by
  simp [remaining, rest]

@[simp] theorem rest_advance (p : Parser) : p.advance.rest = p.rest.tail := by
  unfold advance
  split
  · simp [rest]
  · rename_i past
    have none : p.tokens.toList.drop p.cursor = [] := by
      simpa using past
    simp [rest, none]

@[simp] theorem used?_advance (p : Parser) : p.advance.used? = p.used? := by
  unfold advance
  split <;> rfl

end Parser

namespace Parse

variable {α β : Type}

/-- A reader returns a value and leaves a state as promised, or it fails with an error and a place
that are allowed. -/
def Verdict (read : Parse α) (p : Parser) (returns : α → Parser → Prop)
    (blames : SyntaxFault → Prop) : Prop :=
  match read p with
  | .ok value p' => returns value p'
  | .error fault _ => blames fault

section Verdict

variable {p : Parser} {returns : α → Parser → Prop} {blames : SyntaxFault → Prop}

/-- What is known of a reader can be used whatever it ends with. -/
theorem Verdict.elim {read : Parse α} {returns' : α → Parser → Prop}
    {blames' : SyntaxFault → Prop} (verdict : Verdict read p returns blames)
    (returned : ∀ value p', returns value p' → returns' value p')
    (blamed : ∀ fault, blames fault → blames' fault) : Verdict read p returns' blames' := by
  unfold Verdict at verdict ⊢
  split
  · rename_i value p' ok
    rw [ok] at verdict
    exact returned value p' verdict
  · rename_i fault p' error
    rw [error] at verdict
    exact blamed fault verdict

theorem Verdict.congr {read : Parse α} {returns' : α → Parser → Prop}
    (same : ∀ value p', returns value p' ↔ returns' value p') :
    Verdict read p returns blames ↔ Verdict read p returns' blames :=
  ⟨fun verdict => verdict.elim (fun value p' => (same value p').mp) fun _ => id,
    fun verdict => verdict.elim (fun value p' => (same value p').mpr) fun _ => id⟩

@[simp] theorem verdict_pure {value : α} :
    Verdict (pure value) p returns blames ↔ returns value p := Iff.rfl

@[simp] theorem verdict_bind {read : Parse β} {next : β → Parse α} :
    Verdict (read >>= next) p returns blames ↔
      Verdict read p (fun value p' => Verdict (next value) p' returns blames) blames := by
  simp only [Verdict, bind, EStateM.bind]
  cases read p <;> rfl

@[simp] theorem verdict_map {read : Parse β} {f : β → α} :
    Verdict (f <$> read) p returns blames ↔
      Verdict read p (fun value p' => returns (f value) p') blames := by
  simp only [Verdict, Functor.map, EStateM.map]
  cases read p <;> rfl

@[simp] theorem verdict_get {returns : Parser → Parser → Prop} :
    Verdict get p returns blames ↔ returns p p := Iff.rfl

@[simp] theorem verdict_failAt {span : Span} {error : SyntaxError} :
    Verdict (failAt span error) p returns blames ↔ blames ⟨error, [span]⟩ := Iff.rfl

@[simp] theorem verdict_fail {error : SyntaxError} :
    Verdict (fail error) p returns blames ↔ blames ⟨error, [p.span]⟩ := Iff.rfl

@[simp] theorem verdict_peek? {returns : Option TokenKind → Parser → Prop} :
    Verdict peek? p returns blames ↔ returns (p.rest.head?.map Token.kind) p := by
  rw [← Parser.peek?_eq]
  rfl

@[simp] theorem verdict_advance {returns : Unit → Parser → Prop} :
    Verdict advance p returns blames ↔ returns () p.advance := Iff.rfl

theorem verdict_ite {c : Prop} [Decidable c] {read read' : Parse α} :
    Verdict (if c then read else read') p returns blames ↔
      (c → Verdict read p returns blames) ∧ (¬c → Verdict read' p returns blames) := by
  split <;> simp_all

/-- Taking a token fails only where none is left. -/
@[simp] theorem verdict_next {returns : Token → Parser → Prop} :
    Verdict next p returns blames ↔
      (∀ token rest, p.rest = token :: rest → returns token p.advance) ∧
        (p.rest = [] → blames ⟨.unexpectedEnd, [p.span]⟩) := by
  unfold next
  simp only [verdict_bind, verdict_get, Parser.current?_eq]
  cases p.rest with
  | nil => simp
  | cons token rest => simp

/-- Moving the cursor back after a failure does not change what the failure is. -/
@[simp] theorem verdict_attempt {read : Parse α} :
    Verdict (attempt read) p returns blames ↔ Verdict read p returns blames := by
  simp only [Verdict, attempt]
  cases read p <;> rfl

@[simp] theorem verdict_checkTreeDepth {depth : Nat} {returns : Unit → Parser → Prop} :
    Verdict (checkTreeDepth depth) p returns blames ↔
      (depth ≤ maxTreeDepth → returns () p) ∧
        (maxTreeDepth < depth → blames ⟨.tooNested, [p.span]⟩) := by
  unfold checkTreeDepth
  by_cases deep : maxTreeDepth < depth
  · simp [deep, Nat.not_le.mpr deep]
  · simp [deep, Nat.not_lt.mp deep]

@[simp] theorem verdict_useVariable {name : String} {span : Span}
    {returns : Unit → Parser → Prop} :
    Verdict (useVariable name span) p returns blames ↔
      (p.used? = none → returns () { p with used? := some name }) ∧
        ∀ first, p.used? = some first → (first = name → returns () p) ∧
          (first ≠ name → blames ⟨.multipleVariables first name, [span]⟩) := by
  unfold useVariable
  simp only [verdict_bind, verdict_get]
  cases p.used? with
  | none =>
    simp only [forall_const, reduceCtorEq, false_imp_iff, and_true]
    rfl
  | some first => simp [verdict_ite]

/-- Taking a closing token fails where another token or none is next. -/
@[simp] theorem verdict_close {kind : TokenKind} {opening : Span} {error : SyntaxError}
    {returns : Unit → Parser → Prop} :
    Verdict (close kind opening error) p returns blames ↔
      (p.rest.head?.map Token.kind = some kind → returns () p.advance) ∧
        (p.rest.head?.map Token.kind ≠ some kind → blames ⟨error, [opening]⟩) := by
  unfold close
  simp only [verdict_bind, verdict_peek?, verdict_ite, verdict_advance, verdict_failAt, ne_eq]

/-- Taking a token of one kind fails where another token or none is next. -/
@[simp] theorem verdict_expect {kind : TokenKind} {returns : Token → Parser → Prop} :
    Verdict (expect kind) p returns blames ↔
      (∀ token rest, p.rest = token :: rest →
        (token.kind = kind → returns token p.advance) ∧
          (token.kind ≠ kind → blames ⟨.unexpectedToken [kind] token.kind, [token.span]⟩)) ∧
        (p.rest = [] → blames ⟨.unexpectedEnd, [p.span]⟩) := by
  unfold expect
  simp only [verdict_bind, verdict_next, verdict_ite, verdict_pure, verdict_failAt, ne_eq]

@[simp] theorem verdict_operator? {ops : List BinaryOp}
    {returns : Option BinaryOp → Parser → Prop} :
    Verdict (operator? ops) p returns blames ↔
      returns (((p.rest.head?.map Token.kind).bind BinaryOp.ofToken?).filter (ops.contains ·))
        p := by
  simp only [operator?, verdict_bind, verdict_peek?, verdict_pure]

/-- Reading all of a source fails where a token is left over. -/
@[simp] theorem verdict_complete {read : Parse α} :
    Verdict (complete read) p returns blames ↔
      Verdict read p (fun value p' => (p'.rest = [] → returns value p') ∧
        (p'.rest ≠ [] → blames ⟨if p'.rest.head?.map Token.kind = some .closeParen
          then .unclosedParenthesis false else .expectedEnd, [p'.span]⟩)) blames := by
  simp only [complete, verdict_bind, verdict_peek?]
  refine Verdict.congr fun value p' => ?_
  cases p'.rest with
  | nil => simp
  | cons token rest =>
    simp only [List.head?_cons, Option.map_some]
    split <;> simp_all

end Verdict

/-- A reader returns a value and leaves a state as promised, or it fails with an error that is
allowed. -/
def Outcome (read : Parse α) (p : Parser) (returns : α → Parser → Prop)
    (fails : SyntaxError → Prop) : Prop :=
  match read p with
  | .ok value p' => returns value p'
  | .error fault _ => fails fault.error

variable {p : Parser} {returns : α → Parser → Prop} {fails : SyntaxError → Prop}

/-- An outcome is a verdict that allows an error at every place. -/
theorem outcome_iff {read : Parse α} :
    Outcome read p returns fails ↔ Verdict read p returns fun fault => fails fault.error := Iff.rfl

theorem Outcome.mono {read : Parse α} {returns' : α → Parser → Prop}
    (outcome : Outcome read p returns fails)
    (weaker : ∀ value p', returns value p' → returns' value p') :
    Outcome read p returns' fails :=
  Verdict.elim outcome weaker fun _ => id

/-- What a reader returns, told by two accounts of it. -/
theorem Verdict.and {read : Parse α} {returns' : α → Parser → Prop} {blames : SyntaxFault → Prop}
    (verdict : Verdict read p returns blames) (outcome : Outcome read p returns' fails) :
    Verdict read p (fun value p' => returns value p' ∧ returns' value p') blames := by
  unfold Outcome at outcome
  unfold Verdict at verdict ⊢
  cases run : read p with
  | ok value p' =>
    rw [run] at outcome verdict
    exact ⟨verdict, outcome⟩
  | error fault p' =>
    rw [run] at verdict
    exact verdict

/-- What a reader returns comes with the run of it. -/
theorem Verdict.returning {read : Parse α} {returns : α → Parser → Prop}
    {blames : SyntaxFault → Prop} (verdict : Verdict read p returns blames) :
    Verdict read p (fun value q => returns value q ∧ read p = .ok value q) blames := by
  unfold Verdict at verdict ⊢
  cases run : read p with
  | ok value q => exact ⟨by rwa [run] at verdict, rfl⟩
  | error fault q => rwa [run] at verdict

@[simp] theorem outcome_pure {value : α} :
    Outcome (pure value) p returns fails ↔ returns value p := Iff.rfl

@[simp] theorem outcome_bind {read : Parse β} {next : β → Parse α} :
    Outcome (read >>= next) p returns fails ↔
      Outcome read p (fun value p' => Outcome (next value) p' returns fails) fails := by
  simp only [outcome_iff, verdict_bind]

@[simp] theorem outcome_get {returns : Parser → Parser → Prop} :
    Outcome get p returns fails ↔ returns p p := Iff.rfl

@[simp] theorem outcome_failAt {span : Span} {error : SyntaxError} :
    Outcome (failAt span error) p returns fails ↔ fails error := Iff.rfl

@[simp] theorem outcome_fail {error : SyntaxError} :
    Outcome (fail error) p returns fails ↔ fails error := Iff.rfl

@[simp] theorem outcome_peek? {returns : Option TokenKind → Parser → Prop} :
    Outcome peek? p returns fails ↔ returns (p.rest.head?.map Token.kind) p := by
  simp only [outcome_iff, verdict_peek?]

@[simp] theorem outcome_advance {returns : Unit → Parser → Prop} :
    Outcome advance p returns fails ↔ returns () p.advance := Iff.rfl

theorem outcome_ite {c : Prop} [Decidable c] {read read' : Parse α} :
    Outcome (if c then read else read') p returns fails ↔
      (c → Outcome read p returns fails) ∧ (¬c → Outcome read' p returns fails) := by
  simp only [outcome_iff, verdict_ite]

/-- Taking a token fails only where none is left. -/
@[simp] theorem outcome_next {returns : Token → Parser → Prop} :
    Outcome next p returns fails ↔
      (∀ token rest, p.rest = token :: rest → returns token p.advance) ∧
        (p.rest = [] → fails .unexpectedEnd) := by
  simp only [outcome_iff, verdict_next]

/-- Moving the cursor back after a failure does not change what the failure is. -/
@[simp] theorem outcome_attempt {read : Parse α} :
    Outcome (attempt read) p returns fails ↔ Outcome read p returns fails := by
  simp only [outcome_iff, verdict_attempt]

@[simp] theorem outcome_checkTreeDepth {depth : Nat} {returns : Unit → Parser → Prop} :
    Outcome (checkTreeDepth depth) p returns fails ↔
      (depth ≤ maxTreeDepth → returns () p) ∧ (maxTreeDepth < depth → fails .tooNested) := by
  simp only [outcome_iff, verdict_checkTreeDepth]

@[simp] theorem outcome_useVariable {name : String} {span : Span}
    {returns : Unit → Parser → Prop} :
    Outcome (useVariable name span) p returns fails ↔
      (p.used? = none → returns () { p with used? := some name }) ∧
        ∀ first, p.used? = some first → (first = name → returns () p) ∧
          (first ≠ name → fails (.multipleVariables first name)) := by
  simp only [outcome_iff, verdict_useVariable]

/-- Taking a closing token fails where another token or none is next. -/
@[simp] theorem outcome_close {kind : TokenKind} {opening : Span} {error : SyntaxError}
    {returns : Unit → Parser → Prop} :
    Outcome (close kind opening error) p returns fails ↔
      (p.rest.head?.map Token.kind = some kind → returns () p.advance) ∧
        (p.rest.head?.map Token.kind ≠ some kind → fails error) := by
  simp only [outcome_iff, verdict_close]

/-- Taking a token of one kind fails where another token or none is next. -/
@[simp] theorem outcome_expect {kind : TokenKind} {returns : Token → Parser → Prop} :
    Outcome (expect kind) p returns fails ↔
      (∀ token rest, p.rest = token :: rest →
        (token.kind = kind → returns token p.advance) ∧
          (token.kind ≠ kind → fails (.unexpectedToken [kind] token.kind))) ∧
        (p.rest = [] → fails .unexpectedEnd) := by
  simp only [outcome_iff, verdict_expect]

@[simp] theorem outcome_operator? {ops : List BinaryOp} {p : Parser}
    {returns : Option BinaryOp → Parser → Prop} {fails : SyntaxError → Prop} :
    Outcome (operator? ops) p returns fails ↔
      returns (((p.rest.head?.map Token.kind).bind BinaryOp.ofToken?).filter (ops.contains ·))
        p := by
  simp only [outcome_iff, verdict_operator?]

/-- Reading all of a source fails where a token is left over. -/
@[simp] theorem outcome_complete {read : Parse α} :
    Outcome (complete read) p returns fails ↔
      Outcome read p (fun value p' => (p'.rest = [] → returns value p') ∧
        (p'.rest ≠ [] → fails (if p'.rest.head?.map Token.kind = some .closeParen
          then .unclosedParenthesis false else .expectedEnd))) fails := by
  simp only [outcome_iff, verdict_complete]

section Sources

variable {ν : Type} [Numeral ν] {source : String}

/-- What parsing a source ends with is the verdict on reading all of it. -/
theorem Verdict.of_parse {returns : Expr ν → Prop} {blames : SyntaxFault → Prop}
    (verdict : Verdict (complete expression) (.ofSource source) (fun e _ => returns e) blames) :
    (∀ e : Expr ν, Expr.parse source = .ok e → returns e) ∧
      ∀ fault, Expr.parse (ν := ν) source = .error fault → blames fault := by
  unfold Verdict at verdict
  unfold Expr.parse EStateM.run
  split at verdict
  · rename_i ok
    rw [ok]
    refine ⟨?_, nofun⟩
    rintro _ ⟨⟩
    exact verdict
  · rename_i error
    rw [error]
    refine ⟨nofun, ?_⟩
    rintro _ ⟨⟩
    exact verdict

/-- A source denotes only what reading all of it returns. -/
theorem Outcome.of_parse {e : Expr ν} {returns : Expr ν → Prop} {fails : SyntaxError → Prop}
    (outcome : Outcome (complete expression) (.ofSource source) (fun e _ => returns e) fails)
    (parsed : Expr.parse source = .ok e) : returns e :=
  (Verdict.of_parse (outcome_iff.mp outcome)).1 e parsed

end Sources

end Parse

namespace Expr

/-- The fault that a source is refused for, if it is. -/
def fault? (ν : Type) [Numeral ν] (source : String) : Option SyntaxFault :=
  match parse (ν := ν) source with
  | .ok _ => none
  | .error fault => some fault

theorem parse_of_fault? {ν : Type} [Numeral ν] {source : String} {fault : SyntaxFault}
    (refused : fault? ν source = some fault) : parse (ν := ν) source = .error fault := by
  unfold fault? at refused
  split at refused
  · cases refused
  · rename_i error
    exact error.trans (congrArg Except.error (Option.some.inj refused))

end Expr

end AlgebraEngine
