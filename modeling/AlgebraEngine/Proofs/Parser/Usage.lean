import AlgebraEngine.Number.Machine
import AlgebraEngine.Proofs.Parser.Descent
import AlgebraEngine.Proofs.Parser.Soundness

/-! Using a parser. A use is any program over the operations of a parser: it looks at the state,
performs operations in any order, hands programs of its own to `attempt`, `complete` and `nested`,
and goes on after a failure as it likes. Whatever the use, every operation it performs, also inside
another one, finds the parser in order and leaves it in order. -/
namespace AlgebraEngine

open Parse

mutual

/-- An operation of a parser. -/
inductive Operation : Type → Type 1 where
  /-- Looks at the state: the next token, a span, or anything else. -/
  | observe {β : Type} (f : Parser → β) : Operation β
  | advance : Operation Unit
  | next : Operation Token
  | useVariable (name : String) (span : Span) : Operation Unit
  | checkTreeDepth (depth : Nat) : Operation Unit
  | attempt {β : Type} (use : Usage β) : Operation β
  | complete {β : Type} (use : Usage β) : Operation β
  | nested {β : Type} (use : Usage β) : Operation β

/-- A use of a parser: it ends with a result, or performs an operation and goes on with what the
operation ended with. -/
inductive Usage : Type → Type 1 where
  | result {α : Type} (result : Except SyntaxFault α) : Usage α
  | step {α β : Type} (op : Operation β) (rest : Except SyntaxFault β → Usage α) : Usage α

end

mutual

/-- What an operation does. -/
def Operation.perform : {β : Type} → Operation β → Parse β
  | _, .observe f => do return f (← get)
  | _, .advance => Parse.advance
  | _, .next => Parse.next
  | _, .useVariable name span => Parse.useVariable name span
  | _, .checkTreeDepth depth => Parse.checkTreeDepth depth
  | _, .attempt use => Parse.attempt use.run
  | _, .complete use => Parse.complete use.run
  | _, .nested use => Parse.nested use.run

/-- What a use does. -/
def Usage.run : {α : Type} → Usage α → Parse α
  | _, .result (.ok value) => pure value
  | _, .result (.error fault) => throw fault
  | _, .step op rest => fun p => (rest (op.perform.ended p)).run (op.perform.after p)

end

/-- During a use that starts in a state an operation is performed in a state, be it by the use
itself or by a program that the use hands to another operation. A program that is handed to `nested`
starts in the state that `nested` lets a program see, if it lets it see any. -/
inductive Usage.Performs {β : Type} (op : Operation β) (q : Parser) :
    {α : Type} → Usage α → Parser → Prop where
  | now {α : Type} (rest : Except SyntaxFault β → Usage α) : Performs op q (.step op rest) q
  | later {α γ : Type} {first : Operation γ} {rest : Except SyntaxFault γ → Usage α} {p : Parser}
      (performs : Performs op q (rest (first.perform.ended p)) (first.perform.after p)) :
      Performs op q (.step first rest) p
  | attempt {α γ : Type} {use : Usage γ} {p : Parser} (rest : Except SyntaxFault γ → Usage α)
      (performs : Performs op q use p) : Performs op q (.step (.attempt use) rest) p
  | complete {α γ : Type} {use : Usage γ} {p : Parser} (rest : Except SyntaxFault γ → Usage α)
      (performs : Performs op q use p) : Performs op q (.step (.complete use) rest) p
  | nested {α γ : Type} {use : Usage γ} {p inner : Parser} (rest : Except SyntaxFault γ → Usage α)
      (enters : (Parse.nested get).ended p = .ok inner) (performs : Performs op q use inner) :
      Performs op q (.step (.nested use) rest) p

/-! ## What operations keep -/

namespace Parser

/-- Whether a parser is in order: the cursor is at a token or behind the last one, and no more
levels have been entered than there are. -/
structure InOrder (p : Parser) : Prop where
  cursor_le : p.cursor ≤ p.tokens.size
  depth_le : p.depth ≤ maxNesting

/-- What holds of the states before and after a step: the tokens and the level are the same, the
cursor is not moved behind the last token, and a recorded variable stays. -/
structure Leads (p q : Parser) : Prop where
  tokens : q.tokens = p.tokens
  depth : q.depth = p.depth
  cursor_le : p.cursor ≤ p.tokens.size → q.cursor ≤ p.tokens.size
  used? : ∀ name, p.used? = some name → q.used? = some name

theorem Leads.refl (p : Parser) : p.Leads p := ⟨rfl, rfl, id, fun _ => id⟩

theorem Leads.trans {p q r : Parser} (first : p.Leads q) (second : q.Leads r) : p.Leads r where
  tokens := second.tokens.trans first.tokens
  depth := second.depth.trans first.depth
  cursor_le inside := by
    have bound := second.cursor_le (first.tokens ▸ first.cursor_le inside)
    rwa [first.tokens] at bound
  used? name recorded := second.used? name (first.used? name recorded)

theorem Leads.inOrder {p q : Parser} (leads : p.Leads q) (ready : p.InOrder) : q.InOrder where
  cursor_le := leads.tokens ▸ leads.cursor_le ready.cursor_le
  depth_le := leads.depth ▸ ready.depth_le

theorem inOrder_ofSource (source : String) : (ofSource source).InOrder :=
  ⟨Nat.zero_le _, Nat.zero_le _⟩

theorem leads_advance (p : Parser) : p.Leads p.advance := by
  unfold advance
  split
  · rename_i more
    exact ⟨rfl, rfl, fun _ => more, fun _ => id⟩
  · exact .refl p

end Parser

namespace Parse

variable {α β : Type}

/-- Whatever a reader ends with, the state it leaves behind is in order if the first one was. -/
def Leads (read : Parse α) : Prop := ∀ p : Parser, p.Leads (read.after p)

theorem Leads.bind {read : Parse α} {next : α → Parse β} (first : Leads read)
    (second : ∀ value, Leads (next value)) : Leads (read >>= next) := by
  intro p
  have here := first p
  simp only [after, Bind.bind, EStateM.bind] at here ⊢
  cases run : read p with
  | ok value p' =>
    rw [run] at here
    exact here.trans (second value p')
  | error fault p' =>
    rw [run] at here
    exact here

theorem leads_pure (value : α) : Leads (pure value : Parse α) := Parser.Leads.refl

theorem leads_fail (error : SyntaxError) : Leads (fail error : Parse α) := Parser.Leads.refl

theorem leads_next : Leads next := by
  refine Leads.bind (fun p => .refl p) fun p => ?_
  split
  · exact Leads.bind (fun p => p.leads_advance) fun _ => leads_pure _
  · exact leads_fail _

theorem leads_useVariable (name : String) (span : Span) : Leads (useVariable name span) := by
  intro p
  simp only [after, useVariable_eq]
  cases used : p.used? with
  | none => exact ⟨rfl, rfl, id, fun first recorded => by simp [used] at recorded⟩
  | some first =>
    by_cases same : first = name
    · simpa [same] using Parser.Leads.refl p
    · simpa [same] using Parser.Leads.refl p

theorem leads_checkTreeDepth (depth : Nat) : Leads (checkTreeDepth depth) := by
  unfold checkTreeDepth
  split
  · exact leads_fail _
  · exact leads_pure ()

/-- A failure under `attempt` leaves the cursor where it was. -/
theorem cursor_attempt {read : Parse α} {p p' : Parser} {fault : SyntaxFault}
    (failed : attempt read p = .error fault p') : p'.cursor = p.cursor := by
  unfold attempt at failed
  split at failed
  · cases failed
  · cases failed
    rfl

theorem Leads.attempt {read : Parse α} (leads : Leads read) : Leads (attempt read) := by
  intro p
  have here := leads p
  simp only [after, Parse.attempt] at here ⊢
  cases run : read p with
  | ok value p' =>
    rw [run] at here
    exact here
  | error fault p' =>
    rw [run] at here
    exact ⟨here.tokens, here.depth, id, here.used?⟩

/-- Looking whether anything is left does not change the state. -/
theorem after_bind {read : Parse α} {next : α → Parse β} (p : Parser)
    (still : ∀ value p, (next value).after p = p) : (read >>= next).after p = read.after p := by
  simp only [after, Bind.bind, EStateM.bind]
  cases read p with
  | ok value p' => exact still value p'
  | error fault p' => rfl

theorem after_complete (read : Parse α) (p : Parser) : (complete read).after p = read.after p := by
  refine after_bind p fun value p' => (after_bind p' fun kind q => ?_).trans rfl
  split <;> rfl

theorem Leads.complete {read : Parse α} (leads : Leads read) : Leads (complete read) := fun p =>
  after_complete read p ▸ leads p

theorem Leads.nested {read : Parse α} (leads : Leads read) : Leads (nested read) := by
  intro p
  rcases Nat.lt_or_ge p.depth maxNesting with room | full
  · rw [after_nested room]
    have inner := leads { p with depth := p.depth + 1 }
    exact ⟨inner.tokens, Nat.sub_eq_of_eq_add inner.depth, inner.cursor_le, inner.used?⟩
  · simp only [after, nested_of_full full]
    exact .refl p

/-- A level is entered unless it is one too many, and then it is the next one. -/
theorem ended_nested_get {p inner : Parser} :
    (Parse.nested get).ended p = .ok inner ↔
      p.depth < maxNesting ∧ { p with depth := p.depth + 1 } = inner := by
  rcases Nat.lt_or_ge p.depth maxNesting with room | full
  · rw [ended_nested room, and_iff_right room]
    exact ⟨Except.ok.inj, congrArg Except.ok⟩
  · simp [ended, nested_of_full full, Nat.not_lt.mpr full]

end Parse

mutual

/-- Whatever an operation ends with, it leaves the parser in order. -/
theorem Operation.leads : {β : Type} → (op : Operation β) → Leads op.perform
  | _, .observe _ => Parser.Leads.refl
  | _, .advance => Parser.leads_advance
  | _, .next => leads_next
  | _, .useVariable name span => leads_useVariable name span
  | _, .checkTreeDepth depth => leads_checkTreeDepth depth
  | _, .attempt use => use.leads.attempt
  | _, .complete use => use.leads.complete
  | _, .nested use => use.leads.nested

/-- Whatever a use ends with, it leaves the parser in order. -/
theorem Usage.leads : {α : Type} → (use : Usage α) → Leads use.run
  | _, .result (.ok value) => leads_pure value
  | _, .result (.error _) => Parser.Leads.refl
  | _, .step op rest => fun p =>
    (op.leads p).trans ((rest (op.perform.ended p)).leads (op.perform.after p))

end

/-! ## Operations within operations -/

namespace Usage

variable {α β : Type} {op : Operation β} {p q : Parser} {use : Usage α}

/-- An operation finds the parser in order, wherever within a use it is performed. -/
theorem Performs.inOrder (performs : use.Performs op q p) (ready : p.InOrder) : q.InOrder := by
  induction performs with
  | now rest => exact ready
  | later _ ih => exact ih ((Operation.leads _ _).inOrder ready)
  | attempt rest _ ih => exact ih ready
  | complete rest _ ih => exact ih ready
  | nested rest enters _ ih =>
    obtain ⟨room, rfl⟩ := ended_nested_get.mp enters
    exact ih ⟨ready.cursor_le, room⟩

/-- A variable that is recorded when an operation is performed is still recorded when the use that
the operation is part of has ended. -/
theorem Performs.used? (performs : use.Performs op q p) {name : String}
    (recorded : q.used? = some name) : (use.run.after p).used? = some name := by
  have finishes {γ δ : Type} (first : Operation γ) (rest : Except SyntaxFault γ → Usage δ)
      (p : Parser) (known : (first.perform.after p).used? = some name) :
      ((step first rest).run.after p).used? = some name :=
    ((rest _).leads _).used? name known
  induction performs with
  | now rest => exact finishes _ _ _ ((Operation.leads _ _).used? name recorded)
  | later _ ih => exact ih
  | @attempt α γ use p rest _ ih =>
    refine finishes _ _ _ (Eq.trans ?_ ih)
    simp only [Operation.perform, after, Parse.attempt]
    cases use.run p <;> rfl
  | @complete α γ use p rest _ ih =>
    refine finishes _ _ _ (Eq.trans ?_ ih)
    rw [Operation.perform, after_complete]
  | nested rest enters _ ih =>
    obtain ⟨room, rfl⟩ := ended_nested_get.mp enters
    refine finishes _ _ _ (Eq.trans ?_ ih)
    rw [Operation.perform, after_nested room]

/-! ## The readers of the library -/

/-- A use that goes on where another one has returned. -/
def bind : Usage α → (α → Usage β) → Usage β
  | .result (.ok value), next => next value
  | .result (.error fault), _ => .result (.error fault)
  | .step op rest, next => .step op fun ended => (rest ended).bind next

theorem run_bind : (use : Usage α) → (next : α → Usage β) →
    (use.bind next).run = use.run >>= fun value => (next value).run
  | .result (.ok _), _ => rfl
  | .result (.error _), _ => rfl
  | .step op rest, next => by
    funext p
    exact congrFun (run_bind (rest (op.perform.ended p)) next) (op.perform.after p)

/-- The use that performs one operation. -/
def single (op : Operation α) : Usage α := .step op .result

theorem run_single (op : Operation α) : (single op).run = op.perform := by
  funext p
  simp only [single, run, ended, after]
  cases op.perform p <;> rfl

end Usage

namespace Parse

variable {α β : Type}

/-- Whether a reader is what some use of a parser does. -/
def Usable (read : Parse α) : Prop := ∃ use : Usage α, use.run = read

theorem usable_perform (op : Operation α) : Usable op.perform := ⟨.single op, Usage.run_single op⟩

theorem Usable.bind {read : Parse α} {next : α → Parse β} (first : Usable read)
    (second : ∀ value, Usable (next value)) : Usable (read >>= next) := by
  obtain ⟨use, rfl⟩ := first
  obtain ⟨uses, same⟩ := Classical.axiomOfChoice second
  exact ⟨use.bind uses, by simp only [Usage.run_bind, same]⟩

theorem Usable.attempt {read : Parse α} (usable : Usable read) : Usable (attempt read) := by
  obtain ⟨use, rfl⟩ := usable
  exact usable_perform (.attempt use)

theorem Usable.nested {read : Parse α} (usable : Usable read) : Usable (nested read) := by
  obtain ⟨use, rfl⟩ := usable
  exact usable_perform (.nested use)

/-- The diagonal of what uses do is kept by everything that the grammar is put together with. -/
theorem congruence_usable : Congruence fun f g => f = g ∧ Usable f where
  pure value := ⟨rfl, .result (.ok value), rfl⟩
  bind := by
    rintro α β f _ k h ⟨rfl, first⟩ second
    obtain rfl : k = h := funext fun value => (second value).1
    exact ⟨rfl, first.bind fun value => (second value).2⟩
  get := by
    intro α k h related
    obtain rfl : k = h := funext fun p => (related p p.depth).1
    exact ⟨rfl, (usable_perform (.observe id)).bind fun p => (related p p.depth).2⟩
  failAt span error := ⟨rfl, .result (.error ⟨error, [span]⟩), rfl⟩
  advance := ⟨rfl, usable_perform .advance⟩
  useVariable name span := ⟨rfl, usable_perform (.useVariable name span)⟩
  attempt := by
    rintro α f _ ⟨rfl, usable⟩
    exact ⟨rfl, usable.attempt⟩

variable {ν : Type} [Numeral ν]

theorem usable_descending (levels : Nat) :
    Grammar.Related (fun f g => f = g ∧ Usable f) (Grammar.descending (ν := ν) levels)
      (.descending levels) := by
  have c := congruence_usable
  have enters {f : Parse (Expr ν)} (inner : f = f ∧ Usable f) :
      nested f = nested f ∧ Usable (nested f) := ⟨rfl, inner.2.nested⟩
  induction levels with
  | zero => exact ⟨c.fail _, c.fail _, c.fail _, c.fail _⟩
  | succ levels ih =>
    refine Grammar.ofPower_related c ?_ (enters ih.juxtaposition)
    exact Grammar.powerOf_related c (enters (Grammar.operand_related c ih.sum ih.signed))
      (enters ih.power)

theorem usable_expression : Usable (expression (ν := ν)) := by
  rw [expression_eq]
  exact (Grammar.equation_related congruence_usable (usable_descending maxNesting).sum).2

theorem usable_signed : Usable (signed (ν := ν)) := by
  have c := congruence_usable
  rw [signed_eq]
  exact (c.bind c.unaryOp fun o => c.bind (usable_descending maxNesting).signed fun e =>
    c.pure (Expr.sign o e)).2

/-- Reading an expression moves the cursor. -/
theorem cursor_expression {p p' : Parser} {e : Expr ν} (read : expression p = .ok e p') :
    p.cursor < p'.cursor := by
  have reads := equation_sound (Grammar.within_sound (ν := ν) p.room) p
  have same : equation (Grammar.within p.room) p = .ok e p' := read
  unfold Outcome at reads
  simp only [same] at reads
  have shorter := reads.length_lt
  obtain ⟨use, uses⟩ := usable_expression (ν := ν)
  have leads := use.leads p
  simp only [uses, after, read] at leads
  simp only [Parser.rest, List.length_drop, leads.tokens] at shorter
  omega

/-- Reading an expression moves the cursor, whichever operation it is handed to. -/
theorem cursor_operation {p p' : Parser} {e : Expr ν}
    (read : attempt expression p = .ok e p' ∨ complete expression p = .ok e p' ∨
      nested expression p = .ok e p') : p.cursor < p'.cursor := by
  rcases read with tried | completed | entered
  · unfold attempt at tried
    split at tried
    · rename_i run
      cases tried
      exact cursor_expression run
    · cases tried
  · have left := after_complete (expression (ν := ν)) p
    simp only [after, completed] at left
    cases run : expression (ν := ν) p with
    | ok e' p'' =>
      rw [run] at left
      exact left ▸ cursor_expression run
    | error fault p'' =>
      simp only [complete, Bind.bind, EStateM.bind, run] at completed
      cases completed
  · unfold nested at entered
    split at entered
    · cases entered
    · split at entered
      · rename_i run
        cases entered
        have moved := cursor_expression run
        exact moved
      · cases entered

end Parse

/-- A parser stays in order under any use. Whatever program uses a parser of a source, what the
library reads being such programs, each operation that it performs finds the cursor at a token or
at the end and no more levels entered than there are, and leaves it so; it keeps the tokens, the
level and a recorded variable, which is still recorded when the use has ended. Where an operation
is performed, a failure under `attempt` leaves the cursor where it was, and reading an expression
moves it forward. -/
theorem Parser.inOrder_of_performs (ν : Type) [Numeral ν] (source : String) :
    (Usable (expression (ν := ν)) ∧ Usable (signed (ν := ν)) ∧ Usable (literal (ν := ν)) ∧
      Usable binaryOp ∧ Usable unaryOp ∧ ∀ kind, Usable (expect kind)) ∧
    ∀ {α β : Type} (use : Usage α) (op : Operation β) (p : Parser),
      use.Performs op p (.ofSource source) →
        p.InOrder ∧ (op.perform.after p).InOrder ∧ p.Leads (op.perform.after p) ∧
        (∀ name, p.used? = some name → (use.run.after (.ofSource source)).used? = some name) ∧
        (∀ {γ : Type} (inner : Usage γ) (fault : SyntaxFault) (p' : Parser),
          attempt inner.run p = .error fault p' → p'.cursor = p.cursor) ∧
        ∀ (e : Expr ν) (p' : Parser),
          expression p = .ok e p' ∨ attempt expression p = .ok e p' ∨
            complete expression p = .ok e p' ∨ nested expression p = .ok e p' →
          p.cursor < p'.cursor := by
  have c := congruence_usable
  refine ⟨⟨usable_expression, usable_signed, c.literal.2, c.binaryOp.2, c.unaryOp.2,
    fun kind => (c.expect kind).2⟩, ?_⟩
  intro α β use op p performs
  have ready : p.InOrder := performs.inOrder (inOrder_ofSource source)
  have leads : p.Leads (op.perform.after p) := op.leads p
  refine ⟨ready, leads.inOrder ready, leads, fun name => performs.used?,
    fun inner fault p' => cursor_attempt, ?_⟩
  rintro e p' (read | handed)
  · exact cursor_expression read
  · exact cursor_operation handed

/-- A use that takes a token inside a level, moves on there, and fails. -/
def Usage.insideLevel : Usage Unit :=
  .step (.nested (.step .next fun _ => .step .advance fun _ => failed)) .result
where
  failed : Usage Unit := .result (.error ⟨.expectedEnd, [⟨0, 0⟩]⟩)

/-- Inside the level the parser has taken the `2` of `2x` and is in order, and moving on takes it no
further than behind the `x`. -/
theorem Parser.inOrder_of_performs_insideLevel :
    let p := next.after { Parser.ofSource "2x" with depth := 1 }
    Usage.insideLevel.Performs .advance p (.ofSource "2x") ∧ p.cursor = 1 ∧ p.depth = 1 ∧
      p.InOrder ∧ p.Leads p.advance := by
  intro p
  have performs : Usage.insideLevel.Performs .advance p (.ofSource "2x") :=
    .nested _ (ended_nested_get.mpr ⟨by decide, rfl⟩) (.later (.now _))
  obtain ⟨ready, -, leads, -⟩ :=
    (Parser.inOrder_of_performs Binary64 "2x").2 Usage.insideLevel .advance p performs
  exact ⟨performs, by decide +kernel, by decide +kernel, ready, leads⟩

end AlgebraEngine
