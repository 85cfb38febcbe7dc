import AlgebraEngine.Proofs.Parser.Outcome

/-! The grammar that enters and leaves levels. `Grammar.within` is handed the grammar of the next
level and never touches the level a parser is at. Here the same phrases are read with `nested`,
which counts the level up, refuses the one that is too deep, and counts it down again however
reading ended. Both read the same: where `nested` refuses to enter a level, the grammar of no room
refuses to read, with the same error at the same place. -/
namespace AlgebraEngine

variable {ν : Type}

namespace Parse

/-- A relation between readers that is kept by everything that the grammar is put together with.
What a reader sees of the state does not include the level. -/
structure Congruence (related : ∀ {α : Type}, Parse α → Parse α → Prop) : Prop where
  pure : ∀ {α : Type} (value : α), related (pure value) (pure value)
  bind : ∀ {α β : Type} {f g : Parse α} {k h : α → Parse β}, related f g →
    (∀ value, related (k value) (h value)) → related (f >>= k) (g >>= h)
  get : ∀ {α : Type} {k h : Parser → Parse α},
    (∀ (p : Parser) (level : Nat), related (k { p with depth := level }) (h p)) →
      related (get >>= k) (get >>= h)
  failAt : ∀ {α : Type} (span : Span) (error : SyntaxError),
    related (failAt span error : Parse α) (failAt span error)
  advance : related advance advance
  useVariable : ∀ (name : String) (span : Span),
    related (useVariable name span) (useVariable name span)
  attempt : ∀ {α : Type} {f g : Parse α}, related f g → related (attempt f) (attempt g)

namespace Congruence

variable {related : ∀ {α : Type}, Parse α → Parse α → Prop} (c : Congruence related)

theorem ite (_ : Congruence related) {α : Type} {f f' g g' : Parse α} {condition : Prop}
    [Decidable condition] (yes : related f g) (no : related f' g') :
    related (if condition then f else f') (if condition then g else g') := by
  split
  · exact yes
  · exact no

include c

theorem fail {α : Type} (error : SyntaxError) :
    related (Parse.fail error : Parse α) (Parse.fail error) :=
  c.get fun p _ => c.failAt p.span error

theorem peek? : related peek? peek? := c.get fun p _ => c.pure p.peek?

theorem operator? (ops : List BinaryOp) : related (operator? ops) (operator? ops) :=
  c.bind c.peek? fun _ => c.pure _

theorem next : related next next := by
  refine c.get fun p _ => ?_
  dsimp only [Parser.current?]
  cases p.tokens[p.cursor]? with
  | some token => exact c.bind c.advance fun _ => c.pure token
  | none => exact c.fail _

theorem checkTreeDepth (depth : Nat) : related (checkTreeDepth depth) (checkTreeDepth depth) :=
  c.ite (c.fail _) (c.pure ())

theorem close (kind : TokenKind) (opening : Span) (error : SyntaxError) :
    related (close kind opening error) (close kind opening error) :=
  c.bind c.peek? fun _ => c.ite c.advance (c.failAt _ _)

theorem expect (kind : TokenKind) : related (expect kind) (expect kind) :=
  c.bind c.next fun _ => c.ite (c.pure _) (c.failAt _ _)

theorem binaryOp : related binaryOp binaryOp := by
  refine c.bind c.next fun token => ?_
  cases BinaryOp.ofToken? token.kind with
  | some o => exact c.pure o
  | none => exact c.failAt _ _

theorem unaryOp : related unaryOp unaryOp := by
  refine c.bind c.next fun token => ?_
  cases UnaryOp.ofToken? token.kind with
  | some o => exact c.pure o
  | none => exact c.failAt _ _

theorem literal [Numeral ν] : related (literal (ν := ν)) literal := by
  refine c.bind c.next fun token => ?_
  split
  · exact c.pure _
  · exact c.pure _
  · exact c.pure _
  · exact c.bind (c.useVariable _ _) fun _ => c.pure _
  · exact c.failAt _ _

variable {f g : Parse (Expr ν)}

theorem chainFrom (ops : List BinaryOp) (operands : related f g) (links : Nat) (lhs : Expr ν)
    (depth : Nat) :
    related (chainFrom ops f links lhs depth) (chainFrom ops g links lhs depth) := by
  induction links generalizing lhs depth with
  | zero => exact c.pure lhs
  | succ links ih =>
    refine c.bind (c.operator? ops) fun o => ?_
    cases o with
    | none => exact c.pure lhs
    | some o =>
      refine c.bind c.next fun _ => c.bind operands fun rhs => ?_
      exact c.bind (c.checkTreeDepth _) fun _ => ih _ _

theorem chain (ops : List BinaryOp) (operands : related f g) :
    related (chain ops f) (chain ops g) :=
  c.bind operands fun lhs => c.get fun p _ => c.chainFrom ops operands p.remaining lhs _

theorem juxtaposedFrom (factors : related f g) (links : Nat) (lhs : Expr ν) (depth : Nat) :
    related (juxtaposedFrom f links lhs depth) (juxtaposedFrom g links lhs depth) := by
  induction links generalizing lhs depth with
  | zero => exact c.pure lhs
  | succ links ih =>
    refine c.bind c.peek? fun _ => c.ite (c.bind factors fun rhs => ?_) (c.pure lhs)
    exact c.bind (c.checkTreeDepth _) fun _ => ih _ _

theorem juxtaposed [Arithmetic ν] (factors : related f g) :
    related (juxtaposed f) (juxtaposed g) :=
  c.bind factors fun _ => c.get fun p _ => c.juxtaposedFrom factors p.remaining _ _

theorem factorialsFrom (marks : Nat) (e : Expr ν) (depth : Nat) :
    related (factorialsFrom marks e depth) (factorialsFrom marks e depth) := by
  induction marks generalizing e depth with
  | zero => exact c.pure e
  | succ marks ih =>
    refine c.bind c.peek? fun _ => c.ite (c.bind (c.checkTreeDepth _) fun _ => ?_) (c.pure e)
    exact c.bind c.advance fun _ => ih _ _

theorem factorials (e : Expr ν) : related (factorials e) (factorials e) :=
  c.get fun p _ => c.factorialsFrom p.remaining e _

end Congruence

end Parse

open Parse

namespace Grammar

/-- Two grammars whose readers are related. -/
structure Related (related : ∀ {α : Type}, Parse α → Parse α → Prop) (g g' : Grammar ν) : Prop where
  sum : related g.sum g'.sum
  juxtaposition : related g.juxtaposition g'.juxtaposition
  power : related g.power g'.power
  signed : related g.signed g'.signed

/-- An operand, or one with `^` and an exponent behind it. -/
def powerOf (base exponent : Parse (Expr ν)) : Parse (Expr ν) := do
  let base ← base
  if (← peek?) = some .caret then
    advance
    return .op .pow base (← exponent)
  else return base

/-- The grammar of a level with given powers and given operands of signs. -/
def ofPower [Arithmetic ν] (power signed : Parse (Expr ν)) : Grammar ν where
  sum := chain [.add, .sub] (chain [.mul, .mod] (chain [.div] (juxtaposed power)))
  juxtaposition := juxtaposed power
  power := power
  signed := signed

theorem enclosing_eq [Numeral ν] (inner : Grammar ν) :
    enclosing inner = ofPower (powerOf (operand inner) inner.power) inner.juxtaposition := rfl

section Levels

variable {related : ∀ {α : Type}, Parse α → Parse α → Prop} (c : Congruence related)
  {inner inner' : Grammar ν}

include c

theorem parenthesized_related (sum : related inner.sum inner'.sum) :
    related (parenthesized inner) (parenthesized inner') := by
  have rest (opening : Token) : related
      (do
        let e ← inner.sum
        close .closeParen opening.span (.unclosedParenthesis true)
        return e)
      (do
        let e ← inner'.sum
        close .closeParen opening.span (.unclosedParenthesis true)
        return e) :=
    c.bind sum fun _ => c.bind (c.close _ _ _) fun _ => c.pure _
  refine c.bind c.next fun opening => c.bind c.peek? fun _ => c.ite ?_ (rest opening)
  exact c.get fun p _ => c.bind (c.failAt _ _) fun _ => rest opening

theorem application_related (sum : related inner.sum inner'.sum) (f : Func) :
    related (application inner f) (application inner' f) := by
  refine c.bind c.next fun _ => c.bind (c.attempt (c.expect _)) fun opening => ?_
  exact c.bind sum fun _ => c.bind (c.close _ _ _) fun _ => c.pure _

theorem components_related (sum : related inner.sum inner'.sum) (count : Nat) :
    related (components inner count) (components inner' count) := by
  induction count with
  | zero => exact c.pure []
  | succ count ih =>
    refine c.bind c.peek? fun _ => c.ite (c.bind c.advance fun _ => ?_) (c.pure [])
    exact c.bind sum fun _ => c.bind ih fun _ => c.pure _

theorem vector_related (sum : related inner.sum inner'.sum) :
    related (vector inner) (vector inner') := by
  have rest (opening : Token) : related
      (do
        let e ← inner.sum
        let es ← components inner (← get).remaining
        close .closeSquare opening.span .unclosedBracket
        return Expr.apply .vector (e :: es))
      (do
        let e ← inner'.sum
        let es ← components inner' (← get).remaining
        close .closeSquare opening.span .unclosedBracket
        return Expr.apply .vector (e :: es)) := by
    refine c.bind sum fun _ => c.get fun p _ => ?_
    refine c.bind (components_related c sum p.remaining) fun _ => ?_
    exact c.bind (c.close _ _ _) fun _ => c.pure _
  refine c.bind c.next fun opening => c.bind c.peek? fun _ => c.ite ?_ (rest opening)
  exact c.get fun p _ => c.bind (c.failAt _ _) fun _ => rest opening

theorem primary_related [Numeral ν] (sum : related inner.sum inner'.sum) (kind : TokenKind) :
    related (primary inner kind) (primary inner' kind) := by
  unfold primary
  split
  · exact parenthesized_related c sum
  · exact vector_related c sum
  · exact c.fail _
  · exact c.bind c.next fun token => c.failAt _ _
  · cases Func.ofToken? kind with
    | some f => exact application_related c sum f
    | none => exact c.literal

theorem operand_related [Numeral ν] (sum : related inner.sum inner'.sum)
    (signed : related inner.signed inner'.signed) :
    related (operand inner) (operand inner') := by
  refine c.bind c.peek? fun kind => ?_
  cases kind with
  | none => exact c.fail _
  | some kind =>
    dsimp only
    cases UnaryOp.ofToken? kind with
    | some o => exact c.bind c.advance fun _ => c.bind signed fun _ => c.pure _
    | none => exact c.bind (primary_related c sum kind) fun e => c.factorials e

theorem powerOf_related {base base' exponent exponent' : Parse (Expr ν)}
    (left : related base base') (right : related exponent exponent') :
    related (powerOf base exponent) (powerOf base' exponent') := by
  refine c.bind left fun b => c.bind c.peek? fun _ => c.ite ?_ (c.pure b)
  exact c.bind c.advance fun _ => c.bind right fun _ => c.pure _

theorem ofPower_related [Arithmetic ν] {power power' signed signed' : Parse (Expr ν)}
    (powers : related power power') (signs : related signed signed') :
    Related related (ofPower power signed) (ofPower power' signed') where
  sum := c.chain _ (c.chain _ (c.chain _ (c.juxtaposed powers)))
  juxtaposition := c.juxtaposed powers
  power := powers
  signed := signs

theorem equation_related (sum : related inner.sum inner'.sum) :
    related (equation inner) (equation inner') := by
  refine c.bind sum fun l => c.bind c.peek? fun _ => c.ite (c.bind c.advance fun _ => ?_) (c.pure l)
  exact c.bind sum fun _ => c.pure _

end Levels

end Grammar

/-! ## Agreement -/

namespace Parse

variable {α β : Type} {level : Nat}

/-- What a reader ends with. -/
def ended (read : Parse α) (p : Parser) : Except SyntaxFault α :=
  match read p with
  | .ok value _ => .ok value
  | .error fault _ => .error fault

/-- The state that a reader leaves behind, whether or not it fails. -/
def after (read : Parse α) (p : Parser) : Parser :=
  match read p with
  | .ok _ p' => p'
  | .error _ p' => p'

/-- At the last level nothing is entered, and the state stays as it is. -/
theorem nested_of_full {p : Parser} (full : maxNesting ≤ p.depth) (read : Parse α) :
    nested read p = .error ⟨.tooNested, [p.span]⟩ p := if_pos full

/-- Below the last level a reader runs one level deeper and ends there as it ends. -/
theorem ended_nested {p : Parser} (room : p.depth < maxNesting) (read : Parse α) :
    (nested read).ended p = read.ended { p with depth := p.depth + 1 } := by
  simp only [ended, nested, if_neg (Nat.not_le.mpr room)]
  cases read { p with depth := p.depth + 1 } <;> rfl

/-- The level is left again, whatever the reader ended with. -/
theorem after_nested {p : Parser} (room : p.depth < maxNesting) (read : Parse α) :
    (nested read).after p =
      let inner := read.after { p with depth := p.depth + 1 }
      { inner with depth := inner.depth - 1 } := by
  simp only [after, nested, if_neg (Nat.not_le.mpr room)]
  cases read { p with depth := p.depth + 1 } <;> rfl

/-- The end of a run, with the parser at a level. -/
def atLevel (level : Nat) :
    EStateM.Result SyntaxFault Parser α → EStateM.Result SyntaxFault Parser α
  | .ok value p => .ok value { p with depth := level }
  | .error fault p => .error fault { p with depth := level }

/-- At a level, the first reader does what the second one does at any level, and neither is at
another level afterwards. -/
def Agrees (level : Nat) (f g : Parse α) : Prop :=
  ∀ p : Parser, f { p with depth := level } = atLevel level (g p) ∧ (g.after p).depth = p.depth

theorem depth_advance (p : Parser) : p.advance.depth = p.depth := by
  unfold Parser.advance
  split <;> rfl

theorem useVariable_eq (name : String) (span : Span) (p : Parser) :
    useVariable name span p = p.used?.elim (.ok () { p with used? := some name }) fun first =>
      if first = name then .ok () p else .error ⟨.multipleVariables first name, [span]⟩ p := by
  unfold useVariable
  dsimp only [Bind.bind, EStateM.bind, get, getThe, MonadStateOf.get, EStateM.get]
  cases p.used? with
  | none => rfl
  | some first =>
    by_cases same : first = name
    · simp only [same, ne_eq, not_true, if_false, if_true, Option.elim_some]
      rfl
    · simp only [same, ne_eq, not_false_iff, if_false, if_true, Option.elim_some]
      rfl

theorem congruence_agrees (level : Nat) : Congruence (Agrees level) where
  pure _ _ := ⟨rfl, rfl⟩
  bind := by
    intro α β f g k h first second p
    obtain ⟨same, kept⟩ := first p
    simp only [after, Bind.bind, EStateM.bind, same] at kept ⊢
    cases run : g p with
    | ok value p' =>
      obtain ⟨same', kept'⟩ := second value p'
      rw [run] at kept
      exact ⟨same', kept'.trans kept⟩
    | error fault p' =>
      rw [run] at kept
      exact ⟨rfl, kept⟩
  get related p := related p level p
  failAt _ _ _ := ⟨rfl, rfl⟩
  advance p := by
    refine ⟨?_, depth_advance p⟩
    change EStateM.Result.ok () (Parser.advance _) = .ok () { p.advance with depth := level }
    unfold Parser.advance
    split <;> rfl
  useVariable name span p := by
    simp only [after, useVariable_eq]
    cases used : p.used? with
    | none => exact ⟨rfl, rfl⟩
    | some first =>
      by_cases same : first = name
      · simp [same, atLevel, used]
      · simp [same, atLevel, used]
  attempt := by
    intro α f g agrees p
    obtain ⟨same, kept⟩ := agrees p
    simp only [after, attempt, same] at kept ⊢
    cases run : g p with
    | ok value p' =>
      rw [run] at kept
      exact ⟨rfl, kept⟩
    | error fault p' =>
      rw [run] at kept
      exact ⟨rfl, kept⟩

/-- Entering the next level and leaving it again changes nothing for what is read there. -/
theorem Agrees.nested {f g : Parse α} (agrees : Agrees (level + 1) f g)
    (enterable : level < maxNesting) : Agrees level (nested f) g := by
  intro p
  obtain ⟨same, kept⟩ := agrees p
  refine ⟨?_, kept⟩
  simp only [Parse.nested, if_neg (Nat.not_le.mpr enterable), same]
  cases g p <;> rfl

/-- Where there is no next level, entering it fails. -/
theorem agrees_nested_refused (f : Parse α) (refused : maxNesting ≤ level) :
    Agrees level (Parse.nested f) (fail .tooNested) := by
  intro p
  rw [nested_of_full refused]
  exact ⟨rfl, rfl⟩

theorem Agrees.bind_fail {f : Parse α} {error : SyntaxError} (agrees : Agrees level f (fail error))
    (k : α → Parse β) : Agrees level (f >>= k) (fail error) := by
  intro p
  refine ⟨?_, rfl⟩
  simp only [Bind.bind, EStateM.bind, (agrees p).1]
  rfl

theorem Agrees.eq_at {f g : Parse α} {p : Parser} (agrees : Agrees p.depth f g) : f p = g p := by
  obtain ⟨same, kept⟩ := agrees p
  rw [same]
  unfold after at kept
  cases run : g p with
  | ok value p' =>
    rw [run] at kept
    simp only [atLevel, ← kept]
  | error fault p' =>
    rw [run] at kept
    simp only [atLevel, ← kept]

end Parse

/-! ## Entering levels -/

namespace Grammar

variable [Numeral ν]

/-- The grammar of a level, from that of the next level, which it enters. -/
def entering (inner : Grammar ν) : Grammar ν :=
  ofPower (powerOf (nested (operand inner)) (nested inner.power)) (nested inner.juxtaposition)

/-- The grammar that enters its levels. It is the same on every level; `levels` only bounds how many
of them it is written out for. -/
def descending : (levels : Nat) → Grammar ν
  | 0 => refused
  | levels + 1 => entering (descending levels)

theorem entering_refused (inner : Grammar ν) {level : Nat} (full : maxNesting ≤ level) :
    Related (Agrees level) (entering inner) refused := by
  have power : Agrees level (entering inner).power (fail .tooNested) :=
    (agrees_nested_refused _ full).bind_fail _
  have juxtaposition : Agrees level (entering inner).juxtaposition (fail .tooNested) :=
    power.bind_fail _
  exact {
    sum := ((juxtaposition.bind_fail _).bind_fail _).bind_fail _
    juxtaposition := juxtaposition
    power := power
    signed := agrees_nested_refused _ full }

/-- The grammar that enters levels reads what the grammar that is handed them reads. -/
theorem descending_agrees {levels level : Nat} (enough : maxNesting ≤ level + levels) :
    Related (Agrees level) (descending (ν := ν) levels) (within (maxNesting - level)) := by
  induction levels generalizing level with
  | zero =>
    rw [Nat.sub_eq_zero_of_le (by omega)]
    have c := congruence_agrees level
    exact ⟨c.fail _, c.fail _, c.fail _, c.fail _⟩
  | succ levels ih =>
    rcases Nat.lt_or_ge level maxNesting with enterable | full
    · have inner := @ih (level + 1) (by omega)
      have room : maxNesting - level = maxNesting - (level + 1) + 1 := by omega
      have c := congruence_agrees level
      have c' := congruence_agrees (level + 1)
      rw [room, within, enclosing_eq]
      exact ofPower_related c
        (powerOf_related c ((operand_related c' inner.sum inner.signed).nested enterable)
          (inner.power.nested enterable))
        (inner.juxtaposition.nested enterable)
    · rw [Nat.sub_eq_zero_of_le full]
      exact entering_refused _ full

end Grammar

namespace Parse

variable [Numeral ν]

/-- Reading an expression enters and leaves the levels of its operands. -/
theorem expression_eq : expression (ν := ν) = equation (.descending maxNesting) := by
  funext p
  have agrees := Grammar.descending_agrees (ν := ν) (Nat.le_add_left maxNesting p.depth)
  exact (Grammar.equation_related (congruence_agrees _) agrees.sum).eq_at.symm

/-- Reading a sign enters and leaves the level of its operand. -/
theorem signed_eq :
    signed (ν := ν) = do
      let o ← unaryOp
      return .sign o (← (Grammar.descending maxNesting).signed) := by
  refine bind_congr fun o => ?_
  funext p
  have agrees := Grammar.descending_agrees (ν := ν) (Nat.le_add_left maxNesting p.depth)
  have c := congruence_agrees p.depth
  exact (c.bind agrees.signed fun e => c.pure (Expr.sign o e)).eq_at.symm

end Parse

end AlgebraEngine
