import AlgebraEngine.Parser.Grammar

/-! The grammar of expressions apart from how it is read: which rows of tokens are phrases, and
which tree each way of reading a phrase stands for. -/
namespace AlgebraEngine

/-- The operations that chain with each other, grouped from the left. -/
inductive Tier where
  | sum
  | product
  | quotient
  deriving DecidableEq, Repr

/-- What a row of tokens can be. -/
inductive Phrase where
  | equation
  | chain (tier : Tier)
  | juxtaposition
  | power
  | operand
  /-- A primary with its factorials. -/
  | marked
  | primary
  /-- What stands between the brackets of a vector. -/
  | components
  deriving DecidableEq, Repr

namespace Tier

/-- The tokens between the operands of a chain. -/
def signs : Tier → List TokenKind
  | sum => [.plus, .minus]
  | product => [.star, .percent]
  | quotient => [.slash]

/-- The operators of a chain. -/
def operators : Tier → List BinaryOp
  | sum => [.add, .sub]
  | product => [.mul, .mod]
  | quotient => [.div]

/-- The operands of a chain are phrases of the next tighter level. -/
def operand : Tier → Phrase
  | sum => .chain .product
  | product => .chain .quotient
  | quotient => .juxtaposition

theorem mem_signs_iff {tier : Tier} {kind : TokenKind} :
    kind ∈ tier.signs ↔ ∃ o ∈ tier.operators, BinaryOp.ofToken? kind = some o := by
  cases tier <;> cases kind <;> decide

end Tier

theorem UnaryOp.kind_of_ofToken? {kind : TokenKind} {o : UnaryOp} (sign : ofToken? kind = some o) :
    kind = .plus ∨ kind = .minus := by
  cases kind <;> simp_all [ofToken?]

theorem Func.isFunction_of_ofToken? {kind : TokenKind} {f : Func}
    (function : ofToken? kind = some f) : kind.isFunction = true := by
  cases kind <;> simp_all [ofToken?, TokenKind.isFunction]

/-- The rows of token kinds that are phrases. -/
inductive Derives : Phrase → List TokenKind → Prop where
  | sum {u} (sum : Derives (.chain .sum) u) : Derives .equation u
  | equality {u v} (left : Derives (.chain .sum) u) (right : Derives (.chain .sum) v) :
      Derives .equation (u ++ .equals :: v)
  | first {tier : Tier} {u} (operand : Derives tier.operand u) : Derives (.chain tier) u
  | link {tier : Tier} {u sign v} (chain : Derives (.chain tier) u) (links : sign ∈ tier.signs)
      (operand : Derives tier.operand v) : Derives (.chain tier) (u ++ sign :: v)
  | factor {u} (power : Derives .power u) : Derives .juxtaposition u
  | join {u kind v} (factors : Derives .juxtaposition u) (starts : kind.startsFactor = true)
      (power : Derives .power (kind :: v)) : Derives .juxtaposition (u ++ kind :: v)
  | base {u} (operand : Derives .operand u) : Derives .power u
  | raise {u v} (base : Derives .operand u) (exponent : Derives .power v) :
      Derives .power (u ++ .caret :: v)
  | sign {kind u} (sign : kind = .plus ∨ kind = .minus) (product : Derives .juxtaposition u) :
      Derives .operand (kind :: u)
  | marked {u} (marked : Derives .marked u) : Derives .operand u
  | primary {u} (primary : Derives .primary u) : Derives .marked u
  | mark {u} (marked : Derives .marked u) : Derives .marked (u ++ [.bang])
  | leaf {kind} (leaf : kind ∈ [TokenKind.number, .letter, .euler, .pi]) : Derives .primary [kind]
  | parentheses {u} (sum : Derives (.chain .sum) u) :
      Derives .primary (.openParen :: u ++ [.closeParen])
  | application {kind u} (function : kind.isFunction = true) (sum : Derives (.chain .sum) u) :
      Derives .primary (kind :: .openParen :: u ++ [.closeParen])
  | vector {u} (components : Derives .components u) :
      Derives .primary (.openSquare :: u ++ [.closeSquare])
  | last {u} (sum : Derives (.chain .sum) u) : Derives .components u
  | component {u v} (sum : Derives (.chain .sum) u) (components : Derives .components v) :
      Derives .components (u ++ .comma :: v)

namespace Tier

/-- The signs of a chain and of all tighter ones. -/
def reach : Tier → List TokenKind
  | sum => sum.signs ++ product.signs ++ quotient.signs
  | product => product.signs ++ quotient.signs
  | quotient => quotient.signs

end Tier

namespace TokenKind

/-- Whether a token right behind an implicit product could make it longer. -/
def binds (kind : TokenKind) : Bool := kind = .bang || kind = .caret || kind.startsFactor

end TokenKind

/-- Whether a token right behind a phrase could make it longer. -/
def Phrase.continues : Phrase → TokenKind → Bool
  | equation, kind => kind.binds || kind ∈ Tier.sum.reach || kind = .equals
  | chain tier, kind => kind.binds || kind ∈ tier.reach
  | juxtaposition, kind => kind.binds
  | power, kind => kind = .bang || kind = .caret
  | operand, kind => kind = .bang
  | marked, kind => kind = .bang
  | primary, _ => false
  | components, kind => kind.binds || kind ∈ Tier.sum.reach || kind = .comma

/-- A phrase is closed by the tokens behind it if the next of them could not make it longer. -/
def Phrase.Closed (phrase : Phrase) (rest : List Token) : Prop :=
  ∀ token ∈ rest.head?, phrase.continues token.kind = false

variable {ν : Type} [Numeral ν]

namespace Phrase

@[simp] theorem closed_nil (phrase : Phrase) : phrase.Closed [] := by
  simp [Closed]

@[simp] theorem closed_cons {phrase : Phrase} {token : Token} {rest : List Token} :
    phrase.Closed (token :: rest) ↔ phrase.continues token.kind = false := by
  simp [Closed]

/-- An operand is closed if no factorial follows. -/
theorem closed_operand_iff {rest : List Token} :
    operand.Closed rest ↔ rest.head?.map Token.kind ≠ some .bang := by
  cases rest with
  | nil => simp
  | cons token rest => simp [continues]

/-- A power is closed if its last operand is and no exponent follows. -/
theorem closed_power_iff {rest : List Token} :
    power.Closed rest ↔ operand.Closed rest ∧ rest.head?.map Token.kind ≠ some .caret := by
  cases rest with
  | nil => simp
  | cons token rest => simp [continues]

/-- An implicit product is closed if its last power is and no factor follows. -/
theorem closed_juxtaposition_iff {rest : List Token} :
    juxtaposition.Closed rest ↔
      power.Closed rest ∧ (rest.head?.map Token.kind).any TokenKind.startsFactor = false := by
  cases rest with
  | nil => simp
  | cons token rest => simp [continues, TokenKind.binds]

/-- A chain is closed if its last operand is and no further operator follows. -/
theorem closed_chain_iff {tier : Tier} {rest : List Token} :
    (chain tier).Closed rest ↔
      tier.operand.Closed rest ∧ ∀ token ∈ rest.head?, token.kind ∉ tier.signs := by
  cases rest with
  | nil => simp
  | cons token rest =>
    cases tier with
    | sum | product | quotient =>
      simp only [closed_cons, continues, Tier.operand, Tier.reach, List.mem_append, not_or,
        Bool.or_eq_false_iff, decide_eq_false_iff_not, List.head?_cons, Option.mem_some_iff,
        forall_eq']
      grind

/-- An operator closes the operand in front of it. -/
theorem operand_continues_sign {tier : Tier} {kind : TokenKind} (links : kind ∈ tier.signs) :
    tier.operand.continues kind = false := by
  cases tier <;> cases kind <;> simp_all [Tier.signs, Tier.operand, Tier.reach, continues,
    TokenKind.binds, TokenKind.startsFactor, TokenKind.isFunction]

/-- A token that starts a factor closes the power in front of it. -/
theorem power_continues_factor {kind : TokenKind} (starts : kind.startsFactor = true) :
    power.continues kind = false := by
  cases kind with
  | bang | caret => cases starts
  | _ => rfl

/-- No operator of a chain continues an implicit product. -/
theorem juxtaposition_continues_sign {tier : Tier} {kind : TokenKind} (links : kind ∈ tier.signs) :
    juxtaposition.continues kind = false := by
  cases tier <;> cases kind <;> simp_all [Tier.signs, continues, TokenKind.binds,
    TokenKind.startsFactor, TokenKind.isFunction]

end Phrase

/-- What a phrase at the start of a row of tokens stands for, and the tokens that are left behind
it. Chains and juxtapositions group from the left and powers from the right; a sign applies to an
implicit product that cannot be made longer, and a bare variable that starts an implicit product is
a multiple of itself. -/
inductive Reads : Phrase → List Token → Expr ν → List Token → Prop where
  | sum {ts e rest} (sum : Reads (.chain .sum) ts e rest) : Reads .equation ts e rest
  | equality {ts l sign mid r rest} (left : Reads (.chain .sum) ts l (sign :: mid))
      (equals : sign.kind = .equals) (right : Reads (.chain .sum) mid r rest) :
      Reads .equation ts (.equal l r) rest
  | first {tier : Tier} {ts e rest} (operand : Reads tier.operand ts e rest) :
      Reads (.chain tier) ts e rest
  | link {tier : Tier} {ts l sign o mid r rest} (chain : Reads (.chain tier) ts l (sign :: mid))
      (operator : BinaryOp.ofToken? sign.kind = some o) (links : o ∈ tier.operators)
      (operand : Reads tier.operand mid r rest) : Reads (.chain tier) ts (.op o l r) rest
  | bare {ts name rest} (power : Reads .power ts (.var name) rest) :
      Reads .juxtaposition ts (.op .mul (.number (Arithmetic.ofInt 1)) (.var name)) rest
  | factor {ts e rest} (power : Reads .power ts e rest) (compound : ∀ name, e ≠ .var name) :
      Reads .juxtaposition ts e rest
  | join {ts l token mid r rest} (factors : Reads .juxtaposition ts l (token :: mid))
      (starts : token.kind.startsFactor = true) (power : Reads .power (token :: mid) r rest) :
      Reads .juxtaposition ts (.op .mul l r) rest
  | base {ts e rest} (operand : Reads .operand ts e rest) : Reads .power ts e rest
  | raise {ts b sign mid e rest} (base : Reads .operand ts b (sign :: mid))
      (caret : sign.kind = .caret) (exponent : Reads .power mid e rest) :
      Reads .power ts (.op .pow b e) rest
  | sign {token o ts e rest} (sign : UnaryOp.ofToken? token.kind = some o)
      (product : Reads .juxtaposition ts e rest) (closed : Phrase.juxtaposition.Closed rest) :
      Reads .operand (token :: ts) (.sign o e) rest
  | marked {ts e rest} (marked : Reads .marked ts e rest) : Reads .operand ts e rest
  | primary {ts e rest} (primary : Reads .primary ts e rest) : Reads .marked ts e rest
  | mark {ts e token rest} (marked : Reads .marked ts e (token :: rest))
      (bang : token.kind = .bang) : Reads .marked ts (.apply .factorial [e]) rest
  | number {token rest} (number : token.kind = .number) :
      Reads .primary (token :: rest)
        (.number (Numeral.ofDecimal (.ofNumeral token.lexeme.toList))) rest
  | letter {token rest} (letter : token.kind = .letter) :
      Reads .primary (token :: rest) (.var token.lexeme) rest
  | euler {token rest} (euler : token.kind = .euler) :
      Reads .primary (token :: rest) (.const .e) rest
  | pi {token rest} (pi : token.kind = .pi) : Reads .primary (token :: rest) (.const .pi) rest
  | parentheses {opening ts e closing rest} (opens : opening.kind = .openParen)
      (sum : Reads (.chain .sum) ts e (closing :: rest)) (closes : closing.kind = .closeParen) :
      Reads .primary (opening :: ts) e rest
  | application {name f opening ts e closing rest} (function : Func.ofToken? name.kind = some f)
      (opens : opening.kind = .openParen) (sum : Reads (.chain .sum) ts e (closing :: rest))
      (closes : closing.kind = .closeParen) :
      Reads .primary (name :: opening :: ts) (.apply f [e]) rest
  | vector {opening ts es closing rest} (opens : opening.kind = .openSquare)
      (components : Reads .components ts (.apply .vector es) (closing :: rest))
      (closes : closing.kind = .closeSquare) :
      Reads .primary (opening :: ts) (.apply .vector es) rest
  | last {ts e rest} (sum : Reads (.chain .sum) ts e rest) :
      Reads .components ts (.apply .vector [e]) rest
  | component {ts e comma mid es rest} (sum : Reads (.chain .sum) ts e (comma :: mid))
      (separates : comma.kind = .comma)
      (components : Reads .components mid (.apply .vector es) rest) :
      Reads .components ts (.apply .vector (e :: es)) rest

/-- A bare variable in front of a product gets its coefficient. -/
theorem Reads.withCoefficient {ts rest : List Token} {e : Expr ν}
    (power : Reads .power ts e rest) :
    Reads .juxtaposition ts (Parse.withCoefficient e) rest := by
  unfold Parse.withCoefficient
  split
  · exact .bare power
  · rename_i compound
    exact .factor power fun name same => compound name same

theorem Derives.ne_nil {phrase : Phrase} {u : List TokenKind} (derives : Derives phrase u) :
    u ≠ [] := by
  induction derives with
  | sum _ ih | first _ ih | factor _ ih | base _ ih | marked _ ih | primary _ ih | last _ ih =>
    exact ih
  | equality | link | join | raise | sign | mark | leaf | parentheses | application | vector
  | component => simp

/-- A reading takes the tokens of a phrase and leaves the others. -/
theorem Reads.derives {phrase : Phrase} {ts rest : List Token} {e : Expr ν}
    (reads : Reads phrase ts e rest) :
    ∃ used, ts = used ++ rest ∧ Derives phrase (used.map Token.kind) := by
  induction reads with
  | sum _ ih =>
    obtain ⟨u, rfl, derives⟩ := ih
    exact ⟨u, rfl, .sum derives⟩
  | equality _ equals _ left right =>
    obtain ⟨u, rfl, before⟩ := left
    obtain ⟨v, rfl, behind⟩ := right
    refine ⟨u ++ _ :: v, (List.append_assoc u (_ :: v) _).symm, ?_⟩
    simpa [equals] using Derives.equality before behind
  | first _ ih =>
    obtain ⟨u, rfl, derives⟩ := ih
    exact ⟨u, rfl, .first derives⟩
  | link _ operator links _ chain operand =>
    obtain ⟨u, rfl, before⟩ := chain
    obtain ⟨v, rfl, behind⟩ := operand
    refine ⟨u ++ _ :: v, (List.append_assoc u (_ :: v) _).symm, ?_⟩
    simpa using before.link (Tier.mem_signs_iff.mpr ⟨_, links, operator⟩) behind
  | bare _ ih | factor _ _ ih =>
    obtain ⟨u, rfl, derives⟩ := ih
    exact ⟨u, rfl, .factor derives⟩
  | join _ starts _ factors power =>
    obtain ⟨u, rfl, before⟩ := factors
    obtain ⟨v, same, behind⟩ := power
    cases v with
    | nil => exact absurd rfl behind.ne_nil
    | cons token v =>
      cases same
      refine ⟨u ++ _ :: v, (List.append_assoc u (_ :: v) _).symm, ?_⟩
      simpa using before.join starts behind
  | base _ ih =>
    obtain ⟨u, rfl, derives⟩ := ih
    exact ⟨u, rfl, .base derives⟩
  | raise _ caret _ base exponent =>
    obtain ⟨u, rfl, before⟩ := base
    obtain ⟨v, rfl, behind⟩ := exponent
    refine ⟨u ++ _ :: v, (List.append_assoc u (_ :: v) _).symm, ?_⟩
    simpa [caret] using Derives.raise before behind
  | sign sign _ _ ih =>
    obtain ⟨u, rfl, derives⟩ := ih
    exact ⟨_ :: u, rfl, .sign (UnaryOp.kind_of_ofToken? sign) derives⟩
  | marked _ ih =>
    obtain ⟨u, rfl, derives⟩ := ih
    exact ⟨u, rfl, .marked derives⟩
  | primary _ ih =>
    obtain ⟨u, rfl, derives⟩ := ih
    exact ⟨u, rfl, .primary derives⟩
  | mark _ bang ih =>
    obtain ⟨u, rfl, derives⟩ := ih
    refine ⟨u ++ [_], (List.append_assoc u [_] _).symm, ?_⟩
    simpa [bang] using Derives.mark derives
  | number leaf | letter leaf | euler leaf | pi leaf =>
    exact ⟨[_], rfl, .leaf (by simp [leaf])⟩
  | parentheses opens _ closes ih =>
    obtain ⟨u, rfl, derives⟩ := ih
    refine ⟨_ :: u ++ [_], (List.append_assoc (_ :: u) [_] _).symm, ?_⟩
    simpa [opens, closes] using Derives.parentheses derives
  | application function opens _ closes ih =>
    obtain ⟨u, rfl, derives⟩ := ih
    refine ⟨_ :: _ :: u ++ [_], (List.append_assoc (_ :: _ :: u) [_] _).symm, ?_⟩
    simpa [opens, closes] using Derives.application (Func.isFunction_of_ofToken? function) derives
  | vector opens _ closes ih =>
    obtain ⟨u, rfl, derives⟩ := ih
    refine ⟨_ :: u ++ [_], (List.append_assoc (_ :: u) [_] _).symm, ?_⟩
    simpa [opens, closes] using Derives.vector derives
  | last _ ih =>
    obtain ⟨u, rfl, derives⟩ := ih
    exact ⟨u, rfl, .last derives⟩
  | component _ separates _ sum components =>
    obtain ⟨u, rfl, before⟩ := sum
    obtain ⟨v, rfl, behind⟩ := components
    refine ⟨u ++ _ :: v, (List.append_assoc u (_ :: v) _).symm, ?_⟩
    simpa [separates] using before.component behind

/-- A reading takes at least one token. -/
theorem Reads.length_lt {phrase : Phrase} {ts rest : List Token} {e : Expr ν}
    (reads : Reads phrase ts e rest) : rest.length < ts.length := by
  obtain ⟨used, rfl, derives⟩ := reads.derives
  have nonempty : used ≠ [] := fun none => derives.ne_nil (by simp [none])
  have positive := List.length_pos_iff.mpr nonempty
  rw [List.length_append]
  omega

end AlgebraEngine
