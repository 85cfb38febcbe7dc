import AlgebraEngine.Expr.Text
import AlgebraEngine.Proofs.Expr.Spelling
import AlgebraEngine.Proofs.Parser.Phrase

/-! The text of a tree stands for what the tree spells out. The printer puts an operand into
parentheses by its precedence, and each precedence is the level of the grammar at which such text is
read. -/
namespace AlgebraEngine

open TokenKind (Delimited)

/-- Wherever a piece of text stands, if what follows it is as required, its tokens are as promised
and use no other variable than the letter. -/
def Scans (letter : Char) (follows : List Char → Prop) (cs : List Char)
    (promised : List Token → Prop) : Prop :=
  ∀ offset more, follows more → ∃ ts, promised ts ∧
    (∀ token ∈ ts, token.kind = .letter → token.lexeme = String.ofList [letter]) ∧
    Token.tokensFrom offset (cs ++ more) = ts ++ Token.tokensFrom (offset + byteLength cs) more

namespace Scans

variable {letter : Char} {follows follows' : List Char → Prop} {cs cs' : List Char}
  {promised promised' : List Token → Prop}

theorem mono (scans : Scans letter follows cs promised)
    (weaker : ∀ ts, promised ts → promised' ts) : Scans letter follows cs promised' := by
  intro offset more follow
  obtain ⟨ts, holds, letters, tokens⟩ := scans offset more follow
  exact ⟨ts, weaker ts holds, letters, tokens⟩

theorem append (first : Scans letter follows cs promised)
    (second : Scans letter follows' cs' promised')
    (meets : ∀ more, follows' more → follows (cs' ++ more)) :
    Scans letter follows' (cs ++ cs') fun ts =>
      ∃ us vs, ts = us ++ vs ∧ promised us ∧ promised' vs := by
  intro offset more follow
  obtain ⟨us, holds, letters, tokens⟩ := first offset (cs' ++ more) (meets more follow)
  obtain ⟨vs, holds', letters', tokens'⟩ := second (offset + byteLength cs) more follow
  refine ⟨us ++ vs, ⟨us, vs, rfl, holds, holds'⟩, ?_, ?_⟩
  · intro token member
    rcases List.mem_append.mp member with member | member
    · exact letters token member
    · exact letters' token member
  · rw [List.append_assoc, tokens, tokens', List.append_assoc, byteLength_append, Nat.add_assoc]

/-- A lexeme that is the longest match in front of what follows is one token. -/
theorem lexeme (kind : TokenKind) (nonempty : cs ≠ []) (visible : kind ≠ .blank)
    (longest : ∀ more, follows more → TokenKind.longest (cs ++ more) = (kind, cs.length))
    (named : kind = .letter → cs = [letter]) :
    Scans letter follows cs fun ts =>
      ∃ token : Token, ts = [token] ∧ token.kind = kind ∧ token.lexeme = String.ofList cs := by
  intro offset more follow
  refine ⟨[_], ⟨_, rfl, rfl, rfl⟩, ?_,
    Token.tokensFrom_lexeme offset nonempty visible (longest more follow)⟩
  intro token member letter
  obtain rfl := List.mem_singleton.mp member
  exact congrArg String.ofList (named letter)

/-- A character that is a token of its own is one in front of everything. -/
theorem symbol (letter c : Char) (kind : TokenKind) (visible : kind ≠ .blank)
    (unnamed : kind ≠ .letter) (longest : ∀ more, TokenKind.longest (c :: more) = (kind, 1)) :
    Scans letter (fun _ => True) [c] fun ts =>
      ∃ token : Token, ts = [token] ∧ token.kind = kind := by
  have first (more : List Char) (_ : True) :
      TokenKind.longest ([c] ++ more) = (kind, [c].length) := by
    rw [List.singleton_append]
    exact longest more
  refine (lexeme kind (by simp) visible first fun letter => absurd letter unnamed).mono ?_
  rintro ts ⟨token, rfl, kind, -⟩
  exact ⟨token, rfl, kind⟩

/-- What holds in front of everything holds in front of what is required. -/
theorem anywhere (scans : Scans letter (fun _ => True) cs promised) :
    Scans letter follows cs promised := fun offset more _ => scans offset more trivial

theorem space (letter : Char) : Scans letter (fun _ => True) [' '] fun ts => ts = [] := by
  intro offset more _
  exact ⟨[], rfl, by simp, Token.tokensFrom_blank rfl offset more⟩

end Scans

variable {ν : Type} [Numeral ν]

/-- What a phrase asks of the tokens behind it to have a reading. Only the operand of a sign could
go on behind it, and no sign ends a power without parentheses. -/
def Phrase.Before : Phrase → List Token → Prop
  | .primary, _ => True
  | .marked, _ => True
  | .power, _ => True
  | _, rest => Phrase.juxtaposition.Closed rest

/-- A text stands for a tree as a phrase. -/
def Spells (letter : Char) (cs : List Char) (phrase : Phrase) (e : Expr ν) : Prop :=
  Scans letter Delimited cs fun ts => ∀ rest, phrase.Before rest → Reads phrase (ts ++ rest) e rest

namespace Spells

variable {letter : Char} {cs cs' : List Char} {e l r : Expr ν}

/-- Two operands with a sign between them, read one after the other. -/
private theorem scans_operation {phrase phrase' whole : Phrase} {kind : TokenKind} {c : Char}
    {e : Expr ν} (left : Spells letter cs phrase l) (right : Spells letter cs' phrase' r)
    (longest : ∀ more, TokenKind.longest (c :: more) = (kind, 1)) (visible : kind ≠ .blank)
    (unnamed : kind ≠ .letter)
    (closed : ∀ token rest, token.kind = kind → phrase.Before (token :: rest))
    (before : ∀ rest, whole.Before rest → phrase'.Before rest)
    (reads : ∀ ts sign mid rest, sign.kind = kind → Reads phrase ts l (sign :: mid) →
      Reads phrase' mid r rest → Reads whole ts e rest) :
    Spells letter (cs ++ ' ' :: c :: ' ' :: cs') whole e := by
  have space := Scans.space letter
  have sign := Scans.symbol letter c kind visible unnamed longest
  have middle := (space.append sign fun _ _ => trivial).append space fun _ _ => trivial
  have joined := (left.append middle fun more _ => by simp [Delimited]).append right
    fun _ _ => trivial
  simp only [List.append_assoc, List.cons_append, List.nil_append] at joined
  refine joined.mono ?_
  rintro ts ⟨us, vs, rfl, ⟨us, signs, rfl, first, us', vs', rfl,
    ⟨blank, signs', rfl, rfl, sign, rfl, kind⟩, rfl⟩, second⟩ rest follow
  have behind := second rest (before rest follow)
  have front := first (sign :: (vs ++ rest)) (closed sign _ kind)
  exact reads _ sign _ _ kind (by simpa using front) behind

theorem link {tier : Tier} {kind : TokenKind} {o : BinaryOp} {c : Char}
    (left : Spells letter cs (.chain tier) l) (right : Spells letter cs' tier.operand r)
    (longest : ∀ more, TokenKind.longest (c :: more) = (kind, 1))
    (operator : BinaryOp.ofToken? kind = some o) (member : o ∈ tier.operators) :
    Spells letter (cs ++ ' ' :: c :: ' ' :: cs') (.chain tier) (.op o l r) := by
  refine scans_operation left right longest ?_ ?_ ?_ ?_ ?_
  · rintro rfl
    cases operator
  · rintro rfl
    cases operator
  · rintro token rest rfl
    exact Phrase.closed_cons.mpr (Phrase.juxtaposition_continues_sign
      (Tier.mem_signs_iff.mpr ⟨o, member, operator⟩))
  · intro rest follow
    cases tier <;> exact follow
  · rintro ts sign mid rest rfl left right
    exact .link left operator member right

theorem raise (left : Spells letter cs .marked l) (right : Spells letter cs' .power r) :
    Spells letter (cs ++ ' ' :: '^' :: ' ' :: cs') .power (.op .pow l r) := by
  refine scans_operation left right (fun _ => rfl) (by decide) (by decide)
    (fun _ _ _ => trivial) (fun _ _ => trivial) ?_
  intro ts sign mid rest caret base exponent
  exact .raise (.marked base) caret exponent

theorem equality (left : Spells letter cs (.chain .sum) l)
    (right : Spells letter cs' (.chain .sum) r) :
    Spells letter (cs ++ ' ' :: '=' :: ' ' :: cs') .equation (.equal l r) := by
  refine scans_operation left right (fun _ => rfl) (by decide) (by decide) ?_
    (fun _ follow => follow) ?_
  · intro token rest equals
    exact Phrase.closed_cons.mpr (by rw [equals]; rfl)
  · intro ts sign mid rest equals left right
    exact .equality left equals right

/-- A phrase between two symbols. -/
private theorem scans_enclosed {phrase : Phrase} {first last : Char} {opens closes : TokenKind}
    (opening : Scans letter (fun _ => True) [first] fun ts =>
      ∃ token : Token, ts = [token] ∧ token.kind = opens)
    (spells : Spells letter cs phrase e)
    (closing : Scans letter (fun _ => True) [last] fun ts =>
      ∃ token : Token, ts = [token] ∧ token.kind = closes)
    (ends : ∀ more, Delimited (last :: more))
    (closed : ∀ token rest, token.kind = closes → phrase.Before (token :: rest)) :
    Scans letter Delimited (first :: cs ++ [last]) fun ts =>
      ∃ opening inside : _, ts = opening :: inside ∧ opening.kind = opens ∧
        ∀ rest, ∃ closing : Token, closing.kind = closes ∧
          Reads phrase (inside ++ rest) e (closing :: rest) := by
  have joined := (opening.append spells fun _ _ => trivial).append closing fun more _ => ends more
  refine joined.anywhere.mono ?_
  rintro ts ⟨us, vs, rfl, ⟨us, inside, rfl, ⟨opening, rfl, kind⟩, reads⟩, closing, rfl, kind'⟩
  refine ⟨opening, inside ++ [closing], by simp, kind, fun rest => ⟨closing, kind', ?_⟩⟩
  simpa using reads (closing :: rest) (closed closing rest kind')

theorem parentheses (spells : Spells letter cs (.chain .sum) e) :
    Spells letter ('(' :: cs ++ [')']) .primary e := by
  have opening := Scans.symbol letter '(' .openParen (by decide) (by decide) fun _ => rfl
  have closing := Scans.symbol letter ')' .closeParen (by decide) (by decide) fun _ => rfl
  refine (scans_enclosed opening spells closing (fun more => by simp [Delimited]) ?_).mono ?_
  · intro token rest kind
    exact Phrase.closed_cons.mpr (by rw [kind]; rfl)
  · rintro ts ⟨opening, inside, rfl, opens, reads⟩ rest _
    obtain ⟨closing, closes, sum⟩ := reads rest
    exact .parentheses opens sum closes

theorem vector {us : List (Expr ν)} (spells : Spells letter cs .components (.apply .vector us)) :
    Spells letter ('[' :: cs ++ [']']) .primary (.apply .vector us) := by
  have opening := Scans.symbol letter '[' .openSquare (by decide) (by decide) fun _ => rfl
  have closing := Scans.symbol letter ']' .closeSquare (by decide) (by decide) fun _ => rfl
  refine (scans_enclosed opening spells closing (fun more => by simp [Delimited]) ?_).mono ?_
  · intro token rest kind
    exact Phrase.closed_cons.mpr (by rw [kind]; rfl)
  · rintro ts ⟨opening, inside, rfl, opens, reads⟩ rest _
    obtain ⟨closing, closes, components⟩ := reads rest
    exact .vector opens components closes

theorem application {f : Func} {kind : TokenKind} {name : List Char} (nonempty : name ≠ [])
    (function : Func.ofToken? kind = some f)
    (longest : ∀ more, TokenKind.longest (name ++ '(' :: more) = (kind, name.length))
    (spells : Spells letter cs (.chain .sum) e) :
    Spells letter (name ++ '(' :: cs ++ [')']) .primary (.apply f [e]) := by
  have word : Scans letter (fun more => more.head? = some '(') name fun ts =>
      ∃ token : Token, ts = [token] ∧ token.kind = kind ∧ token.lexeme = String.ofList name := by
    refine Scans.lexeme kind nonempty ?_ ?_ ?_
    · rintro rfl
      cases function
    · rintro (_ | ⟨c, more⟩) follow
      · cases follow
      · cases follow
        exact longest more
    · rintro rfl
      cases function
  have opening := Scans.symbol letter '(' .openParen (by decide) (by decide) fun _ => rfl
  have closing := Scans.symbol letter ')' .closeParen (by decide) (by decide) fun _ => rfl
  have inside := scans_enclosed opening spells closing (fun more => by simp [Delimited])
    fun token rest kind => Phrase.closed_cons.mpr (by rw [kind]; rfl)
  have joined := word.append inside fun more _ => rfl
  rw [List.append_assoc]
  refine joined.mono ?_
  rintro ts ⟨us, vs, rfl, ⟨token, rfl, kind, -⟩, opening, inside, rfl, opens, reads⟩ rest _
  obtain ⟨closing, closes, sum⟩ := reads rest
  exact .application (kind ▸ function) opens sum closes

theorem mark (spells : Spells letter cs .marked e) :
    Spells letter (cs ++ ['!']) .marked (.apply .factorial [e]) := by
  have bang := Scans.symbol letter '!' .bang (by decide) (by decide) fun _ => rfl
  refine (spells.append bang fun more _ => by simp [Delimited]).anywhere.mono ?_
  rintro ts ⟨us, vs, rfl, reads, token, rfl, kind⟩ rest _
  exact .mark (by simpa using reads (token :: rest) trivial) kind

theorem sign {o : UnaryOp} {c : Char} {kind : TokenKind}
    (longest : ∀ more, TokenKind.longest (c :: more) = (kind, 1))
    (operator : UnaryOp.ofToken? kind = some o) (spells : Spells letter cs .juxtaposition e) :
    Spells letter (c :: cs) .juxtaposition (.sign o e) := by
  have visible : kind ≠ .blank := by
    rintro rfl
    cases operator
  have unnamed : kind ≠ .letter := by
    rintro rfl
    cases operator
  have first := Scans.symbol letter c kind visible unnamed longest
  refine (first.append spells fun _ _ => trivial).mono ?_
  rintro ts ⟨us, vs, rfl, ⟨token, rfl, kind⟩, reads⟩ rest follow
  exact Reads.withCoefficient (.base (.sign (kind ▸ operator) (reads rest follow) follow))

theorem last (spells : Spells letter cs (.chain .sum) e) :
    Spells letter cs .components (.apply .vector [e]) :=
  spells.mono fun _ reads rest follow => .last (reads rest follow)

theorem component {us : List (Expr ν)} (spells : Spells letter cs (.chain .sum) e)
    (behind : Spells letter cs' .components (.apply .vector us)) :
    Spells letter (cs ++ ',' :: ' ' :: cs') .components (.apply .vector (e :: us)) := by
  have comma := (Scans.symbol letter ',' .comma (by decide) (by decide) fun _ => rfl).append
    (Scans.space letter) fun _ _ => trivial
  have joined := (spells.append comma fun more _ => by simp [Delimited]).append behind
    fun _ _ => trivial
  simp only [List.append_assoc, List.cons_append, List.nil_append] at joined
  refine joined.mono ?_
  rintro ts ⟨us, vs, rfl, ⟨us, commas, rfl, sum, us', vs', rfl, ⟨token, rfl, kind⟩, rfl⟩,
    components⟩ rest follow
  have front := sum (token :: (vs ++ rest)) (Phrase.closed_cons.mpr (by rw [kind]; rfl))
  exact .component (by simpa using front) kind (components rest follow)

end Spells

end AlgebraEngine
