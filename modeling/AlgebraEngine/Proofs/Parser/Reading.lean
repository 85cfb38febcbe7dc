import AlgebraEngine.Proofs.Parser.Phrase

/-! Every phrase has a reading. The grammar lets a power follow a sign and lets a sign apply to
less than the whole product behind it; a row of pieces forgets how an implicit product was taken
apart, and is then read in the one way that the parser follows. -/
namespace AlgebraEngine

private theorem split_at {ts : List Token} {u v : List TokenKind} {kind : TokenKind}
    (same : ts.map Token.kind = u ++ kind :: v) :
    ∃ before token after, ts = before ++ token :: after ∧ before.map Token.kind = u ∧
      token.kind = kind ∧ after.map Token.kind = v := by
  obtain ⟨before, tail, rfl, left, right⟩ := List.map_eq_append_iff.mp same
  obtain ⟨token, after, rfl, here, behind⟩ := List.map_eq_cons_iff.mp right
  exact ⟨before, token, after, rfl, left, here, behind⟩

private theorem split_inside {ts : List Token} {u : List TokenKind} {opening closing : TokenKind}
    (same : ts.map Token.kind = opening :: u ++ [closing]) :
    ∃ first inside last, ts = first :: inside ++ [last] ∧ first.kind = opening ∧
      inside.map Token.kind = u ∧ last.kind = closing := by
  obtain ⟨before, last, after, rfl, left, closes, right⟩ := split_at same
  obtain ⟨first, inside, rfl, opens, middle⟩ := List.map_eq_cons_iff.mp left
  obtain rfl := List.map_eq_nil_iff.mp right
  exact ⟨first, inside, last, rfl, opens, middle, closes⟩

/-- An implicit product as a row of pieces: signs in front, and pieces joined by `^`, or by nothing
where the next piece starts like a factor. Signs can also follow a `^`. -/
inductive Row (Piece : List TokenKind → Prop) : List TokenKind → Prop where
  | piece {u} (piece : Piece u) : Row Piece u
  | sign {kind u} (sign : kind = .plus ∨ kind = .minus) (row : Row Piece u) :
      Row Piece (kind :: u)
  | raise {u v} (base : Piece u) (row : Row Piece v) : Row Piece (u ++ .caret :: v)
  | join {u kind v} (piece : Piece u) (starts : kind.startsFactor = true)
      (row : Row Piece (kind :: v)) : Row Piece (u ++ kind :: v)

namespace Row

variable {Piece : List TokenKind → Prop} {u v : List TokenKind}

/-- A row raised to a row is one row, whatever the exponent applied to. -/
theorem raises (base : Row Piece u) (exponent : Row Piece v) : Row Piece (u ++ .caret :: v) := by
  induction base with
  | piece piece => exact .raise piece exponent
  | sign sign _ ih => exact .sign sign ih
  | raise piece _ ih => simpa using Row.raise piece ih
  | join piece starts _ ih => simpa using Row.join piece starts ih

/-- A row with factors behind it is one row, wherever its last sign or exponent ended. -/
theorem joins {kind : TokenKind} (factors : Row Piece u) (starts : kind.startsFactor = true)
    (row : Row Piece (kind :: v)) : Row Piece (u ++ kind :: v) := by
  induction factors with
  | piece piece => exact .join piece starts row
  | sign sign _ ih => exact .sign sign ih
  | raise piece _ ih => simpa using Row.raise piece ih
  | join piece starts' _ ih => simpa using Row.join piece starts' ih

end Row

variable (ν : Type) [Numeral ν]

/-- Tokens of these kinds have a reading as a phrase, whatever stands behind them. -/
def Piece (phrase : Phrase) (u : List TokenKind) : Prop :=
  ∀ ts rest, ts.map Token.kind = u → ∃ e : Expr ν, Reads phrase (ts ++ rest) e rest

/-- Tokens of these kinds have a reading as a phrase, if no product goes on behind them. -/
def Readable (phrase : Phrase) (u : List TokenKind) : Prop :=
  ∀ ts rest, ts.map Token.kind = u → Phrase.juxtaposition.Closed rest →
    ∃ e : Expr ν, Reads phrase (ts ++ rest) e rest

/-- What is left of a row behind its first power: nothing, or a row that starts like a factor. -/
def Leaves (u : List TokenKind) : Prop :=
  u = [] ∨ Row (Piece ν .marked) u ∧ ∃ kind v, u = kind :: v ∧ kind.startsFactor = true

/-- The first power of a row has a reading, and it is shorter than the row itself. -/
def StartsPower (u : List TokenKind) : Prop :=
  ∀ ts rest, ts.map Token.kind = u → Phrase.juxtaposition.Closed rest →
    ∃ (e : Expr ν) (behind : List Token), Leaves ν (behind.map Token.kind) ∧
      behind.length < ts.length ∧ Reads .power (ts ++ rest) e (behind ++ rest)

variable {ν}

/-- A juxtaposition takes in all factors of the row behind it. -/
theorem juxtaposition_grows {size : Nat}
    (powers : ∀ u, u.length ≤ size → Row (Piece ν .marked) u → StartsPower ν u)
    {ts behind rest : List Token} {l : Expr ν} (short : behind.length ≤ size)
    (leaves : Leaves ν (behind.map Token.kind)) (closed : Phrase.juxtaposition.Closed rest)
    (reads : Reads .juxtaposition ts l (behind ++ rest)) :
    ∃ e : Expr ν, Reads .juxtaposition ts e rest := by
  induction count : behind.length using Nat.strongRecOn generalizing behind l with
  | _ count ih =>
    subst count
    rcases leaves with none | ⟨row, kind, v, next, starts⟩
    · obtain rfl := List.map_eq_nil_iff.mp none
      exact ⟨l, reads⟩
    · obtain ⟨r, behind', leaves', shorter, power⟩ :=
        powers _ (by simpa using short) row behind rest rfl closed
      obtain ⟨token, behind, rfl, rfl, rfl⟩ := List.map_eq_cons_iff.mp next
      exact ih _ shorter (by omega) leaves' (reads.join starts power) rfl

private theorem juxtaposition_of_powers {size : Nat}
    (powers : ∀ u, u.length ≤ size → Row (Piece ν .marked) u → StartsPower ν u)
    {u : List TokenKind} (short : u.length ≤ size) (row : Row (Piece ν .marked) u) :
    Readable ν .juxtaposition u := by
  rintro ts rest rfl closed
  obtain ⟨e, behind, leaves, shorter, power⟩ := powers _ short row ts rest rfl closed
  rw [List.length_map] at short
  exact juxtaposition_grows powers (by omega) leaves closed power.withCoefficient

/-- The first power of every row has a reading: a sign takes in the whole row behind it, and an
exponent only its own first power. -/
theorem Row.startsPower {u : List TokenKind} (row : Row (Piece ν .marked) u) :
    StartsPower ν u := by
  induction size : u.length using Nat.strongRecOn generalizing u with
  | _ size ih =>
    subst size
    have shorter (v : List TokenKind) (short : v.length < u.length)
        (row : Row (Piece ν .marked) v) : StartsPower ν v := ih _ short row rfl
    intro ts rest same closed
    cases row with
    | piece piece =>
      obtain ⟨e, marked⟩ := piece ts rest same
      have nonempty := marked.length_lt
      refine ⟨e, [], .inl rfl, ?_, .base (.marked marked)⟩
      rw [List.length_append] at nonempty
      rw [List.length_nil]
      omega
    | @sign kind v sign row =>
      obtain ⟨token, ts, rfl, rfl, rfl⟩ := List.map_eq_cons_iff.mp same
      obtain ⟨o, kind⟩ : ∃ o, UnaryOp.ofToken? token.kind = some o := by
        rcases sign with kind | kind <;> simp [kind, UnaryOp.ofToken?]
      have inner := juxtaposition_of_powers
        (fun w short => shorter w (by simp at short ⊢; omega)) (Nat.le_refl _) row
      obtain ⟨e, product⟩ := inner ts rest rfl closed
      exact ⟨_, [], .inl rfl, by simp, .base (.sign kind product closed)⟩
    | @raise v w base row =>
      obtain ⟨before, caret, exponent, rfl, rfl, kind, rfl⟩ := split_at same
      obtain ⟨b, marked⟩ := base before (caret :: exponent ++ rest) rfl
      obtain ⟨e, behind, leaves, less, power⟩ :=
        shorter _ (by simp; omega) row exponent rest rfl closed
      refine ⟨.op .pow b e, behind, leaves, ?_, ?_⟩
      · simp
        omega
      · rw [List.append_assoc]
        exact .raise (.marked marked) kind power
    | @join v kind w piece starts row =>
      obtain ⟨before, token, factors, rfl, rfl, rfl, rfl⟩ := split_at same
      obtain ⟨e, marked⟩ := piece before (token :: factors ++ rest) rfl
      refine ⟨e, token :: factors, .inr ⟨row, _, _, rfl, starts⟩, ?_, ?_⟩
      · have nonempty := marked.length_lt
        simp only [List.length_append] at nonempty ⊢
        omega
      · rw [List.append_assoc]
        exact .base (.marked marked)

/-- Every row has a reading as a juxtaposition, whichever way it was derived. -/
theorem Row.readable {u : List TokenKind} (row : Row (Piece ν .marked) u) :
    Readable ν .juxtaposition u :=
  juxtaposition_of_powers (fun _ _ row => row.startsPower) (Nat.le_refl _) row

variable (ν)

/-- What a derivation of a phrase is read through. The parts of an implicit product become rows. -/
def Represents : Phrase → List TokenKind → Prop
  | .juxtaposition, u => Row (Piece ν .marked) u
  | .power, u => Row (Piece ν .marked) u
  | .operand, u => Row (Piece ν .marked) u
  | .marked, u => Piece ν .marked u
  | .primary, u => Piece ν .primary u
  | phrase, u => Readable ν phrase u

variable {ν}

theorem Represents.operand {tier : Tier} {u : List TokenKind}
    (represents : Represents ν tier.operand u) : Readable ν tier.operand u := by
  cases tier with
  | sum | product => exact represents
  | quotient => exact Row.readable represents

/-- Components that have a reading are read as a vector. -/
theorem Reads.vector_of_components {ts rest : List Token} {e : Expr ν}
    (reads : Reads .components ts e rest) : ∃ es, e = .apply .vector es := by
  cases reads with
  | last | component => exact ⟨_, rfl⟩

/-- Between brackets, a sum has a reading whatever follows the closing one. -/
private theorem Readable.enclosed {phrase : Phrase} {u : List TokenKind} {inside : List Token}
    {closing : Token} (readable : Readable ν phrase u) (rest : List Token)
    (same : inside.map Token.kind = u)
    (closes : Phrase.juxtaposition.continues closing.kind = false) :
    ∃ e : Expr ν, Reads phrase (inside ++ [closing] ++ rest) e (closing :: rest) := by
  obtain ⟨e, reads⟩ := readable inside (closing :: rest) same (Phrase.closed_cons.mpr closes)
  exact ⟨e, by simpa using reads⟩

theorem Derives.represents {phrase : Phrase} {u : List TokenKind} (derives : Derives phrase u) :
    Represents ν phrase u := by
  induction derives with
  | sum _ ih =>
    intro ts rest same closed
    obtain ⟨e, reads⟩ := ih ts rest same closed
    exact ⟨e, .sum reads⟩
  | equality _ _ left right =>
    intro ts rest same closed
    obtain ⟨before, sign, after, rfl, rfl, kind, rfl⟩ := split_at same
    obtain ⟨l, reads⟩ := left before (sign :: after ++ rest) rfl (by simp [kind]; rfl)
    obtain ⟨r, reads'⟩ := right after rest rfl closed
    exact ⟨_, .equality (by simpa using reads) kind reads'⟩
  | first _ ih =>
    intro ts rest same closed
    obtain ⟨e, reads⟩ := ih.operand ts rest same closed
    exact ⟨e, .first reads⟩
  | link _ links _ chain operand =>
    intro ts rest same closed
    obtain ⟨before, sign, after, rfl, rfl, rfl, rfl⟩ := split_at same
    obtain ⟨o, member, operator⟩ := Tier.mem_signs_iff.mp links
    obtain ⟨l, reads⟩ := chain before (sign :: after ++ rest) rfl
      (Phrase.closed_cons.mpr (Phrase.juxtaposition_continues_sign links))
    obtain ⟨r, reads'⟩ := operand.operand after rest rfl closed
    exact ⟨_, .link (by simpa using reads) operator member reads'⟩
  | factor _ ih | base _ ih => exact ih
  | join _ starts _ factors row => exact Row.joins factors starts row
  | raise _ _ base exponent => exact Row.raises base exponent
  | sign sign _ row => exact Row.sign sign row
  | marked _ ih => exact Row.piece ih
  | primary _ ih =>
    intro ts rest same
    obtain ⟨e, reads⟩ := ih ts rest same
    exact ⟨e, .primary reads⟩
  | mark _ ih =>
    intro ts rest same
    obtain ⟨before, bang, after, rfl, rfl, kind, none⟩ := split_at same
    obtain rfl := List.map_eq_nil_iff.mp none
    obtain ⟨e, reads⟩ := ih before (bang :: rest) rfl
    exact ⟨_, .mark (by simpa using reads) kind⟩
  | leaf leaf =>
    intro ts rest same
    obtain ⟨token, after, rfl, rfl, none⟩ := List.map_eq_cons_iff.mp same
    obtain rfl := List.map_eq_nil_iff.mp none
    simp only [List.mem_cons, List.not_mem_nil, or_false] at leaf
    rcases leaf with kind | kind | kind | kind
    · exact ⟨_, .number kind⟩
    · exact ⟨_, .letter kind⟩
    · exact ⟨_, .euler kind⟩
    · exact ⟨_, .pi kind⟩
  | parentheses _ ih =>
    intro ts rest same
    obtain ⟨opening, inside, closing, rfl, opens, same, closes⟩ := split_inside same
    obtain ⟨e, reads⟩ := Readable.enclosed ih rest same (by rw [closes]; rfl)
    exact ⟨_, .parentheses opens reads closes⟩
  | application function _ ih =>
    intro ts rest same
    obtain ⟨name, after, rfl, rfl, behind⟩ := List.map_eq_cons_iff.mp same
    obtain ⟨opening, inside, closing, rfl, opens, same, closes⟩ := split_inside behind
    obtain ⟨e, reads⟩ := Readable.enclosed ih rest same (by rw [closes]; rfl)
    obtain ⟨f, named⟩ : ∃ f, Func.ofToken? name.kind = some f := by
      cases kind : name.kind <;> simp_all [TokenKind.isFunction, Func.ofToken?]
    exact ⟨_, .application named opens reads closes⟩
  | vector _ ih =>
    intro ts rest same
    obtain ⟨opening, inside, closing, rfl, opens, same, closes⟩ := split_inside same
    obtain ⟨e, reads⟩ := Readable.enclosed ih rest same (by rw [closes]; rfl)
    obtain ⟨es, rfl⟩ := reads.vector_of_components
    exact ⟨_, .vector opens reads closes⟩
  | last _ ih =>
    intro ts rest same closed
    obtain ⟨e, reads⟩ := ih ts rest same closed
    exact ⟨_, .last reads⟩
  | component _ _ sum components =>
    intro ts rest same closed
    obtain ⟨before, comma, after, rfl, rfl, kind, rfl⟩ := split_at same
    obtain ⟨e, reads⟩ := sum before (comma :: after ++ rest) rfl (by simp [kind]; rfl)
    obtain ⟨v, reads'⟩ := components after rest rfl closed
    obtain ⟨es, rfl⟩ := reads'.vector_of_components
    exact ⟨_, .component (by simpa using reads) kind reads'⟩

/-- Every row of tokens that is an equation stands for a tree. -/
theorem Derives.reads {ts : List Token} (derives : Derives .equation (ts.map Token.kind)) :
    ∃ e : Expr ν, Reads .equation ts e [] := by
  obtain ⟨e, reads⟩ := derives.represents (ν := ν) ts [] rfl (Phrase.closed_nil _)
  exact ⟨e, by simpa using reads⟩

end AlgebraEngine
