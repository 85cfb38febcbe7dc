import AlgebraEngine.Proofs.Parser.Phrase

/-! A sign applies to the longest implicit product behind it. Outside of brackets every token of an
implicit product that follows an operand binds to it, so a product that no such token follows is not
the beginning of a longer one. -/
namespace AlgebraEngine

/-- How far a row of tokens has come: the number of open brackets, and whether an operand has just
ended. -/
structure Nesting where
  depth : Nat
  ended : Bool

namespace Nesting

/-- Behind an operand outside of brackets a token has to bind. -/
def admits (s : Nesting) (kind : TokenKind) : Bool := 0 < s.depth || !s.ended || kind.binds

/-- Where a token leads. -/
def behind (s : Nesting) : TokenKind → Nesting
  | .openParen | .openSquare => { depth := s.depth + 1, ended := false }
  | .closeParen | .closeSquare => { depth := s.depth - 1, ended := true }
  | .number | .letter | .euler | .pi | .bang => { s with ended := true }
  | _ => { s with ended := false }

/-- Where a row of tokens leads, if each of them is admitted. -/
def scan (s : Nesting) : List TokenKind → Option Nesting
  | [] => some s
  | kind :: u => if s.admits kind then (s.behind kind).scan u else none

theorem scan_append (s : Nesting) (u v : List TokenKind) :
    s.scan (u ++ v) = (s.scan u).bind fun s' => s'.scan v := by
  induction u generalizing s with
  | nil => rfl
  | cons kind u ih =>
    simp only [List.cons_append, scan]
    split
    · exact ih _
    · rfl

theorem scan_cons {s : Nesting} {kind : TokenKind} (admitted : s.admits kind = true)
    (u : List TokenKind) : s.scan (kind :: u) = (s.behind kind).scan u := if_pos admitted

/-- A row that leads behind an operand, an operator, and a row that leads on from there. -/
theorem scan_operation {s : Nesting} {u v : List TokenKind} {kind : TokenKind}
    (left : s.scan u = some { s with ended := true })
    (admitted : admits { s with ended := true } kind = true)
    (operator : behind { s with ended := true } kind = { s with ended := false })
    (right : scan { s with ended := false } v = some { s with ended := true }) :
    s.scan (u ++ kind :: v) = some { s with ended := true } := by
  rw [scan_append, left, Option.bind_some, scan_cons admitted, operator, right]

/-- Brackets around a row that stays within them. -/
theorem scan_brackets {s : Nesting} {u : List TokenKind} {opening closing : TokenKind}
    (admitted : s.admits opening = true)
    (opens : s.behind opening = { depth := s.depth + 1, ended := false })
    (inside : ∀ s' : Nesting, 0 < s'.depth → s'.ended = false →
      s'.scan u = some { s' with ended := true })
    (closes : closing = .closeParen ∨ closing = .closeSquare) :
    s.scan (opening :: u ++ [closing]) = some { s with ended := true } := by
  have within := inside { depth := s.depth + 1, ended := false } (Nat.succ_pos _) rfl
  have admitted' : admits { depth := s.depth + 1, ended := true } closing = true := by
    simp [admits]
  rw [List.cons_append, scan_cons admitted, opens, scan_append, within, Option.bind_some,
    scan_cons admitted']
  rcases closes with rfl | rfl <;> rfl

end Nesting

namespace Phrase

/-- Phrases without operators between their operands but powers. -/
def tight : Phrase → Bool
  | juxtaposition | power | operand | marked | primary => true
  | equation | chain _ | components => false

end Phrase

open Nesting

private theorem admitted_front {s : Nesting} {u v : List TokenKind}
    (admitted : ∀ kind ∈ (u ++ v).head?, s.admits kind = true) :
    ∀ kind ∈ u.head?, s.admits kind = true := by
  intro kind first
  refine admitted kind ?_
  rw [List.head?_append, Option.mem_def.mp first]
  rfl

private theorem admitted_first {s : Nesting} (begins : s.ended = false) (u : List TokenKind) :
    ∀ kind ∈ u.head?, s.admits kind = true := by
  intro kind _
  simp [admits, begins]

private theorem admitted_inside {depth : Nat} (inside : 0 < depth) (ended : Bool)
    (kind : TokenKind) : admits { depth := depth, ended := ended } kind = true := by
  simp [admits, inside]

private theorem behind_sign {tier : Tier} {kind : TokenKind} (links : kind ∈ tier.signs)
    (s : Nesting) : s.behind kind = { s with ended := false } := by
  cases tier with
  | sum | product =>
    simp only [Tier.signs, List.mem_cons, List.not_mem_nil, or_false] at links
    rcases links with rfl | rfl <;> rfl
  | quotient =>
    obtain rfl := List.mem_singleton.mp links
    rfl

private theorem behind_function {kind : TokenKind} (function : kind.isFunction = true)
    (s : Nesting) : s.behind kind = { s with ended := false } := by
  cases kind with
  | sqrt | abs | sin | cos | tan | ln => rfl
  | _ => cases function

/-- A phrase leads behind an operand at the same depth. One that holds other operators outside of
brackets has to be within brackets itself. -/
theorem Derives.scan {phrase : Phrase} {u : List TokenKind} (derives : Derives phrase u)
    {s : Nesting} (room : phrase.tight = true ∨ 0 < s.depth)
    (admitted : ∀ kind ∈ u.head?, s.admits kind = true) :
    s.scan u = some { s with ended := true } := by
  induction derives generalizing s with
  | sum _ ih | last _ ih => exact ih room admitted
  | factor _ ih | base _ ih | marked _ ih | primary _ ih => exact ih (.inl rfl) admitted
  | first _ ih =>
    have inside : 0 < s.depth := room.resolve_left Bool.false_ne_true
    exact ih (.inr inside) admitted
  | equality _ _ left right =>
    have inside : 0 < s.depth := room.resolve_left Bool.false_ne_true
    exact scan_operation (left room (admitted_front admitted)) (admitted_inside inside _ _) rfl
      (right (.inr inside) (admitted_first rfl _))
  | link _ links _ chain operand =>
    have inside : 0 < s.depth := room.resolve_left Bool.false_ne_true
    exact scan_operation (chain room (admitted_front admitted)) (admitted_inside inside _ _)
      (behind_sign links _) (operand (.inr inside) (admitted_first rfl _))
  | @join u kind v _ starts _ factors power =>
    have binds : kind.binds = true := by simp [TokenKind.binds, starts]
    rw [Nesting.scan_append, factors (.inl rfl) (admitted_front admitted), Option.bind_some]
    refine power (.inl rfl) ?_
    rintro kind ⟨⟩
    simp [admits, binds]
  | raise _ _ base exponent =>
    have binds : admits { s with ended := true } .caret = true := by
      simp [admits, TokenKind.binds]
    exact scan_operation (base (.inl rfl) (admitted_front admitted)) binds rfl
      (exponent (.inl rfl) (admitted_first rfl _))
  | @sign kind u sign _ ih =>
    have front : s.admits kind = true := admitted kind rfl
    have operator : s.behind kind = { s with ended := false } := by
      rcases sign with rfl | rfl <;> rfl
    rw [scan_cons front, operator]
    exact ih (.inl rfl) (admitted_first rfl _)
  | mark _ ih =>
    have binds : admits { s with ended := true } .bang = true := by
      simp [admits, TokenKind.binds]
    rw [Nesting.scan_append, ih (.inl rfl) (admitted_front admitted), Option.bind_some,
      scan_cons binds]
    rfl
  | @leaf kind leaf =>
    have front : s.admits kind = true := admitted kind rfl
    rw [scan_cons front]
    simp only [List.mem_cons, List.not_mem_nil, or_false] at leaf
    rcases leaf with rfl | rfl | rfl | rfl <;> rfl
  | parentheses _ ih =>
    exact scan_brackets (admitted _ rfl) rfl
      (fun s' inside begins => ih (.inr inside) (admitted_first begins _)) (.inl rfl)
  | @application kind u function _ ih =>
    have front : s.admits kind = true := admitted kind rfl
    rw [List.cons_append, scan_cons front, behind_function function]
    exact scan_brackets (admitted_first (s := { s with ended := false }) rfl [.openParen] _ rfl) rfl
      (fun s' inside begins => ih (.inr inside) (admitted_first begins _)) (.inl rfl)
  | vector _ ih =>
    exact scan_brackets (admitted _ rfl) rfl
      (fun s' inside begins => ih (.inr inside) (admitted_first begins _)) (.inr rfl)
  | component _ _ sum components =>
    have inside : 0 < s.depth := room.resolve_left Bool.false_ne_true
    exact scan_operation (sum (.inr inside) (admitted_front admitted)) (admitted_inside inside _ _) rfl
      (components room (admitted_first rfl _))

/-- A token that makes an implicit product longer binds to it. -/
theorem Derives.binds_of_longer {u v : List TokenKind} {kind : TokenKind}
    (short : Derives .juxtaposition u) (long : Derives .juxtaposition (u ++ kind :: v)) :
    kind.binds = true := by
  have start (w : List TokenKind) : ∀ kind ∈ w.head?, admits ⟨0, false⟩ kind = true :=
    admitted_first rfl w
  have behind := short.scan (.inl rfl) (start _)
  have whole := long.scan (.inl rfl) (start _)
  rw [Nesting.scan_append, behind, Option.bind_some, Nesting.scan] at whole
  split at whole
  · rename_i admitted
    simpa [admits] using admitted
  · cases whole

/-- What is left of a row of tokens behind the longest implicit product that it starts with. -/
structure BehindLongest (ts rest : List Token) : Prop where
  product : ∃ used, ts = used ++ rest ∧ Derives .juxtaposition (used.map Token.kind)
  longest : ∀ used rest', ts = used ++ rest' → Derives .juxtaposition (used.map Token.kind) →
    rest.length ≤ rest'.length

section Longest

variable {ν : Type} [Numeral ν] {ts rest : List Token} {e : Expr ν}

/-- An implicit product that the next token does not continue is the longest one at the start of its
tokens. -/
theorem Reads.longest (reads : Reads .juxtaposition ts e rest)
    (closed : Phrase.juxtaposition.Closed rest) : BehindLongest ts rest := by
  refine ⟨reads.derives, fun used rest' same derives => ?_⟩
  obtain ⟨taken, rfl, product⟩ := reads.derives
  rcases List.append_eq_append_iff.mp same with ⟨more, rfl, behind⟩ | ⟨more, -, behind⟩
  · cases more with
    | nil => simp [behind]
    | cons token more =>
      subst behind
      rw [List.map_append, List.map_cons] at derives
      have loose : token.kind.binds = false := Phrase.closed_cons.mp closed
      rw [product.binds_of_longer derives] at loose
      cases loose
  · simp [behind]

/-- No sign stands in front of a primary, with factorials or without. -/
theorem Derives.head_unsigned {phrase : Phrase} {u : List TokenKind} (derives : Derives phrase u)
    (bare : phrase = .marked ∨ phrase = .primary) :
    ∀ kind ∈ u.head?, UnaryOp.ofToken? kind = none := by
  induction derives with
  | primary _ ih => exact ih (.inr rfl)
  | @mark u marked ih =>
    cases u with
    | nil => exact absurd rfl marked.ne_nil
    | cons kind u => exact ih (.inl rfl)
  | leaf leaf =>
    simp only [List.mem_cons, List.not_mem_nil, or_false] at leaf
    rcases leaf with rfl | rfl | rfl | rfl <;> simp [UnaryOp.ofToken?]
  | @application kind _ function =>
    cases kind <;> simp_all [TokenKind.isFunction, UnaryOp.ofToken?]
  | parentheses | vector => simp [UnaryOp.ofToken?]
  | _ => simp at bare

/-- An operand that starts with a sign is the sign of the longest implicit product behind it. -/
theorem Reads.sign_longest {sign : Token} {o : UnaryOp}
    (signs : UnaryOp.ofToken? sign.kind = some o) (reads : Reads .operand (sign :: ts) e rest) :
    ∃ inner, e = .sign o inner ∧ Reads .juxtaposition ts inner rest ∧ BehindLongest ts rest := by
  cases reads with
  | sign signs' product closed =>
    obtain rfl := Option.some.inj (signs'.symm.trans signs)
    exact ⟨_, rfl, product, product.longest closed⟩
  | marked marked =>
    obtain ⟨used, same, derives⟩ := marked.derives
    cases used with
    | nil => exact absurd rfl derives.ne_nil
    | cons first used =>
      cases same
      rw [derives.head_unsigned (.inl rfl) sign.kind rfl] at signs
      cases signs

end Longest

end AlgebraEngine
