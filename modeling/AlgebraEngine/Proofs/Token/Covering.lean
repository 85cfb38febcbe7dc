import AlgebraEngine.Proofs.Token.Matching

/-! The tokens of a source cover it. Read one after the other their lexemes spell the source, their
spans lie behind each other without a gap, and each lexeme is the longest beginning of what is left
in front of it that any kind of token matches. -/
namespace AlgebraEngine

theorem utf8ByteSize_ofList (cs : List Char) :
    (String.ofList cs).utf8ByteSize = byteLength cs := by
  induction cs with
  | nil => rfl
  | cons c cs ih =>
    have first : (String.ofList [c]).utf8ByteSize = c.utf8Size := by
      rw [← String.singleton_eq_ofList, String.utf8ByteSize_singleton]
    rw [← List.singleton_append, String.ofList_append, String.utf8ByteSize_append, first, ih]
    rfl

theorem byteLength_pos {cs : List Char} (nonempty : cs ≠ []) : 0 < byteLength cs := by
  rw [← utf8ByteSize_ofList]
  refine Nat.pos_of_ne_zero fun empty => nonempty ?_
  exact String.ofList_eq_empty_iff.mp (String.utf8ByteSize_eq_zero_iff.mp empty)

namespace Token

/-- Tokens split a text that starts at a byte offset: each takes the next lexeme off the text. -/
inductive Splits : Nat → List Char → List Token → Prop where
  | done (offset : Nat) : Splits offset [] []
  | token {offset : Nat} {kind : TokenKind} {lexeme more : List Char} {tokens : List Token}
      (nonempty : lexeme ≠ []) (chosen : TokenKind.Chosen kind lexeme (lexeme ++ more))
      (behind : Splits (offset + byteLength lexeme) more tokens) :
      Splits offset (lexeme ++ more)
        (⟨kind, ⟨offset, offset + byteLength lexeme⟩, String.ofList lexeme⟩ :: tokens)

/-- What scanning takes off a text that has not ended. -/
theorem scanFrom_step (offset : Nat) {cs : List Char} (nonempty : cs ≠ []) :
    ∃ kind lexeme more, cs = lexeme ++ more ∧ lexeme ≠ [] ∧ TokenKind.Chosen kind lexeme cs ∧
      scanFrom offset 0 cs =
        ⟨kind, ⟨offset, offset + byteLength lexeme⟩, String.ofList lexeme⟩ ::
          scanFrom (offset + byteLength lexeme) 0 more := by
  have chosen := TokenKind.longest_chosen nonempty
  obtain ⟨-, -, -, length, found, -, -⟩ := TokenKind.longest_first nonempty
  have within : (TokenKind.longest cs).2 ≤ cs.length := length ▸ Pattern.matchLength_le _ cs
  have size : (cs.take (TokenKind.longest cs).2).length = (TokenKind.longest cs).2 :=
    List.length_take_of_le within
  have some : cs.take (TokenKind.longest cs).2 ≠ [] := by
    rw [← List.length_pos_iff, size]
    exact found
  have whole := (List.take_append_drop (TokenKind.longest cs).2 cs).symm
  refine ⟨_, _, _, whole, some, chosen, ?_⟩
  conv => lhs; rw [whole]
  exact scanFrom_lexeme offset some (by rw [← whole, size])

theorem scanFrom_splits (offset : Nat) (cs : List Char) :
    Splits offset cs (scanFrom offset 0 cs) := by
  by_cases ended : cs = []
  · subst ended
    exact .done offset
  · obtain ⟨kind, lexeme, more, rfl, some, chosen, step⟩ := scanFrom_step offset ended
    have shorter : more.length < (lexeme ++ more).length := by
      have positive := List.length_pos_iff.mpr some
      rw [List.length_append]
      omega
    rw [step]
    exact .token some chosen (scanFrom_splits _ more)
termination_by cs.length

/-- The text that tokens were read from. -/
def text (tokens : List Token) : String := String.join (tokens.map lexeme)

theorem text_append (tokens behind : List Token) :
    text (tokens ++ behind) = text tokens ++ text behind := by
  rw [text, List.map_append, String.join_append, text, text]

/-- Tokens whose spans lie behind each other from one byte offset to another, none of them empty. -/
def Tiles : Nat → List Token → Nat → Prop
  | first, [], last => first = last
  | first, token :: tokens, last =>
    token.span.start = first ∧ first < token.span.stop ∧ Tiles token.span.stop tokens last

namespace Splits

variable {offset : Nat} {cs : List Char} {tokens : List Token}

theorem text_eq (split : Splits offset cs tokens) : text tokens = String.ofList cs := by
  induction split with
  | done => rfl
  | token nonempty chosen behind ih =>
    rw [text, List.map_cons, String.join_cons, ← text, ih, String.ofList_append]

theorem tiles (split : Splits offset cs tokens) :
    Tiles offset tokens (offset + byteLength cs) := by
  induction split with
  | done offset => rfl
  | @token offset kind lexeme more tokens nonempty chosen behind ih =>
    have positive := byteLength_pos nonempty
    refine ⟨rfl, by simpa using positive, ?_⟩
    rw [byteLength_append, ← Nat.add_assoc]
    exact ih

/-- The tokens from some token on split what the tokens before it leave. -/
theorem from_token {before behind : List Token} (split : Splits offset cs (before ++ behind)) :
    Splits (offset + (text before).utf8ByteSize) (text behind).toList behind := by
  induction before generalizing offset cs with
  | nil =>
    rw [List.nil_append] at split
    rw [split.text_eq, String.toList_ofList]
    exact split
  | cons first before ih =>
    cases split with
    | @token offset kind lexeme more tokens nonempty chosen rest =>
      have later := ih rest
      rw [text, List.map_cons, String.join_cons, String.utf8ByteSize_append, utf8ByteSize_ofList,
        ← Nat.add_assoc]
      exact later

end Splits

/-- A token stands between two texts, the first of which ends where the token starts: it is the
longest beginning of the second one that a kind of token matches. -/
structure Stands (token : Token) (front rest : String) : Prop where
  nonempty : token.lexeme ≠ ""
  start : token.span.start = front.utf8ByteSize
  stop : token.span.stop = (front ++ token.lexeme).utf8ByteSize
  chosen : TokenKind.Chosen token.kind token.lexeme.toList rest.toList

theorem Splits.stands {front : String} {cs : List Char} {token : Token} {behind : List Token}
    (split : Splits front.utf8ByteSize cs (token :: behind)) :
    token.Stands front (text (token :: behind)) := by
  rw [split.text_eq]
  cases split with
  | token nonempty chosen behind =>
    refine ⟨?_, rfl, ?_, ?_⟩
    · simpa using nonempty
    · rw [String.utf8ByteSize_append, utf8ByteSize_ofList]
    · simpa only [String.toList_ofList] using chosen

theorem isValid_append (front rest : String) :
    String.Pos.Raw.IsValid (front ++ rest) ⟨front.utf8ByteSize⟩ :=
  String.Pos.Raw.isValid_iff_exists_append.mpr ⟨front, rest, rfl, rfl⟩

/-- Scanning loses nothing. The lexemes spell the source, the spans reach from its first to its last
byte and part it between characters, each token is the longest and most specific match in front of
what the tokens before it leave, and only blanks are kept from the parser. -/
theorem scan_covers (source : String) :
    text (scan source) = source ∧ Tiles 0 (scan source) source.utf8ByteSize ∧
      (∀ before token behind, scan source = before ++ token :: behind →
        token.Stands (text before) (text (token :: behind)) ∧
          String.Pos.Raw.IsValid source ⟨token.span.start⟩ ∧
          String.Pos.Raw.IsValid source ⟨token.span.stop⟩) ∧
      tokenize source = (scan source).filter fun token => token.kind ≠ .blank := by
  have split : Splits 0 source.toList (scan source) := scanFrom_splits 0 source.toList
  have whole : text (scan source) = source := by rw [split.text_eq, String.ofList_toList]
  refine ⟨whole, ?_, ?_, rfl⟩
  · have tiles := split.tiles
    rwa [← utf8ByteSize_ofList, String.ofList_toList, Nat.zero_add] at tiles
  · intro before token behind parts
    rw [parts] at split whole
    have here := split.from_token
    rw [Nat.zero_add] at here
    have stands := here.stands
    have first : source = text before ++ text (token :: behind) := by rw [← whole, text_append]
    have last : source = text before ++ token.lexeme ++ text behind := by
      rw [first, text, text, List.map_cons, String.join_cons, ← text, ← text, String.append_assoc]
    refine ⟨stands, ?_, ?_⟩
    · rw [stands.start, first]
      exact isValid_append _ _
    · rw [stands.stop, last]
      exact isValid_append _ _

/-- Behind the two bytes of `é` the name takes the letter `x` too, and stops at the blank. -/
theorem scan_covers_command :
    scan "é\\sqrtx .5" = [⟨.symbol, ⟨0, 2⟩, "é"⟩] ++ ⟨.command, ⟨2, 8⟩, "\\sqrtx"⟩ ::
        [⟨.blank, ⟨8, 9⟩, " "⟩, ⟨.number, ⟨9, 11⟩, ".5"⟩] ∧
      Token.Stands ⟨.command, ⟨2, 8⟩, "\\sqrtx"⟩ "é" "\\sqrtx .5" ∧
      String.Pos.Raw.IsValid "é\\sqrtx .5" ⟨2⟩ ∧ String.Pos.Raw.IsValid "é\\sqrtx .5" ⟨8⟩ := by
  have tokens : scan "é\\sqrtx .5" = [⟨.symbol, ⟨0, 2⟩, "é"⟩] ++ ⟨.command, ⟨2, 8⟩, "\\sqrtx"⟩ ::
      [⟨.blank, ⟨8, 9⟩, " "⟩, ⟨.number, ⟨9, 11⟩, ".5"⟩] := by decide +kernel
  obtain ⟨-, -, each, -⟩ := scan_covers "é\\sqrtx .5"
  exact ⟨tokens, each _ _ _ tokens⟩

end Token

end AlgebraEngine
