import AlgebraEngine.Proofs.Token.Covering

/-! Places in a text. Every token of a source has one, and so has whatever reaches from one token to
a later one. -/
namespace AlgebraEngine

/-- A place in a text. Its ends are in order, and both are between characters. -/
structure Span.Within (span : Span) (text : String) : Prop where
  ordered : span.start ≤ span.stop
  start : String.Pos.Raw.IsValid text ⟨span.start⟩
  stop : String.Pos.Raw.IsValid text ⟨span.stop⟩

namespace Span

/-- What is between characters stays there with more text in front. -/
theorem isValid_behind (front : String) {text : String} {place : Nat}
    (valid : String.Pos.Raw.IsValid text ⟨place⟩) :
    String.Pos.Raw.IsValid (front ++ text) ⟨place + front.utf8ByteSize⟩ := by
  obtain ⟨before, behind, rfl, same⟩ := String.Pos.Raw.isValid_iff_exists_append.mp valid
  have place_eq : place = before.utf8ByteSize := congrArg String.Pos.Raw.byteIdx same
  rw [place_eq, Nat.add_comm, ← String.utf8ByteSize_append, ← String.append_assoc]
  exact Token.isValid_append _ _

theorem Within.shift {span : Span} {text : String} (within : span.Within text) (front : String) :
    (span.shift front.utf8ByteSize).Within (front ++ text) where
  ordered := Nat.add_le_add_right within.ordered _
  start := isValid_behind front within.start
  stop := isValid_behind front within.stop

end Span

namespace Token

variable {first last : Nat} {tokens : List Token}

theorem Tiles.first_le (tiles : Tiles first tokens last) :
    ∀ token ∈ tokens, first ≤ token.span.start := by
  induction tokens generalizing first with
  | nil => nofun
  | cons token tokens ih =>
    obtain ⟨start, nonempty, behind⟩ := tiles
    intro other member
    rcases List.mem_cons.mp member with rfl | member
    · exact Nat.le_of_eq start.symm
    · exact Nat.le_trans (Nat.le_of_lt nonempty) (ih behind other member)

theorem Tiles.pairwise (tiles : Tiles first tokens last) :
    tokens.Pairwise fun token later => token.span.stop ≤ later.span.start := by
  induction tokens generalizing first with
  | nil => exact .nil
  | cons token tokens ih => exact .cons tiles.2.2.first_le (ih tiles.2.2)

theorem Splits.within {front : String} {cs : List Char}
    (split : Splits front.utf8ByteSize cs tokens) :
    ∀ token ∈ tokens, token.span.Within (front ++ String.ofList cs) := by
  generalize size : front.utf8ByteSize = offset at split
  induction split generalizing front with
  | done => nofun
  | @token offset kind lexeme more tokens nonempty chosen behind ih =>
    subst size
    have next : (front ++ String.ofList lexeme).utf8ByteSize =
        front.utf8ByteSize + byteLength lexeme := by
      rw [String.utf8ByteSize_append, utf8ByteSize_ofList]
    have whole : front ++ String.ofList (lexeme ++ more) =
        front ++ String.ofList lexeme ++ String.ofList more := by
      rw [String.ofList_append, String.append_assoc]
    rw [whole]
    intro token member
    rcases List.mem_cons.mp member with rfl | member
    · refine ⟨Nat.le_add_right _ _, ?_, ?_⟩
      · rw [String.append_assoc]
        exact isValid_append _ _
      · rw [← next]
        exact isValid_append _ _
    · exact ih next token member

variable {source : String} {before behind : List Token} {token later : Token}

/-- The span of a token is a place in its source. -/
theorem within_of_mem (member : token ∈ tokenize source) : token.span.Within source := by
  have split : Splits "".utf8ByteSize source.toList (scan source) := scanFrom_splits 0 _
  have within := split.within token (List.mem_filter.mp member).1
  rwa [String.empty_append, String.ofList_toList] at within

/-- From a token to the next one it is a place, too. -/
theorem within_of_next (tokens : tokenize source = before ++ token :: later :: behind) :
    (⟨token.span.start, later.span.stop⟩ : Span).Within source := by
  have here : token.span.Within source := within_of_mem (by simp [tokens])
  have there : later.span.Within source := within_of_mem (by simp [tokens])
  have sorted := ((scanFrom_splits 0 source.toList).tiles.pairwise).filter
    fun token => token.kind ≠ .blank
  change (tokenize source).Pairwise _ at sorted
  rw [tokens, List.pairwise_append, List.pairwise_cons] at sorted
  have inOrder : token.span.stop ≤ later.span.start := sorted.2.1.1 later (by simp)
  refine ⟨?_, here.start, there.stop⟩
  exact Nat.le_trans here.ordered (Nat.le_trans inOrder there.ordered)

end Token

end AlgebraEngine
