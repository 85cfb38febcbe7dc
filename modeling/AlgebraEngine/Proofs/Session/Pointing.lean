import AlgebraEngine.Number.Machine
import AlgebraEngine.Proofs.Parser.Blame
import AlgebraEngine.Proofs.Token.Place
import AlgebraEngine.Session.Run

/-! Where a report points to. Whatever goes wrong with a line, the report points to a place in the
line, and never to the command word. Spans of the parser are places in the expression, and the
expression is the end of the line. -/
namespace AlgebraEngine

namespace Parser

variable {source : String} {q : Parser} {ts : List Token} {fault : SyntaxFault}

/-- The next token of a source has a place in it, and so has the end behind its last token. -/
theorem span_within (tokens : q.tokens = (Token.tokenize source).toArray) :
    q.span.Within source := by
  have place {token : Token} (member : token ∈ q.tokens) : token.span.Within source := by
    rw [tokens, List.mem_toArray] at member
    exact Token.within_of_mem member
  unfold span
  split
  · rename_i token next
    exact place (Array.mem_of_getElem? next)
  · unfold endSpan
    split
    · rename_i token last
      have within := place (Array.mem_of_back? last)
      exact ⟨Nat.le_refl _, within.stop, within.stop⟩
    · have start : String.Pos.Raw.IsValid source ⟨0⟩ := by
        have valid := Token.isValid_append "" source
        rwa [String.empty_append] at valid
      exact ⟨Nat.le_refl _, start, start⟩

/-- A fault has one place. It is the next token, or it reaches from there to the token behind it. -/
theorem Blames.spans_eq (blames : q.Blames fault) :
    fault.spans = [q.span] ∨ ∃ opening closing more, q.rest = opening :: closing :: more ∧
      fault.spans = [⟨opening.span.start, closing.span.stop⟩] := by
  cases blames with
  | emptyParenthesis next | emptyVector next => exact .inr ⟨_, _, _, next, rfl⟩
  | _ => exact .inl rfl

theorem Blames.exists_within (blames : q.Blames fault) (taken : (ofSource source).Takes ts q) :
    ∃ span, fault.spans = [span] ∧ span.Within source := by
  rcases blames.spans_eq with same | ⟨opening, closing, more, next, same⟩
  · exact ⟨_, same, span_within taken.tokens⟩
  · have whole : Token.tokenize source = ts ++ q.rest := taken.rest
    exact ⟨_, same, Token.within_of_next (next ▸ whole)⟩

end Parser

/-- A fault of a source has one place, and it is in the source. -/
theorem Expr.exists_within_of_parse {ν : Type} [Numeral ν] {source : String} {fault : SyntaxFault}
    (refused : parse (ν := ν) source = .error fault) :
    ∃ span, fault.spans = [span] ∧ span.Within source := by
  obtain ⟨ts, q, taken, blames⟩ := (stops_of_parse refused).blames
  exact blames.exists_within taken

/-- The commands that have a word, and their words. -/
def Command.words : List (Command × String) :=
  [(.simplify, "simplify"), (.solve, "solve"), (.tree, "tree")]

theorem Command.mem_words {word : List Char} {command : Command}
    (named : ofWord? word = some command) : (command, String.ofList word) ∈ words := by
  unfold ofWord? at named
  split at named
  · cases named
    simp [words, *]
  split at named
  · cases named
    simp [words, *]
  split at named
  · cases named
    simp [words, *]
  · cases named

namespace CommandLine

/-- How a line is taken apart. It is an expression to evaluate, or white space and the word of a
command stand in front of the expression. -/
inductive Parts (line : String) : CommandLine → Prop where
  | whole : Parts line ⟨.eval, 0, line⟩
  | worded {blanks word source : String} {command : Command}
      (white : ∀ c ∈ blanks.toList, isWhitespace c = true)
      (named : (command, word) ∈ Command.words) (line_eq : line = blanks ++ word ++ source) :
      Parts line ⟨command, (blanks ++ word).utf8ByteSize, source⟩

theorem parts_ofLine (line : String) : Parts line (ofLine line) := by
  have white : ∀ c ∈ line.toList.takeWhile isWhitespace, isWhitespace c = true :=
    fun c member => List.mem_takeWhile_imp member
  have outer := List.prefix_iff_eq_append.mp (line.toList.takeWhile_prefix isWhitespace)
  unfold ofLine
  dsimp only
  generalize line.toList.takeWhile isWhitespace = blanks at outer white
  generalize line.toList.drop blanks.length = rest at outer
  have inner := List.prefix_iff_eq_append.mp (rest.takeWhile_prefix fun c => !isWhitespace c)
  generalize (rest.takeWhile fun c => !isWhitespace c) = word at inner
  generalize rest.drop word.length = source at inner
  split
  · rename_i command named
    have whole : line = String.ofList blanks ++ String.ofList word ++ String.ofList source := by
      rw [← String.ofList_append, ← String.ofList_append, List.append_assoc, inner, outer,
        String.ofList_toList]
    have size : byteLength blanks + byteLength word =
        (String.ofList blanks ++ String.ofList word).utf8ByteSize := by
      rw [String.utf8ByteSize_append, utf8ByteSize_ofList, utf8ByteSize_ofList]
    rw [size]
    exact .worded (by simpa using white) (Command.mem_words named) whole
  · exact .whole

/-- The expression is the end of the line, behind as many bytes as the offset says. -/
theorem Parts.exists_front {line : String} {c : CommandLine} (parts : Parts line c) :
    ∃ front, line = front ++ c.source ∧ c.offset = front.utf8ByteSize := by
  cases parts with
  | whole => exact ⟨"", (String.empty_append).symm, rfl⟩
  | worded white named line_eq => exact ⟨_, line_eq, rfl⟩

end CommandLine

section Reports

variable {ν : Type} [Analysis ν]

/-- All of the line behind the command word is a place in it. -/
theorem CommandLine.Parts.whole_within {line : String} {c : CommandLine} (parts : Parts line c) :
    (⟨c.offset, line.utf8ByteSize⟩ : Span).Within line := by
  obtain ⟨front, rfl, offset⟩ := parts.exists_front
  rw [offset]
  refine ⟨?_, Token.isValid_append _ _, String.Pos.Raw.isValid_rawEndPos⟩
  rw [String.utf8ByteSize_append]
  exact Nat.le_add_right _ _

/-- A report on a line points behind the command word, to one place in the line. A fault comes with
its place, and any other problem is pointed at all of the expression. -/
theorem CommandLine.Parts.report_within {line : String} {c : CommandLine} (parts : Parts line c)
    {report : Report ν} (failed : c.run line.utf8ByteSize = .error report) :
    ∃ span, report.spans = [span] ∧ c.offset ≤ span.start ∧ span.Within line := by
  unfold run at failed
  split at failed
  · rename_i fault refused
    cases failed
    obtain ⟨front, rfl, offset⟩ := parts.exists_front
    obtain ⟨span, only, within⟩ := Expr.exists_within_of_parse refused
    rw [offset]
    exact ⟨_, congrArg (List.map _) only, Nat.le_add_left _ _, within.shift front⟩
  · split at failed
    · cases failed
    · cases failed
      exact ⟨_, congrArg Report.spans (Report.orSpan_unspanned _ _), Nat.le_refl _,
        parts.whole_within⟩

/-- A line is taken apart between characters, and every report on it points to exactly one place,
which is in the line and behind the command word. -/
theorem runLine_points (line : String) :
    CommandLine.Parts line (CommandLine.ofLine line) ∧
      String.Pos.Raw.IsValid line ⟨(CommandLine.ofLine line).offset⟩ ∧
      ∀ report : Report ν, runLine line = .error report →
        ∃ span, report.spans = [span] ∧ (CommandLine.ofLine line).offset ≤ span.start ∧
          span.start ≤ span.stop ∧ span.stop ≤ line.utf8ByteSize ∧
          String.Pos.Raw.IsValid line ⟨span.start⟩ ∧ String.Pos.Raw.IsValid line ⟨span.stop⟩ := by
  have parts := CommandLine.parts_ofLine line
  refine ⟨parts, ?_, fun report failed => ?_⟩
  · obtain ⟨front, whole, offset⟩ := parts.exists_front
    rw [offset]
    exact whole ▸ Token.isValid_append _ _
  · obtain ⟨span, only, behind, within⟩ := parts.report_within failed
    exact ⟨span, only, behind, within.ordered, within.stop.le_rawEndPos, within.start, within.stop⟩

/-- A blank of two bytes stands in front of the command word, and the `é` behind it is blamed with
both its bytes. -/
theorem runLine_points_accent :
    ∃ report : Report Binary64, runLine "\u00a0simplify é" = .error report ∧
      report.spans = [⟨11, 13⟩] ∧ String.Pos.Raw.IsValid "\u00a0simplify é" ⟨11⟩ ∧
      String.Pos.Raw.IsValid "\u00a0simplify é" ⟨13⟩ := by
  have pointed : (runLine (ν := Binary64) "\u00a0simplify é").mapError Report.spans =
      .error [⟨11, 13⟩] := by decide +kernel
  cases failed : runLine (ν := Binary64) "\u00a0simplify é" with
  | ok answer =>
    rw [failed] at pointed
    cases pointed
  | error report =>
    rw [failed] at pointed
    have spans : report.spans = [⟨11, 13⟩] := Except.error.inj pointed
    obtain ⟨span, only, -, -, -, start, stop⟩ := (runLine_points _).2.2 report failed
    obtain rfl : span = ⟨11, 13⟩ := List.singleton_inj.mp (only.symm.trans spans)
    exact ⟨report, rfl, spans, start, stop⟩

end Reports

end AlgebraEngine
