import AlgebraEngine.Token.Lexer

/-! Scanning a text piece by piece. A lexeme that is the longest match in front of what follows it
becomes one token, and blanks leave none, so the tokens of a text are those of its pieces. -/
namespace AlgebraEngine

namespace TokenKind

/-- The first kind that matches as much as any other is the kind of the next token. -/
theorem longest_eq {cs : List Char} {before after : List TokenKind} {kind : TokenKind}
    (order : priority = before ++ kind :: after) (found : 0 < kind.pattern.matchLength cs)
    (earlier : ∀ other ∈ before, other.pattern.matchLength cs < kind.pattern.matchLength cs)
    (later : ∀ other ∈ after, other.pattern.matchLength cs ≤ kind.pattern.matchLength cs) :
    longest cs = (kind, kind.pattern.matchLength cs) := by
  have first (kinds : List TokenKind) (best : TokenKind × Nat)
      (below : best.2 < kind.pattern.matchLength cs)
      (shorter : ∀ other ∈ kinds, other.pattern.matchLength cs < kind.pattern.matchLength cs) :
      (kinds.foldl (fun best other =>
        if best.2 < other.pattern.matchLength cs then (other, other.pattern.matchLength cs)
        else best) best).2 < kind.pattern.matchLength cs := by
    induction kinds generalizing best with
    | nil => exact below
    | cons other kinds ih =>
      refine ih _ ?_ fun k member => shorter k (List.mem_cons_of_mem _ member)
      dsimp only
      split
      · exact shorter other (by simp)
      · exact below
  have last (kinds : List TokenKind) (best : TokenKind × Nat)
      (above : ∀ other ∈ kinds, other.pattern.matchLength cs ≤ best.2) :
      kinds.foldl (fun best other =>
        if best.2 < other.pattern.matchLength cs then (other, other.pattern.matchLength cs)
        else best) best = best := by
    induction kinds with
    | nil => rfl
    | cons other kinds ih =>
      rw [List.foldl_cons, if_neg (Nat.not_lt.mpr (above other (by simp)))]
      exact ih fun k member => above k (List.mem_cons_of_mem _ member)
  unfold longest
  rw [order, List.foldl_append, List.foldl_cons, if_pos (first before _ found earlier)]
  exact last after _ later

/-- Only the kinds of blanks and of single characters match a blank. -/
private theorem matchLength_blank {c : Char} (blank : isBlank c = true) (cs : List Char)
    {other : TokenKind} (differs : other ≠ .blank) : other.pattern.matchLength (c :: cs) ≤ 1 := by
  simp only [isBlank, Bool.or_eq_true, beq_iff_eq] at blank
  rcases blank with ((rfl | rfl) | rfl) | rfl <;> cases other with
  | blank => exact absurd rfl differs
  | symbol => exact Nat.le_refl 1
  | _ => exact Nat.zero_le 1

theorem longest_blank {c : Char} (blank : isBlank c = true) (cs : List Char) :
    longest (c :: cs) = (.blank, Pattern.rowLength isBlank (c :: cs)) := by
  have row : 0 < TokenKind.blank.pattern.matchLength (c :: cs) := by
    simp [pattern, Pattern.matchLength, Pattern.rowLength, blank]
  refine longest_eq (show priority = [] ++ .blank :: _ from rfl) row (by simp) ?_
  intro other member
  refine Nat.le_trans (matchLength_blank blank cs ?_) row
  rintro rfl
  revert member
  decide

/-- A text that starts with none of the characters that names and numerals consist of. -/
def Delimited (more : List Char) : Prop := ∀ c ∈ more.head?, c ∈ [' ', ')', ']', ',', '!']

/-- One or more digits, or digits around a point. -/
inductive PlainDigits : List Char → Prop where
  | whole {c w} (first : c.isDigit = true) (digits : ∀ d ∈ w, d.isDigit = true) :
      PlainDigits (c :: w)
  | point {c w f} (first : c.isDigit = true) (digits : ∀ d ∈ w, d.isDigit = true)
      (fraction : ∀ d ∈ f, d.isDigit = true) : PlainDigits (c :: w ++ '.' :: f)

private theorem matchLength_character {c p : Char} (differs : c ≠ p) (cs : List Char) :
    (Pattern.character p).matchLength (c :: cs) = 0 := by
  simp [Pattern.matchLength, differs]

private theorem matchLength_word {c : Char} {letters cs : List Char} (plain : c ≠ '\\')
    (other : letters.isPrefixOf (c :: cs) = false) :
    (Pattern.word letters).matchLength (c :: cs) = 0 := by
  simp only [Pattern.matchLength, Pattern.wordLength, other, Bool.false_eq_true, if_false]
  split
  · rename_i same
    cases same
    exact absurd rfl plain
  · rfl

private theorem matchLength_command {c : Char} (plain : c ≠ '\\') (cs : List Char) :
    Pattern.command.matchLength (c :: cs) = 0 := by
  simp only [Pattern.matchLength]
  split
  · rename_i same
    cases same
    exact absurd rfl plain
  · rfl

private theorem matchLength_numeral {c : Char} (digit : c.isDigit = false) (plain : c ≠ '.')
    (cs : List Char) : Pattern.numeral.matchLength (c :: cs) = 0 := by
  simp only [Pattern.matchLength, Pattern.numeralLength, Pattern.rowLength, List.takeWhile_cons,
    digit, Bool.false_eq_true, if_false, List.length_nil, List.drop_zero]
  split
  · rename_i same
    cases same
    exact absurd rfl plain
  · rfl

private theorem matchLength_blanks {c : Char} (visible : isBlank c = false) (cs : List Char) :
    Pattern.blanks.matchLength (c :: cs) = 0 := by
  simp [Pattern.matchLength, Pattern.rowLength, visible]

private theorem isPrefixOf_other {a c : Char} (differs : c ≠ a) (letters cs : List Char) :
    (a :: letters).isPrefixOf (c :: cs) = false := by
  simp [List.isPrefixOf, differs.symm]

/-- No word goes on with a delimiter behind its first letter. -/
private theorem isPrefixOf_delimited {a b c : Char} (letters : List Char) {more : List Char}
    (alpha : b.isAlpha = true) (delimited : Delimited more) :
    (a :: b :: letters).isPrefixOf (c :: more) = false := by
  cases more with
  | nil => simp [List.isPrefixOf]
  | cons d more =>
    have differs : (b == d) = false := by
      have delimiter := delimited d rfl
      rw [beq_eq_false_iff_ne]
      rintro rfl
      revert alpha
      simp only [List.mem_cons, List.not_mem_nil, or_false] at delimiter
      rcases delimiter with rfl | rfl | rfl | rfl | rfl <;> decide
    simp [List.isPrefixOf, differs]

private theorem isDigit_of_isAlpha {c : Char} (alpha : c.isAlpha = true) : c.isDigit = false := by
  delta Char.isAlpha Char.isUpper Char.isLower at alpha
  simp only [Bool.or_eq_true, Bool.and_eq_true, decide_eq_true_eq, ge_iff_le,
    UInt32.le_iff_toNat_le] at alpha
  simp only [Char.isDigit, Bool.and_eq_false_iff, decide_eq_false_iff_not, ge_iff_le,
    UInt32.le_iff_toNat_le]
  simp at alpha ⊢
  omega

/-- A single letter ends at a delimiter. -/
theorem longest_letter {c : Char} {more : List Char} (alpha : c.isAlpha = true) (other : c ≠ 'e')
    (delimited : Delimited more) : longest (c :: more) = (.letter, 1) := by
  have differs (p : Char) (symbol : p.isAlpha = false) : c ≠ p := by
    rintro rfl
    rw [alpha] at symbol
    cases symbol
  have found : TokenKind.letter.pattern.matchLength (c :: more) = 1 := by
    simp [pattern, Pattern.matchLength, alpha]
  rw [← found]
  refine longest_eq (show priority = [blank, plus, minus, star, slash, percent, caret, bang, equals,
    comma, openParen, closeParen, openSquare, closeSquare, sqrt, abs, sin, cos, tan, ln, pi, euler,
    number, command] ++ .letter :: [symbol] from rfl) (by omega) ?_ ?_
  · intro kind member
    rw [found, Nat.lt_one_iff]
    cases kind with
    | blank =>
      exact matchLength_blanks (by simp [isBlank, differs ' ' rfl, differs '\t' rfl,
        differs '\n' rfl, differs '\r' rfl]) more
    | number => exact matchLength_numeral (isDigit_of_isAlpha alpha) (differs _ rfl) more
    | command => exact matchLength_command (differs _ rfl) more
    | letter | symbol => simp at member
    | euler => exact matchLength_character other more
    | sqrt | abs | sin | cos | tan | ln | pi =>
      exact matchLength_word (differs _ rfl) (isPrefixOf_delimited _ rfl delimited)
    | _ => exact matchLength_character (differs _ rfl) more
  · intro kind member
    obtain rfl := List.mem_singleton.mp member
    exact Nat.le_of_eq (by rw [found]; rfl)

private theorem Delimited.no_digits {more : List Char} (delimited : Delimited more) :
    more.takeWhile Char.isDigit = [] := by
  cases more with
  | nil => rfl
  | cons d more =>
    have delimiter := delimited d rfl
    simp only [List.mem_cons, List.not_mem_nil, or_false] at delimiter
    rcases delimiter with rfl | rfl | rfl | rfl | rfl <;> rfl

private theorem takeWhile_digits {w more : List Char} (digits : ∀ c ∈ w, c.isDigit = true) :
    (w ++ more).takeWhile Char.isDigit = w ++ more.takeWhile Char.isDigit :=
  List.takeWhile_append_of_pos digits

/-- A numeral takes in all of its digits, and none of a delimited text behind it. -/
private theorem numeralLength_plain {cs more : List Char} (plain : PlainDigits cs)
    (delimited : Delimited more) : Pattern.numeralLength (cs ++ more) = cs.length := by
  cases plain with
  | @whole c w first digits =>
    have row : (c :: w ++ more).takeWhile Char.isDigit = c :: w := by
      rw [takeWhile_digits (by simpa using ⟨first, digits⟩), delimited.no_digits, List.append_nil]
    simp only [Pattern.numeralLength, Pattern.rowLength, row, List.drop_left]
    split
    · have delimiter := delimited '.' rfl
      simp at delimiter
    · rfl
  | @point c w f first digits fraction =>
    have row : (c :: w ++ '.' :: f ++ more).takeWhile Char.isDigit = c :: w := by
      rw [List.append_assoc, takeWhile_digits (by simpa using ⟨first, digits⟩)]
      exact List.append_nil _
    have places : (f ++ more).takeWhile Char.isDigit = f := by
      rw [takeWhile_digits fraction, delimited.no_digits, List.append_nil]
    have behind : (c :: w ++ '.' :: f ++ more).drop (c :: w).length = '.' :: (f ++ more) := by
      rw [List.append_assoc, List.drop_left, List.cons_append]
    simp only [Pattern.numeralLength, Pattern.rowLength, row, behind, places]
    simp
    omega

/-- A numeral ends at a delimiter. -/
theorem longest_number {cs more : List Char} (plain : PlainDigits cs)
    (delimited : Delimited more) : longest (cs ++ more) = (.number, cs.length) := by
  have found : TokenKind.number.pattern.matchLength (cs ++ more) = cs.length :=
    numeralLength_plain plain delimited
  obtain ⟨c, rest, same, digit⟩ : ∃ c rest, cs = c :: rest ∧ c.isDigit = true := by
    cases plain with
    | whole first digits | point first digits fraction => exact ⟨_, _, rfl, first⟩
  have positive : 0 < TokenKind.number.pattern.matchLength (cs ++ more) := by
    rw [found, same]
    exact Nat.succ_pos _
  have differs (p : Char) (symbol : p.isDigit = false) : c ≠ p := by
    rintro rfl
    rw [digit] at symbol
    cases symbol
  rw [← found]
  refine longest_eq (show priority = [blank, plus, minus, star, slash, percent, caret, bang, equals,
    comma, openParen, closeParen, openSquare, closeSquare, sqrt, abs, sin, cos, tan, ln, pi, euler]
      ++ .number :: [command, letter, symbol] from rfl) positive ?_ ?_
  · intro kind member
    have short : kind.pattern.matchLength (cs ++ more) = 0 := by
      rw [same, List.cons_append]
      cases kind with
      | blank =>
        exact matchLength_blanks (by simp [isBlank, differs ' ' rfl, differs '\t' rfl,
          differs '\n' rfl, differs '\r' rfl]) _
      | number | command | letter | symbol => simp at member
      | sqrt | abs | sin | cos | tan | ln | pi =>
        exact matchLength_word (differs _ rfl) (isPrefixOf_other (differs _ rfl) _ _)
      | _ => exact matchLength_character (differs _ rfl) _
    rwa [short]
  · intro kind member
    refine Nat.le_trans (?_ : _ ≤ 1) positive
    rw [same, List.cons_append]
    simp only [List.mem_cons, List.not_mem_nil, or_false] at member
    rcases member with rfl | rfl | rfl
    · exact Nat.le_trans (Nat.le_of_eq (matchLength_command (differs _ rfl) _)) (Nat.zero_le 1)
    · simp only [pattern, Pattern.matchLength]
      split <;> omega
    · exact Nat.le_refl 1

end TokenKind

theorem byteLength_append (cs more : List Char) :
    byteLength (cs ++ more) = byteLength cs + byteLength more := by
  induction cs with
  | nil => simp [byteLength]
  | cons c cs ih =>
    simp only [byteLength, List.cons_append, List.foldr_cons] at ih ⊢
    omega

namespace Token

theorem scanFrom_skip (offset skip : Nat) (cs : List Char) :
    scanFrom offset skip cs = scanFrom offset 0 (cs.drop skip) := by
  induction cs generalizing skip with
  | nil => cases skip <;> rfl
  | cons c cs ih =>
    cases skip with
    | zero => rfl
    | succ skip => exact ih skip

/-- A lexeme in front of a text is its first token. -/
theorem scanFrom_lexeme {lexeme more : List Char} {kind : TokenKind} (offset : Nat)
    (nonempty : lexeme ≠ [])
    (longest : TokenKind.longest (lexeme ++ more) = (kind, lexeme.length)) :
    scanFrom offset 0 (lexeme ++ more) =
      ⟨kind, ⟨offset, offset + byteLength lexeme⟩, String.ofList lexeme⟩ ::
        scanFrom (offset + byteLength lexeme) 0 more := by
  cases lexeme with
  | nil => exact absurd rfl nonempty
  | cons c cs =>
    rw [List.cons_append] at longest ⊢
    rw [scanFrom, longest, ← List.cons_append]
    dsimp only
    rw [List.take_left, scanFrom_skip, List.length_cons, Nat.add_sub_cancel, List.drop_left]

/-- The tokens of a text that starts at a byte offset, without the blanks. -/
def tokensFrom (offset : Nat) (cs : List Char) : List Token :=
  (scanFrom offset 0 cs).filter fun token => token.kind ≠ .blank

theorem tokenize_eq (source : String) : tokenize source = tokensFrom 0 source.toList := rfl

@[simp] theorem tokensFrom_nil (offset : Nat) : tokensFrom offset [] = [] := rfl

theorem tokensFrom_lexeme {lexeme more : List Char} {kind : TokenKind} (offset : Nat)
    (nonempty : lexeme ≠ []) (visible : kind ≠ .blank)
    (longest : TokenKind.longest (lexeme ++ more) = (kind, lexeme.length)) :
    tokensFrom offset (lexeme ++ more) =
      ⟨kind, ⟨offset, offset + byteLength lexeme⟩, String.ofList lexeme⟩ ::
        tokensFrom (offset + byteLength lexeme) more := by
  unfold tokensFrom
  rw [scanFrom_lexeme offset nonempty longest, List.filter_cons_of_pos (by simpa using visible)]

private theorem tokensFrom_blanks (offset : Nat) (cs : List Char) :
    tokensFrom offset cs =
      tokensFrom (offset + byteLength (cs.takeWhile isBlank)) (cs.dropWhile isBlank) := by
  cases cs with
  | nil => rfl
  | cons c cs =>
    cases blank : isBlank c with
    | false => simp [blank, byteLength]
    | true =>
      have longest := TokenKind.longest_blank blank cs
      have whole : (c :: cs).takeWhile isBlank ++ (c :: cs).dropWhile isBlank = c :: cs :=
        List.takeWhile_append_dropWhile
      unfold tokensFrom
      rw [← whole] at longest
      conv => lhs; rw [← whole]
      rw [scanFrom_lexeme offset (by simp [blank]) (by rw [longest, whole]; rfl),
        List.filter_cons_of_neg (by simp)]

/-- A blank leaves no token, also where it is one of several. -/
theorem tokensFrom_blank {c : Char} (blank : isBlank c = true) (offset : Nat) (more : List Char) :
    tokensFrom offset (c :: more) = tokensFrom (offset + c.utf8Size) more := by
  rw [tokensFrom_blanks offset, tokensFrom_blanks (offset + c.utf8Size),
    List.takeWhile_cons_of_pos blank, List.dropWhile_cons_of_pos blank]
  simp [byteLength, Nat.add_assoc]

end Token

end AlgebraEngine
