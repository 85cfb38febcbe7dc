import Mathlib.Data.List.TakeWhile
import AlgebraEngine.Proofs.Token.Scanning

/-! What the patterns of tokens match, said without reference to how a match is found. The length
that a pattern computes at the start of a text is that of the longest beginning it matches, and the
next token is the longest beginning that any pattern matches, with the more specific pattern first
among those that match as much. -/
namespace AlgebraEngine

namespace Pattern

/-- One or more characters of a class. -/
structure Row (p : Char → Bool) (w : List Char) : Prop where
  nonempty : w ≠ []
  each : ∀ c ∈ w, p c = true

/-- The texts that a pattern matches as a whole. -/
inductive Matches : Pattern → List Char → Prop where
  | blanks {w} (row : Row isBlank w) : Matches .blanks w
  | character (c) : Matches (.character c) [c]
  | word (letters) : Matches (.word letters) letters
  | backslash (letters) : Matches (.word letters) ('\\' :: letters)
  | whole {w} (digits : Row Char.isDigit w) : Matches .numeral w
  | point {w f} (digits : Row Char.isDigit w) (places : ∀ c ∈ f, c.isDigit = true) :
      Matches .numeral (w ++ '.' :: f)
  | fraction {f} (places : Row Char.isDigit f) : Matches .numeral ('.' :: f)
  | command {w} (letters : Row Char.isAlpha w) : Matches .command ('\\' :: w)
  | letter {c} (alpha : c.isAlpha = true) : Matches .letter [c]
  /-- Any character but the one that ends a line. -/
  | any {c} (inside : c ≠ '\n') : Matches .any [c]

/-- The word of a pattern is not empty and has no backslash of its own in front. -/
def Proper : Pattern → Prop
  | word letters => letters ≠ [] ∧ letters.head? ≠ some '\\'
  | _ => True

section Rows

variable {p : Char → Bool} {w cs more : List Char}

theorem rowLength_append (each : ∀ c ∈ w, p c = true) (more : List Char) :
    rowLength p (w ++ more) = w.length + rowLength p more := by
  rw [rowLength, List.takeWhile_append_of_pos each, List.length_append, rowLength]

theorem take_rowLength (p : Char → Bool) (cs : List Char) :
    cs.take (rowLength p cs) = cs.takeWhile p :=
  (List.prefix_iff_eq_take.mp (List.takeWhile_prefix p)).symm

theorem row_of_takeWhile (found : 0 < rowLength p cs) : Row p (cs.takeWhile p) where
  nonempty := List.length_pos_iff.mp found
  each := fun _ member => List.mem_takeWhile_imp member

theorem rowLength_le (p : Char → Bool) (cs : List Char) : rowLength p cs ≤ cs.length :=
  (List.takeWhile_prefix p).length_le

end Rows

section Numerals

variable {cs rest : List Char}

theorem rowLength_le_numeralLength (cs : List Char) :
    rowLength Char.isDigit cs ≤ numeralLength cs := by
  simp only [numeralLength]
  split
  · split
    · rename_i none
      simp only [Bool.and_eq_true, decide_eq_true_eq] at none
      omega
    · omega
  · exact Nat.le_refl _

/-- With a digit on either side of it a point belongs to the numeral. -/
theorem numeralLength_point (rest : List Char)
    (point : cs.drop (rowLength Char.isDigit cs) = '.' :: rest)
    (digit : 0 < rowLength Char.isDigit cs + rowLength Char.isDigit rest) :
    numeralLength cs = rowLength Char.isDigit cs + 1 + rowLength Char.isDigit rest := by
  simp only [numeralLength, point]
  refine if_neg ?_
  simp only [Bool.and_eq_true, decide_eq_true_eq]
  omega

theorem numeralLength_fraction (places : Row Char.isDigit rest) (more : List Char) :
    rest.length < numeralLength ('.' :: rest ++ more) := by
  have some := List.length_pos_iff.mpr places.nonempty
  have ends : rowLength Char.isDigit ('.' :: rest ++ more) = 0 := rfl
  have row := rowLength_append places.each more
  rw [numeralLength_point (rest ++ more) (by rw [ends]; rfl) (by omega), ends, row]
  omega

end Numerals

/-! ## Longest matches -/

/-- No beginning of a text that a pattern matches is longer than the match it finds. -/
theorem Matches.length_le {pattern : Pattern} {w : List Char} (whole : pattern.Matches w)
    (proper : pattern.Proper) (more : List Char) :
    w.length ≤ pattern.matchLength (w ++ more) := by
  cases whole with
  | blanks row =>
    rw [matchLength, rowLength_append row.each]
    omega
  | character c => simp [matchLength]
  | word letters => simp [matchLength, wordLength]
  | backslash letters =>
    obtain ⟨nonempty, plain⟩ := proper
    have other : letters.isPrefixOf ('\\' :: letters ++ more) = false := by
      cases letters with
      | nil => exact absurd rfl nonempty
      | cons c letters =>
        have differs : c ≠ '\\' := by
          rintro rfl
          exact plain rfl
        simp [List.isPrefixOf, differs]
    simp only [matchLength, wordLength, other, Bool.false_eq_true, if_false]
    simp
  | whole digits =>
    refine Nat.le_trans ?_ (rowLength_le_numeralLength _)
    rw [rowLength_append digits.each]
    omega
  | @point w f digits places =>
    have some := List.length_pos_iff.mpr digits.nonempty
    have ends : rowLength Char.isDigit (w ++ '.' :: f ++ more) = w.length := by
      rw [List.append_assoc, rowLength_append digits.each]
      rfl
    rw [matchLength, numeralLength_point (f ++ more) (by rw [ends]; simp)
      (by omega), ends, rowLength_append places, List.length_append, List.length_cons]
    omega
  | fraction places => exact numeralLength_fraction places more
  | @command w letters =>
    have some := List.length_pos_iff.mpr letters.nonempty
    have row := rowLength_append letters.each more
    simp only [matchLength, List.cons_append, List.length_cons]
    rw [if_neg (by omega), row]
    omega
  | letter alpha => simp [matchLength, alpha]
  | any inside => simp [matchLength]

theorem matches_word {letters cs : List Char} (found : 0 < wordLength letters cs) :
    Matches (.word letters) (cs.take (wordLength letters cs)) := by
  unfold wordLength at found ⊢
  split
  · rename_i here
    obtain ⟨more, rfl⟩ := List.isPrefixOf_iff_prefix.mp here
    rw [List.take_left]
    exact .word letters
  · rename_i other
    rw [if_neg other] at found
    split at found
    · rename_i rest
      split at found
      · rename_i behind
        obtain ⟨more, rfl⟩ := List.isPrefixOf_iff_prefix.mp behind
        simp only [behind, if_true, List.take_succ_cons, List.take_left]
        exact .backslash letters
      · cases found
    · cases found

theorem matches_numeral {cs : List Char} (found : 0 < numeralLength cs) :
    Matches .numeral (cs.take (numeralLength cs)) := by
  have whole : cs.takeWhile Char.isDigit ++ cs.drop (rowLength Char.isDigit cs) = cs := by
    rw [← take_rowLength, List.take_append_drop]
  by_cases point : ∃ rest, cs.drop (rowLength Char.isDigit cs) = '.' :: rest
  · obtain ⟨rest, point⟩ := point
    have digit : 0 < rowLength Char.isDigit cs + rowLength Char.isDigit rest := by
      by_contra none
      have lone : (rowLength Char.isDigit cs = 0 && rowLength Char.isDigit rest = 0) = true := by
        simp only [Bool.and_eq_true, decide_eq_true_eq]
        omega
      simp only [numeralLength, point, lone, if_true] at found
      cases found
    have length : numeralLength cs =
        (cs.takeWhile Char.isDigit).length + (rowLength Char.isDigit rest + 1) := by
      rw [numeralLength_point rest point digit, rowLength]
      omega
    have beginning : cs.take (numeralLength cs) =
        cs.takeWhile Char.isDigit ++ '.' :: rest.takeWhile Char.isDigit := by
      calc cs.take (numeralLength cs)
          = (cs.takeWhile Char.isDigit ++ '.' :: rest).take
              ((cs.takeWhile Char.isDigit).length + (rowLength Char.isDigit rest + 1)) := by
            rw [← point, whole, length]
        _ = cs.takeWhile Char.isDigit ++ '.' :: rest.takeWhile Char.isDigit := by
            rw [List.take_length_add_append, List.take_succ_cons, take_rowLength]
    rw [beginning]
    rcases Nat.eq_zero_or_pos (rowLength Char.isDigit cs) with none | some
    · rw [List.length_eq_zero_iff.mp none, List.nil_append]
      exact .fraction (row_of_takeWhile (by omega))
    · exact .point (row_of_takeWhile some) fun _ => List.mem_takeWhile_imp
  · have length : numeralLength cs = rowLength Char.isDigit cs := by
      simp only [numeralLength]
      split
      · rename_i rest ends
        exact absurd ⟨rest, ends⟩ point
      · rfl
    rw [length] at found ⊢
    rw [take_rowLength]
    exact .whole (row_of_takeWhile found)

/-- What a pattern finds at the start of a text it matches. -/
theorem matches_take {pattern : Pattern} {cs : List Char} (found : 0 < pattern.matchLength cs)
    (inside : pattern = .any → cs.head? ≠ some '\n') :
    pattern.Matches (cs.take (pattern.matchLength cs)) := by
  cases pattern with
  | blanks =>
    rw [matchLength, take_rowLength]
    exact .blanks (row_of_takeWhile found)
  | character c =>
    simp only [matchLength] at found ⊢
    split at found
    · rename_i first
      obtain ⟨more, rfl⟩ := List.head?_eq_some_iff.mp first
      simpa using .character c
    · cases found
  | word letters => exact matches_word found
  | numeral => exact matches_numeral found
  | command =>
    simp only [matchLength] at found ⊢
    split at found
    · rename_i rest
      split at found
      · cases found
      · rename_i some
        simp only [if_neg some, List.take_succ_cons, take_rowLength]
        exact .command (row_of_takeWhile (Nat.pos_of_ne_zero some))
    · cases found
  | letter =>
    simp only [matchLength] at found ⊢
    split at found
    · rename_i alpha
      obtain ⟨c, first, alpha⟩ := (Option.any_eq_true _ _).mp alpha
      obtain ⟨more, rfl⟩ := List.head?_eq_some_iff.mp first
      rw [if_pos (by simpa using alpha)]
      exact .letter alpha
    · cases found
  | any =>
    cases cs with
    | nil => cases found
    | cons c more =>
      refine .any (c := c) ?_
      rintro rfl
      exact inside rfl rfl

theorem wordLength_le (letters cs : List Char) : wordLength letters cs ≤ cs.length := by
  unfold wordLength
  split
  · rename_i here
    exact (List.isPrefixOf_iff_prefix.mp here).length_le
  · split
    · split
      · rename_i behind
        exact Nat.succ_le_succ (List.isPrefixOf_iff_prefix.mp behind).length_le
      · exact Nat.zero_le _
    · exact Nat.zero_le _

theorem numeralLength_le (cs : List Char) : numeralLength cs ≤ cs.length := by
  have whole : rowLength Char.isDigit cs + (cs.drop (rowLength Char.isDigit cs)).length =
      cs.length := by
    have row := rowLength_le Char.isDigit cs
    rw [List.length_drop]
    omega
  simp only [numeralLength]
  split
  · rename_i rest point
    have places := rowLength_le Char.isDigit rest
    rw [point, List.length_cons] at whole
    split <;> omega
  · omega

/-- A pattern finds no more than there is. -/
theorem matchLength_le (pattern : Pattern) (cs : List Char) :
    pattern.matchLength cs ≤ cs.length := by
  cases pattern with
  | blanks => exact rowLength_le isBlank cs
  | word letters => exact wordLength_le letters cs
  | numeral => exact numeralLength_le cs
  | character | letter | any =>
    cases cs with
    | nil => exact Nat.le_refl 0
    | cons c more =>
      simp only [matchLength, List.length_cons]
      split <;> omega
  | command =>
    simp only [matchLength]
    split
    · rename_i rest
      have row := rowLength_le Char.isAlpha rest
      rw [List.length_cons]
      split <;> omega
    · exact Nat.zero_le _

end Pattern

/-! ## Kinds -/

/-- A nonempty list has a first member at which a function is greatest. -/
private theorem exists_first_greatest {α : Type} (f : α → Nat) {l : List α} (nonempty : l ≠ []) :
    ∃ before x after, l = before ++ x :: after ∧ (∀ y ∈ before, f y < f x) ∧
      ∀ y ∈ after, f y ≤ f x := by
  induction l with
  | nil => exact absurd rfl nonempty
  | cons a l ih =>
    by_cases single : l = []
    · exact ⟨[], a, l, rfl, by simp, by simp [single]⟩
    · obtain ⟨before, x, after, rfl, earlier, later⟩ := ih single
      by_cases greater : f a < f x
      · exact ⟨a :: before, x, after, rfl, by simpa using ⟨greater, earlier⟩, later⟩
      · refine ⟨[], a, before ++ x :: after, rfl, by simp, ?_⟩
        intro y member
        rcases List.mem_append.mp member with member | member
        · have less := earlier y member
          omega
        · rcases List.mem_cons.mp member with rfl | member
          · omega
          · have less := later y member
            omega

namespace TokenKind

/-- How specific the pattern of a kind is. Operators, functions, constants, numbers and blanks have
patterns of their own, any name is a command or a letter, and anything at all is a symbol. -/
def specificity : TokenKind → Nat
  | symbol => 0
  | command | letter => 1
  | _ => 2

theorem mem_priority (kind : TokenKind) : kind ∈ priority := by
  cases kind <;> decide

/-- Every kind is tried before or after a given one, or is that one. -/
theorem mem_or_mem {before after : List TokenKind} {kind : TokenKind}
    (order : priority = before ++ kind :: after) (other : TokenKind) :
    other ∈ before ∨ other = kind ∨ other ∈ after := by
  simpa only [order, List.mem_append, List.mem_cons] using mem_priority other

theorem pattern_proper (kind : TokenKind) : kind.pattern.Proper := by
  cases kind with
  | sqrt | abs | sin | cos | tan | ln | pi => exact ⟨by decide, by decide⟩
  | _ => trivial

/-- The kinds are tried from specific to general. -/
theorem specificity_after {before after : List TokenKind} {kind other : TokenKind}
    (order : priority = before ++ kind :: after) (member : other ∈ after) :
    other.specificity ≤ kind.specificity := by
  have sorted : priority.Pairwise fun k k' => k'.specificity ≤ k.specificity := by decide
  rw [order] at sorted
  exact List.rel_of_pairwise_cons (List.pairwise_append.mp sorted).2.1 member

/-- The kind of the next token is the first of those that match most, and it matches something. -/
theorem longest_first {cs : List Char} (nonempty : cs ≠ []) :
    ∃ before after, priority = before ++ (longest cs).1 :: after ∧
      (longest cs).2 = (longest cs).1.pattern.matchLength cs ∧ 0 < (longest cs).2 ∧
      (∀ other ∈ before, other.pattern.matchLength cs < (longest cs).2) ∧
      ∀ other ∈ after, other.pattern.matchLength cs ≤ (longest cs).2 := by
  obtain ⟨before, kind, after, order, earlier, later⟩ := exists_first_greatest
    (fun kind : TokenKind => kind.pattern.matchLength cs) (l := priority) (by decide)
  have found : 0 < kind.pattern.matchLength cs := by
    have anything : symbol.pattern.matchLength cs = 1 := by
      simp [pattern, Pattern.matchLength, nonempty]
    rcases mem_or_mem order symbol with member | rfl | member
    · have less := earlier symbol member
      omega
    · omega
    · have less := later symbol member
      omega
  rw [longest_eq order found earlier later]
  exact ⟨before, after, order, rfl, found, earlier, later⟩

/-- A beginning of a text is the next lexeme: its kind matches it, no kind matches a longer
beginning, and no kind that matches as much is more specific. -/
structure Chosen (kind : TokenKind) (lexeme cs : List Char) : Prop where
  begins : lexeme <+: cs
  matched : kind.pattern.Matches lexeme
  longest : ∀ (other : TokenKind) (w : List Char), other.pattern.Matches w → w <+: cs →
    w.length ≤ lexeme.length
  specific : ∀ other : TokenKind, other.pattern.Matches lexeme →
    other.specificity ≤ kind.specificity

/-- There is a next lexeme in front of every text that has not ended. A line feed is blank, so that
no symbol is needed for it. -/
theorem longest_chosen {cs : List Char} (nonempty : cs ≠ []) :
    Chosen (longest cs).1 (cs.take (longest cs).2) cs := by
  obtain ⟨before, after, order, length, found, earlier, later⟩ := longest_first nonempty
  have within : (longest cs).2 ≤ cs.length := length ▸ Pattern.matchLength_le _ cs
  have whole : (cs.take (longest cs).2).length = (longest cs).2 := List.length_take_of_le within
  have most (other : TokenKind) : other.pattern.matchLength cs ≤ (longest cs).2 := by
    rcases mem_or_mem order other with member | rfl | member
    · exact Nat.le_of_lt (earlier other member)
    · exact Nat.le_of_eq length.symm
    · exact later other member
  have inside (any : (TokenKind.longest cs).1.pattern = .any) : cs.head? ≠ some '\n' := by
    intro ends
    obtain ⟨more, rfl⟩ := List.head?_eq_some_iff.mp ends
    rw [longest_blank rfl] at any
    cases any
  have longest (other : TokenKind) (w : List Char) (matched : other.pattern.Matches w)
      (begins : w <+: cs) : w.length ≤ other.pattern.matchLength cs := by
    obtain ⟨more, rfl⟩ := begins
    exact matched.length_le (pattern_proper other) more
  refine ⟨List.take_prefix _ _, ?_, ?_, ?_⟩
  · rw [length] at found ⊢
    exact Pattern.matches_take found inside
  · intro other w matched begins
    rw [whole]
    exact (longest other w matched begins).trans (most other)
  · intro other matched
    have enough := longest other _ matched (List.take_prefix _ _)
    rw [whole] at enough
    rcases mem_or_mem order other with member | rfl | member
    · have less := earlier other member
      omega
    · exact Nat.le_refl _
    · exact specificity_after order member

end TokenKind

end AlgebraEngine
