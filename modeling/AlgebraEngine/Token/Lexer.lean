import AlgebraEngine.Token.Basic

/-!
Splitting a source into tokens. Every kind has a pattern, and the next token is the longest prefix
of the rest that some pattern matches; of the kinds that match that much, the first in `priority`
wins. The last pattern matches any single character, so nothing is ever left over, and `scan` covers
its source without a gap.
-/
namespace AlgebraEngine

/-- What the lexemes of a kind look like. -/
inductive Pattern where
  /-- One or more blanks. -/
  | blanks
  /-- This character alone. -/
  | character (c : Char)
  /-- These letters, with or without a backslash in front. -/
  | word (letters : List Char)
  /-- Digits with an optional point and fraction, or a point with a fraction. -/
  | numeral
  /-- A backslash and one or more letters. -/
  | command
  /-- One letter. -/
  | letter
  /-- One character of any kind. -/
  | any

/-- The blanks that separate tokens. -/
def isBlank (c : Char) : Bool := c == ' ' || c == '\t' || c == '\n' || c == '\r'

namespace Pattern

/-- The length of the row of characters of one class at the start of a text. -/
def rowLength (p : Char → Bool) (cs : List Char) : Nat := (cs.takeWhile p).length

/-- The length of the longest numeral at the start of a text. -/
def numeralLength (cs : List Char) : Nat :=
  let whole := rowLength Char.isDigit cs
  match cs.drop whole with
  | '.' :: rest =>
    let fraction := rowLength Char.isDigit rest
    if whole = 0 && fraction = 0 then 0 else whole + 1 + fraction
  | _ => whole

/-- The length of a word at the start of a text. -/
def wordLength (letters cs : List Char) : Nat :=
  if letters.isPrefixOf cs then letters.length
  else match cs with
    | '\\' :: rest => if letters.isPrefixOf rest then letters.length + 1 else 0
    | _ => 0

/-- The length of the longest match at the start of a text, zero if there is none. -/
def matchLength : Pattern → List Char → Nat
  | blanks, cs => rowLength isBlank cs
  | character c, cs => if cs.head? = some c then 1 else 0
  | word letters, cs => wordLength letters cs
  | numeral, cs => numeralLength cs
  | command, cs => match cs with
    | '\\' :: rest =>
      let letters := rowLength Char.isAlpha rest
      if letters = 0 then 0 else letters + 1
    | _ => 0
  | letter, cs => if cs.head?.any Char.isAlpha then 1 else 0
  | any, cs => if cs.isEmpty then 0 else 1

end Pattern

namespace TokenKind

/-- The pattern of a kind. -/
def pattern : TokenKind → Pattern
  | blank => .blanks
  | plus => .character '+'
  | minus => .character '-'
  | star => .character '*'
  | slash => .character '/'
  | percent => .character '%'
  | caret => .character '^'
  | bang => .character '!'
  | equals => .character '='
  | comma => .character ','
  | openParen => .character '('
  | closeParen => .character ')'
  | openSquare => .character '['
  | closeSquare => .character ']'
  | sqrt => .word ['s', 'q', 'r', 't']
  | abs => .word ['a', 'b', 's']
  | sin => .word ['s', 'i', 'n']
  | cos => .word ['c', 'o', 's']
  | tan => .word ['t', 'a', 'n']
  | ln => .word ['l', 'n']
  | pi => .word ['p', 'i']
  | euler => .character 'e'
  | number => .numeral
  | command => .command
  | letter => .letter
  | symbol => .any

/-- All kinds, those with a pattern of their own before the general ones. -/
def priority : List TokenKind :=
  [blank, plus, minus, star, slash, percent, caret, bang, equals, comma, openParen, closeParen,
    openSquare, closeSquare, sqrt, abs, sin, cos, tan, ln, pi, euler, number, command, letter,
    symbol]

/-- The kind with the longest match at the start of a text, the first one in `priority` of those
that match as much, and the length of the match. -/
def longest (cs : List Char) : TokenKind × Nat :=
  priority.foldl
    (fun best kind =>
      let length := kind.pattern.matchLength cs
      if best.2 < length then (kind, length) else best)
    (symbol, 0)

end TokenKind

/-- The number of bytes that characters take in a source. -/
def byteLength (cs : List Char) : Nat := cs.foldr (fun c bytes => c.utf8Size + bytes) 0

namespace Token

/-- The tokens of a text that starts at a byte offset, after the first `skip` characters of it,
which belong to a token that has been taken already. -/
def scanFrom (offset : Nat) : (skip : Nat) → List Char → List Token
  | _, [] => []
  | skip + 1, _ :: rest => scanFrom offset skip rest
  | 0, c :: rest =>
    let (kind, length) := TokenKind.longest (c :: rest)
    let lexeme := (c :: rest).take length
    let stop := offset + byteLength lexeme
    ⟨kind, ⟨offset, stop⟩, String.ofList lexeme⟩ :: scanFrom stop (length - 1) rest

/-- All tokens of a source, blanks included. -/
def scan (source : String) : List Token := scanFrom 0 0 source.toList

/-- The tokens of a source that an expression is read from. -/
def tokenize (source : String) : List Token :=
  (scan source).filter fun token => token.kind ≠ .blank

end Token

end AlgebraEngine
