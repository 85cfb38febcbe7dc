/-!
White space between the words of a command line, in the sense of the Unicode property. This is a
wider class than the blanks between the tokens of an expression.
-/
namespace AlgebraEngine

/-- The code points with the property White_Space, as ranges with both ends. -/
def whitespaceRanges : List (Nat × Nat) :=
  [(0x09, 0x0D), (0x20, 0x20), (0x85, 0x85), (0xA0, 0xA0), (0x1680, 0x1680), (0x2000, 0x200A),
    (0x2028, 0x2029), (0x202F, 0x202F), (0x205F, 0x205F), (0x3000, 0x3000)]

/-- Whether a character is white space. -/
def isWhitespace (c : Char) : Bool :=
  whitespaceRanges.any fun (first, last) => first ≤ c.toNat && c.toNat ≤ last

/-- Whether a text is empty or white space throughout. -/
def isBlankText (cs : List Char) : Bool := cs.all isWhitespace

end AlgebraEngine
