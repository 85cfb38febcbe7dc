/-!
Decimal numerals: a count of units in a decimal place, how one is read from digits with an
optional point, and the two ways to write one out. Positional text never has an exponent, however
long it becomes; exponent text has one digit before the point.
-/
namespace AlgebraEngine

/-- The number `digits * 10 ^ exponent`. -/
structure Decimal where
  digits : Nat
  exponent : Int
  deriving DecidableEq, Repr

namespace Decimal

/-- The value of one decimal digit; any other character counts as zero. -/
def digitValue (c : Char) : Nat :=
  if c.isDigit then c.toNat - '0'.toNat else 0

/-- The number a row of digits denotes. -/
def natOfDigits (cs : List Char) : Nat :=
  cs.foldl (fun n c => 10 * n + digitValue c) 0

/-- Reads digits with at most one point among them, such as `12`, `12.`, `12.5` or `.5`. The
digits after the point move the place of the last unit to the right. -/
def ofNumeral (cs : List Char) : Decimal :=
  let whole := cs.takeWhile Char.isDigit
  let fraction := (cs.drop (whole.length + 1)).takeWhile Char.isDigit
  ⟨natOfDigits (whole ++ fraction), -(fraction.length : Int)⟩

/-- Moves the trailing zeros of the digits into the exponent, at most `fuel` of them. -/
def stripZerosUpTo : Nat → Decimal → Decimal
  | 0, d => d
  | fuel + 1, d =>
    if d.digits % 10 = 0 then stripZerosUpTo fuel ⟨d.digits / 10, d.exponent + 1⟩ else d

/-- Moves every trailing zero of the digits into the exponent. Zero itself is left alone. -/
def stripZeros (d : Decimal) : Decimal :=
  if d.digits = 0 then d else stripZerosUpTo (Nat.log2 d.digits) d

/-- The digits of a number, most significant first. -/
def digitChars (n : Nat) : List Char := Nat.toDigits 10 n

/-- The text of an integer. -/
def intText (n : Int) : String :=
  if n < 0 then "-" ++ String.ofList (digitChars n.natAbs) else String.ofList (digitChars n.natAbs)

/-- The characters of the positional form. A negative exponent puts a point before that many
digits, with zeros to fill the places in front. -/
def positionalChars (d : Decimal) : List Char :=
  let cs := digitChars d.digits
  if 0 ≤ d.exponent then cs ++ List.replicate d.exponent.toNat '0'
  else
    let places := (-d.exponent).toNat
    let padded := List.replicate (places + 1 - cs.length) '0' ++ cs
    padded.take (padded.length - places) ++ '.' :: padded.drop (padded.length - places)

/-- The positional form, such as `1200`, `12` or `0.012`. -/
def positional (d : Decimal) : String := String.ofList d.positionalChars

/-- The exponent form, such as `1.2e16` or `5e-7`. -/
def scientific (d : Decimal) : String :=
  match digitChars d.digits with
  | [] => ""
  | lead :: rest =>
    let point := if rest.isEmpty then [] else '.' :: rest
    String.ofList (lead :: point) ++ "e" ++ intText (d.exponent + rest.length)

end Decimal

end AlgebraEngine
