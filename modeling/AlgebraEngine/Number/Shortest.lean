import AlgebraEngine.Number.Binary64

/-!
The fewest decimal digits that read back as a double-precision number, and of those the nearest.
Every comparison is exact, on natural numbers. A decimal reads back as a value if it lies between
the midpoints to the two neighbouring values; the midpoints themselves do if the significand is
even.
-/
namespace AlgebraEngine

namespace Binary64

/-- Quarter units of the value between the lower and the upper midpoint. The gap below a power of
two is half as wide as the gap above it. -/
structure Interval where
  low : Nat
  value : Nat
  high : Nat
  /-- Whether the midpoints themselves read back. -/
  closed : Bool

/-- The interval of a finite value, in units of two to its exponent less two. -/
def interval (x : Binary64) : Interval where
  low := 4 * x.significand - (if x.fraction = 0 ∧ 1 < x.biasedExponent then 1 else 2)
  value := 4 * x.significand
  high := 4 * x.significand + 2
  closed := x.significand % 2 = 0

/-- Whether a point lies in the interval. -/
def Interval.holds (i : Interval) (unit point : Nat) : Bool :=
  if i.closed then i.low * unit ≤ point && point ≤ i.high * unit
  else i.low * unit < point && point < i.high * unit

/-- The better of the two neighbours of the value on a grid that read back: the nearer one, and the
upper one if they are equally near. Quarter units are `unit` wide and the grid is `grid` wide. -/
def Interval.onGrid? (i : Interval) (unit grid : Nat) : Option Nat :=
  let below := i.value * unit / grid
  let above := below + 1
  match i.holds unit (below * grid), i.holds unit (above * grid) with
  | true, true =>
    if i.value * unit - below * grid < above * grid - i.value * unit then some below else some above
  | true, false => some below
  | false, true => some above
  | false, false => none

/-- The coarsest of `count` decimal grids, from `10 ^ place` down, on which a neighbour of the value
reads back. -/
def shortestFrom (i : Interval) (twos : Int) : (count : Nat) → (place : Int) → Option Decimal
  | 0, _ => none
  | count + 1, place =>
    let unit := Nat.pow 2 twos.toNat * Nat.pow 10 (-place).toNat
    let grid := Nat.pow 2 (-twos).toNat * Nat.pow 10 place.toNat
    match i.onGrid? unit grid with
    | some digits => some ⟨digits, place⟩
    | none => shortestFrom i twos count (place - 1)

/-- A decimal place at or just above that of the leading digit of a finite value. -/
def leadingPlace (x : Binary64) : Int :=
  ((Nat.log2 x.significand : Int) + x.exponent) * 30103 / 100000 + 1

/-- The exact decimal value of the magnitude. -/
def exactDecimal (x : Binary64) : Decimal :=
  if 0 ≤ x.exponent then ⟨x.significand * Nat.pow 2 x.exponent.toNat, 0⟩
  else ⟨x.significand * Nat.pow 5 (-x.exponent).toNat, x.exponent⟩

/-- The decimal with the fewest digits that reads back as the magnitude of a finite value. Seventeen
digits always suffice. -/
def shortest (x : Binary64) : Decimal :=
  if x.isZero then ⟨0, 0⟩
  else
    ((shortestFrom x.interval (x.exponent - 2) 20 x.leadingPlace).getD x.exactDecimal).stripZeros

end Binary64

end AlgebraEngine
