import AlgebraEngine.Eval.Value

/-!
The context of an evaluation: the rounding precision, the factorials computed so far, and how many
nodes deep the evaluation currently is. A context can be used for one evaluation after the other;
the factorials it remembers save work and change no value.
-/
namespace AlgebraEngine

variable {ν : Type}

/-- What evaluation reads and updates. -/
structure Context (ν : Type) where
  /-- The number of decimal places that literals and function values are rounded to. -/
  precision : Nat
  /-- The factorials computed so far, latest first. -/
  factorials : List (Nat × ν)
  /-- The number of nodes around the one being evaluated, zero outside of an evaluation. -/
  level : Nat

namespace Context

/-- The number of decimal places unless another precision is given. -/
def defaultPrecision : Nat := 8

/-- A context that remembers nothing. -/
def fresh (precision : Nat) : Context ν := ⟨precision, [], 0⟩

/-- The largest number whose factorial is finite. -/
def maxFiniteFactorial : Nat := 170

variable [Analysis ν]

/-- Rounds a number to the precision of the context. -/
def round (c : Context ν) (x : ν) : ν := Analysis.round c.precision x

/-- The largest number from 1 to `n` whose factorial is known, and its factorial. The factorial of
one always is. -/
def largestKnown (c : Context ν) : (n : Nat) → Nat × ν
  | 0 => (1, Arithmetic.ofInt 1)
  | n + 1 =>
    match c.factorials.lookup (n + 1) with
    | some result => (n + 1, result)
    | none => c.largestKnown n

/-- Multiplies a factorial up by the next `count` factors, remembering every product. -/
def extend (c : Context ν) : (count k : Nat) → (product : ν) → ν × Context ν
  | 0, _, product => (product, c)
  | count + 1, k, product =>
    let next := product * Arithmetic.ofInt (k + 1 : Nat)
    extend { c with factorials := (k + 1, next) :: c.factorials } count (k + 1) next

/-- Adds a factorial unless it is known already. -/
def remember (c : Context ν) (n : Nat) (result : ν) : Context ν :=
  match c.factorials.lookup n with
  | some _ => c
  | none => { c with factorials := (n, result) :: c.factorials }

/-- The factorial of a number, from the largest smaller one that is known. Factorials that are not
finite are not computed. -/
def factorial (c : Context ν) (n : Nat) : ν × Context ν :=
  if maxFiniteFactorial < n then (Analysis.infinity, c)
  else
    match c.factorials.lookup n with
    | some result => (result, c)
    | none =>
      let (k, known) := c.largestKnown (n - 1)
      let (result, c) := c.extend (n - k) k known
      (result, c.remember n result)

/-- The number of factorials computed so far. -/
def memoized (c : Context ν) : Nat := c.factorials.length

end Context

end AlgebraEngine
