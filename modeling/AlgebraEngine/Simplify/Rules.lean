import AlgebraEngine.Simplify.Fraction
import AlgebraEngine.Simplify.Step

/-!
The rules of simplification. The operation of a node decides which group of rules can rewrite it,
and the first rule of the group that applies is the one that does. A rule sees one node and its
operands; it computes with the numbers it finds and never looks deeper than a term such as
`(1/2)x`.
-/
namespace AlgebraEngine

/-- A way to rewrite nodes. -/
structure Rule (ν : Type) where
  step : Step
  /-- The node rewritten, if the rule applies to it. -/
  rewrite? : Expr ν → Option (Expr ν)

namespace Rule

open Arithmetic

variable {ν : Type} [Arithmetic ν]

/-- The difference of two numbers for a minus sign, and their sum for any other operator. -/
def sumOf (o : BinaryOp) (x y : ν) : ν := if o = .sub then x - y else x + y

/-- Adds or subtracts two numbers. -/
def foldSum : Expr ν → Option (Expr ν)
  | .binary _ o l r => do
    let x ← l.number?
    let y ← r.number?
    return .number (sumOf o x y)
  | _ => none

/-- Adds or subtracts two fractions over their least common denominator. -/
def addFractions : Expr ν → Option (Expr ν)
  | .binary _ o l r => do
    let (n, d) ← l.fraction?
    let (n', d') ← r.fraction?
    let common := Fraction.lcm d d'
    return Fraction.make (sumOf o (n * (common / d)) (n' * (common / d'))) common
  | _ => none

/-- A number next to a term, such as `2x + 3`, is as simple as it gets. The rule applies and changes
nothing. -/
def keepApart : Expr ν → Option (Expr ν)
  | .binary t o l r =>
    if (l.number?.isSome && r.term?.isSome) || (l.term?.isSome && r.number?.isSome) then
      some (.binary t o l r)
    else none
  | _ => none

/-- Adds or subtracts the coefficients of two terms with one atom, which both terms have to record.
The coefficients stay a sum that a later pass folds. -/
def combineLikeTerms : Expr ν → Option (Expr ν)
  | .binary _ o l r => do
    let (c, a) ← l.term?
    let (c', a') ← r.term?
    if l.tags.intersects r.tags && a == a' then some (.op .mul (.op o c c') (.atom a)) else none
  | _ => none

/-- Multiplies two numbers. -/
def foldProduct : Expr ν → Option (Expr ν)
  | .binary _ _ l r => do
    let x ← l.number?
    let y ← r.number?
    return .number (x * y)
  | _ => none

/-- Multiplies two fractions without reducing the result. -/
def multiplyFractions : Expr ν → Option (Expr ν)
  | .binary _ _ l r => do
    let (n, d) ← l.fraction?
    let (n', d') ← r.fraction?
    return Fraction.make (n * n') (d * d')
  | _ => none

/-- Whether an expression is an atom or a multiple of one. -/
def isSymbolic (e : Expr ν) : Bool := e.atom?.isSome || e.term?.isSome

/-- Multiplies an atom or a term by zero, on either side. -/
def multiplyByZero : Expr ν → Option (Expr ν)
  | .binary _ _ l r =>
    if (l.number?.any Fraction.isZero && isSymbolic r)
        || (isSymbolic l && r.number?.any Fraction.isZero) then
      some (.number (ofInt 0))
    else none
  | _ => none

/-- Divides two numbers. A quotient of integers stays a fraction, in lowest terms, unless it is an
integer or not finite. -/
def divideNumbers : Expr ν → Option (Expr ν)
  | .binary _ _ l r => do
    let n ← l.number?
    let d ← r.number?
    let quotient := n / d
    if !isInteger n || !isInteger d || isInteger quotient || !isFinite quotient then
      return .number quotient
    else return Fraction.reduce n d
  | _ => none

/-- The numerator and denominator of a fraction, or a number over one. -/
def rational? (e : Expr ν) : Option (ν × ν) :=
  match e.number? with
  | some x => some (x, ofInt 1)
  | none => e.fraction?

/-- Divides a number or a fraction by a fraction, as a product with its reciprocal. -/
def divideByFraction : Expr ν → Option (Expr ν)
  | .binary _ _ l r => do
    let (n, d) ← rational? l
    let (n', d') ← r.fraction?
    return Fraction.make (n * d') (d * n')
  | _ => none

/-- Drops a plus sign. -/
def removePlus : Expr ν → Option (Expr ν)
  | .unary _ _ u => some u
  | _ => none

/-- Negates a number. -/
def negateConstant : Expr ν → Option (Expr ν)
  | .unary _ _ u => do
    let x ← u.number?
    return .number (-x)
  | _ => none

/-- Negates the coefficient of a term. -/
def negateCoefficient : Expr ν → Option (Expr ν)
  | .unary _ _ u => do
    let (c, a) ← u.term?
    let x ← c.number?
    return .op .mul (.number (-x)) (.atom a)
  | _ => none

/-- Negates the numerator of a fraction that is the coefficient of a term. -/
def negateFraction : Expr ν → Option (Expr ν)
  | .unary _ _ u => do
    let (c, a) ← u.term?
    let (n, d) ← c.fraction?
    return .op .mul (.fraction (-n) d) (.atom a)
  | _ => none

/-- Negates the left operand of a sum or difference and turns its operator around. -/
def distributeNegation : Expr ν → Option (Expr ν)
  | .unary _ _ (.binary _ .add l r) => some (.op .sub (.sign .minus l) r)
  | .unary _ _ (.binary _ .sub l r) => some (.op .add (.sign .minus l) r)
  | _ => none

/-- Drops two minus signs in a row. -/
def cancelNegations : Expr ν → Option (Expr ν)
  | .unary _ _ (.unary _ .minus u) => some u
  | _ => none

/-- The rules of sums and differences. -/
def sumRules : List (Rule ν) :=
  [⟨.foldConstants, foldSum⟩, ⟨.combineFractions, addFractions⟩, ⟨.keepApart, keepApart⟩,
    ⟨.combineLikeTerms, combineLikeTerms⟩]

/-- The rules of products. -/
def productRules : List (Rule ν) :=
  [⟨.foldConstants, foldProduct⟩, ⟨.combineFractions, multiplyFractions⟩,
    ⟨.multiplyByZero, multiplyByZero⟩]

/-- The rules of quotients. -/
def quotientRules : List (Rule ν) :=
  [⟨.divideNumbers, divideNumbers⟩, ⟨.multiplyByReciprocal, divideByFraction⟩]

/-- The rules of plus signs. -/
def plusRules : List (Rule ν) := [⟨.removePlus, removePlus⟩]

/-- The rules of minus signs. -/
def minusRules : List (Rule ν) :=
  [⟨.negateConstant, negateConstant⟩, ⟨.negateCoefficient, negateCoefficient⟩,
    ⟨.negateFraction, negateFraction⟩, ⟨.distributeNegation, distributeNegation⟩,
    ⟨.cancelNegations, cancelNegations⟩]

/-- The rules that can rewrite a node, in the order in which they are tried. -/
def forNode : Expr ν → List (Rule ν)
  | .binary _ .add _ _ => sumRules
  | .binary _ .sub _ _ => sumRules
  | .binary _ .mul _ _ => productRules
  | .binary _ .div _ _ => quotientRules
  | .unary _ .plus _ => plusRules
  | .unary _ .minus _ => minusRules
  | _ => []

end Rule

/-- Which rules can rewrite a node, in the order in which they are tried. -/
abbrev RuleBook (ν : Type) := Expr ν → List (Rule ν)

namespace RuleBook

variable {ν : Type}

/-- The step and the result of the first rule that applies to a node. -/
def first? (book : RuleBook ν) (e : Expr ν) : Option (Step × Expr ν) :=
  (book e).findSome? fun rule => (rule.rewrite? e).map (rule.step, ·)

end RuleBook

end AlgebraEngine
