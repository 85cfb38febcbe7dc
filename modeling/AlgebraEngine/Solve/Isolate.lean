import AlgebraEngine.Simplify.Event
import AlgebraEngine.Solve.Error

/-!
Isolating the variable of an equation. Operations are peeled off the side that holds the variable,
outermost first, and the other operand moves across by the inverse operation:

    2x + 3 = 7
        2x = 7 - 3
         x = (7 - 3) / 2

Which operand holds the variable is read off the tags, so the equation is tagged first.
-/
namespace AlgebraEngine

variable {ν : Type}

/-- What a variable equals. -/
structure Solution (ν : Type) where
  name : String
  value : Expr ν

namespace Solution

/-- A solution as a tagged equation. -/
def toExpr (s : Solution ν) : Expr ν := (Expr.equal (.var s.name) s.value).tagged

end Solution

/-- A result or an error, with the events on the way to it. -/
structure Traced (ν α : Type) where
  events : List (Event ν)
  outcome : Except SolveError α

namespace Traced

variable {α β : Type}

/-- An error without events. -/
def fail (error : SolveError) : Traced ν α := ⟨[], .error error⟩

/-- Goes on with a result, or ends with the error. -/
def andThen (t : Traced ν α) (next : α → Traced ν β) : Traced ν β :=
  match t.outcome with
  | .ok value => { next value with events := t.events ++ (next value).events }
  | .error error => ⟨t.events, .error error⟩

/-- Notes an event in front of those on the way to a result. -/
def after (event : Event ν) (t : Traced ν α) : Traced ν α := { t with events := event :: t.events }

end Traced

namespace Equation

variable [Arithmetic ν]

/-- Whether an expression is the number one, which products and quotients can drop. -/
def isOne (e : Expr ν) : Bool := e.number?.any (· == Arithmetic.ofInt 1)

/-- The other side of an equation after the right operand `other` of an operation has moved there.
`x ^ b = c` becomes `x = c ^ (1 / b)`. -/
def moveRight (o : BinaryOp) (rhs other : Expr ν) : Except SolveError (Expr ν) :=
  match o with
  | .add => .ok (.op .sub rhs other)
  | .sub => .ok (.op .add rhs other)
  | .mul => .ok (if isOne other then rhs else .op .div rhs other)
  | .div => .ok (if isOne other then rhs else .op .mul rhs other)
  | .pow => .ok (.op .pow rhs (.op .div (.number (Arithmetic.ofInt 1)) other))
  | .mod => .error (.unsupported o.name)

/-- The other side of an equation after the left operand `other` of an operation has moved there.
`a - x = c` becomes `x = a - c`. -/
def moveLeft (o : BinaryOp) (other rhs : Expr ν) : Except SolveError (Expr ν) :=
  match o with
  | .add => .ok (.op .sub rhs other)
  | .sub => .ok (.op .sub other rhs)
  | .mul => .ok (if isOne other then rhs else .op .div rhs other)
  | .div => .ok (.op .div other rhs)
  | .pow => .error .variableInExponent
  | .mod => .error (.unsupported o.name)

/-- Peels the operations off the left side of a tagged equation until the variable stands alone
there. -/
def peel : (lhs rhs : Expr ν) → Traced ν (Solution ν)
  | .atom (.var name), rhs => ⟨[], .ok ⟨name, rhs⟩⟩
  | .binary t o l r, rhs => .after (.isolating (.binary t o l r) rhs) <|
    match l.tags.var, r.tags.var with
    | true, true => .fail (.ambiguousSide true)
    | true, false =>
      match moveRight o rhs r with
      | .ok rhs => peel l rhs
      | .error error => .fail error
    | false, _ =>
      match moveLeft o l rhs with
      | .ok rhs => peel r rhs
      | .error error => .fail error
  | .unary t .plus u, rhs => .after (.isolating (.unary t .plus u) rhs) (peel u rhs)
  | .unary t .minus u, rhs =>
    .after (.isolating (.unary t .minus u) rhs) (peel u (.sign .minus rhs))
  | .call t .sqrt [u], rhs =>
    .after (.isolating (.call t .sqrt [u]) rhs)
      (peel u (.op .pow rhs (.number (Arithmetic.ofInt 2))))
  | .call t .ln [u], rhs =>
    .after (.isolating (.call t .ln [u]) rhs) (peel u (.op .pow (.const .e) rhs))
  | .call t f us, rhs => .after (.isolating (.call t f us) rhs) (.fail (.unsupported f.name))
  | .number x, rhs => .after (.isolating (.number x) rhs) (.fail (.ambiguousSide false))
  | .atom (.const c), rhs => .after (.isolating (.const c) rhs) (.fail (.ambiguousSide false))
  | .equality t side l r, rhs =>
    .after (.isolating (.equality t side l r) rhs) (.fail (.ambiguousSide false))

/-- Isolates the variable of an equation, whose sides need not be tagged. -/
def isolate (lhs rhs : Expr ν) : Traced ν (Solution ν) :=
  match checkDepth (.equal lhs rhs) with
  | .error error => .fail (.tooDeep error)
  | .ok () =>
    let lhs := lhs.tagged
    let rhs := rhs.tagged
    match Side.ofTags lhs.tags rhs.tags with
    | .left => peel lhs rhs
    | .right => peel rhs lhs
    | .both => .fail (.ambiguousSide true)
    | .neither => .fail (.ambiguousSide false)

end Equation

end AlgebraEngine
