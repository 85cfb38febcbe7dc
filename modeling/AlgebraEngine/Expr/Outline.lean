import AlgebraEngine.Expr.Basic

/-!
The outline of a tree: every node on lines of its own, its parts indented below it. An outline is
first a nest of named groups, which `Outline.lines` lays out, so the spelling of nodes and the
layout are separate.
-/
namespace AlgebraEngine

/-- A nest of groups, each with an opening and a closing line around its members. -/
inductive Outline where
  | word (text : String)
  | group (opening closing : String) (members : List Outline)
  /-- A member with a label in front. -/
  | labelled (label : String) (member : Outline)

namespace Outline

mutual

/-- The lines of an outline at an indentation, with `before` in front of the first line and `after`
behind the last one. A group without members takes one line. -/
def linesWith (indent : String) (before after : String) : Outline → List String
  | word text => [indent ++ before ++ text ++ after]
  | group opening closing [] => [indent ++ before ++ opening ++ closing ++ after]
  | group opening closing members =>
    (indent ++ before ++ opening) :: membersLines (indent ++ "    ") members
      ++ [indent ++ closing ++ after]
  | labelled label member => linesWith indent (before ++ label ++ ": ") after member

/-- The lines of the members of a group, each followed by a comma. -/
def membersLines (indent : String) : List Outline → List String
  | [] => []
  | m :: ms => linesWith indent "" "," m ++ membersLines indent ms

end

/-- The outline as text. -/
def text (o : Outline) : String := "\n".intercalate (linesWith "" "" "" o)

/-- A name with parts in parentheses. -/
def parts (name : String) (members : List Outline) : Outline := group (name ++ "(") ")" members

/-- A name with labelled fields. -/
def fields (name : String) (members : List (String × Outline)) : Outline :=
  group (name ++ " \x7b") "\x7d" (members.map fun (label, m) => labelled label m)

/-- Members in brackets. -/
def row (members : List Outline) : Outline := group "[" "]" members

end Outline

namespace BinaryOp

/-- The name of an operator in an outline. -/
def outlineName : BinaryOp → String
  | add => "Add"
  | sub => "Sub"
  | mul => "Mul"
  | div => "Div"
  | mod => "Mod"
  | pow => "Exp"

end BinaryOp

namespace UnaryOp

/-- The name of a sign in an outline. -/
def outlineName : UnaryOp → String
  | plus => "Plus"
  | minus => "Minus"

end UnaryOp

namespace Func

/-- The name of a function in an outline. -/
def outlineName : Func → String
  | sqrt => "Sqrt"
  | abs => "Abs"
  | sin => "Sin"
  | cos => "Cos"
  | tan => "Tan"
  | ln => "Ln"
  | vector => "Vec"
  | factorial => "Factorial"

end Func

namespace Constant

/-- The name of a constant in an outline. -/
def outlineName : Constant → String
  | e => "E"
  | pi => "Pi"

end Constant

namespace Tags

/-- The tags of a node in an outline, as a mask in hexadecimal. -/
def outline (t : Tags) : Outline :=
  .parts "Tags" [.word ("0x" ++ String.ofList (Nat.toDigits 16 t.bits))]

end Tags

namespace Expr

variable {ν : Type} [Numeral ν]

mutual

/-- The outline of a tree. -/
def outline : Expr ν → Outline
  | number value => .parts "Literal" [.parts "Number" [.word (Numeral.outline value)]]
  | atom (.var name) => .parts "Literal" [.parts "Variable" [.word ("\"" ++ name ++ "\"")]]
  | atom (.const c) => .parts "Literal" [.parts "Irrational" [.word c.outlineName]]
  | binary t o l r => .parts "Binary" [.fields "Binary"
      [("lhs", l.outline), ("op", .word o.outlineName), ("rhs", r.outline), ("tags", t.outline)]]
  | unary t o u => .parts "Unary" [.fields "Unary"
      [("op", .word o.outlineName), ("operand", u.outline), ("tags", t.outline)]]
  | call t f us => .parts "Call" [.fields "Call"
      [("func", .word f.outlineName), ("args", .row (outlineList us)), ("tags", t.outline)]]
  | equality t s l r => .parts "Assign" [.fields "Assign"
      [("lhs", l.outline), ("rhs", r.outline), ("tags", t.outline), ("side", .word s.name)]]

/-- The outlines of a list of arguments. -/
def outlineList : List (Expr ν) → List Outline
  | [] => []
  | u :: us => u.outline :: outlineList us

end

end Expr

end AlgebraEngine
