import AlgebraEngine.Expr.Operator
import AlgebraEngine.Number.Arithmetic

/-!
Expression trees. Leaves are numbers and atoms, that is the variable or a constant; inner nodes
cache which atoms occur below them, and an equality also caches which of its sides holds the
variable. The caches are only as fresh as the last pass that stored them, and equality of
expressions ignores them.
-/
namespace AlgebraEngine

/-- The set of atoms that occur in a subtree. -/
structure Tags where
  var : Bool
  euler : Bool
  pi : Bool
  deriving DecidableEq, Repr

namespace Tags

/-- No atoms. This is what a node holds before it is tagged. -/
def empty : Tags := ⟨false, false, false⟩

/-- The atoms of either set. -/
def union (s t : Tags) : Tags := ⟨s.var || t.var, s.euler || t.euler, s.pi || t.pi⟩

instance : Union Tags := ⟨union⟩

/-- Whether two sets share an atom. -/
def intersects (s t : Tags) : Bool :=
  (s.var && t.var) || (s.euler && t.euler) || (s.pi && t.pi)

/-- The set as a bit mask. -/
def bits (t : Tags) : Nat :=
  (if t.var then 1 else 0) + (if t.euler then 2 else 0) + (if t.pi then 4 else 0)

end Tags

/-- The sides of an equality that hold the variable. -/
inductive Side where
  | left
  | right
  | both
  | neither
  deriving DecidableEq, Repr

namespace Side

/-- The sides that hold the variable, from the tags of both. -/
def ofTags (lhs rhs : Tags) : Side :=
  match lhs.var, rhs.var with
  | true, false => left
  | false, true => right
  | true, true => both
  | false, false => neither

/-- The name of a side in an outline. -/
def name : Side → String
  | left => "Left"
  | right => "Right"
  | both => "Both"
  | neither => "Neither"

end Side

/-- A symbol that keeps its name until it is evaluated. -/
inductive Atom where
  /-- The variable. -/
  | var (name : String)
  | const (constant : Constant)
  deriving DecidableEq, Repr

namespace Atom

/-- The name that an atom is written with. -/
def symbol : Atom → String
  | var name => name
  | const constant => constant.symbol

/-- The set of the atom alone. -/
def tags : Atom → Tags
  | var _ => ⟨true, false, false⟩
  | const .e => ⟨false, true, false⟩
  | const .pi => ⟨false, false, true⟩

end Atom

/-- An expression over a type of numbers. -/
inductive Expr (ν : Type) where
  | number (value : ν)
  | atom (a : Atom)
  | binary (tags : Tags) (op : BinaryOp) (lhs rhs : Expr ν)
  | unary (tags : Tags) (op : UnaryOp) (operand : Expr ν)
  | call (tags : Tags) (func : Func) (args : List (Expr ν))
  | equality (tags : Tags) (side : Side) (lhs rhs : Expr ν)

variable {ν : Type}

namespace Expr

/-- The variable. -/
def var (name : String) : Expr ν := atom (.var name)

/-- A constant. -/
def const (constant : Constant) : Expr ν := atom (.const constant)

/-- An operation on two operands. -/
def op (o : BinaryOp) (lhs rhs : Expr ν) : Expr ν := binary .empty o lhs rhs

/-- A sign in front of an operand. -/
def sign (o : UnaryOp) (operand : Expr ν) : Expr ν := unary .empty o operand

/-- A call. -/
def apply (func : Func) (args : List (Expr ν)) : Expr ν := call .empty func args

/-- An equality. -/
def equal (lhs rhs : Expr ν) : Expr ν := equality .empty .neither lhs rhs

/-- A quotient of two numbers. -/
def fraction (numerator denominator : ν) : Expr ν :=
  op .div (number numerator) (number denominator)

/-- The value of a number. -/
def number? : Expr ν → Option ν
  | number value => some value
  | _ => none

/-- The numerator and denominator of a quotient of two numbers. -/
def fraction? : Expr ν → Option (ν × ν)
  | binary _ .div (number n) (number d) => some (n, d)
  | _ => none

/-- The symbol of an atom. -/
def atom? : Expr ν → Option Atom
  | atom a => some a
  | _ => none

/-- The coefficient and the atom of a product that ends in an atom, such as `2 * x`. -/
def term? : Expr ν → Option (Expr ν × Atom)
  | binary _ .mul coefficient (atom a) => some (coefficient, a)
  | _ => none

/-- The atoms that a node records below it. A leaf knows its own. -/
def tags : Expr ν → Tags
  | number _ => .empty
  | atom a => a.tags
  | binary tags .. => tags
  | unary tags .. => tags
  | call tags .. => tags
  | equality tags .. => tags

/-- Whether an expression states an equality. -/
def isEquality : Expr ν → Bool
  | equality .. => true
  | _ => false

mutual

/-- Whether two expressions have the same shape and literals, whatever they cache. -/
def same [BEq ν] : Expr ν → Expr ν → Bool
  | number x, number y => x == y
  | atom a, atom b => a == b
  | binary _ o l r, binary _ p l' r' => o == p && same l l' && same r r'
  | unary _ o u, unary _ p u' => o == p && same u u'
  | call _ f us, call _ g vs => f == g && sameList us vs
  | equality _ _ l r, equality _ _ l' r' => same l l' && same r r'
  | _, _ => false

/-- Whether two lists of arguments have equally many members, pairwise the same. -/
def sameList [BEq ν] : List (Expr ν) → List (Expr ν) → Bool
  | [], [] => true
  | u :: us, v :: vs => same u v && sameList us vs
  | _, _ => false

end

instance [BEq ν] : BEq (Expr ν) := ⟨same⟩

/-- The atoms that a list of arguments records. -/
def tagsOfList (es : List (Expr ν)) : Tags := es.foldl (fun t e => t ∪ e.tags) .empty

/-- A node with its own cache recomputed from those of its children. -/
def retag : Expr ν → Expr ν
  | number value => number value
  | atom a => atom a
  | binary _ o l r => binary (l.tags ∪ r.tags) o l r
  | unary _ o u => unary u.tags o u
  | call _ f us => call (tagsOfList us) f us
  | equality _ _ l r => equality (l.tags ∪ r.tags) (.ofTags l.tags r.tags) l r

mutual

/-- A tree with the cache of every node recomputed. -/
def tagged : Expr ν → Expr ν
  | number value => number value
  | atom a => atom a
  | binary t o l r => retag (binary t o l.tagged r.tagged)
  | unary t o u => retag (unary t o u.tagged)
  | call t f us => retag (call t f (taggedList us))
  | equality t s l r => retag (equality t s l.tagged r.tagged)

/-- A list of arguments, each with every cache recomputed. -/
def taggedList : List (Expr ν) → List (Expr ν)
  | [] => []
  | u :: us => u.tagged :: taggedList us

end

end Expr

end AlgebraEngine
