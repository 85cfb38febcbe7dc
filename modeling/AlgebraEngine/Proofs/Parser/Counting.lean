import AlgebraEngine.Number.Machine
import AlgebraEngine.Proofs.Expr.Paths
import AlgebraEngine.Proofs.Parser.Outcome

/-! The depth that the parser counts while it reads. Chains of operators, implicit products and rows
of factorials grow a tree link by link, and each of their loops keeps the depth of its tree in a
counter. In every round that a loop comes to, whatever the tokens are, the counter is the depth of
the tree so far, and the depth that is tested is that of the tree with one more link. So each loop
reads, and refuses, exactly what it would if it measured the whole tree in every round. -/
namespace AlgebraEngine

open Parse

variable {ν : Type}

/-- What a round of a loop adds to a tree: an operator with its right operand, or a factorial. -/
inductive Link (ν : Type) where
  | operation (o : BinaryOp) (rhs : Expr ν)
  | factorial

namespace Link

/-- The tree with the link on top. -/
def extend : Link ν → Expr ν → Expr ν
  | operation o rhs, lhs => .op o lhs rhs
  | factorial, operand => .apply .factorial [operand]

/-- The depth with the link on top, counted on from the depth of the tree below it. -/
def count : Link ν → Nat → Nat
  | operation _ rhs, depth => max depth rhs.depth + 1
  | factorial, depth => depth + 1

/-- Counting on from the depth of a tree gives the depth of the extended tree. -/
theorem count_depth (link : Link ν) (e : Expr ν) : link.count e.depth = (link.extend e).depth := by
  cases link with
  | operation o rhs => exact (Expr.depth_op o e rhs).symm
  | factorial => exact (Expr.depth_apply_singleton .factorial e).symm

end Link

/-- How a tree is grown. -/
structure Growth (ν : Type) where
  /-- Reads the link of a round, if there is a further round. -/
  link? : Parse (Option (Link ν))
  /-- What a round takes once the tree with the link is known not to be too deep. -/
  take : Parse Unit

namespace Growth

/-- Operators out of a list, each with an operand behind it. -/
def chain (ops : List BinaryOp) (operand : Parse (Expr ν)) : Growth ν where
  link? := do
    match ← operator? ops with
    | none => return none
    | some o =>
      let _ ← next
      return some (.operation o (← operand))
  take := pure ()

/-- Factors one after the other. -/
def juxtaposition (factor : Parse (Expr ν)) : Growth ν where
  link? := do
    if (← peek?).any TokenKind.startsFactor then return some (.operation .mul (← factor))
    else return none
  take := pure ()

/-- Factorials one after the other. The depth is tested before a sign is taken. -/
def factorials : Growth ν where
  link? := do
    if (← peek?) = some .bang then return some .factorial
    else return none
  take := advance

variable (g : Growth ν)

/-- Grows a tree by at most a number of links, and measures the whole tree with each of them. -/
def measuring : (links : Nat) → (e : Expr ν) → Parse (Expr ν)
  | 0, e => pure e
  | links + 1, e => do
    match ← g.link? with
    | none => return e
    | some link =>
      checkTreeDepth (link.extend e).depth
      g.take
      measuring links (link.extend e)

/-- A loop grows a tree by at most a number of links, and counts its depth on from link to link. -/
structure Counts (loop : (links : Nat) → (e : Expr ν) → (depth : Nat) → Parse (Expr ν)) :
    Prop where
  stops : ∀ e depth, loop 0 e depth = pure e
  round : ∀ links e depth, loop (links + 1) e depth = do
    match ← g.link? with
    | none => return e
    | some link =>
      checkTreeDepth (link.count depth)
      g.take
      loop links (link.extend e) (link.count depth)

/-- Where a loop stands at the start of a round. -/
structure Head (ν : Type) where
  /-- The tree so far. -/
  tree : Expr ν
  /-- The depth that has been counted. -/
  depth : Nat
  reader : Parser

/-- A loop that counts comes from one head to another in a number of rounds. In each of them a link
is read, the depth counted with it passes the test, and what goes with the link is taken. -/
inductive Reaches (start : Head ν) : (rounds : Nat) → Head ν → Prop where
  | start : Reaches start 0 start
  | round {rounds : Nat} {head : Head ν} {link : Link ν} {p q : Parser}
      (reaches : Reaches start rounds head) (reads : g.link? head.reader = .ok (some link) p)
      (passes : checkTreeDepth (link.count head.depth) p = .ok () p) (takes : g.take p = .ok () q) :
      Reaches start (rounds + 1) ⟨link.extend head.tree, link.count head.depth, q⟩

/-- A reader grows a first tree by a loop that counts, and the count is always the depth. -/
structure CountsExactly (first : Parse (Expr ν)) (loop : Nat → Expr ν → Nat → Parse (Expr ν))
    (read : Parse (Expr ν)) : Prop extends g.Counts loop where
  /-- The counter starts at the depth of the first tree. -/
  starts : read = do
    let e ← first
    loop (← get).remaining e e.depth
  /-- At every head that the loop comes to, in any number of rounds and on any tokens, the counter
  is the depth of the tree so far. -/
  counter : ∀ {e p rounds head}, g.Reaches ⟨e, e.depth, p⟩ rounds head →
    head.depth = head.tree.depth
  /-- The depth that is tested there is the depth of the tree with the link that has been read. -/
  tested : ∀ {e p rounds head link q}, g.Reaches ⟨e, e.depth, p⟩ rounds head →
    g.link? head.reader = .ok (some link) q → link.count head.depth = (link.extend head.tree).depth
  /-- These are the heads of the loop: it goes on from each of them. -/
  resumes : ∀ {e p rounds head}, g.Reaches ⟨e, e.depth, p⟩ rounds head → ∀ links,
    loop (rounds + links) e e.depth p = loop links head.tree head.depth head.reader
  /-- However many links are allowed, measuring the tree in every round reads and refuses the
  same. -/
  measures : ∀ links e, loop links e e.depth = g.measuring links e

variable {g} {start head : Head ν} {rounds : Nat} {first read : Parse (Expr ν)}
  {loop : Nat → Expr ν → Nat → Parse (Expr ν)}

/-- Every round keeps the counter at the depth of the tree. -/
theorem Reaches.depth_eq (reaches : g.Reaches start rounds head)
    (counted : start.depth = start.tree.depth) : head.depth = head.tree.depth := by
  induction reaches with
  | start => exact counted
  | @round rounds head link p q _ _ _ _ ih =>
    change link.count head.depth = (link.extend head.tree).depth
    rw [ih, link.count_depth]

/-- A loop that comes to a head goes on from there. -/
theorem Counts.resumes (counts : g.Counts loop) (reaches : g.Reaches start rounds head)
    (links : Nat) : loop (rounds + links) start.tree start.depth start.reader =
      loop links head.tree head.depth head.reader := by
  induction reaches generalizing links with
  | start => rw [Nat.zero_add]
  | @round rounds head link p q _ reads passes takes ih =>
    rw [Nat.add_right_comm, Nat.add_assoc, ih, counts.round]
    simp only [bind, EStateM.bind, reads, passes, takes]

/-- Counting on from the depth of a tree makes the tests that measuring makes, as every round starts
with the depth of its tree again. -/
theorem Counts.eq_measuring (counts : g.Counts loop) (links : Nat) (e : Expr ν) :
    loop links e e.depth = g.measuring links e := by
  induction links generalizing e with
  | zero => rw [counts.stops, measuring]
  | succ links ih =>
    rw [counts.round, measuring]
    refine bind_congr fun link? => ?_
    cases link? with
    | none => rfl
    | some link =>
      simp only [link.count_depth, ih]

theorem Counts.exactly (counts : g.Counts loop) (starts : read = do
    let e ← first
    loop (← get).remaining e e.depth) : g.CountsExactly first loop read where
  toCounts := counts
  starts := starts
  counter reaches := reaches.depth_eq rfl
  tested reaches _ := by rw [reaches.depth_eq rfl, Link.count_depth]
  resumes := counts.resumes
  measures := counts.eq_measuring

theorem chain_counts (ops : List BinaryOp) (operand : Parse (Expr ν)) :
    (chain ops operand).Counts (chainFrom ops operand) where
  stops _ _ := rfl
  round links lhs depth := by
    simp only [chainFrom, chain, bind_assoc]
    refine bind_congr fun o? => ?_
    cases o? with
    | none => simp only [pure_bind]
    | some o => simp only [bind_assoc, pure_bind, Link.extend, Link.count]

theorem juxtaposition_counts (factor : Parse (Expr ν)) :
    (juxtaposition factor).Counts (juxtaposedFrom factor) where
  stops _ _ := rfl
  round links lhs depth := by
    simp only [juxtaposedFrom, juxtaposition, bind_assoc]
    refine bind_congr fun kind? => ?_
    split <;> simp only [bind_assoc, pure_bind, Link.extend, Link.count]

theorem factorials_counts : (factorials (ν := ν)).Counts factorialsFrom where
  stops _ _ := rfl
  round marks e depth := by
    simp only [factorialsFrom, factorials, bind_assoc]
    refine bind_congr fun kind? => ?_
    split <;> simp only [pure_bind, Link.extend, Link.count]

end Growth

/-- The depth that is found with pending subtrees is the length of the longest path from the root to
a leaf, and each loop of the parser that grows a tree keeps exact count of it. -/
theorem Parse.loops_count_depth [Arithmetic ν] :
    (∀ e : Expr ν, IsGreatest {n | ∃ path, e.Path path ∧ path.length = n} e.depth ∧
      ∀ visits, e.size ≤ visits → Expr.deepest visits [(e, 1)] 0 = e.depth) ∧
    (∀ (ops : List BinaryOp) (operand : Parse (Expr ν)),
      (Growth.chain ops operand).CountsExactly operand (chainFrom ops operand)
        (chain ops operand)) ∧
    (∀ factor : Parse (Expr ν),
      (Growth.juxtaposition factor).CountsExactly (withCoefficient <$> factor)
        (juxtaposedFrom factor) (juxtaposed factor)) ∧
    ∀ e : Expr ν,
      Growth.factorials.CountsExactly (pure e) factorialsFrom (factorials e) := by
  refine ⟨fun e => ⟨e.depth_isGreatest, fun _ => Expr.deepest_eq_depth⟩, ?_, ?_, ?_⟩
  · intro ops operand
    exact (Growth.chain_counts ops operand).exactly rfl
  · intro factor
    exact (Growth.juxtaposition_counts factor).exactly (by rw [bind_map_left]; rfl)
  · intro e
    exact Growth.factorials_counts.exactly (by rw [pure_bind]; rfl)

/-- Two rounds behind the first operand of `x + x + x` the counter is at the depth of the sum. -/
theorem Parse.loops_count_depth_sum :
    let x : Expr Binary64 := .var "x"
    let sum := Expr.op .add (.op .add x x) x
    ∃ p q, literal (.ofSource "x + x + x") = .ok x p ∧
      (Growth.chain [.add, .sub] literal).Reaches ⟨x, x.depth, p⟩ 2 ⟨sum, 3, q⟩ ∧
      sum.depth = 3 := by
  intro x sum
  let tokens : Array Token := #[⟨.letter, ⟨0, 1⟩, "x"⟩, ⟨.plus, ⟨2, 3⟩, "+"⟩,
    ⟨.letter, ⟨4, 5⟩, "x"⟩, ⟨.plus, ⟨6, 7⟩, "+"⟩, ⟨.letter, ⟨8, 9⟩, "x"⟩]
  have source : Parser.ofSource "x + x + x" = ⟨tokens, 0, 0, none⟩ := by decide +kernel
  have reaches : (Growth.chain [.add, .sub] literal).Reaches
      ⟨x, x.depth, ⟨tokens, 1, 0, some "x"⟩⟩ 2 _ :=
    .round (.round .start rfl rfl rfl) rfl rfl rfl
  obtain ⟨-, chains, -⟩ := loops_count_depth (ν := Binary64)
  have counter := (chains [.add, .sub] literal).counter reaches
  exact ⟨_, _, by rw [source]; rfl, reaches, counter.symm⟩

end AlgebraEngine
