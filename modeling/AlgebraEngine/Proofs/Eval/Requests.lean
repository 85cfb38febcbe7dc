import AlgebraEngine.Number.Machine
import AlgebraEngine.Proofs.Eval.History
import AlgebraEngine.Proofs.Eval.Memory

/-! What an evaluation asks of its context: the factorials of the numbers that the operands of
factorials evaluate to, in the order of evaluation and up to the first error. They are all that an
evaluation changes, so whatever a context was used for, its memory is the table of the factorials
that were asked for. -/
namespace AlgebraEngine

variable {ν : Type} [Analysis ν]

/-- The number whose factorial a function asks for, if it is the factorial and the operand has
one. -/
def Func.requests (f : Func) (x : ν) : List Nat :=
  match f, Arithmetic.toInt? x with
  | .factorial, some n => if n < 0 then [] else [n.toNat]
  | _, _ => []

/-- What is asked for next. Nothing is behind an error. -/
def Eval.behind {α : Type} (result : Except (EvalError ν) α) (next : α → List Nat) : List Nat :=
  match result with
  | .ok value => next value
  | .error _ => []

open Eval

namespace Expr

mutual

/-- The numbers whose factorials the evaluation of an expression asks for, in order. -/
def requests (precision : Nat) : Expr ν → List Nat
  | number _ => []
  | atom _ => []
  | binary _ _ l r => l.requests precision ++ behind (l.outcome precision) fun _ =>
      r.requests precision
  | unary _ _ u => u.requests precision
  | call _ .vector us => requestsOfList precision us
  | call _ f [u] => u.requests precision ++ behind (u.outcome precision) fun
      | .scalar x => f.requests x
      | _ => []
  | call .. => []
  | equality _ _ l r => l.requests precision ++ behind (l.outcome precision) fun _ =>
      r.requests precision

/-- The numbers whose factorials the evaluation of the components of a vector asks for, in order.
Behind a component that is not a scalar none is evaluated. -/
def requestsOfList (precision : Nat) : List (Expr ν) → List Nat
  | [] => []
  | u :: us => u.requests precision ++ behind (u.outcome precision) fun
      | .scalar _ => requestsOfList precision us
      | _ => []

end

end Expr

/-- The numbers whose factorials a call on a context of some precision asks for, in order. Nothing of
an expression that is too deep is evaluated. -/
def ContextCall.requests (precision : Nat) : ContextCall ν → List Nat
  | .eval e => match checkDepth e with
    | .ok () => e.requests precision
    | .error _ => []
  | .factorial n => [n]
  | .round _ => []
  | .precision _ => []

/-- The numbers whose factorials calls on a context, one after the other, ask for. -/
def Context.requested (c : Context ν) : List (ContextCall ν) → List Nat
  | [] => []
  | call :: calls => call.requests c.precision ++ (c.after call).requested calls

namespace Context

variable {c : Context ν}

/-- The same memory and precision at another level. -/
def atLevel (c : Context ν) (level : Nat) : Context ν := { c with level := level }

theorem largestKnown_atLevel (c : Context ν) (level n : Nat) :
    (c.atLevel level).largestKnown n = c.largestKnown n := by
  induction n with
  | zero => rfl
  | succ n ih =>
    unfold largestKnown
    rw [ih]
    rfl

theorem extend_atLevel (c : Context ν) (level count k : Nat) (x : ν) :
    (c.atLevel level).extend count k x =
      ((c.extend count k x).1, (c.extend count k x).2.atLevel level) := by
  induction count generalizing c k x with
  | zero => rfl
  | succ count ih =>
    exact ih ⟨_, (k + 1, x * Arithmetic.ofInt (k + 1 : Nat)) :: c.factorials, _⟩ (k + 1) _

omit [Analysis ν] in
theorem remember_atLevel (c : Context ν) (level n : Nat) (x : ν) :
    (c.atLevel level).remember n x = (c.remember n x).atLevel level := by
  have same : (c.atLevel level).factorials.lookup n = c.factorials.lookup n := rfl
  unfold remember
  rw [same]
  cases c.factorials.lookup n <;> rfl

theorem factorial_atLevel (c : Context ν) (level n : Nat) :
    ((c.atLevel level).factorial n).2 = (c.factorial n).2.atLevel level := by
  unfold factorial
  split
  · rfl
  · have same : (c.atLevel level).factorials.lookup n = c.factorials.lookup n := rfl
    rw [same]
    cases c.factorials.lookup n with
    | some x => rfl
    | none =>
      dsimp only
      rw [largestKnown_atLevel, extend_atLevel, remember_atLevel]

/-- The level has no part in what is asked for. -/
theorem asking_atLevel (c : Context ν) (level : Nat) (numbers : List Nat) :
    (c.atLevel level).asking numbers = (c.asking numbers).atLevel level := by
  induction numbers generalizing c with
  | nil => rfl
  | cons n numbers ih =>
    simp only [asking, List.foldl_cons, factorial_atLevel] at ih ⊢
    exact ih _

theorem level_asking (c : Context ν) (numbers : List Nat) :
    (c.asking numbers).level = c.level := by
  induction numbers generalizing c with
  | nil => rfl
  | cons n numbers ih => exact (ih _).trans (level_factorial c n)

/-- Leaving a node undoes what entering it did to the level. -/
theorem leave_eq {c' : Context ν} {numbers : List Nat}
    (below : c' = (c.asking numbers).atLevel (c.level + 1)) :
    { c' with level := c'.level - 1 } = c.asking numbers := by
  subst below
  show (c.asking numbers).atLevel c.level = c.asking numbers
  rw [← level_asking c numbers]
  rfl

end Context

/-! ## Computations that ask -/

namespace Eval

open Context

variable {α β : Type} {requests : Nat → List Nat}

/-- Below a node, in every context whose memory is sound, all that a computation does to the context
is to ask for factorials, which only depend on the precision. -/
def Asks (body : Eval ν α) (requests : Nat → List Nat) : Prop :=
  ∀ c : Context ν, c.Sound → 0 < c.level → (body.ends c).2 = c.asking (requests c.precision)

theorem asks_pure (value : α) : Asks (pure value : Eval ν α) fun _ => [] := fun _ _ _ => rfl

theorem asks_throw (error : EvalError ν) : Asks (throw error : Eval ν α) fun _ => [] :=
  fun _ _ _ => rfl

/-- What the second of two computations asks for comes behind what the first one does. -/
theorem Asks.bind {body : Eval ν α} {next : α → Eval ν β}
    {result : Nat → Except (EvalError ν) α} {later : α → Nat → List Nat}
    (first : Asks body requests) (settles : Settles body result)
    (second : ∀ value, Asks (next value) (later value)) :
    Asks (body >>= next) fun precision =>
      requests precision ++ behind (result precision) fun value => later value precision := by
  intro c sound below
  have here := first c sound below
  obtain ⟨ended, continues⟩ := settles c sound below
  unfold ends at here ended continues ⊢
  simp only [Bind.bind, EStateM.bind]
  cases run : body c with
  | ok value c' =>
    simp only [run] at here ended continues ⊢
    have there := second value c' continues.sound (continues.level ▸ below)
    unfold ends at there
    rw [there, ← ended, continues.precision, asking_append, ← here]
    rfl
  | error error c' =>
    simp only [run] at here ended ⊢
    rw [here, ← ended, asking_append]
    rfl

/-- A computation that leaves the context alone. -/
def Silent (body : Eval ν α) : Prop := ∀ c, (body.ends c).2 = c

omit [Analysis ν] in
theorem silent_pure (value : α) : Silent (pure value : Eval ν α) := fun _ => rfl

omit [Analysis ν] in
theorem silent_throw (error : EvalError ν) : Silent (throw error : Eval ν α) := fun _ => rfl

/-- What leaves the context alone adds nothing to what is asked for before it. -/
theorem Asks.silent {body : Eval ν α} {next : α → Eval ν β} (first : Asks body requests)
    (second : ∀ value, Silent (next value)) : Asks (body >>= next) requests := by
  intro c sound below
  have here := first c sound below
  unfold ends at here ⊢
  simp only [Bind.bind, EStateM.bind]
  cases run : body c with
  | ok value c' =>
    simp only [run] at here ⊢
    exact (second value c').trans here
  | error error c' =>
    simp only [run] at here ⊢
    exact here

theorem Asks.inside {body : Eval ν (Value ν)} (asks : Asks body requests) (e : Expr ν) :
    Asks (inside e body) requests := by
  intro c sound below
  have here := asks (c.atLevel (c.level + 1)) sound (Nat.succ_pos _)
  rw [asking_atLevel] at here
  rw [ends_inside (if_neg (Nat.pos_iff_ne_zero.mp below))]
  exact leave_eq here

theorem asks_rounded (x : ν) : Asks (rounded x) fun _ => [] := fun _ _ _ => rfl

theorem asks_applied {f : Func} (function : f ≠ .vector) (x : ν) :
    Asks (applied f x) fun _ => f.requests x := by
  cases f with
  | vector => exact absurd rfl function
  | sqrt | abs | sin | cos | tan | ln => exact asks_rounded _
  | factorial =>
    show Asks (Eval.factorial x) _
    unfold Eval.factorial Func.requests
    cases Arithmetic.toInt? x with
    | none => exact asks_throw _
    | some n =>
      intro c _ _
      by_cases negative : n < 0
      · simp only [if_pos negative]
        rfl
      · simp only [if_neg negative]
        rfl

end Eval

namespace Expr

theorem eval_settles (e : Expr ν) : Settles e.eval (outcome · e) := by
  obtain ⟨body, same, settles⟩ := e.eval_settled
  rw [same]
  exact settles.inside e

theorem evalComponents_asks {us : List (Expr ν)} (each : ∀ u ∈ us, Asks u.eval (requests · u)) :
    Asks (evalComponents us) (requestsOfList · us) := by
  induction us with
  | nil => exact asks_pure []
  | cons u us ih =>
    have rest := ih fun v member => each v (List.mem_cons_of_mem _ member)
    simp only [evalComponents, requestsOfList]
    refine (each u (by simp)).bind u.eval_settles fun value => ?_
    cases value with
    | scalar x => exact rest.silent fun xs => silent_pure _
    | vector xs => exact asks_throw _
    | symbolic text => exact asks_throw _

/-- An expression is evaluated inside itself, and what it asks for there are its requests. -/
theorem eval_asking (e : Expr ν) :
    ∃ body, e.eval = inside e body ∧ Asks body (requests · e) := by
  have asks {u : Expr ν} (evaluated : ∃ body, u.eval = inside u body ∧ Asks body (requests · u)) :
      Asks u.eval (requests · u) := by
    obtain ⟨body, same, asks⟩ := evaluated
    exact same ▸ asks.inside u
  induction e with
  | number x => exact ⟨_, by rw [eval], by simpa only [requests] using asks_rounded x⟩
  | atom a =>
    cases a with
    | var name => exact ⟨_, by rw [eval]; rfl, by simpa only [requests] using asks_pure _⟩
    | const constant =>
      exact ⟨_, by rw [eval]; rfl, by simpa only [requests] using asks_rounded constant.value⟩
  | binary t o l r left right =>
    refine ⟨_, by rw [eval], ?_⟩
    simp only [requests]
    refine (asks left).bind l.eval_settles fun x => (asks right).silent fun y => ?_
    split
    · exact silent_pure _
    · cases Value.binary o x y with
      | ok value => exact silent_pure value
      | error error => exact silent_throw error
  | unary t o u inner =>
    refine ⟨_, by rw [eval], ?_⟩
    simp only [requests]
    refine (asks inner).silent fun x => ?_
    split <;> exact silent_pure _
  | call t f us inner =>
    by_cases vector : f = .vector
    · subst vector
      refine ⟨_, by rw [eval], ?_⟩
      simp only [requests]
      exact (evalComponents_asks fun u member => asks (inner u member)).silent
        fun _ => silent_pure _
    · rcases us with - | ⟨u, - | ⟨v, us⟩⟩
      · refine ⟨_, by rw [eval] <;> simp [vector], ?_⟩
        simp only [requests]
        exact asks_throw _
      · refine ⟨_, by rw [eval]; exact vector, ?_⟩
        simp only [requests]
        refine (asks (inner u (by simp))).bind u.eval_settles fun value => ?_
        cases value with
        | scalar x => exact asks_applied vector x
        | vector xs => exact asks_throw _
        | symbolic text => exact asks_pure _
      · refine ⟨_, by rw [eval] <;> simp [vector], ?_⟩
        simp only [requests]
        exact asks_throw _
  | equality t side l r left right =>
    refine ⟨_, by rw [eval], ?_⟩
    simp only [requests]
    exact (asks left).bind l.eval_settles fun x => (asks right).silent fun y => silent_pure _

end Expr

namespace Context

variable {c : Context ν}

/-- All that a call does to the memory of a context is to ask for the factorials it requests. -/
theorem Ready.after_factorials (ready : c.Ready) (call : ContextCall ν) :
    (c.after call).factorials = (c.asking (call.requests c.precision)).factorials := by
  cases call with
  | factorial n | round x | precision places => rfl
  | eval e =>
    obtain ⟨body, evaluated, asks⟩ := e.eval_asking
    simp only [Context.after, ContextCall.requests, evaluated]
    cases check : checkDepth e with
    | error tooDeep =>
      simp only [ends, Eval.inside, if_pos ready.outside, check]
      rfl
    | ok _ =>
      have here := asks (c.atLevel (c.level + 1)) ready.sound (Nat.succ_pos _)
      rw [ends_inside (by rw [if_pos ready.outside, check])]
      rw [asking_atLevel] at here
      exact congrArg Context.factorials (leave_eq here)

theorem Ready.tabulates_after {asked : List Nat} (ready : c.Ready) (table : c.Tabulates asked)
    (call : ContextCall ν) : (c.after call).Tabulates (asked ++ call.requests c.precision) :=
  (table.asking _).of_factorials (ready.after_factorials call)

/-- Calls add what they request to what was asked for before. -/
theorem Ready.tabulates_foldl {asked : List Nat} (ready : c.Ready) (table : c.Tabulates asked)
    (calls : List (ContextCall ν)) :
    (calls.foldl Context.after c).Tabulates (asked ++ c.requested calls) := by
  induction calls generalizing c asked with
  | nil =>
    rw [requested, List.append_nil]
    exact table
  | cons call calls ih =>
    rw [requested, ← List.append_assoc]
    exact ih (ready.after call) (ready.tabulates_after table call)

theorem tabulates_reached (precision : Nat) (calls : List (ContextCall ν)) :
    (reached precision calls).Tabulates ((fresh precision).requested calls) := by
  have table := (ready_fresh precision).tabulates_foldl (tabulates_fresh precision) calls
  rw [List.nil_append] at table
  exact table

/-- The memory of a context is a table of factorials without gaps. After any calls, failed ones among
them, a number that is remembered is at most the largest with a finite factorial, and remembered is
the product of the numbers up to it, as a fresh context returns it. From two on the numbers
remembered are all those up to some number; zero and one are remembered if they were asked for, and
only then; and none is remembered twice. Later calls remove and change nothing: a call does no more
than to ask for the factorials it requests, one after the other, and asking for one that is
remembered or too large leaves the whole context as it was. -/
theorem reached_remembers (precision : Nat) (calls : List (ContextCall ν)) :
    let c : Context ν := reached precision calls
    (∀ k x, c.factorials.lookup k = some x →
      k ≤ maxFiniteFactorial ∧ x = product k ∧ ∀ places, ((fresh places).factorial k).1 = x) ∧
    (∃ m, ∀ k, 2 ≤ k → ((c.factorials.lookup k).isSome = true ↔ k ≤ m)) ∧
    (∀ k, k < 2 → ((c.factorials.lookup k).isSome = true ↔
      k ∈ (fresh precision : Context ν).requested calls)) ∧
    c.keys.Nodup ∧
    (∀ later k x, c.factorials.lookup k = some x →
      (reached precision (calls ++ later)).factorials.lookup k = some x) ∧
    (∀ call, (c.after call).factorials = (c.asking (call.requests c.precision)).factorials) ∧
    ∀ n, (c.factorials.lookup n).isSome = true ∨ maxFiniteFactorial < n →
      (c.factorial n).2 = c := by
  intro c
  have ready : c.Ready := ready_reached precision calls
  have table : c.Tabulates _ := tabulates_reached precision calls
  simp only [lookup_isSome_iff]
  refine ⟨?_, table.gapless, ?_, table.once, ?_, ready.after_factorials, fun n => factorial_eq_self⟩
  · intro k x found
    obtain ⟨known, rfl⟩ := table.lookup_eq_some_iff.mp found
    have finite := table.le_maxFiniteFactorial known
    refine ⟨finite, rfl, fun places => ?_⟩
    rw [((sound_fresh places).factorial k).1, factorialOf, if_neg (Nat.not_lt.mpr finite)]
  · intro k small
    rw [table.mem_iff]
    constructor
    · rintro ⟨n, asked, -, rfl | leads⟩
      · exact asked
      · omega
    · intro asked
      refine ⟨k, asked, ?_, .inl rfl⟩
      unfold maxFiniteFactorial
      omega
  · intro later k x found
    have more := ready.tabulates_foldl table later
    rw [reached, List.foldl_append]
    exact table.lookup_of_append more found

example : (reached 8 [.factorial 3, .factorial 0, .factorial 171, .factorial 5] :
    Context Binary64).keys = [5, 4, 0, 3, 2] := rfl

end Context

end AlgebraEngine
