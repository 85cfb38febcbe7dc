import AlgebraEngine.Proofs.Eval.Level

/-! Evaluation without a context. A context carries factorials from one evaluation to the next and
counts levels, but as long as every factorial it remembers is the product it stands for, neither
has a part in what an evaluation ends with: that is the outcome of the expression at the precision
of the context. -/
namespace AlgebraEngine

variable {ν : Type} [Analysis ν]

namespace Context

/-- The product of the numbers from one to `n`, from left to right. -/
def product : Nat → ν
  | 0 => Arithmetic.ofInt 1
  | 1 => Arithmetic.ofInt 1
  | n + 2 => product (n + 1) * Arithmetic.ofInt (n + 2 : Nat)

/-- The factorial that every context gives a number. -/
def factorialOf (n : Nat) : ν := if maxFiniteFactorial < n then Analysis.infinity else product n

end Context

namespace Func

/-- What the factorial of a number ends with. -/
def factorialOutcome (x : ν) : Except (EvalError ν) (Value ν) :=
  match Arithmetic.toInt? x with
  | none => .error (.nonIntegerFactorial x)
  | some n =>
    if n < 0 then .error (.negativeFactorial x) else .ok (.scalar (Context.factorialOf n.toNat))

/-- What a function of a scalar ends with. -/
def outcome (precision : Nat) (f : Func) (x : ν) : Except (EvalError ν) (Value ν) :=
  match (f.real? : Option (ν → ν)) with
  | some g => .ok (.scalar (Analysis.round precision (g x)))
  | none => factorialOutcome x

end Func

namespace Expr

mutual

/-- What the evaluation of an expression ends with, whatever context it runs in. -/
def outcome (precision : Nat) : Expr ν → Except (EvalError ν) (Value ν)
  | number x => .ok (.scalar (Analysis.round precision x))
  | atom (.var name) => .ok (.symbolic name)
  | atom (.const constant) => .ok (.scalar (Analysis.round precision constant.value))
  | binary t o l r => do
    let left ← l.outcome precision
    let right ← r.outcome precision
    if left.isSymbolic || right.isSymbolic then .ok (.symbolic (binary t o l r).text)
    else Value.binary o left right
  | unary t o u => do
    let operand ← u.outcome precision
    if operand.isSymbolic then .ok (.symbolic (unary t o u).text) else .ok (operand.unary o)
  | call _ .vector us => do
    let xs ← outcomes precision us
    .ok (.vector xs)
  | call t f [u] => do
    match ← u.outcome precision with
    | .scalar x => f.outcome precision x
    | .symbolic _ => .ok (.symbolic (call t f [u]).text)
    | .vector _ => .error (.invalidArgument f .vector)
  | call _ f us => .error (.argumentCount f us.length)
  | equality _ _ l r => do
    let left ← l.outcome precision
    let right ← r.outcome precision
    .ok (.symbolic (left.text ++ " = " ++ right.text))

/-- What the evaluation of the components of a vector ends with. -/
def outcomes (precision : Nat) : List (Expr ν) → Except (EvalError ν) (List ν)
  | [] => .ok []
  | u :: us => do
    match ← u.outcome precision with
    | .scalar x => do
      let xs ← outcomes precision us
      .ok (x :: xs)
    | value => .error (.invalidComponent value.type)

end

end Expr

/-! ## What contexts remember -/

namespace Context

variable {c : Context ν}

/-- Every factorial a context remembers is the product it stands for. -/
def Sound (c : Context ν) : Prop := ∀ n x, c.factorials.lookup n = some x → x = product n

theorem sound_fresh (precision : Nat) : Sound (fresh precision : Context ν) := by
  intro n x found
  cases found

theorem Sound.insert (sound : c.Sound) (n : Nat) :
    Sound { c with factorials := (n, product n) :: c.factorials } := by
  intro k x found
  by_cases same : k = n
  · subst same
    simpa using found.symm
  · have different : (k == n) = false := beq_false_of_ne same
    rw [List.lookup_cons, different] at found
    exact sound k x found

theorem product_succ {k : Nat} (positive : 0 < k) :
    (product (k + 1) : ν) = product k * Arithmetic.ofInt (k + 1 : Nat) := by
  cases k with
  | zero => cases positive
  | succ k => rfl

/-- The known factorial that a computation starts from is that of a number in its range. -/
theorem Sound.largestKnown (sound : c.Sound) (n : Nat) :
    ∃ k, 0 < k ∧ k ≤ max n 1 ∧ c.largestKnown n = (k, product k) := by
  induction n with
  | zero => exact ⟨1, by omega, by omega, rfl⟩
  | succ n ih =>
    unfold Context.largestKnown
    cases found : c.factorials.lookup (n + 1) with
    | none =>
      obtain ⟨k, positive, below, known⟩ := ih
      exact ⟨k, positive, by omega, known⟩
    | some x => exact ⟨n + 1, by omega, by omega, by rw [sound _ _ found]⟩

/-- Multiplying up the product of the first `k` numbers gives the product of more of them, and
remembers products only. -/
theorem Sound.extend (sound : c.Sound) {k : Nat} (positive : 0 < k) (count : Nat) :
    (c.extend count k (product k)).1 = product (k + count) ∧
      (c.extend count k (product k)).2.Sound := by
  induction count generalizing c k with
  | zero => exact ⟨rfl, sound⟩
  | succ count ih =>
    have next := ih (sound.insert (k + 1)) (Nat.succ_pos k)
    rw [product_succ positive] at next
    rw [← Nat.add_assoc, Nat.add_right_comm]
    exact next

theorem Sound.remember (sound : c.Sound) (n : Nat) : (c.remember n (product n)).Sound := by
  unfold Context.remember
  split
  · exact sound
  · exact sound.insert n

theorem precision_extend (c : Context ν) (count k : Nat) (x : ν) :
    (c.extend count k x).2.precision = c.precision := by
  induction count generalizing c k x with
  | zero => rfl
  | succ count ih => exact ih _ _ _

omit [Analysis ν] in
theorem precision_remember (c : Context ν) (n : Nat) (x : ν) :
    (c.remember n x).precision = c.precision := by
  unfold remember
  split <;> rfl

theorem precision_factorial (c : Context ν) (n : Nat) :
    (c.factorial n).2.precision = c.precision := by
  unfold factorial
  split
  · rfl
  · split
    · rfl
    · rw [precision_remember, precision_extend]

/-- A context whose memory is sound gives every number its factorial, and its memory stays sound.
The product of no numbers is computed as that of the first one. -/
theorem Sound.factorial (sound : c.Sound) (n : Nat) :
    (c.factorial n).1 = factorialOf n ∧ (c.factorial n).2.Sound := by
  unfold Context.factorial factorialOf
  split
  · exact ⟨rfl, sound⟩
  · split
    · rename_i x found
      exact ⟨sound n x found, sound⟩
    · obtain ⟨k, positive, below, known⟩ := sound.largestKnown (n - 1)
      obtain ⟨reached, kept⟩ := sound.extend positive (n - k)
      have total : (product (k + (n - k)) : ν) = product n := by
        match n with
        | 0 =>
          obtain rfl : k = 1 := by omega
          rfl
        | n + 1 =>
          congr 1
          omega
      rw [known]
      dsimp only
      rw [reached, total]
      exact ⟨rfl, kept.remember n⟩

/-- A later state of a context: the memory is still sound, precision and level are the same. -/
structure Continues (c c' : Context ν) : Prop where
  sound : c'.Sound
  precision : c'.precision = c.precision
  level : c'.level = c.level

theorem Continues.trans {c' c'' : Context ν} (first : c.Continues c') (second : c'.Continues c'') :
    c.Continues c'' :=
  ⟨second.sound, second.precision.trans first.precision, second.level.trans first.level⟩

theorem Sound.continues (sound : c.Sound) : c.Continues c := ⟨sound, rfl, rfl⟩

end Context

/-! ## Computations that settle -/

namespace Eval

open Context

variable {α β : Type}

/-- What a computation ends with in a context, and the context it leaves behind. -/
def ends (body : Eval ν α) (c : Context ν) : Except (EvalError ν) α × Context ν :=
  match body c with
  | .ok value c' => (.ok value, c')
  | .error error c' => (.error error, c')

/-- Below a node, in every context whose memory is sound, a computation ends with a result that
only depends on the precision, and the context it leaves behind continues the one it started in. -/
def Settles (body : Eval ν α) (result : Nat → Except (EvalError ν) α) : Prop :=
  ∀ c : Context ν, c.Sound → 0 < c.level →
    (body.ends c).1 = result c.precision ∧ c.Continues (body.ends c).2

theorem settles_pure (value : α) : Settles (pure value : Eval ν α) fun _ => .ok value :=
  fun _ sound _ => ⟨rfl, sound.continues⟩

theorem settles_throw (error : EvalError ν) :
    Settles (throw error : Eval ν α) fun _ => .error error :=
  fun _ sound _ => ⟨rfl, sound.continues⟩

theorem Settles.bind {body : Eval ν α} {next : α → Eval ν β}
    {result : Nat → Except (EvalError ν) α} {rest : α → Nat → Except (EvalError ν) β}
    (first : Settles body result) (second : ∀ value, Settles (next value) (rest value)) :
    Settles (body >>= next) fun precision =>
      (result precision).bind fun value => rest value precision := by
  intro c sound below
  obtain ⟨here, continues⟩ := first c sound below
  unfold ends at here continues ⊢
  simp only [Bind.bind, EStateM.bind]
  cases run : body c with
  | ok value c' =>
    simp only [run] at here continues ⊢
    obtain ⟨there, further⟩ := second value c' continues.sound (continues.level ▸ below)
    rw [← here, ← continues.precision]
    exact ⟨there, continues.trans further⟩
  | error error c' =>
    simp only [run] at here continues ⊢
    rw [← here]
    exact ⟨rfl, continues⟩

omit [Analysis ν] in
theorem ends_inside {e : Expr ν} {body : Eval ν (Value ν)} {c : Context ν}
    (enters : (if c.level = 0 then checkDepth e else .ok ()) = .ok ()) :
    (inside e body).ends c = 
      let (result, c') := body.ends { c with level := c.level + 1 }
      (result, { c' with level := c'.level - 1 }) := by
  unfold ends inside
  rw [enters]
  dsimp only
  cases body { c with level := c.level + 1 } <;> rfl

theorem Settles.inside {body : Eval ν (Value ν)} {result : Nat → Except (EvalError ν) (Value ν)}
    (settles : Settles body result) (e : Expr ν) : Settles (inside e body) result := by
  intro c sound below
  obtain ⟨here, continues⟩ := settles { c with level := c.level + 1 } sound (Nat.succ_pos _)
  rw [ends_inside (if_neg (Nat.pos_iff_ne_zero.mp below))]
  exact ⟨here, continues.sound, continues.precision, Nat.sub_eq_of_eq_add continues.level⟩

theorem settles_rounded (x : ν) :
    Settles (rounded x) fun precision => .ok (.scalar (Analysis.round precision x)) :=
  fun _ sound _ => ⟨rfl, sound.continues⟩

theorem settles_factorial (x : ν) :
    Settles (Eval.factorial x) fun _ => Func.factorialOutcome x := by
  unfold Eval.factorial Func.factorialOutcome
  cases Arithmetic.toInt? x with
  | none => exact settles_throw _
  | some n =>
    intro c sound _
    by_cases negative : n < 0
    · simp only [if_pos negative]
      exact ⟨rfl, sound.continues⟩
    · obtain ⟨value, kept⟩ := sound.factorial n.toNat
      simp only [if_neg negative]
      refine ⟨congrArg (Except.ok ∘ Value.scalar) value, kept, ?_, level_factorial c _⟩
      exact precision_factorial c _

theorem settles_applied (f : Func) (x : ν) :
    Settles (applied f x) fun precision => f.outcome precision x := by
  unfold applied Func.outcome
  cases (f.real? : Option (ν → ν)) with
  | some g => exact settles_rounded _
  | none => exact settles_factorial x

end Eval

open Eval Context

namespace Expr

theorem evalComponents_settles {us : List (Expr ν)}
    (each : ∀ u ∈ us, Settles u.eval (outcome · u)) :
    Settles (evalComponents us) (outcomes · us) := by
  induction us with
  | nil => exact settles_pure []
  | cons u us ih =>
    have behind := ih fun v member => each v (List.mem_cons_of_mem _ member)
    simp only [evalComponents, outcomes]
    refine (each u (by simp)).bind fun value => ?_
    cases value with
    | scalar x => exact behind.bind fun xs => settles_pure _
    | vector xs => exact settles_throw _
    | symbolic text => exact settles_throw _

/-- An expression is evaluated inside itself, and there it settles to its outcome. -/
theorem eval_settled (e : Expr ν) :
    ∃ body, e.eval = inside e body ∧ Settles body (outcome · e) := by
  have settles {u : Expr ν}
      (evaluated : ∃ body, u.eval = inside u body ∧ Settles body (outcome · u)) :
      Settles u.eval (outcome · u) := by
    obtain ⟨body, same, settles⟩ := evaluated
    exact same ▸ settles.inside u
  induction e with
  | number x => exact ⟨_, by rw [eval], by simpa only [outcome] using settles_rounded x⟩
  | atom a =>
    cases a with
    | var name =>
      exact ⟨_, by rw [eval]; rfl, by simpa only [outcome] using settles_pure (Value.symbolic name)⟩
    | const constant =>
      exact ⟨_, by rw [eval]; rfl, by simpa only [outcome] using settles_rounded constant.value⟩
  | binary t o l r left right =>
    refine ⟨_, by rw [eval], ?_⟩
    simp only [outcome]
    refine (settles left).bind fun x => (settles right).bind fun y => ?_
    split
    · exact settles_pure _
    · cases Value.binary o x y with
      | ok value => exact settles_pure value
      | error error => exact settles_throw error
  | unary t o u inner =>
    refine ⟨_, by rw [eval], ?_⟩
    simp only [outcome]
    refine (settles inner).bind fun x => ?_
    split
    · exact settles_pure _
    · exact settles_pure _
  | call t f us inner =>
    by_cases vector : f = .vector
    · subst vector
      refine ⟨_, by rw [eval], ?_⟩
      simp only [outcome]
      exact (evalComponents_settles fun u member => settles (inner u member)).bind
        fun _ => settles_pure _
    · rcases us with - | ⟨u, - | ⟨v, us⟩⟩
      · refine ⟨_, by rw [eval] <;> simp [vector], ?_⟩
        simp only [outcome]
        exact settles_throw _
      · refine ⟨_, by rw [eval]; exact vector, ?_⟩
        simp only [outcome]
        refine (settles (inner u (by simp))).bind fun value => ?_
        cases value with
        | scalar x => exact settles_applied f x
        | vector xs => exact settles_throw _
        | symbolic text => exact settles_pure _
      · refine ⟨_, by rw [eval] <;> simp [vector], ?_⟩
        simp only [outcome]
        exact settles_throw _
  | equality t side l r left right =>
    refine ⟨_, by rw [eval], ?_⟩
    simp only [outcome]
    exact (settles left).bind fun x => (settles right).bind fun y => settles_pure _

/-- An evaluation ends with the refusal of an expression that is too deep, and otherwise with the
outcome of the expression, whatever the context remembers. -/
theorem eval_ends (e : Expr ν) {c : Context ν} (sound : c.Sound) (outside : c.level = 0) :
    (e.eval.ends c).1 = (match checkDepth e with
      | .error tooDeep => .error (.tooDeep tooDeep)
      | .ok () => e.outcome c.precision) ∧ c.Continues (e.eval.ends c).2 := by
  obtain ⟨body, evaluated, settles⟩ := eval_settled e
  rw [evaluated]
  cases check : checkDepth e with
  | error tooDeep =>
    simp only [ends, Eval.inside, if_pos outside, check]
    exact ⟨trivial, sound.continues⟩
  | ok _ =>
    obtain ⟨here, continues⟩ := settles { c with level := c.level + 1 } sound (Nat.succ_pos _)
    rw [ends_inside (by rw [if_pos outside, check])]
    exact ⟨here, continues.sound, continues.precision, Nat.sub_eq_of_eq_add continues.level⟩

/-- The value of a tree that is shallow enough is its outcome. -/
theorem value_eq_outcome {precision : Nat} {e : Expr ν} (shallow : e.depth ≤ maxDepth) :
    e.value precision = e.outcome precision := by
  have value : e.value precision = (e.eval.ends (.fresh precision)).1 := by
    unfold Expr.value ends EStateM.run
    cases e.eval (.fresh precision) <;> rfl
  rw [value, (e.eval_ends (sound_fresh precision) rfl).1, checkDepth_eq_ok_iff.mpr shallow]
  rfl

end Expr

end AlgebraEngine
