import Mathlib.Data.List.Basic
import Mathlib.Data.List.Nodup
import AlgebraEngine.Proofs.Eval.Outcome

/-! The factorials that a context remembers, as a table. Asking for a factorial fills in the products
that lead to it from the largest one that is known, so from two on the table has no gaps: it holds
every number up to the largest that was ever asked for. Nothing is entered twice. -/
namespace AlgebraEngine

variable {ν : Type}

namespace Context

/-- The numbers whose factorials are remembered, latest first. -/
def keys (c : Context ν) : List Nat := c.factorials.map Prod.fst

variable {c c' : Context ν} {asked : List Nat} {k n : Nat}

theorem lookup_isSome_iff : (c.factorials.lookup k).isSome = true ↔ k ∈ c.keys := by
  rw [Option.isSome_iff_ne_none, Ne, List.lookup_eq_none_iff]
  simp only [keys, List.mem_map, bne_iff_ne]
  push Not
  simp only [eq_comm]

theorem lookup_eq_none : c.factorials.lookup k = none ↔ k ∉ c.keys := by
  rw [← lookup_isSome_iff, Option.not_isSome_iff_eq_none]

theorem keys_remember (c : Context ν) (n : Nat) (x : ν) :
    (c.remember n x).keys = if n ∈ c.keys then c.keys else n :: c.keys := by
  unfold remember
  split
  · rename_i found
    rw [if_pos (lookup_isSome_iff.mp (by simp [found]))]
  · rename_i missing
    rw [if_neg (lookup_eq_none.mp missing)]
    rfl

section Extending

variable [Analysis ν]

theorem keys_extend (c : Context ν) (count k : Nat) (x : ν) :
    (c.extend count k x).2.keys = (List.range' (k + 1) count).reverse ++ c.keys := by
  induction count generalizing c k x with
  | zero => rfl
  | succ count ih =>
    unfold extend
    rw [ih, List.range'_succ, List.reverse_cons, List.append_assoc]
    rfl

/-- Between the factorial that a computation starts from and its goal none is known. -/
theorem largestKnown_spec (c : Context ν) (n : Nat) :
    ((c.largestKnown n).1 = 1 ∨ (c.largestKnown n).1 ∈ c.keys) ∧
      1 ≤ (c.largestKnown n).1 ∧ (c.largestKnown n).1 ≤ max n 1 ∧
      ∀ k, (c.largestKnown n).1 < k → k ≤ n → k ∉ c.keys := by
  induction n with
  | zero => exact ⟨.inl rfl, by simp [largestKnown], by simp [largestKnown], by omega⟩
  | succ n ih =>
    unfold largestKnown
    cases found : c.factorials.lookup (n + 1) with
    | some x =>
      have known : n + 1 ∈ c.keys := lookup_isSome_iff.mp (by simp [found])
      exact ⟨.inr known, by simp, by simp, fun k above below => by simp at above; omega⟩
    | none =>
      obtain ⟨known, positive, bound, missing⟩ := ih
      refine ⟨known, positive, by dsimp only; omega, fun k above below => ?_⟩
      by_cases last : k = n + 1
      · subst last
        exact lookup_eq_none.mp found
      · exact missing k above (by omega)

end Extending

/-- Whether the factorial of `k` is remembered once that of `n` was asked for, which is too large or
leaves itself and all products above one that lead to it. -/
def Leaves (n k : Nat) : Prop := n ≤ maxFiniteFactorial ∧ (k = n ∨ 2 ≤ k ∧ k ≤ n)

/-- The memory of a context in which some factorials were asked for: products that lead to one of
them, each remembered once. -/
structure Tabulates [Analysis ν] (c : Context ν) (asked : List Nat) : Prop where
  sound : c.Sound
  once : c.keys.Nodup
  mem_iff : ∀ k, k ∈ c.keys ↔ ∃ n ∈ asked, Leaves n k

variable [Analysis ν]

theorem tabulates_fresh (precision : Nat) : Tabulates (fresh precision : Context ν) [] where
  sound := sound_fresh precision
  once := List.nodup_nil
  mem_iff := by simp [keys, fresh]

/-- Asking for a factorial that is known or too large changes nothing. -/
theorem factorial_eq_self (settled : n ∈ c.keys ∨ maxFiniteFactorial < n) :
    (c.factorial n).2 = c := by
  unfold factorial
  split
  · rfl
  · rename_i finite
    obtain ⟨x, found⟩ :=
      Option.isSome_iff_exists.mp (lookup_isSome_iff.mpr (settled.resolve_right finite))
    rw [found]

/-- Nothing leads to the factorials of zero and one, which are entered on their own. -/
theorem keys_factorial_small (small : n < 2) (missing : n ∉ c.keys) :
    (c.factorial n).2.keys = n :: c.keys := by
  have finite : ¬maxFiniteFactorial < n := by
    unfold maxFiniteFactorial
    omega
  have start : c.largestKnown (n - 1) = (1, Arithmetic.ofInt 1) := by
    rw [show n - 1 = 0 by omega]
    rfl
  simp only [factorial, if_neg finite, lookup_eq_none.mpr missing, start]
  rw [show n - 1 = 0 by omega, keys_remember]
  exact if_neg missing

namespace Tabulates

variable (table : c.Tabulates asked)
include table

theorem le_maxFiniteFactorial (known : k ∈ c.keys) : k ≤ maxFiniteFactorial := by
  obtain ⟨n, -, finite, leads⟩ := (table.mem_iff k).mp known
  omega

/-- A table is nothing but what is remembered. -/
theorem of_factorials (same : c'.factorials = c.factorials) : c'.Tabulates asked := by
  have keys : c'.keys = c.keys := congrArg (List.map Prod.fst) same
  refine ⟨?_, keys ▸ table.once, keys ▸ table.mem_iff⟩
  unfold Sound
  rw [same]
  exact table.sound

/-- What a factorial that is known leaves is known as well. -/
theorem mem_of_leaves (known : n ∈ c.keys) (leaves : Leaves n k) : k ∈ c.keys := by
  obtain ⟨m, member, finite, leads⟩ := (table.mem_iff n).mp known
  refine (table.mem_iff k).mpr ⟨m, member, finite, ?_⟩
  rcases leaves with ⟨-, rfl | leads'⟩ <;> omega

/-- A larger factorial is entered behind all those that lead to it and were not known yet. -/
theorem keys_factorial_large (large : 2 ≤ n) (finite : n ≤ maxFiniteFactorial)
    (missing : n ∉ c.keys) :
    ∃ k, 1 ≤ k ∧ k < n ∧ (∀ j, 2 ≤ j → (j ∈ c.keys ↔ j ≤ k)) ∧
      (c.factorial n).2.keys = (List.range' (k + 1) (n - k)).reverse ++ c.keys := by
  obtain ⟨known, positive, bound, between⟩ := c.largestKnown_spec (n - 1)
  refine ⟨(c.largestKnown (n - 1)).1, positive, by omega, fun j above => ⟨fun member => ?_, ?_⟩, ?_⟩
  · by_contra beyond
    by_cases inside : j ≤ n - 1
    · exact between j (by omega) inside member
    · have finite' := table.le_maxFiniteFactorial member
      exact missing (table.mem_of_leaves member ⟨finite', .inr ⟨large, by omega⟩⟩)
  · intro below
    rcases known with first | known
    · omega
    · exact table.mem_of_leaves known ⟨by omega, .inr ⟨above, below⟩⟩
  · simp only [factorial, if_neg (Nat.not_lt.mpr finite), lookup_eq_none.mpr missing]
    rw [keys_remember, keys_extend, if_pos]
    refine List.mem_append_left _ (List.mem_reverse.mpr (List.mem_range'_1.mpr ?_))
    omega

/-- What a memory has to hold to be the table for one more factorial. -/
theorem extended (sound : c'.Sound) (once : c'.keys.Nodup)
    (mem_iff : ∀ k, k ∈ c'.keys ↔ k ∈ c.keys ∨ Leaves n k) : c'.Tabulates (asked ++ [n]) := by
  refine ⟨sound, once, fun k => ?_⟩
  simp [mem_iff k, table.mem_iff, or_and_right, exists_or]

theorem factorial_settled (settled : n ∈ c.keys ∨ maxFiniteFactorial < n) :
    (c.factorial n).2.Tabulates (asked ++ [n]) := by
  rw [factorial_eq_self settled]
  refine table.extended table.sound table.once fun k => (or_iff_left_of_imp ?_).symm
  intro leaves
  exact table.mem_of_leaves (settled.resolve_right (Nat.not_lt.mpr leaves.1)) leaves

theorem factorial_small (small : n < 2) (missing : n ∉ c.keys) :
    (c.factorial n).2.Tabulates (asked ++ [n]) := by
  have keys := keys_factorial_small small missing
  refine table.extended (table.sound.factorial n).2 ?_ fun k => ?_
  · rw [keys, List.nodup_cons]
    exact ⟨missing, table.once⟩
  · rw [keys, List.mem_cons, or_comm]
    refine or_congr_right ⟨?_, ?_⟩
    · rintro rfl
      unfold Leaves maxFiniteFactorial
      omega
    · rintro ⟨-, same | leads⟩ <;> omega

/-- A large factorial enters what leads to it from the largest known one on. What leads to it and is
not entered was known before. -/
theorem factorial_large (large : 2 ≤ n) (finite : n ≤ maxFiniteFactorial)
    (missing : n ∉ c.keys) : (c.factorial n).2.Tabulates (asked ++ [n]) := by
  obtain ⟨j, positive, below, gapless, keys⟩ := table.keys_factorial_large large finite missing
  have entered_iff (k : Nat) : k ∈ (List.range' (j + 1) (n - j)).reverse ↔ j < k ∧ k ≤ n := by
    rw [List.mem_reverse, List.mem_range'_1]
    omega
  refine table.extended (table.sound.factorial n).2 ?_ fun k => ?_
  · rw [keys, List.nodup_append]
    refine ⟨List.nodup_reverse.mpr (List.nodup_range' 1), table.once, ?_⟩
    rintro k entered _ known rfl
    have above := (entered_iff k).mp entered
    have within := (gapless k (by omega)).mp known
    omega
  · rw [keys, List.mem_append, entered_iff, or_comm]
    constructor
    · rintro (known | entered)
      · exact .inl known
      · exact .inr ⟨finite, .inr (by omega)⟩
    · rintro (known | ⟨-, leads⟩)
      · exact .inl known
      · by_cases beyond : j < k
        · exact .inr (by omega)
        · exact .inl ((gapless k (by omega)).mpr (Nat.not_lt.mp beyond))

/-- Asking for one more factorial. -/
theorem factorial (n : Nat) : (c.factorial n).2.Tabulates (asked ++ [n]) := by
  by_cases settled : n ∈ c.keys ∨ maxFiniteFactorial < n
  · exact table.factorial_settled settled
  · obtain ⟨missing, finite⟩ := not_or.mp settled
    by_cases small : n < 2
    · exact table.factorial_small small missing
    · exact table.factorial_large (Nat.not_lt.mp small) (Nat.not_lt.mp finite) missing

/-- From two on nothing is missing below the largest number that is known. -/
theorem gapless : ∃ m, ∀ k, 2 ≤ k → (k ∈ c.keys ↔ k ≤ m) := by
  simp only [table.mem_iff]
  clear table
  induction asked with
  | nil => exact ⟨0, fun k above => ⟨by simp, by omega⟩⟩
  | cons n asked ih =>
    obtain ⟨m, rest⟩ := ih
    refine ⟨if n ≤ maxFiniteFactorial then max n m else m, fun k above => ?_⟩
    rw [List.exists_mem_cons_iff, rest k above, Leaves]
    split <;> omega

/-- What is remembered is the product that it stands for. -/
theorem lookup_eq_some_iff {x : ν} :
    c.factorials.lookup k = some x ↔ k ∈ c.keys ∧ x = product k := by
  constructor
  · intro found
    exact ⟨lookup_isSome_iff.mp (by simp [found]), table.sound k x found⟩
  · rintro ⟨known, rfl⟩
    obtain ⟨x, found⟩ := Option.isSome_iff_exists.mp (lookup_isSome_iff.mpr known)
    rw [found, table.sound k x found]

/-- A table that was asked for more has lost nothing. -/
theorem lookup_of_append {more : List Nat} {x : ν} (later : c'.Tabulates (asked ++ more))
    (found : c.factorials.lookup k = some x) : c'.factorials.lookup k = some x := by
  rw [table.lookup_eq_some_iff, table.mem_iff] at found
  obtain ⟨⟨n, member, leaves⟩, same⟩ := found
  rw [later.lookup_eq_some_iff, later.mem_iff]
  exact ⟨⟨n, List.mem_append_left _ member, leaves⟩, same⟩

end Tabulates

/-- The context that asking for factorials leaves behind, one after the other. -/
def asking (c : Context ν) (numbers : List Nat) : Context ν :=
  numbers.foldl (fun c n => (c.factorial n).2) c

theorem asking_append (c : Context ν) (first second : List Nat) :
    c.asking (first ++ second) = (c.asking first).asking second :=
  List.foldl_append

theorem Tabulates.asking (table : c.Tabulates asked) (numbers : List Nat) :
    (c.asking numbers).Tabulates (asked ++ numbers) := by
  induction numbers generalizing c asked with
  | nil =>
    rw [List.append_nil]
    exact table
  | cons n numbers ih =>
    rw [List.append_cons]
    exact ih (table.factorial n)

end Context

end AlgebraEngine
