import Mathlib.Algebra.BigOperators.Group.List.Basic
import Mathlib.Algebra.Ring.Nat
import Mathlib.Data.List.Basic

/-!
# Consecutive blocks of a list

Library `Base`. A list is cut into blocks of given lengths. Lengths are balanced when they add up
to a total and the first of them exceed the others by one.
-/

namespace Nflambda.Base

variable {α : Type}

/-- The blocks of the given lengths, from the front. -/
def blocks : List Nat → List α → List (List α)
  | [], _ => []
  | n :: sizes, l => l.take n :: blocks sizes (l.drop n)

@[simp] theorem length_blocks (sizes : List Nat) (l : List α) :
    (blocks sizes l).length = sizes.length := by
  induction sizes generalizing l with
  | nil => rfl
  | cons n sizes ih => simp [blocks, ih]

/-- The blocks together are the front of the list. -/
theorem flatten_blocks_append (sizes : List Nat) (l : List α) :
    (blocks sizes l).flatten ++ l.drop sizes.sum = l := by
  induction sizes generalizing l with
  | nil => rfl
  | cons n sizes ih =>
    rw [blocks, List.flatten_cons, List.append_assoc, List.sum_cons, ← List.drop_drop, ih,
      List.take_append_drop]

/-- Lengths that add up use the whole list. -/
theorem flatten_blocks {sizes : List Nat} {l : List α} (h : sizes.sum = l.length) :
    (blocks sizes l).flatten = l := by
  have hall := flatten_blocks_append sizes l
  rw [h, List.drop_length, List.append_nil] at hall
  exact hall

/-- Every block has its length. -/
theorem map_length_blocks {sizes : List Nat} {l : List α} (h : sizes.sum ≤ l.length) :
    (blocks sizes l).map List.length = sizes := by
  induction sizes generalizing l with
  | nil => rfl
  | cons n sizes ih =>
    rw [List.sum_cons] at h
    rw [blocks, List.map_cons, List.length_take, ih (by rw [List.length_drop]; omega)]
    congr 1
    omega

/-- The lengths of `k` blocks for `n` elements. -/
def balancedSizes (n k : Nat) : List Nat :=
  (List.range k).map fun i ↦ n / k + if i < n % k then 1 else 0

@[simp] theorem length_balancedSizes (n k : Nat) : (balancedSizes n k).length = k := by
  simp [balancedSizes]

private theorem sum_range_lt (q r k : Nat) :
    ((List.range k).map fun i ↦ q + if i < r then 1 else 0).sum = k * q + min k r := by
  induction k with
  | zero => simp
  | succ k ih =>
    rw [List.range_succ, List.map_append, List.sum_append, ih, Nat.succ_mul]
    simp only [List.map_cons, List.map_nil, List.sum_cons, List.sum_nil]
    split <;> omega

theorem sum_balancedSizes (n : Nat) {k : Nat} (h : 0 < k) : (balancedSizes n k).sum = n := by
  have hmod : n % k < k := Nat.mod_lt n h
  have hdiv := Nat.div_add_mod n k
  rw [balancedSizes, sum_range_lt]
  omega

/-- Earlier blocks are longer by at most one. -/
theorem pairwise_balancedSizes (n k : Nat) :
    (balancedSizes n k).Pairwise fun a b ↦ b ≤ a ∧ a ≤ b + 1 := by
  rw [balancedSizes, List.pairwise_map]
  apply List.pairwise_lt_range.imp
  intro i j hij
  split <;> split <;> omega

/-- Any two lengths differ by at most one. -/
theorem le_succ_of_mem_balancedSizes {n k a b : Nat} (ha : a ∈ balancedSizes n k)
    (hb : b ∈ balancedSizes n k) : a ≤ b + 1 := by
  obtain ⟨i, -, rfl⟩ := List.mem_map.mp ha
  obtain ⟨j, -, rfl⟩ := List.mem_map.mp hb
  split <;> split <;> omega

/-- No block is empty exactly when there are at least as many elements as blocks. -/
theorem balancedSizes_pos_iff {n k : Nat} (h : 0 < k) :
    (∀ size ∈ balancedSizes n k, 0 < size) ↔ k ≤ n := by
  rw [balancedSizes, List.forall_mem_map]
  simp only [List.mem_range]
  constructor
  · intro hall
    by_contra hlt
    have hlast := hall (k - 1) (by omega)
    rw [Nat.div_eq_of_lt (by omega), Nat.mod_eq_of_lt (by omega), if_neg (by omega)] at hlast
    omega
  · intro hle i _
    have hdiv : 0 < n / k := Nat.div_pos hle h
    omega

end Nflambda.Base
