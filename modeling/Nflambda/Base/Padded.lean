import Mathlib.Data.List.Basic

/-!
# Rows with free places

Library `Base`. A row of fixed length that is filled from the front: its elements, followed by a
value that marks the places that are free.
-/

namespace Nflambda.Base

variable {α : Type} [DecidableEq α]

omit [DecidableEq α] in
/-- The first `n` elements, and free places up to the length `n`. -/
def padded (n : Nat) (free : α) (xs : List α) : List α :=
  xs.take n ++ List.replicate (n - xs.length) free

/-- The first free place receives an element. A row without one stays as it is. -/
def placeFirst (free : α) (row : List α) (a : α) : List α :=
  match row.idxOf? free with
  | some i => row.set i a
  | none => row

omit [DecidableEq α] in
@[simp] theorem length_padded (n : Nat) (free : α) (xs : List α) :
    (padded n free xs).length = n := by
  rw [padded, List.length_append, List.length_take, List.length_replicate]
  omega

omit [DecidableEq α] in
@[simp] theorem padded_nil (n : Nat) (free : α) : padded n free [] = List.replicate n free := by
  simp [padded]

omit [DecidableEq α] in
/-- A row that is full holds the first elements. -/
theorem padded_of_le {n : Nat} {free : α} {xs : List α} (h : n ≤ xs.length) :
    padded n free xs = xs.take n := by
  rw [padded, Nat.sub_eq_zero_of_le h, List.replicate_zero, List.append_nil]

omit [DecidableEq α] in
theorem padded_of_lt {n : Nat} {free : α} {xs : List α} (h : xs.length < n) :
    padded n free xs = xs ++ free :: List.replicate (n - xs.length - 1) free := by
  rw [padded, List.take_of_length_le (by omega), ← List.replicate_succ]
  congr 2
  omega

/-- The first free place comes right after the elements. -/
theorem idxOf?_padded {n : Nat} {free : α} {xs : List α} (hfree : free ∉ xs) :
    (padded n free xs).idxOf? free = if xs.length < n then some xs.length else none := by
  split
  · next h =>
    rw [padded_of_lt h, List.idxOf?_eq_some_iff]
    refine ⟨by simp, by simp, fun j hj heq ↦ ?_⟩
    rw [List.getElem_append_left hj] at heq
    exact hfree (heq ▸ List.getElem_mem hj)
  · next h =>
    rw [padded_of_le (by omega), List.idxOf?_eq_none_iff]
    exact fun hmem ↦ hfree (List.mem_of_mem_take hmem)

/-- An element that is placed follows the others, as long as there is room. -/
theorem placeFirst_padded {n : Nat} {free : α} {xs : List α} (hfree : free ∉ xs) (a : α) :
    placeFirst free (padded n free xs) a = padded n free (xs ++ [a]) := by
  unfold placeFirst
  rw [idxOf?_padded hfree]
  by_cases h : xs.length < n
  · rw [if_pos h]
    dsimp only
    rw [padded_of_lt h, List.set_append_right _ _ (Nat.le_refl _), Nat.sub_self, List.set_cons_zero,
      padded, List.take_of_length_le (by rw [List.length_append, List.length_singleton]; omega),
      List.append_assoc, List.singleton_append, List.length_append, List.length_singleton,
      Nat.sub_sub]
  · rw [if_neg h]
    dsimp only
    rw [padded_of_le (by omega),
      padded_of_le (by rw [List.length_append, List.length_singleton]; omega),
      List.take_append_of_le_length (by omega)]

/-- The elements of a row are the places that are not free. -/
theorem countP_padded {n : Nat} {free : α} {xs : List α} (hfree : free ∉ xs) :
    (padded n free xs).countP (fun a ↦ decide (a ≠ free)) = min n xs.length := by
  have htaken : (xs.take n).countP (fun a ↦ decide (a ≠ free)) = min n xs.length := by
    rw [List.countP_eq_length.mpr, List.length_take]
    intro a ha
    rw [decide_eq_true_eq]
    rintro rfl
    exact hfree (List.mem_of_mem_take ha)
  rw [padded, List.countP_append, htaken, List.countP_replicate]
  simp

/-- A row is full exactly when it has as many elements as places. -/
theorem mem_padded_iff {n : Nat} {free : α} {xs : List α} (hfree : free ∉ xs) :
    free ∈ padded n free xs ↔ xs.length < n := by
  rw [← List.isSome_idxOf?, idxOf?_padded hfree]
  split <;> simp_all

omit [DecidableEq α] in
theorem ofFn_update {n : Nat} (f : Fin n → α) (i : Fin n) (a : α) :
    List.ofFn (Function.update f i a) = (List.ofFn f).set i.val a := by
  refine List.ext_getElem (by simp) fun j h1 h2 ↦ ?_
  rw [List.getElem_ofFn, List.getElem_set, List.getElem_ofFn, Function.update_apply]
  simp only [Fin.ext_iff, eq_comm]

/-- The same, on a row that is a table. -/
def placeIn {n : Nat} (free : α) (row : Fin n → α) (a : α) : Fin n → α :=
  match (List.finRange n).find? fun i ↦ row i = free with
  | some i => Function.update row i a
  | none => row

theorem ofFn_placeIn {n : Nat} (free : α) (row : Fin n → α) (a : α) :
    List.ofFn (placeIn free row a) = placeFirst free (List.ofFn row) a := by
  unfold placeIn placeFirst
  cases hfind : (List.finRange n).find? fun i ↦ row i = free with
  | none =>
    have hnone : (List.ofFn row).idxOf? free = none := by
      rw [List.idxOf?_eq_none_iff, List.mem_ofFn]
      rintro ⟨i, hi⟩
      exact absurd hi (by simpa using List.find?_eq_none.mp hfind i (List.mem_finRange i))
    rw [hnone]
  | some i =>
    obtain ⟨hi, k, hk, hget, hbefore⟩ := List.find?_eq_some_iff_getElem.mp hfind
    have hik : k = i.val := by
      rw [← hget, List.getElem_finRange]
      rfl
    have hsome : (List.ofFn row).idxOf? free = some i.val := by
      rw [List.idxOf?_eq_some_iff]
      refine ⟨by simp, by simpa using hi, fun j hj ↦ ?_⟩
      simpa using hbefore j (by omega)
    rw [hsome]
    exact ofFn_update row i a

end Nflambda.Base
