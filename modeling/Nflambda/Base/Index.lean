import Mathlib.Algebra.Order.Ring.Nat
import Mathlib.Logic.Function.Basic

/-!
# Checked table access

Library `Base`. Tables are functions on `Fin n`; an integer index is checked on
every access, and a loop over a range of positions stops at the first position
outside the table.
-/

namespace Nflambda.Base

universe u

variable {α : Type u} {n : Nat}

/-- The position an integer names in a table of `n` slots. -/
def idx? (n : Nat) (i : Int) : Option (Fin n) :=
  if h : 0 ≤ i ∧ i.toNat < n then some ⟨i.toNat, h.2⟩ else none

/-- Write one value at `count` consecutive positions from `i` on. -/
def fill? (a : Fin n → α) (v : α) : Int → Nat → Option (Fin n → α)
  | _, 0 => some a
  | i, count + 1 =>
    match idx? n i with
    | none => none
    | some j => fill? (Function.update a j v) v (i + 1) count

/-- The position an integer names in a Python list of length `n`: negative ones count from the
end. -/
def pyIdx? (n : Nat) (i : Int) : Option (Fin n) := idx? n (if i < 0 then i + n else i)

/-- A natural position inside the table is found. -/
@[simp] theorem idx?_natCast (i : Nat) (h : i < n) : idx? n (i : Int) = some ⟨i, h⟩ := by
  simp [idx?, h]

/-- Exactly the integers in range name a position, each its own. -/
theorem idx?_eq_some_iff {i : Int} {j : Fin n} : idx? n i = some j ↔ i = (j.val : Int) := by
  unfold idx?
  split
  · next h =>
    rw [Option.some.injEq, Fin.ext_iff]
    change i.toNat = j.val ↔ i = (j.val : Int)
    omega
  · next h =>
    refine ⟨fun he ↦ by simp at he, fun he ↦ ?_⟩
    exact absurd ⟨by omega, by omega⟩ h

/-- Integers outside the table name no position. -/
theorem idx?_eq_none_iff {i : Int} : idx? n i = none ↔ i < 0 ∨ (n : Int) ≤ i := by
  unfold idx?
  split
  · next h => simp; omega
  · next h => simp; omega

/-- A natural position is the same in Python. -/
@[simp] theorem pyIdx?_natCast (i : Nat) (h : i < n) : pyIdx? n (i : Int) = some ⟨i, h⟩ := by
  have hn : ¬ (i : Int) < 0 := by omega
  rw [pyIdx?, if_neg hn, idx?_natCast i h]

/-- The index `-1` names the last position of a Python list. -/
theorem pyIdx?_neg_one (h : 0 < n) : pyIdx? n (-1) = some ⟨n - 1, by omega⟩ := by
  rw [pyIdx?, if_pos (by decide), idx?_eq_some_iff]
  change (-1 : Int) + n = ((n - 1 : Nat) : Int)
  omega

/-- A range inside the table is filled, and nothing else changes. -/
theorem fill?_eq (a : Fin n → α) (v : α) (i count : Nat) (h : i + count ≤ n) :
    fill? a v (i : Int) count =
      some (fun j ↦ if i ≤ j.val ∧ j.val < i + count then v else a j) := by
  induction count generalizing a i with
  | zero =>
    rw [fill?, Option.some.injEq]
    funext j
    rw [if_neg (by omega)]
  | succ count ih =>
    have hi : i < n := by omega
    rw [fill?, idx?_natCast i hi]
    have hs : ((i : Int) + 1) = ((i + 1 : Nat) : Int) := by omega
    change fill? (Function.update a ⟨i, hi⟩ v) v ((i : Int) + 1) count = _
    rw [hs, ih _ (i + 1) (by omega), Option.some.injEq]
    funext j
    by_cases hj : j = ⟨i, hi⟩
    · subst hj
      rw [Function.update_self]
      simp
    · have hv : j.val ≠ i := fun he ↦ hj (Fin.ext he)
      rw [Function.update_of_ne hj]
      by_cases hr : i + 1 ≤ j.val ∧ j.val < i + 1 + count
      · rw [if_pos hr, if_pos (by omega)]
      · rw [if_neg hr, if_neg (by omega)]

/-- Filling no positions is always possible and changes nothing. -/
@[simp] theorem fill?_zero (a : Fin n → α) (v : α) (i : Int) : fill? a v i 0 = some a := rfl

/-- A range can be filled exactly if all of it is inside the table. -/
theorem fill?_isSome_iff (a : Fin n → α) (v : α) (i : Int) (count : Nat) :
    (fill? a v i count).isSome = true ↔ (0 < count → 0 ≤ i ∧ i + count ≤ n) := by
  induction count generalizing a i with
  | zero => exact iff_of_true rfl fun h ↦ absurd h (Nat.lt_irrefl 0)
  | succ count ih =>
    rw [fill?]
    cases hi : idx? n i with
    | none =>
      rw [idx?_eq_none_iff] at hi
      exact iff_of_false (by simp) fun h ↦ by omega
    | some j =>
      rw [idx?_eq_some_iff] at hi
      have hj := j.isLt
      exact (ih (Function.update a j v) (i + 1)).trans (by omega)

/-- A number below the bound is its own remainder. -/
theorem val_ofNat {n k : Nat} [NeZero n] (h : k < n) : (Fin.ofNat n k).val = k :=
  Nat.mod_eq_of_lt h

/-- The position of an element is within any bound of the length. -/
theorem lt_of_getElem? {l : List α} {i : Nat} {a : α} {n : Nat} (hl : l.length ≤ n)
    (h : l[i]? = some a) : i < n := by
  obtain ⟨hi, -⟩ := List.getElem?_eq_some_iff.mp h
  omega

end Nflambda.Base
