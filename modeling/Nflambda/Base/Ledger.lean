import Mathlib.Algebra.BigOperators.Group.Finset.Basic
import Mathlib.Algebra.Order.BigOperators.Group.Finset
import Mathlib.Data.Fintype.BigOperators

/-!
# Ledgers: totals over finitely many places

Library `Base`. What a finite family of places holds is added up; rewriting one
place changes the total by that place alone.
-/

namespace Nflambda.Base

open Finset

variable {ι : Type*} [Fintype ι] [DecidableEq ι] {α : Type*}

/-- Two families that agree off one place differ in their totals by that place. -/
theorem sum_change (f f' : ι → Nat) (i : ι) (h : ∀ j, j ≠ i → f' j = f j) :
    (∑ j, f' j) + f i = (∑ j, f j) + f' i := by
  have hrest : ∑ j ∈ univ.erase i, f' j = ∑ j ∈ univ.erase i, f j := by
    apply sum_congr rfl
    intro j hj
    exact h j (ne_of_mem_erase hj)
  rw [← add_sum_erase univ f (mem_univ i), ← add_sum_erase univ f' (mem_univ i), hrest]
  omega

/-- Replacing what one place holds trades its old share of the total for the new one. -/
theorem sum_update_add (g : α → Nat) (f : ι → α) (i : ι) (x : α) :
    (∑ j, g (Function.update f i x j)) + g (f i) = (∑ j, g (f j)) + g x := by
  have h := sum_change (fun j ↦ g (f j)) (fun j ↦ g (Function.update f i x j)) i
    (fun j hj ↦ by rw [Function.update_of_ne hj])
  rwa [Function.update_self] at h

omit [DecidableEq ι] in
/-- One place holds no more than the total. -/
theorem le_total (f : ι → Nat) (i : ι) : f i ≤ ∑ j, f j :=
  single_le_sum (fun _ _ ↦ Nat.zero_le _) (mem_univ i)

/-- Two different places hold no more than the total. -/
theorem add_le_total (f : ι → Nat) {i j : ι} (h : i ≠ j) : f i + f j ≤ ∑ k, f k := by
  rw [← add_sum_erase univ f (mem_univ i)]
  have hm : j ∈ univ.erase i := mem_erase.mpr ⟨h.symm, mem_univ j⟩
  have hj : f j ≤ ∑ k ∈ univ.erase i, f k :=
    single_le_sum (f := f) (fun _ _ ↦ Nat.zero_le _) hm
  omega

end Nflambda.Base
