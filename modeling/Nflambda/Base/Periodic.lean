import Mathlib.Data.Int.CardIntervalMod
import Mathlib.Data.Nat.Count

/-!
# Counts in a periodic sequence

Library `Base`. How often something happens among the first members of a
sequence that passes through the residues of a number in turn: exactly the same
number of times in each period, and almost equally often for any two residues.
-/

namespace Nflambda.Base

/-- A count depends only on the members that are counted. -/
theorem count_congr {p q : Nat → Prop} [DecidablePred p] [DecidablePred q] {n : Nat}
    (h : ∀ k, k < n → (p k ↔ q k)) : Nat.count p n = Nat.count q n := by
  rw [Nat.count, Nat.count]
  refine List.countP_congr fun k hk ↦ ?_
  simp only [decide_eq_true_eq]
  exact h k (List.mem_range.mp hk)

/-- Every period contributes the same count. -/
theorem count_mod_mul (p : Nat → Prop) [DecidablePred p] (n m : Nat) :
    Nat.count (fun k ↦ p (k % n)) (m * n) = m * Nat.count p n := by
  induction m with
  | zero => simp
  | succ m ih =>
    have hlast : Nat.count (fun k ↦ p ((m * n + k) % n)) n = Nat.count p n := by
      refine count_congr fun k hk ↦ ?_
      rw [Nat.mul_add_mod_self_right, Nat.mod_eq_of_lt hk]
    rw [Nat.succ_mul, Nat.count_add, ih, hlast, Nat.succ_mul]

/-- One number below `n` is `r`. -/
theorem count_eq_of_lt {n r : Nat} (h : r < n) : Nat.count (· = r) n = 1 := by
  rw [Nat.count_eq_card_filter_range]
  have hsingle : (Finset.range n).filter (· = r) = {r} := by
    ext k
    simp only [Finset.mem_filter, Finset.mem_range, Finset.mem_singleton]
    omega
  rw [hsingle, Finset.card_singleton]

/-- All the other numbers below `n` are not `r`. -/
theorem count_ne_of_lt {n r : Nat} (h : r < n) : Nat.count (· ≠ r) n = n - 1 := by
  have hsum : Nat.count (· = r) n + Nat.count (· ≠ r) n = n := by
    rw [Nat.count, Nat.count, ← List.length_range (n := n)]
    have hsplit := (List.range n).length_eq_countP_add_countP (p := (decide <| · = r))
    simpa using hsplit.symm
  rw [count_eq_of_lt h] at hsum
  omega

/-- In a sequence that starts anywhere and passes through the residues in turn, a residue comes
up as often as complete periods fit in, or once more. -/
theorem count_residue {n : Nat} (start r k : Nat) (h : r < n) :
    k / n ≤ Nat.count (fun i ↦ (start + i) % n = r) k ∧
      Nat.count (fun i ↦ (start + i) % n = r) k ≤ k / n + 1 := by
  have hn : 0 < n := Nat.lt_of_le_of_lt (Nat.zero_le r) h
  have hcongr : Nat.count (fun i ↦ (start + i) % n = r) k =
      Nat.count (· ≡ r + (n - start % n) [MOD n]) k := by
    refine count_congr fun i _ ↦ ?_
    have hlt := Nat.mod_lt start hn
    have hshift : (start + i) % n = r ↔ start + i ≡ start + (r + (n - start % n)) [MOD n] := by
      have hdiv := Nat.div_add_mod start n
      have hround : start + (r + (n - start % n)) = r + n * (start / n + 1) := by
        rw [Nat.mul_succ]
        omega
      rw [hround, Nat.ModEq, Nat.add_mul_mod_self_left, Nat.mod_eq_of_lt h]
    rw [hshift]
    exact ⟨Nat.ModEq.add_left_cancel' start, Nat.ModEq.add_left start⟩
  rw [hcongr, Nat.count_modEq_card k hn]
  split <;> omega

private theorem le_of_residues {a b n m : Nat} (hn : 0 < n) (hm : 0 < m)
    (h : ∀ i, (a + i) % n = (b + i) % m) : m ≤ n := by
  by_contra hlt
  -- the second sequence comes to `n`, which is no residue of the first
  have hb := Nat.mod_lt b hm
  have hround : b + (m - b % m + n) = n + m * (b / m + 1) := by
    have hdiv := Nat.div_add_mod b m
    rw [Nat.mul_succ]
    omega
  have hi := h (m - b % m + n)
  rw [hround, Nat.add_mul_mod_self_left, Nat.mod_eq_of_lt (Nat.not_le.mp hlt)] at hi
  have hlt' := Nat.mod_lt (a + (m - b % m + n)) hn
  omega

/-- Two sequences that pass through the residues of two numbers agree only if the numbers do. -/
theorem eq_of_residues {a b n m : Nat} (hn : 0 < n) (hm : 0 < m)
    (h : ∀ i, (a + i) % n = (b + i) % m) : n = m :=
  Nat.le_antisymm (le_of_residues hm hn fun i ↦ (h i).symm) (le_of_residues hn hm h)

end Nflambda.Base
