import Mathlib.Data.List.Basic
import Mathlib.Data.List.ProdSigma
import Nflambda.Base.LastWrite

/-!
# Copies of a list laid out one after the other

Library `Base`. A table of `n` copies of a list, where an entry depends on the
copy it is in: positions, and loops over pairs of entries of the same copy.
-/

namespace Nflambda.Base

universe u v w

variable {α : Type u} {β : Type v}

/-- Copy `0` of `l`, then copy `1`, and so on. -/
def grid (n : Nat) (l : List α) (f : Nat → α → β) : List β :=
  (List.range n).flatMap (fun e ↦ l.map (f e))

@[simp] theorem grid_zero (l : List α) (f : Nat → α → β) : grid 0 l f = [] := rfl

/-- One more copy comes at the end. -/
theorem grid_succ (n : Nat) (l : List α) (f : Nat → α → β) :
    grid (n + 1) l f = grid n l f ++ l.map (f n) := by
  simp [grid, List.range_succ]

/-- The length of the table. -/
@[simp] theorem length_grid (n : Nat) (l : List α) (f : Nat → α → β) :
    (grid n l f).length = n * l.length := by
  induction n with
  | zero => simp
  | succ n ih => rw [grid_succ, List.length_append, List.length_map, ih, Nat.succ_mul]

/-- Entries of the table are entries of the list in some copy. -/
theorem mem_grid {n : Nat} {l : List α} {f : Nat → α → β} {b : β} :
    b ∈ grid n l f ↔ ∃ e, e < n ∧ ∃ a ∈ l, f e a = b := by
  simp [grid]

/-- A table of copies of one element. -/
theorem grid_singleton (n : Nat) (a : α) (f : Nat → α → β) :
    grid n [a] f = (List.range n).map (fun e ↦ f e a) := by
  unfold grid
  rw [List.map_eq_flatMap]
  rfl

/-- Entries are selected in every copy alike. -/
theorem filter_grid {n : Nat} {l : List α} {f : Nat → α → β} {p : β → Bool} {q : α → Bool}
    (h : ∀ e a, p (f e a) = q a) : (grid n l f).filter p = grid n (l.filter q) f := by
  have hrow (e : Nat) : (l.map (f e)).filter p = (l.filter q).map (f e) := by
    rw [List.filter_map]
    apply congrArg (List.map (f e))
    apply List.filter_congr
    intro a _
    exact h e a
  unfold grid
  rw [List.filter_flatMap]
  simp only [hrow]

/-- How many entries are selected, if they are selected in every copy alike. -/
theorem countP_grid {n : Nat} {l : List α} {f : Nat → α → β} {p : β → Bool} {q : α → Bool}
    (h : ∀ e a, p (f e a) = q a) : (grid n l f).countP p = n * l.countP q := by
  rw [List.countP_eq_length_filter, filter_grid h, length_grid, List.countP_eq_length_filter]

/-- The first copies and a first part of the next one. -/
theorem take_grid {n e k : Nat} {l : List α} {f : Nat → α → β} (he : e < n) (hk : k ≤ l.length) :
    (grid n l f).take (e * l.length + k) = grid e l f ++ (l.take k).map (f e) := by
  induction n with
  | zero => omega
  | succ n ih =>
    rw [grid_succ]
    by_cases hn : e < n
    · have hle : e * l.length + k ≤ (grid n l f).length := by
        rw [length_grid]
        have hmul := Nat.mul_le_mul_right l.length hn
        rw [Nat.succ_mul] at hmul
        omega
      rw [List.take_append_of_le_length hle, ih hn]
    · have hen : e = n := by omega
      subst hen
      rw [← length_grid e l f, List.take_length_add_append, List.map_take]

/-- The entry at a position of a copy. -/
theorem getElem?_grid {n e i : Nat} {l : List α} {f : Nat → α → β} (he : e < n)
    (hi : i < l.length) : (grid n l f)[e * l.length + i]? = (l[i]?).map (f e) := by
  induction n with
  | zero => omega
  | succ n ih =>
    rw [grid_succ]
    by_cases hn : e < n
    · have hlt : e * l.length + i < (grid n l f).length := by
        rw [length_grid]
        have h1 : (e + 1) * l.length ≤ n * l.length := Nat.mul_le_mul_right _ hn
        rw [Nat.succ_mul] at h1
        omega
      rw [List.getElem?_append_left hlt, ih hn]
    · have hen : e = n := by omega
      subst hen
      rw [List.getElem?_append_right (by rw [length_grid]; omega), length_grid,
        Nat.add_sub_cancel_left, List.getElem?_map]

/-- Every position belongs to one copy. -/
theorem getElem?_grid_eq_some {n k : Nat} {l : List α} {f : Nat → α → β} {b : β}
    (h : (grid n l f)[k]? = some b) :
    ∃ e i a, e < n ∧ l[i]? = some a ∧ k = e * l.length + i ∧ b = f e a := by
  obtain ⟨hk, -⟩ := List.getElem?_eq_some_iff.mp h
  rw [length_grid] at hk
  have hl : 0 < l.length := by
    rcases Nat.eq_zero_or_pos l.length with h0 | h0
    · rw [h0] at hk
      omega
    · exact h0
  have he : k / l.length < n := (Nat.div_lt_iff_lt_mul hl).mpr hk
  have hi : k % l.length < l.length := Nat.mod_lt _ hl
  have hpos : k / l.length * l.length + k % l.length = k := Nat.div_add_mod' k l.length
  have hg := getElem?_grid (f := f) he hi
  rw [hpos, h] at hg
  cases ha : l[k % l.length]? with
  | none =>
    rw [ha] at hg
    cases hg
  | some a =>
    rw [ha, Option.map_some, Option.some.injEq] at hg
    exact ⟨_, _, a, he, ha, hpos.symm, hg⟩

/-- The entry at a position of a table that repeats every element `n` times in a row. -/
theorem getElem?_rows_eq_some {n k : Nat} {l : List α} {f : α → Nat → β} {b : β} :
    (l.flatMap fun a ↦ (List.range n).map (f a))[k]? = some b ↔
      ∃ p x a, l[p]? = some a ∧ x < n ∧ k = p * n + x ∧ b = f a x := by
  induction l generalizing k with
  | nil => simp
  | cons a l ih =>
    rw [List.flatMap_cons]
    by_cases hk : k < n
    · rw [List.getElem?_append_left (by simpa using hk), List.getElem?_map,
        List.getElem?_range hk, Option.map_some, Option.some.injEq]
      constructor
      · rintro rfl
        exact ⟨0, k, a, rfl, hk, by omega, rfl⟩
      · rintro ⟨p, x, a', ha', hx, hpos, rfl⟩
        cases p with
        | zero =>
          cases ha'
          rw [show k = x by omega]
        | succ p =>
          rw [Nat.succ_mul] at hpos
          omega
    · rw [List.getElem?_append_right (by simpa using hk), List.length_map, List.length_range, ih]
      constructor
      · rintro ⟨p, x, a', ha', hx, hpos, rfl⟩
        exact ⟨p + 1, x, a', ha', hx, by rw [Nat.succ_mul]; omega, rfl⟩
      · rintro ⟨p, x, a', ha', hx, hpos, rfl⟩
        cases p with
        | zero => omega
        | succ p =>
          rw [Nat.succ_mul] at hpos
          exact ⟨p, x, a', ha', hx, by omega, rfl⟩

/-- A position belongs to one copy only. -/
theorem pos_inj {m e e' i i' : Nat} (hi : i < m) (hi' : i' < m) :
    e * m + i = e' * m + i' ↔ e = e' ∧ i = i' := by
  constructor
  · intro h
    have hm : 0 < m := by omega
    have hdiv := congrArg (· / m) h
    have hmod := congrArg (· % m) h
    simp only [Nat.mul_comm _ m, Nat.mul_add_div hm, Nat.mul_add_mod,
      Nat.div_eq_of_lt hi, Nat.div_eq_of_lt hi', Nat.mod_eq_of_lt hi, Nat.mod_eq_of_lt hi']
      at hdiv hmod
    exact ⟨by omega, hmod⟩
  · rintro ⟨rfl, rfl⟩
    rfl

/-- Positions lie inside the table. -/
theorem pos_lt {n m e i : Nat} (he : e < n) (hi : i < m) : e * m + i < n * m := by
  have h := Nat.mul_le_mul_right m (show e + 1 ≤ n from he)
  rw [Nat.succ_mul] at h
  omega

/-- Applying functions to both elements of all pairs. -/
theorem map_product {δ : Type w} (f : α → β) (g : α → δ) (l m : List α) :
    (l ×ˢ m).map (Prod.map f g) = l.map f ×ˢ m.map g := by
  induction l with
  | nil => rfl
  | cons a l ih =>
    rw [List.map_cons, List.product_cons, List.product_cons, List.map_append, ih]
    simp [List.map_map, Function.comp_def]

/-- Numbering the entries of the table numbers the entries of every copy. -/
theorem zipIdx_grid (n : Nat) (l : List α) (f : Nat → α → β) :
    (grid n l f).zipIdx = grid n l.zipIdx (fun e p ↦ (f e p.1, e * l.length + p.2)) := by
  induction n with
  | zero => rfl
  | succ n ih =>
    rw [grid_succ, grid_succ, List.zipIdx_append, ih, length_grid, Nat.zero_add]
    congr 1
    apply List.ext_getElem?
    intro i
    simp only [List.getElem?_zipIdx, List.getElem?_map, Option.map_map]
    cases l[i]? with
    | none => rfl
    | some a => simp [Nat.add_comm]

/-- A loop over all pairs of entries that only looks at pairs of one copy goes through the pairs
of the list, copy by copy. -/
theorem filterMap_product_grid {γ : Type w} (n : Nat) (l : List α) (f : Nat → α → β)
    (write : β × β → Option γ)
    (h : ∀ e e' a b, e ≠ e' → write (f e a, f e' b) = none) :
    (grid n l f ×ˢ grid n l f).filterMap write =
      (List.range n).flatMap
        (fun e ↦ (l ×ˢ l).filterMap (fun p ↦ write (f e p.1, f e p.2))) := by
  have hrow (e : Nat) (he : e < n) (a : α) :
      ((grid n l f).map (fun b ↦ (f e a, b))).filterMap write =
        (l.map (fun b ↦ (a, b))).filterMap (fun p ↦ write (f e p.1, f e p.2)) := by
    rw [List.filterMap_map, List.filterMap_map]
    have hsplit : ∀ k, ((grid k l f).filterMap (fun b ↦ write (f e a, b))) =
        if e < k then l.filterMap (fun b ↦ write (f e a, f e b)) else [] := by
      intro k
      induction k with
      | zero => rfl
      | succ k ih =>
        rw [grid_succ, List.filterMap_append, ih, List.filterMap_map]
        by_cases hek : e = k
        · subst hek
          rw [if_neg (by omega), if_pos (by omega), List.nil_append]
          rfl
        · have hnil : l.filterMap ((fun b ↦ write (f e a, b)) ∘ f k) = [] := by
            rw [List.filterMap_eq_nil_iff]
            intro b _
            exact h e k a b hek
          rw [hnil, List.append_nil]
          by_cases hlt : e < k
          · rw [if_pos hlt, if_pos (by omega)]
          · rw [if_neg hlt, if_neg (by omega)]
    have hn := hsplit n
    rw [if_pos he] at hn
    exact hn
  have hprod {δ : Type v} (xs ys : List δ) :
      xs ×ˢ ys = xs.flatMap (fun a ↦ ys.map (fun b ↦ (a, b))) := rfl
  rw [hprod, List.filterMap_flatMap, grid, List.flatMap_assoc]
  apply List.flatMap_congr
  intro e he
  rw [List.mem_range] at he
  have hl : l ×ˢ l = l.flatMap (fun a ↦ l.map (fun b ↦ (a, b))) := rfl
  rw [hl, List.filterMap_flatMap, List.flatMap_map]
  apply List.flatMap_congr
  intro a _
  exact hrow e he a

/-- What such a loop writes last: the pairs of one copy decide if no other copy writes, or if it is
the last one and writes whenever another one does. -/
theorem lastWrite_product_grid {γ : Type w} {n e : Nat} (l : List α) (f : Nat → α → β)
    (write : β × β → Option γ) (hsame : ∀ e e' a b, e ≠ e' → write (f e a, f e' b) = none)
    (he : e < n)
    (h : ∀ e', e' < n → e' ≠ e →
      lastWrite (fun p ↦ write (f e' p.1, f e' p.2)) (l ×ˢ l) ≠ none →
        e + 1 = n ∧ lastWrite (fun p ↦ write (f e p.1, f e p.2)) (l ×ˢ l) ≠ none) :
    lastWrite write (grid n l f ×ˢ grid n l f) =
      lastWrite (fun p ↦ write (f e p.1, f e p.2)) (l ×ˢ l) := by
  have hblock (e : Nat) : lastWrite write ((l ×ˢ l).map (fun p ↦ (f e p.1, f e p.2))) =
      lastWrite (fun p ↦ write (f e p.1, f e p.2)) (l ×ˢ l) := lastWrite_comp write _ _
  have hloop : lastWrite write (grid n l f ×ˢ grid n l f) =
      lastWrite write ((List.range n).flatMap
        (fun e ↦ (l ×ˢ l).map (fun p ↦ (f e p.1, f e p.2)))) := by
    unfold lastWrite
    rw [filterMap_product_grid n l f write hsame, List.filterMap_flatMap]
    simp only [List.filterMap_map]
    rfl
  rw [hloop, lastWrite_blocks write _ he, hblock]
  intro e' he' hne hw
  rw [hblock] at hw
  rw [hblock]
  exact h e' he' hne hw

end Nflambda.Base
