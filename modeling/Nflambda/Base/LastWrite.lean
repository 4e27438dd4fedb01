import Mathlib.Data.List.Basic

/-!
# The last write wins

Library `Base`. A loop that writes places of a state one after the other leaves
in each place what was written there last, or what was there before.
-/

namespace Nflambda.Base

universe u v w

variable {σ : Type u} {α : Type v} {V : Type w}

/-- What the last element that writes a place writes. -/
def lastWrite (write : α → Option V) (l : List α) : Option V := (l.filterMap write).getLast?

/-- Nothing is written by no elements. -/
@[simp] theorem lastWrite_nil (write : α → Option V) : lastWrite write [] = none := rfl

/-- A later write takes precedence. -/
theorem lastWrite_append (write : α → Option V) (l m : List α) :
    lastWrite write (l ++ m) = (lastWrite write m).or (lastWrite write l) := by
  unfold lastWrite
  rw [List.filterMap_append, List.getLast?_append]

/-- The first element is only asked if no other one writes. -/
theorem lastWrite_cons (write : α → Option V) (a : α) (l : List α) :
    lastWrite write (a :: l) = (lastWrite write l).or (write a) := by
  have h := lastWrite_append write [a] l
  have hone : lastWrite write [a] = write a := by
    cases hw : write a <;> simp [lastWrite, hw]
  rwa [hone] at h

/-- One more element writes last. -/
theorem lastWrite_snoc (write : α → Option V) (l : List α) (a : α) :
    lastWrite write (l ++ [a]) = (write a).or (lastWrite write l) := by
  rw [lastWrite_append, lastWrite_cons, lastWrite_nil, Option.none_or]

/-- Elements that do not write a place do not matter. -/
theorem lastWrite_eq_none_iff (write : α → Option V) (l : List α) :
    lastWrite write l = none ↔ ∀ a ∈ l, write a = none := by
  unfold lastWrite
  rw [List.getLast?_eq_none_iff, List.filterMap_eq_nil_iff]

/-- The last write is one of the writes. -/
theorem exists_of_lastWrite_eq_some {write : α → Option V} {l : List α} {v : V}
    (h : lastWrite write l = some v) : ∃ a ∈ l, write a = some v := by
  obtain ⟨a, ha, hv⟩ := List.mem_filterMap.mp (List.mem_of_getLast? h)
  exact ⟨a, ha, hv⟩

/-- Writing images of values leaves the image of the last value. -/
theorem lastWrite_map {U : Type w} (φ : V → U) (write : α → Option V) (l : List α) :
    lastWrite (fun a ↦ (write a).map φ) l = (lastWrite write l).map φ := by
  induction l with
  | nil => rfl
  | cons a l ih =>
    rw [lastWrite_cons, lastWrite_cons, ih]
    cases lastWrite write l <;> rfl

/-- Renaming the elements of a list. -/
theorem lastWrite_comp {β : Type*} (write : β → Option V) (f : α → β) (l : List α) :
    lastWrite write (l.map f) = lastWrite (write ∘ f) l := by
  unfold lastWrite
  rw [List.filterMap_map]

/-- Only the values that are written matter. -/
theorem lastWrite_congr {write write' : α → Option V} {l : List α}
    (h : ∀ a ∈ l, write a = write' a) : lastWrite write l = lastWrite write' l := by
  unfold lastWrite
  rw [List.filterMap_congr h]

/-- If all writes to a place agree, the last one is that value. -/
theorem lastWrite_eq {write : α → Option V} {l : List α} {o : Option V}
    (hall : ∀ b ∈ l, ∀ u, write b = some u → o = some u)
    (hsome : ∀ u, o = some u → ∃ b ∈ l, write b = some u) : lastWrite write l = o := by
  cases h : lastWrite write l with
  | none =>
    rw [lastWrite_eq_none_iff] at h
    cases o with
    | none => rfl
    | some u =>
      obtain ⟨b, hb, hu⟩ := hsome u rfl
      rw [h b hb] at hu
      cases hu
  | some u =>
    obtain ⟨b, hb, hu⟩ := exists_of_lastWrite_eq_some h
    exact (hall b hb u hu).symm

/-- Among blocks of elements, one block decides if the others write nothing, or if it is the last
one and writes whenever another block does. -/
theorem lastWrite_blocks (write : α → Option V) (block : Nat → List α) {n e : Nat} (he : e < n)
    (h : ∀ e', e' < n → e' ≠ e → lastWrite write (block e') ≠ none →
      e + 1 = n ∧ lastWrite write (block e) ≠ none) :
    lastWrite write ((List.range n).flatMap block) = lastWrite write (block e) := by
  have hpre : ∀ k, k ≤ n → lastWrite write ((List.range k).flatMap block) =
      if e < k then lastWrite write (block e)
      else lastWrite write ((List.range k).flatMap block) := by
    intro k
    induction k with
    | zero => simp
    | succ k ih =>
      intro hk
      rw [List.range_succ, List.flatMap_append, lastWrite_append]
      simp only [List.flatMap_cons, List.flatMap_nil, List.append_nil]
      by_cases hek : e = k
      · subst hek
        rw [if_pos (by omega)]
        cases hb : lastWrite write (block e) with
        | some v => rfl
        | none =>
          rw [Option.none_or, lastWrite_eq_none_iff]
          intro a ha
          obtain ⟨e', he', ha'⟩ := List.mem_flatMap.mp ha
          rw [List.mem_range] at he'
          by_contra hne
          have hw : lastWrite write (block e') ≠ none := by
            intro hnone
            exact hne ((lastWrite_eq_none_iff _ _).mp hnone a ha')
          exact (h e' (by omega) (by omega) hw).2 hb
      · by_cases hlt : e < k
        · have hnone : lastWrite write (block k) = none := by
            by_contra hne
            have hlast := (h k (by omega) (by omega) hne).1
            omega
          rw [if_pos (by omega), hnone, Option.none_or, ih (by omega), if_pos hlt]
        · rw [if_neg (by omega)]
  have hn := hpre n (Nat.le_refl n)
  rwa [if_pos he] at hn

/-- The rule for loops: if every iteration keeps an invariant and either writes a place or leaves
it alone, the loop leaves the last value written, or the initial one. -/
theorem foldl_lastWrite {f : σ → α → σ} {g : σ → V} {w : α → Option V} {I : σ → Prop}
    (l : List α) (hI : ∀ s, ∀ a ∈ l, I s → I (f s a))
    (hget : ∀ s, ∀ a ∈ l, I s → g (f s a) = (w a).getD (g s)) (s : σ) (hs : I s) :
    g (l.foldl f s) = (lastWrite w l).getD (g s) := by
  induction l generalizing s with
  | nil => rfl
  | cons a l ih =>
    have hl := ih (fun s b hb ↦ hI s b (List.mem_cons_of_mem a hb))
      (fun s b hb ↦ hget s b (List.mem_cons_of_mem a hb)) _ (hI s a List.mem_cons_self hs)
    rw [List.foldl_cons, hl, hget s a List.mem_cons_self hs, lastWrite_cons]
    cases lastWrite w l with
    | none => simp
    | some v => simp

end Nflambda.Base
