import Mathlib.Data.List.Induction
import Mathlib.Data.List.Nodup
import Nflambda.Base.Periodic

/-!
# Dealing one list out to another

Library `Base`. The elements of a list are given in turn to the elements of a
second one, which starts over at its end. Every element of the first list occurs
once, and the elements of the second one are given almost equally many.
-/

namespace Nflambda.Base

universe u v

variable {α : Type u} {β : Type v}

/-- The elements of `l`, each with the element of `s` whose turn it is. -/
def deal (l : List α) (s : List β) : List (α × β) :=
  l.zipIdx.filterMap fun p ↦ s[p.2 % s.length]?.map (Prod.mk p.1)

/-- Counting elements by their positions. -/
theorem countP_eq_count {l : List α} {q : α → Bool} {r : Nat → Prop} [DecidablePred r]
    (h : ∀ (i : Nat) (a : α), l[i]? = some a → (q a = true ↔ r i)) :
    l.countP q = Nat.count r l.length := by
  induction l using List.reverseRecOn with
  | nil => simp
  | append_singleton l a ih =>
    have hl : l.countP q = Nat.count r l.length := by
      apply ih
      intro i b hb
      obtain ⟨hi, -⟩ := List.getElem?_eq_some_iff.mp hb
      exact h i b (by rw [List.getElem?_append_left hi, hb])
    have ha : (q a = true ↔ r l.length) := h _ a (by simp)
    rw [List.countP_append, hl, List.length_append, List.length_singleton, Nat.count_succ,
      List.countP_singleton]
    simp only [ha]

/-- Which pairs are dealt. -/
theorem mem_deal_iff {l : List α} {s : List β} {a : α} {b : β} :
    (a, b) ∈ deal l s ↔ ∃ x : Nat, l[x]? = some a ∧ s[x % s.length]? = some b := by
  unfold deal
  simp only [List.mem_filterMap, Option.map_eq_some_iff]
  constructor
  · rintro ⟨⟨a', x⟩, hmem, b', hb, hab⟩
    cases hab
    exact ⟨x, List.mem_zipIdx_iff_getElem?.mp hmem, hb⟩
  · rintro ⟨x, ha, hb⟩
    exact ⟨(a, x), List.mem_zipIdx_iff_getElem?.mpr ha, b, hb, rfl⟩

/-- The element at `x` is given to the element at the residue of `x`. -/
theorem mem_deal_iff_mod {l : List α} {s : List β} (hl : l.Nodup) (hs : s.Nodup) {a : α} {b : β}
    {x y : Nat} (ha : l[x]? = some a) (hb : s[y]? = some b) :
    (a, b) ∈ deal l s ↔ x % s.length = y := by
  obtain ⟨hx, -⟩ := List.getElem?_eq_some_iff.mp ha
  obtain ⟨hy, -⟩ := List.getElem?_eq_some_iff.mp hb
  rw [mem_deal_iff]
  constructor
  · rintro ⟨x', ha', hb'⟩
    have hxx : x = x' := (List.getElem?_inj hx hl).mp (ha.trans ha'.symm)
    have hyy : y = x' % s.length := (List.getElem?_inj hy hs).mp (hb.trans hb'.symm)
    rw [hxx, hyy]
  · rintro rfl
    exact ⟨x, ha, hb⟩

private theorem getElem?_mod {s : List β} (hs : s ≠ []) (x : Nat) :
    ∃ b, s[x % s.length]? = some b :=
  ⟨_, List.getElem?_eq_getElem (Nat.mod_lt x (List.length_pos_of_ne_nil hs))⟩

/-- Every element is dealt once, in order. -/
theorem map_fst_deal (l : List α) {s : List β} (hs : s ≠ []) : (deal l s).map Prod.fst = l := by
  unfold deal
  induction l using List.reverseRecOn with
  | nil => rfl
  | append_singleton l a ih =>
    obtain ⟨b, hb⟩ := getElem?_mod hs l.length
    rw [List.zipIdx_append, List.filterMap_append, List.map_append, ih]
    simp [hb]

/-- As many pairs as elements. -/
theorem length_deal (l : List α) {s : List β} (hs : s ≠ []) : (deal l s).length = l.length := by
  rw [← List.length_map Prod.fst, map_fst_deal l hs]

/-- No pair is dealt twice. -/
theorem nodup_deal {l : List α} {s : List β} (hl : l.Nodup) (hs : s ≠ []) : (deal l s).Nodup := by
  apply List.Nodup.of_map Prod.fst
  rw [map_fst_deal l hs]
  exact hl

/-- Members of the pairs are elements of the lists. -/
theorem mem_of_mem_deal {l : List α} {s : List β} {e : α × β} (h : e ∈ deal l s) :
    e.1 ∈ l ∧ e.2 ∈ s := by
  obtain ⟨x, ha, hb⟩ := mem_deal_iff.mp h
  exact ⟨List.mem_of_getElem? ha, List.mem_of_getElem? hb⟩

/-- In a list without repetitions, the turn of an element follows from its position. -/
theorem deal_eq_filterMap [DecidableEq α] {l : List α} (hl : l.Nodup) (s : List β) :
    deal l s = l.filterMap fun a ↦ s[l.idxOf a % s.length]?.map (Prod.mk a) := by
  have hidx : l.zipIdx = l.map fun a ↦ (a, l.idxOf a) := by
    apply List.ext_getElem?
    intro i
    rw [List.getElem?_zipIdx, List.getElem?_map]
    cases hi : l[i]? with
    | none => rfl
    | some a =>
      obtain ⟨hlt, rfl⟩ := List.getElem?_eq_some_iff.mp hi
      rw [Option.map_some, Option.map_some, hl.idxOf_getElem i hlt, Nat.zero_add]
  unfold deal
  rw [hidx, List.filterMap_map]
  rfl

section Counts

variable [DecidableEq α] [DecidableEq β] {l : List α} {s : List β}

/-- Every element of the first list is in one pair. -/
theorem countP_receivers (hl : l.Nodup) (hs : s.Nodup) (h : s ≠ []) {a : α} (ha : a ∈ l) :
    s.countP (fun b ↦ (a, b) ∈ deal l s) = 1 := by
  obtain ⟨x, hx⟩ := List.mem_iff_getElem?.mp ha
  have hlt : x % s.length < s.length := Nat.mod_lt x (List.length_pos_of_ne_nil h)
  have hcount : s.countP (fun b ↦ (a, b) ∈ deal l s) = Nat.count (· = x % s.length) s.length := by
    apply countP_eq_count
    intro y b hb
    rw [decide_eq_true_iff, mem_deal_iff_mod hl hs hx hb]
    exact eq_comm
  rw [hcount, count_eq_of_lt hlt]

/-- The elements of the second list are given almost equally many. -/
theorem countP_given (hl : l.Nodup) (hs : s.Nodup) {b : β} (hb : b ∈ s) :
    l.length / s.length ≤ l.countP (fun a ↦ (a, b) ∈ deal l s) ∧
      l.countP (fun a ↦ (a, b) ∈ deal l s) ≤ l.length / s.length + 1 := by
  obtain ⟨y, hy⟩ := List.mem_iff_getElem?.mp hb
  obtain ⟨hlt, -⟩ := List.getElem?_eq_some_iff.mp hy
  have hcount : l.countP (fun a ↦ (a, b) ∈ deal l s) =
      Nat.count (fun i ↦ (0 + i) % s.length = y) l.length := by
    apply countP_eq_count
    intro x a ha
    rw [decide_eq_true_iff, mem_deal_iff_mod hl hs ha hy, Nat.zero_add]
  rw [hcount]
  exact count_residue 0 y l.length hlt

end Counts

/-! ### Counting in parts -/

/-- Counting in a list of parts of which only the part of `a` is counted. -/
theorem countP_flatMap_single [BEq α] [LawfulBEq α] {f : α → List β} {q : β → Bool} {a : α}
    {l : List α} (h : ∀ b ∈ l, b ≠ a → (f b).countP q = 0) :
    (l.flatMap f).countP q = l.count a * (f a).countP q := by
  induction l with
  | nil => simp
  | cons b l ih =>
    rw [List.flatMap_cons, List.countP_append, ih fun c hc ↦ h c (List.mem_cons_of_mem b hc)]
    by_cases hb : b = a
    · subst hb
      rw [List.count_cons_self, Nat.succ_mul, Nat.add_comm]
    · rw [h b List.mem_cons_self hb, List.count_cons_of_ne hb, Nat.zero_add]

/-- Counting pairs by their first members. -/
theorem sum_countP_fst [DecidableEq α] {ks : List α} (hk : ks.Nodup) (q : α × β → Bool)
    (l : List (α × β)) :
    (ks.map fun k ↦ l.countP fun e ↦ e.1 = k ∧ q e).sum = l.countP fun e ↦ e.1 ∈ ks ∧ q e := by
  induction ks with
  | nil => simp
  | cons k ks ih =>
    obtain ⟨hnot, hks⟩ := List.nodup_cons.mp hk
    rw [List.map_cons, List.sum_cons, ih hks]
    clear ih
    induction l with
    | nil => rfl
    | cons e l ihl =>
      simp only [List.countP_cons]
      have hone : ((if decide (e.1 = k ∧ q e) = true then 1 else 0) +
          if decide (e.1 ∈ ks ∧ q e) = true then 1 else 0) =
          if decide (e.1 ∈ k :: ks ∧ q e) = true then 1 else 0 := by
        by_cases he : e.1 = k
        · have hmem : e.1 ∉ ks := by rwa [he]
          by_cases hq : q e <;> simp [he, hnot, hq]
        · by_cases hq : q e <;> simp [he, hq]
      omega

end Nflambda.Base
