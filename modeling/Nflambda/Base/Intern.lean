import Mathlib.Data.List.Induction
import Mathlib.Data.List.Nodup

/-!
# Tables that hold every key once

Library `Base`. A table is searched for a key, and an entry is added at the end
only if its key is new. Adding entries for the elements of a list one after the
other leaves one entry for each element, in the order of their first occurrence.
-/

namespace Nflambda.Base

universe u v w

variable {κ : Type u} {β : Type v} {γ : Type w} [DecidableEq κ] [DecidableEq γ]

/-- The position of the first entry with a key. -/
def findKey (key : β → κ) (data : List β) (k : κ) : Option Nat :=
  data.findIdx? (fun b ↦ key b = k)

/-- Add an entry unless its key is present; the position of the entry with that key. -/
def intern (key : β → κ) (data : List β) (k : κ) (new : β) : List β × Nat :=
  match findKey key data k with
  | none => (data ++ [new], data.length)
  | some i => (data, i)

/-- A new element comes last. -/
def addNew (l : List γ) (x : γ) : List γ := if x ∈ l then l else l ++ [x]

/-- Erasing repeated elements keeps the first occurrences. -/
theorem eraseDups_snoc (l : List γ) (x : γ) : (l ++ [x]).eraseDups = addNew l.eraseDups x := by
  rw [List.eraseDups_append, addNew]
  by_cases h : x ∈ l
  · rw [if_pos (List.mem_eraseDups.mpr h)]
    simp [List.removeAll, h]
  · have hone : [x].eraseDups = [x] := by rw [List.eraseDups_cons]; rfl
    rw [if_neg (fun hm ↦ h (List.mem_eraseDups.mp hm))]
    simp [List.removeAll, h, hone]

/-- The elements of the list are kept. -/
theorem mem_addNew {l : List γ} {x y : γ} : y ∈ addNew l x ↔ y ∈ l ∨ y = x := by
  unfold addNew
  by_cases h : x ∈ l
  · rw [if_pos h]
    constructor
    · exact Or.inl
    · rintro (hy | rfl)
      · exact hy
      · exact h
  · rw [if_neg h, List.mem_append, List.mem_singleton]

/-- A list without repetitions has none with the new element. -/
theorem nodup_addNew {l : List γ} (hl : l.Nodup) (x : γ) : (addNew l x).Nodup := by
  unfold addNew
  split
  · exact hl
  · next h => exact List.nodup_append.mpr ⟨hl, List.nodup_singleton x, by
      rintro a ha b hb rfl
      exact h (List.mem_singleton.mp hb ▸ ha)⟩

/-- The list only grows at its end. -/
theorem prefix_addNew (l : List γ) (x : γ) : l <+: addNew l x := by
  unfold addNew
  split
  · exact List.prefix_rfl
  · exact List.prefix_append l [x]

omit [DecidableEq γ] in
/-- What stands in a list stays where it is when the list grows at its end. -/
theorem getElem?_of_prefix {l m : List γ} (h : l <+: m) {i : Nat} {x : γ} (hx : l[i]? = some x) :
    m[i]? = some x := by
  obtain ⟨later, rfl⟩ := h
  obtain ⟨hi, -⟩ := List.getElem?_eq_some_iff.mp hx
  rw [List.getElem?_append_left hi, hx]

/-- Erasing repeated elements leaves no repetition. -/
theorem nodup_eraseDups (l : List γ) : l.eraseDups.Nodup := by
  induction l using List.reverseRecOn with
  | nil => exact List.nodup_nil
  | append_singleton l x ih =>
    rw [eraseDups_snoc]
    exact nodup_addNew ih x

/-- The position of an element does not change when the list grows. -/
theorem idxOf_addNew {l : List γ} {x y : γ} (h : y ∈ l) : (addNew l x).idxOf y = l.idxOf y := by
  unfold addNew
  split
  · rfl
  · exact List.idxOf_append_of_mem h

omit [DecidableEq κ] [DecidableEq γ] in
/-- Changing an element in a way that a function does not see. -/
theorem map_modify_of_eq {f : β → κ} {h : β → β} (hf : ∀ b, f (h b) = f b) (l : List β) (i : Nat) :
    (l.modify i h).map f = l.map f := by
  apply List.ext_getElem?
  intro k
  rw [List.getElem?_map, List.getElem?_map, List.getElem?_modify]
  cases l[k]? with
  | none => rfl
  | some b =>
    by_cases hk : i = k
    · simp [hk, hf]
    · simp [hk]

variable (key : β → κ)

/-- Searching depends on the keys of the entries only. -/
theorem findKey_map (f : β → β) (hf : ∀ b, key (f b) = key b) (data : List β) (k : κ) :
    findKey key (data.map f) k = findKey key data k := by
  unfold findKey
  rw [List.findIdx?_map]
  simp only [Function.comp_def, hf]

/-- Changing entries without changing their keys commutes with adding one. -/
theorem intern_map (f : β → β) (hf : ∀ b, key (f b) = key b) (data : List β) (k : κ) (new : β) :
    intern key (data.map f) k (f new) = ((intern key data k new).1.map f, (intern key data k new).2)
      := by
  unfold intern
  rw [findKey_map key f hf]
  cases findKey key data k with
  | none => simp
  | some i => rfl

/-- A search that fails. -/
theorem findKey_eq_none_iff {data : List β} {k : κ} :
    findKey key data k = none ↔ k ∉ data.map key := by
  unfold findKey
  rw [List.findIdx?_eq_none_iff]
  simp

/-- A search finds an entry with the key. -/
theorem getElem?_of_findKey {data : List β} {k : κ} {i : Nat} (h : findKey key data k = some i) :
    (data.map key)[i]? = some k := by
  obtain ⟨hi, hk, -⟩ := List.findIdx?_eq_some_iff_getElem.mp h
  rw [List.getElem?_map, List.getElem?_eq_getElem hi, Option.map_some]
  exact congrArg some (of_decide_eq_true hk)

/-- An entry whose key is new comes last. -/
theorem intern_of_notMem {data : List β} {k : κ} (h : k ∉ data.map key) (new : β) :
    intern key data k new = (data ++ [new], data.length) := by
  unfold intern
  rw [(findKey_eq_none_iff key).mpr h]

/-- The keys of the table after an entry is added. -/
theorem map_intern (data : List β) {k : κ} {new : β} (hk : key new = k) :
    (intern key data k new).1.map key = addNew (data.map key) k := by
  unfold intern addNew
  cases h : findKey key data k with
  | none =>
    rw [if_neg ((findKey_eq_none_iff key).mp h), List.map_append, List.map_singleton, hk]
  | some i =>
    rw [if_pos]
    exact List.mem_of_getElem? (getElem?_of_findKey key h)

/-- The position that is returned is the position of the entry with the key. -/
theorem getElem?_intern (data : List β) {k : κ} {new : β} (hk : key new = k) :
    ((intern key data k new).1.map key)[(intern key data k new).2]? = some k := by
  unfold intern
  cases h : findKey key data k with
  | none => simp [hk]
  | some i => exact getElem?_of_findKey key h

/-- Adding an entry to a table whose last part has one entry for each element of a list. -/
theorem intern_append (mk : γ → β) (name : γ → κ) (hk : ∀ y, key (mk y) = name y)
    (hinj : Function.Injective name) (old : List β) (l : List γ) (x : γ)
    (hold : ∀ b ∈ old, key b ≠ name x) :
    intern key (old ++ l.map mk) (name x) (mk x) =
      (old ++ (addNew l x).map mk, old.length + (addNew l x).idxOf x) := by
  have hsearch : findKey key (old ++ l.map mk) (name x) =
      if x ∈ l then some (old.length + l.idxOf x) else none := by
    have hnone : old.findIdx? (fun b ↦ decide (key b = name x)) = none := by
      rw [List.findIdx?_eq_none_iff]
      intro b hb
      simpa using hold b hb
    have hcongr : (fun y ↦ decide (key (mk y) = name x)) = fun y ↦ y == x := by
      funext y
      rw [hk, Bool.eq_iff_iff, decide_eq_true_iff, beq_iff_eq]
      exact hinj.eq_iff
    unfold findKey
    rw [List.findIdx?_append, hnone, List.findIdx?_map]
    simp only [Function.comp_def, hcongr]
    by_cases hx : x ∈ l
    · rw [if_pos hx]
      have hi : l.findIdx? (fun y ↦ y == x) = some (l.idxOf x) := by
        rw [List.findIdx?_eq_some_iff_findIdx_eq]
        exact ⟨List.idxOf_lt_length_of_mem hx, rfl⟩
      rw [hi]
      simp [Nat.add_comm]
    · rw [if_neg hx]
      have hi : l.findIdx? (fun y ↦ y == x) = none := by
        rw [List.findIdx?_eq_none_iff]
        intro y hy
        rw [beq_eq_false_iff_ne]
        rintro rfl
        exact hx hy
      rw [hi]
      rfl
  unfold intern
  rw [hsearch]
  by_cases hx : x ∈ l
  · rw [if_pos hx]
    simp [addNew, hx]
  · rw [if_neg hx]
    simp [addNew, hx, List.idxOf_append_of_notMem hx]

end Nflambda.Base
