import Mathlib.Data.List.Basic

/-!
# Words and their separators

Library `Base`. A text built from words with one separator before each further
word is split back into the same words.
-/

namespace Nflambda.Base

universe u

variable {α : Type u}

/-- A word followed by further words, each after a separator. -/
def joinWords (sep : α) (first : List α) (rest : List (List α)) : List α :=
  first ++ rest.flatMap (fun w ↦ sep :: w)

/-- One more word in front. -/
theorem joinWords_cons (sep : α) (first w : List α) (rest : List (List α)) :
    joinWords sep first (w :: rest) = first ++ sep :: joinWords sep w rest := by
  simp [joinWords]

/-- A text of words as the last word stands for its words. -/
theorem joinWords_nested (sep : α) (first w v : List α) (vs : List (List α)) :
    joinWords sep first [w, joinWords sep v vs] = joinWords sep first (w :: v :: vs) := by
  simp [joinWords]

/-- Splitting at the separators gives the words back, if no word contains one. -/
theorem splitOnP_joinWords (p : α → Bool) (sep : α) (hsep : p sep = true) (first : List α)
    (rest : List (List α)) (hf : ∀ c ∈ first, p c = false)
    (hr : ∀ w ∈ rest, ∀ c ∈ w, p c = false) :
    (joinWords sep first rest).splitOnP p = first :: rest := by
  induction rest generalizing first with
  | nil =>
    simp only [joinWords, List.flatMap_nil, List.append_nil]
    exact List.splitOnP_eq_singleton hf
  | cons w rest ih =>
    rw [joinWords_cons, List.splitOnP_append_cons_of_forall_mem hf sep hsep]
    rw [ih w (hr w List.mem_cons_self) fun v hv ↦ hr v (List.mem_cons_of_mem w hv)]

/-- The words of a text contain nothing else. -/
theorem mem_of_mem_splitOnP {p : α → Bool} {l w : List α} {c : α} (hw : w ∈ l.splitOnP p)
    (hc : c ∈ w) : c ∈ l := by
  induction l generalizing w with
  | nil =>
    rw [List.splitOnP_nil, List.mem_singleton] at hw
    rw [hw] at hc
    cases hc
  | cons x l ih =>
    rw [List.splitOnP_cons_eq_if_modifyHead] at hw
    split at hw
    · rcases List.mem_cons.mp hw with rfl | hw
      · cases hc
      · exact List.mem_cons_of_mem x (ih hw hc)
    · cases hs : l.splitOnP p with
      | nil => exact absurd hs (List.splitOnP_ne_nil p l)
      | cons v vs =>
        rw [hs, List.modifyHead_cons] at hw
        rcases List.mem_cons.mp hw with rfl | hw
        · rcases List.mem_cons.mp hc with rfl | hc
          · exact List.mem_cons_self
          · exact List.mem_cons_of_mem x (ih (hs ▸ List.mem_cons_self) hc)
        · exact List.mem_cons_of_mem x (ih (hs ▸ List.mem_cons_of_mem v hw) hc)

/-- What holds of the separator and of every character of the words holds of the text. -/
theorem forall_mem_joinWords {P : α → Prop} {sep : α} (hsep : P sep) {first : List α}
    {rest : List (List α)} (hf : ∀ c ∈ first, P c) (hr : ∀ w ∈ rest, ∀ c ∈ w, P c) :
    ∀ c ∈ joinWords sep first rest, P c := by
  intro c hc
  rcases List.mem_append.mp hc with h | h
  · exact hf c h
  · obtain ⟨w, hw, h⟩ := List.mem_flatMap.mp h
    rcases List.mem_cons.mp h with rfl | h
    · exact hsep
    · exact hr w hw c h

/-- The length of a text whose words are short. -/
theorem length_joinWords_le (sep : α) {first : List α} {rest : List (List α)} {k : Nat}
    (hf : first.length ≤ k) (hr : ∀ w ∈ rest, w.length ≤ k) :
    (joinWords sep first rest).length ≤ (rest.length + 1) * (k + 1) := by
  induction rest generalizing first with
  | nil =>
    simp only [joinWords, List.flatMap_nil, List.append_nil, List.length_nil]
    omega
  | cons w rest ih =>
    have hw := ih (hr w List.mem_cons_self) fun v hv ↦ hr v (List.mem_cons_of_mem w hv)
    rw [joinWords_cons, List.length_append, List.length_cons, List.length_cons, Nat.add_mul]
    omega

end Nflambda.Base
