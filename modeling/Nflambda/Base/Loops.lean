import Mathlib.Data.List.Basic

/-!
# Loops that raise no exception

Library `Base`. Loops over lists whose bodies may fail, when they do not.
-/

namespace Nflambda.Base

universe u v w

variable {α : Type u} {β : Type v}

/-- A loop that collects values, when every round has one. -/
theorem mapM_eq_some {f : α → Option β} {g : α → β} {l : List α}
    (h : ∀ a ∈ l, f a = some (g a)) : l.mapM f = some (l.map g) := by
  induction l with
  | nil => rfl
  | cons a l ih =>
    rw [List.mapM_cons, h a List.mem_cons_self, ih fun b hb ↦ h b (List.mem_cons_of_mem a hb)]
    rfl

private theorem filterAuxM_eq_some {α : Type} {f : α → Option Bool} {q : α → Bool} {l : List α}
    (h : ∀ a ∈ l, f a = some (q a)) (acc : List α) :
    l.filterAuxM f acc = some ((l.filter q).reverse ++ acc) := by
  induction l generalizing acc with
  | nil => rfl
  | cons a l ih =>
    have hrest := ih (fun b hb ↦ h b (List.mem_cons_of_mem a hb))
    rw [List.filterAuxM, h a List.mem_cons_self]
    show List.filterAuxM f l (cond (q a) (a :: acc) acc) = _
    rw [hrest]
    cases hq : q a <;> simp [hq]

/-- A loop that selects values, when every test has a result. -/
theorem filterM_eq_some {α : Type} {f : α → Option Bool} {q : α → Bool} {l : List α}
    (h : ∀ a ∈ l, f a = some (q a)) : l.filterM f = some (l.filter q) := by
  rw [List.filterM, filterAuxM_eq_some h]
  show some ((l.filter q).reverse ++ []).reverse = _
  rw [List.append_nil, List.reverse_reverse]

/-- A loop that collects values has one for every element. -/
theorem mapM_eq_some_iff {f : α → Option β} {l : List α} {l' : List β} :
    l.mapM f = some l' ↔ l.map f = l'.map some := by
  induction l generalizing l' with
  | nil => cases l' <;> simp
  | cons a l ih =>
    rw [List.mapM_cons, List.map_cons]
    cases ha : f a with
    | none =>
      refine iff_of_false (fun h ↦ nomatch h) fun h ↦ ?_
      cases l' with
      | nil => cases h
      | cons b l' => cases h
    | some b =>
      show (l.mapM f >>= fun bs ↦ some (b :: bs)) = some l' ↔ _
      cases l' with
      | nil =>
        cases hl : l.mapM f with
        | none => exact iff_of_false (fun h ↦ nomatch h) (fun h ↦ nomatch h)
        | some bs => exact iff_of_false (fun h ↦ nomatch h) (fun h ↦ nomatch h)
      | cons b' l' =>
        rw [List.map_cons, List.cons.injEq, Option.some.injEq, ← ih]
        cases hl : l.mapM f with
        | none => simp
        | some bs =>
          show some (b :: bs) = some (b' :: l') ↔ _
          simp

/-- A loop that collects values has a result, when every round has one. -/
theorem exists_mapM_eq_some {f : α → Option β} {l : List α} (h : ∀ a ∈ l, ∃ b, f a = some b) :
    ∃ l', l.mapM f = some l' := by
  induction l with
  | nil => exact ⟨[], rfl⟩
  | cons a l ih =>
    obtain ⟨b, hb⟩ := h a List.mem_cons_self
    obtain ⟨l', hl'⟩ := ih fun c hc ↦ h c (List.mem_cons_of_mem a hc)
    refine ⟨b :: l', ?_⟩
    rw [List.mapM_cons, hb, hl']
    rfl

/-- The values that a loop collects are those of the elements. -/
theorem mem_of_mapM {f : α → Option β} {l : List α} {l' : List β} (h : l.mapM f = some l') {b : β} :
    b ∈ l' ↔ ∃ a ∈ l, f a = some b := by
  have hmem : some b ∈ l'.map some ↔ b ∈ l' := by simp
  rw [← hmem, ← mapM_eq_some_iff.mp h, List.mem_map]

/-- A loop that collects values has found one for every element. -/
theorem exists_of_mapM {f : α → Option β} {l : List α} {l' : List β} (h : l.mapM f = some l')
    {a : α} (ha : a ∈ l) : ∃ b ∈ l', f a = some b := by
  have hmem : f a ∈ l'.map some := mapM_eq_some_iff.mp h ▸ List.mem_map_of_mem ha
  obtain ⟨b, hb, heq⟩ := List.mem_map.mp hmem
  exact ⟨b, hb, heq.symm⟩

/-- A loop that selects values tests every element and selects those that pass. -/
theorem mem_of_filterM {α : Type} {f : α → Option Bool} {l r : List α} (h : l.filterM f = some r) :
    (∀ a ∈ l, ∃ v, f a = some v) ∧ ∀ a, a ∈ r ↔ a ∈ l ∧ f a = some true := by
  have haux : ∀ (l acc r : List α), l.filterAuxM f acc = some r →
      (∀ a ∈ l, ∃ v, f a = some v) ∧ ∀ a, a ∈ r ↔ a ∈ acc ∨ a ∈ l ∧ f a = some true := by
    intro l
    induction l with
    | nil =>
      rintro acc r hr
      cases hr
      exact ⟨fun a ha ↦ (nomatch ha), fun a ↦ by simp⟩
    | cons b l ih =>
      intro acc r hr
      rw [List.filterAuxM] at hr
      obtain ⟨v, hb, hr⟩ := Option.bind_eq_some_iff.mp hr
      obtain ⟨htested, hmem⟩ := ih _ r hr
      constructor
      · intro a ha
        rcases List.mem_cons.mp ha with rfl | ha
        · exact ⟨v, hb⟩
        · exact htested a ha
      · intro a
        rw [hmem, List.mem_cons]
        cases v with
        | false =>
          constructor
          · rintro (hacc | ⟨hl, ht⟩)
            · exact .inl hacc
            · exact .inr ⟨.inr hl, ht⟩
          · rintro (hacc | ⟨rfl | hl, ht⟩)
            · exact .inl hacc
            · rw [hb] at ht
              cases ht
            · exact .inr ⟨hl, ht⟩
        | true =>
          show a ∈ b :: acc ∨ _ ↔ _
          rw [List.mem_cons]
          constructor
          · rintro ((rfl | hacc) | ⟨hl, ht⟩)
            · exact .inr ⟨.inl rfl, hb⟩
            · exact .inl hacc
            · exact .inr ⟨.inr hl, ht⟩
          · rintro (hacc | ⟨rfl | hl, ht⟩)
            · exact .inl (.inr hacc)
            · exact .inl (.inl rfl)
            · exact .inr ⟨hl, ht⟩
  rw [List.filterM] at h
  obtain ⟨found, hfound, hr⟩ := Option.bind_eq_some_iff.mp h
  cases hr
  obtain ⟨htested, hmem⟩ := haux l [] found hfound
  exact ⟨htested, fun a ↦ by simp [hmem]⟩

/-- A loop that updates a value, when every round has a result. -/
theorem foldlM_eq_some {f : β → α → Option β} {g : β → α → β} {l : List α}
    (h : ∀ a ∈ l, ∀ b, f b a = some (g b a)) (b : β) : l.foldlM f b = some (l.foldl g b) := by
  induction l generalizing b with
  | nil => rfl
  | cons a l ih =>
    rw [List.foldlM_cons, h a List.mem_cons_self, List.foldl_cons]
    exact ih (fun c hc ↦ h c (List.mem_cons_of_mem a hc)) _

/-- A loop fails if one of its rounds fails whatever the rounds before have left. -/
theorem foldlM_eq_none {f : β → α → Option β} {l : List α} {a : α} (ha : a ∈ l)
    (h : ∀ b, f b a = none) (b : β) : l.foldlM f b = none := by
  induction l generalizing b with
  | nil => cases ha
  | cons c l ih =>
    rw [List.foldlM_cons]
    cases hc : f b c with
    | none => rfl
    | some b' =>
      rcases List.mem_cons.mp ha with rfl | ha
      · rw [h b] at hc
        cases hc
      · exact ih ha b'

/-- The rule for loops that update a value: what every round keeps, the loop keeps. -/
theorem foldlM_invariant {f : β → α → Option β} {I : β → Prop} {l : List α}
    (hstep : ∀ b a b', I b → f b a = some b' → I b') {b b' : β} (hb : I b)
    (h : l.foldlM f b = some b') : I b' := by
  induction l generalizing b with
  | nil =>
    cases h
    exact hb
  | cons a l ih =>
    rw [List.foldlM_cons] at h
    obtain ⟨c, hc, hl⟩ := Option.bind_eq_some_iff.mp h
    exact ih (hstep b a c hb hc) hl

private theorem exists_foldlM_suffix {f : β → α → Option β} {P : List α → β → Prop} {L : List α}
    (hstep : ∀ l a b, l ++ [a] <+: L → P l b → ∃ b', f b a = some b' ∧ P (l ++ [a]) b')
    (rest : List α) : ∀ l b, l ++ rest = L → P l b → ∃ b', rest.foldlM f b = some b' ∧ P L b' := by
  induction rest with
  | nil =>
    intro l b hl hP
    rw [List.append_nil] at hl
    exact ⟨b, rfl, hl ▸ hP⟩
  | cons a rest ih =>
    intro l b hl hP
    have hl' : (l ++ [a]) ++ rest = L := by rw [List.append_assoc, List.singleton_append, hl]
    obtain ⟨b₁, hf, hP₁⟩ := hstep l a b ⟨rest, hl'⟩ hP
    obtain ⟨b', hrest, hP'⟩ := ih (l ++ [a]) b₁ hl' hP₁
    refine ⟨b', ?_, hP'⟩
    rw [List.foldlM_cons, hf]
    exact hrest

/-- The rule for loops that update a value: if every round has a result and extends what is known
of the elements before, the loop has a result and the property holds of all elements. -/
theorem exists_foldlM_eq_some {f : β → α → Option β} {P : List α → β → Prop} {L : List α} {b : β}
    (hstart : P [] b)
    (hstep : ∀ l a b, l ++ [a] <+: L → P l b → ∃ b', f b a = some b' ∧ P (l ++ [a]) b') :
    ∃ b', L.foldlM f b = some b' ∧ P L b' :=
  exists_foldlM_suffix hstep L [] b rfl hstart

/-- A loop that succeeds does what its rounds do when they succeed. -/
theorem foldlM_eq_foldl {f : β → α → Option β} {g : β → α → β}
    (hf : ∀ b a b', f b a = some b' → b' = g b a) {l : List α} {b b' : β}
    (h : l.foldlM f b = some b') : b' = l.foldl g b := by
  induction l generalizing b with
  | nil => exact (Option.some.inj h).symm
  | cons a l ih =>
    rw [List.foldlM_cons] at h
    obtain ⟨c, hc, hl⟩ := Option.bind_eq_some_iff.mp h
    rw [List.foldl_cons, ← hf b a c hc]
    exact ih hl

/-- A loop that looks something up for every element and always finds it. -/
theorem foldlM_lookup {γ : Type w} (look : α → Option γ) (h : β → α × γ → β)
    {f : β → α → Option β} {l : List α}
    (hf : ∀ a ∈ l, ∃ c, look a = some c ∧ ∀ b, f b a = some (h b (a, c))) (b : β) :
    l.foldlM f b = some ((l.filterMap fun a ↦ (look a).map (Prod.mk a)).foldl h b) := by
  induction l generalizing b with
  | nil => rfl
  | cons a l ih =>
    obtain ⟨c, hc, hstep⟩ := hf a List.mem_cons_self
    rw [List.foldlM_cons, hstep]
    have htail := ih (fun a' ha' ↦ hf a' (List.mem_cons_of_mem a ha')) (h b (a, c))
    simpa [hc] using htail

/-- The positions of the elements with a property. -/
def positions (q : α → Bool) (l : List α) : List Nat := (l.zipIdx.filter (q ·.1)).map Prod.snd

/-- A position is found exactly if the element there has the property. -/
theorem mem_positions_iff {q : α → Bool} {l : List α} {k : Nat} :
    k ∈ positions q l ↔ ∃ a, l[k]? = some a ∧ q a = true := by
  simp only [positions, List.mem_map, List.mem_filter]
  constructor
  · rintro ⟨⟨a, i⟩, ⟨hmem, hq⟩, rfl⟩
    exact ⟨a, List.mem_zipIdx_iff_getElem?.mp hmem, hq⟩
  · rintro ⟨a, ha, hq⟩
    exact ⟨(a, k), ⟨List.mem_zipIdx_iff_getElem?.mpr ha, hq⟩, rfl⟩

/-- Every position is found once. -/
theorem nodup_positions (q : α → Bool) (l : List α) : (positions q l).Nodup := by
  unfold positions
  have hsub : ((l.zipIdx.filter (q ·.1)).map Prod.snd).Sublist (l.zipIdx.map Prod.snd) :=
    List.filter_sublist.map _
  refine hsub.nodup ?_
  rw [List.zipIdx_map_snd]
  exact List.nodup_range'

/-- As many positions as elements with the property. -/
theorem length_positions (q : α → Bool) (l : List α) : (positions q l).length = l.countP q := by
  unfold positions
  rw [List.length_map, ← List.countP_eq_length_filter]
  have hfst : (l.zipIdx.map Prod.fst).countP q = l.zipIdx.countP (q ∘ Prod.fst) := List.countP_map
  rw [List.zipIdx_map_fst] at hfst
  exact hfst.symm

/-- Images have the property at the same positions. -/
theorem positions_map (f : β → α) (q : α → Bool) (l : List β) :
    positions q (l.map f) = positions (q ∘ f) l := by
  unfold positions
  rw [List.zipIdx_map, List.filter_map, List.map_map]
  rfl

end Nflambda.Base
