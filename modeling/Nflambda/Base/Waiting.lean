import Mathlib.Data.Finset.Max
import Mathlib.Data.Fintype.Basic

/-!
# Sets whose members wait for each other

Library `Base`. In a wait-for relation, a set all of whose members wait for a
member can only resolve itself from outside. Such a set contains a cycle, so
none exists where waiting goes up in some ranking. Where it does not go down,
every cycle stays in one rank.
-/

namespace Nflambda.Base

variable {ι : Type*} {R : ι → ι → Prop} {S : Finset ι}

/-- The set is not empty, and every member waits for some member. -/
structure WaitsWithin (R : ι → ι → Prop) (S : Finset ι) : Prop where
  nonempty : S.Nonempty
  next : ∀ w ∈ S, ∃ d ∈ S, R w d

/-- Where everybody that is waited for waits as well, those who wait are such a set. -/
theorem exists_waitsWithin [Fintype ι] (h : ∀ w d, R w d → ∃ e, R d e) {w d : ι} (hw : R w d) :
    ∃ S, WaitsWithin R S ∧ w ∈ S := by
  classical
  have hmem : w ∈ Finset.univ.filter fun v ↦ ∃ d, R v d :=
    Finset.mem_filter.mpr ⟨Finset.mem_univ w, d, hw⟩
  refine ⟨Finset.univ.filter fun v ↦ ∃ d, R v d, ⟨⟨w, hmem⟩, fun v hv ↦ ?_⟩, hmem⟩
  · obtain ⟨e, he⟩ := (Finset.mem_filter.mp hv).2
    exact ⟨e, Finset.mem_filter.mpr ⟨Finset.mem_univ e, h v e he⟩, he⟩

/-- Where waiting goes up in a ranking, no set waits within itself. -/
theorem not_waitsWithin_of_rank (rank : ι → Nat) (h : ∀ w ∈ S, ∀ d, R w d → rank w < rank d) :
    ¬ WaitsWithin R S := by
  intro hS
  obtain ⟨w, hw, hmax⟩ := S.exists_max_image rank hS.nonempty
  obtain ⟨d, hd, hr⟩ := hS.next w hw
  have h1 := h w hw d hr
  have h2 := hmax d hd
  omega

/-- If nobody waits for itself, two different members are waited for, one by the other. -/
theorem WaitsWithin.exists_pair (hS : WaitsWithin R S) (hirr : ∀ w ∈ S, ¬ R w w) :
    ∃ a ∈ S, ∃ b ∈ S, a ≠ b ∧ (∃ w ∈ S, R w a) ∧ R a b := by
  obtain ⟨w, hw⟩ := hS.nonempty
  obtain ⟨a, ha, hwa⟩ := hS.next w hw
  obtain ⟨b, hb, hab⟩ := hS.next a ha
  refine ⟨a, ha, b, hb, ?_, ⟨w, hw, hwa⟩, hab⟩
  rintro rfl
  exact hirr a ha hab

/-- A relation that keeps all its waits keeps the sets that wait within themselves. -/
theorem WaitsWithin.mono {R' : ι → ι → Prop} (hS : WaitsWithin R S)
    (h : ∀ w ∈ S, ∀ d ∈ S, R w d → R' w d) : WaitsWithin R' S := by
  refine ⟨hS.nonempty, fun w hw ↦ ?_⟩
  obtain ⟨d, hd, hr⟩ := hS.next w hw
  exact ⟨d, hd, h w hw d hd hr⟩

private theorem rank_le_of_transGen {α : Type*} {r : α → α → Prop} {rank : α → Nat}
    (hle : ∀ a b, r a b → rank a ≤ rank b) {a b : α} (h : Relation.TransGen r a b) :
    rank a ≤ rank b ∧
      (rank a = rank b → Relation.TransGen (fun x y ↦ r x y ∧ rank x = rank y) a b) := by
  induction h with
  | single hab => exact ⟨hle _ _ hab, fun heq ↦ .single ⟨hab, heq⟩⟩
  | tail _ hbc ih =>
    have hstep := hle _ _ hbc
    refine ⟨ih.1.trans hstep, fun heq ↦ ?_⟩
    exact (ih.2 (by omega)).tail ⟨hbc, by omega⟩

/-- Where a relation does not go down in a ranking and has no cycle within a rank, it has none. -/
theorem not_transGen_self_of_rank {α : Type*} {r : α → α → Prop} (rank : α → Nat)
    (hle : ∀ a b, r a b → rank a ≤ rank b) {a : α}
    (hrank : ¬ Relation.TransGen (fun x y ↦ r x y ∧ rank x = rank y) a a) :
    ¬ Relation.TransGen r a a :=
  fun h ↦ hrank ((rank_le_of_transGen hle h).2 rfl)

end Nflambda.Base
