import Nflambda.Director.Tables

/-!
# What the wiring loop writes

Library `Director`. The double loop of `Nfunctor_graph.__init__`,
`src/director/em/__init__.py:242–251`, writes slots of state entries and the
`next_action` of entries named `packet_in`. Every slot keeps what was written to
it last; here that is expressed by the nfunctors of the network function and the
relationship list of the module.
-/

namespace Nflambda.Director

open Nflambda.Base

/-- An action entry with its position. -/
abbrev Placed := ActionRuntime × Nat

/-- Entries `i` and `j` are joined by a relationship with path id `pathId`. -/
def Joined (l : List NfunctorRelationship) (i j : ActionRuntime) : Prop :=
  inRelationshipList l i.action.action j.action.action ≠ -1 ∧ i.executionId = j.executionId

instance (l : List NfunctorRelationship) (i j : ActionRuntime) : Decidable (Joined l i j) := by
  unfold Joined
  infer_instance

/-- The value that a pair of entries writes to slot `p` of state entry `k` out of `m`. -/
def pathWrite (l : List NfunctorRelationship) (m k : Nat) (p : Fin 10) (e : Placed × Placed) :
    Option Int :=
  if Joined l e.1.1 e.2.1 ∧ (pyIdx? m e.1.1.stateId).map Fin.val = some k ∧
      pyIdx? 10 (inRelationshipList l e.1.1.action.action e.2.1.action.action) = some p then
    some (e.2.2 : Int)
  else none

/-- The value that a pair of entries writes to `next_action` of action entry `k`. -/
def nextWrite (l : List NfunctorRelationship) (k : Nat) (e : Placed × Placed) : Option Int :=
  if Joined l e.1.1 e.2.1 ∧ e.1.1.action.action.name = "packet_in" ∧ e.1.2 = k then
    some (e.2.2 : Int)
  else none

/-- A pair of entries does not raise an exception in a graph with `m` state entries. -/
def PairOk (l : List NfunctorRelationship) (m : Nat) (e : Placed × Placed) : Prop :=
  Joined l e.1.1 e.2.1 → (pyIdx? m e.1.1.stateId).isSome ∧
    (pyIdx? 10 (inRelationshipList l e.1.1.action.action e.2.1.action.action)).isSome

/-- The graph after the pairs `ps` of the loop. -/
def wired (l : List NfunctorRelationship) (g : NfunctorGraph) (ps : List (Placed × Placed)) :
    NfunctorGraph :=
  { g with
    states := g.states.mapIdx fun k s ↦ { s with
      path := fun p ↦ (lastWrite (pathWrite l g.states.length k p) ps).getD (s.path p) }
    actions := g.actions.mapIdx fun k a ↦ { a with
      nextAction := (lastWrite (nextWrite l k) ps).getD a.nextAction } }

private theorem modify_states (l : List NfunctorRelationship) (g : NfunctorGraph)
    (ps : List (Placed × Placed)) (e : Placed × Placed) {s : Nat} {p : Fin 10}
    (hj : Joined l e.1.1 e.2.1)
    (hs : (pyIdx? g.states.length e.1.1.stateId).map Fin.val = some s)
    (hp : pyIdx? 10 (inRelationshipList l e.1.1.action.action e.2.1.action.action) = some p) :
    (wired l g ps).states.modify s
        (fun r ↦ { r with path := Function.update r.path p (e.2.2 : Int) }) =
      (wired l g (ps ++ [e])).states := by
  apply List.ext_getElem?
  intro k
  simp only [wired, List.getElem?_modify, List.getElem?_mapIdx]
  cases g.states[k]? with
  | none => simp
  | some r =>
    simp only [Option.map_some, Option.map_eq_map, Option.some.injEq]
    by_cases hk : s = k
    · subst hk
      simp only [if_true, StateRuntime.mk.injEq, true_and]
      funext q
      by_cases hq : q = p
      · subst hq
        simp [lastWrite_snoc, pathWrite, hj, hs, hp]
      · have hne : ¬ p = q := fun h ↦ hq h.symm
        simp [lastWrite_snoc, pathWrite, hp, hq, hne]
    · simp [hk, lastWrite_snoc, pathWrite, hs]

private theorem modify_actions (l : List NfunctorRelationship) (g : NfunctorGraph)
    (ps : List (Placed × Placed)) (e : Placed × Placed) (hj : Joined l e.1.1 e.2.1) :
    (if e.1.1.action.action.name = "packet_in" then
        (wired l g ps).actions.modify e.1.2 (fun a ↦ { a with nextAction := (e.2.2 : Int) })
      else (wired l g ps).actions) = (wired l g (ps ++ [e])).actions := by
  by_cases hin : e.1.1.action.action.name = "packet_in"
  · rw [if_pos hin]
    apply List.ext_getElem?
    intro k
    simp only [wired, List.getElem?_modify, List.getElem?_mapIdx]
    cases g.actions[k]? with
    | none => simp
    | some a =>
      by_cases hk : e.1.2 = k
      · simp [hk, lastWrite_snoc, nextWrite, hj, hin]
      · simp [hk, lastWrite_snoc, nextWrite]
  · rw [if_neg hin]
    simp [wired, lastWrite_snoc, nextWrite, hin]

private theorem wirePair_wired (l : List NfunctorRelationship) (g : NfunctorGraph)
    (ps : List (Placed × Placed)) (e : Placed × Placed) (hok : PairOk l g.states.length e) :
    wirePair l (wired l g ps) e.1 e.2 = some (wired l g (ps ++ [e])) := by
  unfold wirePair
  dsimp only
  by_cases hj : Joined l e.1.1 e.2.1
  · obtain ⟨hs, hp⟩ := hok hj
    obtain ⟨s, hs⟩ := Option.isSome_iff_exists.mp hs
    obtain ⟨p, hp⟩ := Option.isSome_iff_exists.mp hp
    have hlen : (wired l g ps).states.length = g.states.length := by simp [wired]
    have hs' : (pyIdx? g.states.length e.1.1.stateId).map Fin.val = some s.val := by rw [hs]; rfl
    have hj' : inRelationshipList l e.1.1.action.action e.2.1.action.action ≠ -1 ∧
        e.1.1.executionId = e.2.1.executionId := hj
    rw [if_pos hj', modify_actions l g ps e hj, hlen, hs', hp]
    change some { (wired l g ps) with
      actions := (wired l g (ps ++ [e])).actions
      states := (wired l g ps).states.modify s.val
        (fun r ↦ { r with path := Function.update r.path p (e.2.2 : Int) }) } = _
    rw [modify_states l g ps e hj hs' hp]
    rfl
  · have hj' : ¬ (inRelationshipList l e.1.1.action.action e.2.1.action.action ≠ -1 ∧
        e.1.1.executionId = e.2.1.executionId) := hj
    rw [if_neg hj']
    simp [wired, lastWrite_snoc, pathWrite, nextWrite, hj]

private theorem length_wirePair {l : List NfunctorRelationship} {g g' : NfunctorGraph}
    {i j : Placed} (h : wirePair l g i j = some g') : g'.states.length = g.states.length := by
  unfold wirePair at h
  dsimp only at h
  split at h
  · cases hs : (pyIdx? g.states.length i.1.stateId).map Fin.val with
    | none =>
      rw [hs] at h
      cases h
    | some s =>
      cases hp : pyIdx? 10 (inRelationshipList l i.1.action.action j.1.action.action) with
      | none =>
        rw [hs, hp] at h
        cases h
      | some p =>
        rw [hs, hp] at h
        cases h
        simp
  · cases h
    rfl

private theorem pairOk_of_wirePair {l : List NfunctorRelationship} {g g' : NfunctorGraph}
    {e : Placed × Placed} (h : wirePair l g e.1 e.2 = some g') : PairOk l g.states.length e := by
  intro hj
  have hj' : inRelationshipList l e.1.1.action.action e.2.1.action.action ≠ -1 ∧
      e.1.1.executionId = e.2.1.executionId := hj
  unfold wirePair at h
  dsimp only at h
  rw [if_pos hj'] at h
  cases hs : pyIdx? g.states.length e.1.1.stateId with
  | none =>
    rw [hs] at h
    cases h
  | some s =>
    cases hp : pyIdx? 10 (inRelationshipList l e.1.1.action.action e.2.1.action.action) with
    | none =>
      rw [hs, hp] at h
      cases h
    | some p => exact ⟨rfl, rfl⟩

private theorem foldlM_wirePair (l : List NfunctorRelationship) (g : NfunctorGraph)
    (ps : List (Placed × Placed)) (hok : ∀ e ∈ ps, PairOk l g.states.length e) :
    ps.foldlM (fun g p ↦ wirePair l g p.1 p.2) g = some (wired l g ps) := by
  induction ps using List.reverseRecOn with
  | nil =>
    have hs : g.states.mapIdx (fun _ s ↦ s) = g.states := by simp [List.mapIdx_eq_zipIdx_map]
    have ha : g.actions.mapIdx (fun _ a ↦ a) = g.actions := by simp [List.mapIdx_eq_zipIdx_map]
    change some g = some { g with
      states := g.states.mapIdx (fun _ s ↦ s)
      actions := g.actions.mapIdx (fun _ a ↦ a) }
    rw [hs, ha]
  | append_singleton ps e ih =>
    rw [List.foldlM_append, ih fun e' he' ↦ hok e' (List.mem_append_left _ he')]
    have he := wirePair_wired l g ps e (hok e (by simp))
    simpa using he

private theorem pairOk_of_foldlM (l : List NfunctorRelationship) (g g' : NfunctorGraph)
    (ps : List (Placed × Placed)) (h : ps.foldlM (fun g p ↦ wirePair l g p.1 p.2) g = some g') :
    ∀ e ∈ ps, PairOk l g.states.length e := by
  induction ps generalizing g with
  | nil => simp
  | cons e ps ih =>
    rw [List.foldlM_cons] at h
    cases hr : wirePair l g e.1 e.2 with
    | none =>
      rw [hr] at h
      cases h
    | some r =>
      rw [hr] at h
      have hps := ih r h
      rw [length_wirePair hr] at hps
      intro e' he'
      rcases List.mem_cons.mp he' with rfl | he'
      · exact pairOk_of_wirePair hr
      · exact hps e' he'

/-- The pairs that the wiring loop goes through. -/
def pairsOf (g : NfunctorGraph) : List (Placed × Placed) := g.actions.zipIdx ×ˢ g.actions.zipIdx

/-- The wiring loop in closed form: it raises no exception if no pair does, and then every slot
holds what was written to it last. -/
theorem wire_eq_some_iff (l : List NfunctorRelationship) (g g' : NfunctorGraph) :
    wire l g = some g' ↔
      (∀ e ∈ pairsOf g, PairOk l g.states.length e) ∧ g' = wired l g (pairsOf g) := by
  constructor
  · intro h
    have hok := pairOk_of_foldlM l g g' (pairsOf g) h
    have hw := foldlM_wirePair l g (pairsOf g) hok
    refine ⟨hok, ?_⟩
    have he : some g' = some (wired l g (pairsOf g)) := h.symm.trans hw
    exact Option.some.inj he
  · rintro ⟨hok, rfl⟩
    exact foldlM_wirePair l g (pairsOf g) hok

end Nflambda.Director
