import Nflambda.Chain.Composition
import Nflambda.Chain.Registry

/-!
# The objects of the registry

Library `Chain`. What `NF_registry`, `src/director/nf_registry/nf_registry.py`, makes of the files
it reads consists of objects that its constructor calls and additions to dependency lists have
created.
-/

namespace Nflambda.Chain

open Nflambda.Base

/-- The objects have been created, and the tables of actions and states refer to them. -/
structure NfRegistry.Valid (r : NfRegistry) : Prop where
  created : r.objects.Created
  action_lt : ∀ e ∈ r.actionTable, e.2 < r.objects.actions.length
  state_lt : ∀ e ∈ r.stateTable, e.2 < r.objects.states.length

private theorem mem_assign {table : List (String × Nat)} {key : String} {v : Nat}
    {e : String × Nat} (h : e ∈ assign table key v) : e ∈ table ∨ e = (key, v) := by
  unfold assign at h
  split at h
  · obtain ⟨e', he', rfl⟩ := List.mem_map.mp h
    by_cases hkey : e'.1 = key
    · exact .inr (if_pos hkey)
    · rw [if_neg hkey]
      exact .inl he'
  · rcases List.mem_append.mp h with hold | hnew
    · exact .inl hold
    · exact .inr (List.mem_singleton.mp hnew)

private theorem lookup_mem {table : List (String × Nat)} {key : String} {v : Nat}
    (h : table.lookup key = some v) : (key, v) ∈ table := by
  obtain ⟨l, l', rfl, -⟩ := List.lookup_eq_some_iff.mp h
  exact List.mem_append_right _ List.mem_cons_self

/-- A state that is registered may be used by actions. -/
theorem NfRegistry.Valid.registerState {r : NfRegistry} (h : r.Valid) (s : State) :
    (r.registerState s).Valid where
  created := .state s h.created
  action_lt := h.action_lt
  state_lt e he := by
    show e.2 < (r.objects.states ++ [s]).length
    rw [List.length_append, List.length_singleton]
    rcases mem_assign he with hold | rfl
    · exact Nat.lt_succ_of_lt (h.state_lt e hold)
    · exact Nat.lt_succ_self _

/-- An action that is registered may be depended on. -/
theorem NfRegistry.Valid.registerAction {r : NfRegistry} (h : r.Valid) {a : Action}
    (hnf : a.nf = none) (hstate : ∀ s ∈ a.state, s < r.objects.states.length)
    (hdeps : ∀ i ∈ a.dependenciesActionList, i < r.objects.actions.length) :
    (r.registerAction a).Valid where
  created := .action a h.created hnf hstate hdeps
  action_lt e he := by
    show e.2 < (r.objects.actions ++ [a]).length
    rw [List.length_append, List.length_singleton]
    rcases mem_assign he with hold | rfl
    · exact Nat.lt_succ_of_lt (h.action_lt e hold)
    · exact Nat.lt_succ_self _
  state_lt := h.state_lt

/-- The registry starts with the system actions. -/
theorem NfRegistry.new_valid : NfRegistry.new.Valid := by
  have hempty : (⟨⟨[], [], []⟩, [], [], []⟩ : NfRegistry).Valid :=
    ⟨.empty, fun _ he ↦ (nomatch he), fun _ he ↦ (nomatch he)⟩
  refine ((hempty.registerAction rfl ?_ ?_).registerAction rfl ?_ ?_).registerAction rfl ?_ ?_
  all_goals
    intro x hx
    cases hx

private theorem dependencies_lt {r : NfRegistry} (h : r.Valid) {file : NfFile} {name : String}
    {deps : List Nat} (hdeps : r.dependencies file name = some deps) :
    ∀ i ∈ deps, i < r.objects.actions.length := by
  intro i hi
  obtain ⟨d, -, hd⟩ := (mem_of_mapM hdeps).mp hi
  exact h.action_lt _ (lookup_mem hd)

private theorem readAction_valid {file : NfFile} {r r' : NfRegistry × List Nat} {j : ActionSpec}
    (h : r.1.Valid) (hr : NfRegistry.readAction file r j = some r') : r'.1.Valid := by
  unfold NfRegistry.readAction at hr
  split at hr
  · obtain ⟨i, -, hr⟩ := Option.bind_eq_some_iff.mp hr
    cases hr
    exact h
  · split at hr
    · obtain ⟨id, -, hr⟩ := Option.bind_eq_some_iff.mp hr
      obtain ⟨name, -, hr⟩ := Option.bind_eq_some_iff.mp hr
      obtain ⟨state, hstate, hr⟩ := Option.bind_eq_some_iff.mp hr
      obtain ⟨properties, -, hr⟩ := Option.bind_eq_some_iff.mp hr
      obtain ⟨deps, hdeps, hr⟩ := Option.bind_eq_some_iff.mp hr
      cases hr
      refine h.registerAction rfl (fun s hs ↦ ?_) (dependencies_lt h hdeps)
      cases hs
      exact h.state_lt _ (lookup_mem hstate)
    · obtain ⟨i, -, hr⟩ := Option.bind_eq_some_iff.mp hr
      obtain ⟨deps, hdeps, hr⟩ := Option.bind_eq_some_iff.mp hr
      cases hr
      refine ⟨.dependencies i deps h.created (dependencies_lt h hdeps), fun e he ↦ ?_, h.state_lt⟩
      show e.2 < (r.1.objects.actions.modify i _).length
      rw [List.length_modify]
      exact h.action_lt e he

/-- Reading a file creates objects by constructor calls and additions to dependency lists. -/
theorem NfRegistry.Valid.readFile {r r' : NfRegistry} (h : r.Valid) {file : NfFile}
    (hr : r.readFile file = some r') : r'.Valid := by
  unfold NfRegistry.readFile at hr
  obtain ⟨r₁, hr₁, hr⟩ := Option.bind_eq_some_iff.mp hr
  obtain ⟨⟨r₂, actionList⟩, hr₂, hr⟩ := Option.bind_eq_some_iff.mp hr
  obtain ⟨⟨o, nf⟩, ho, hr⟩ := Option.bind_eq_some_iff.mp hr
  cases hr
  have h₁ : r₁.Valid := by
    refine foldlM_invariant (I := NfRegistry.Valid) ?_ h hr₁
    intro r i r' hr hr'
    obtain ⟨id, -, hr'⟩ := Option.bind_eq_some_iff.mp hr'
    cases hr'
    exact hr.registerState _
  have h₂ : r₂.Valid :=
    foldlM_invariant (I := fun r : NfRegistry × List Nat ↦ r.1.Valid)
      (fun _ _ _ hr hr' ↦ readAction_valid hr hr') h₁ hr₂
  refine ⟨.nf _ _ _ nf h₂.created ho, ?_, ?_⟩
  · obtain ⟨nf', -, -, -, -, rfl, -⟩ := Objects.newNf_eq_some ho
    intro e he
    show e.2 < (r₂.objects.actions.mapIdx _).length
    rw [List.length_mapIdx]
    exact h₂.action_lt e he
  · obtain ⟨nf', -, -, -, -, rfl, -⟩ := Objects.newNf_eq_some ho
    exact h₂.state_lt

end Nflambda.Chain
