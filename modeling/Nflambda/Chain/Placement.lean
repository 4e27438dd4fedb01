import Nflambda.Base.Transition
import Nflambda.Chain.StateExecutions

/-!
# Placement calls

Library `Chain`. The calls that place executions on cores:
`State_instance_execution.assign_core` and `Action_instance_execution.assign_core`,
`src/director/em/nf_model.py:350–398`, and `deployment_model.assign`,
`src/director/em/em.py:193–195`. `none` models an exception.
-/

namespace Nflambda.Chain

open Nflambda.Base

/-- `deployment_model` with the `core_id` of its state executions, `nf_model.py:341`. -/
structure PlacedModel extends DeploymentModel where
  stateCoreId : List Int

/-- `deployment_model(em)` for an execution model that has just been scaled. -/
def PlacedModel.new (em : ExecutionModel) : PlacedModel := { DeploymentModel.new em with
  stateCoreId := em.stateInstanceExecutionList.map fun _ ↦ -1 }

/-- `Action_instance_execution.assign_core`, `nf_model.py:396–398`. -/
def PlacedModel.assignCoreAction (d : PlacedModel) (aIE : Nat) (coreId : Int) :
    Option PlacedModel := do
  let a ← d.actionInstanceExecutionList[aIE]?
  let s ← a.stateInstanceExecution
  return { d with
    actionInstanceExecutionList :=
      d.actionInstanceExecutionList.modify aIE fun a ↦ { a with coreId }
    stateCoreId := d.stateCoreId.set s coreId }

/-- `State_instance_execution.assign_core`, `nf_model.py:350–353`. -/
def PlacedModel.assignCoreState (d : PlacedModel) (sIE : Nat) (coreId : Int) :
    Option PlacedModel := do
  let s ← d.stateInstanceExecutionList[sIE]?
  let d ← s.aIEList.foldlM (fun d aIE ↦ d.assignCoreAction aIE coreId) d
  return { d with stateCoreId := d.stateCoreId.set sIE coreId }

/-- `deployment_model.assign`, `em.py:193–195`: state executions are not told. -/
def PlacedModel.assign (d : PlacedModel) (aIEIndex : Nat) (coreId : Int) : Option PlacedModel := do
  let d' ← d.toDeploymentModel.assign aIEIndex coreId
  return { d' with stateCoreId := d.stateCoreId }

/-- A placement call. -/
inductive PlacementCall
  | state (sIE : Nat) (coreId : Int)
  | action (aIE : Nat) (coreId : Int)
  | deployment (aIEIndex : Nat) (coreId : Int)
  deriving DecidableEq, Repr

/-- The model after a placement call. -/
def PlacedModel.step (d : PlacedModel) : PlacementCall → Option PlacedModel
  | .state sIE coreId => d.assignCoreState sIE coreId
  | .action aIE coreId => d.assignCoreAction aIE coreId
  | .deployment aIEIndex coreId => d.assign aIEIndex coreId

/-- The execution at a position, its state and its core. -/
def PlacedModel.At (d : PlacedModel) (k : Nat) (state : Option Nat) (coreId : Int) : Prop :=
  ∃ a, d.actionInstanceExecutionList[k]? = some a ∧ a.stateInstanceExecution = state ∧
    a.coreId = coreId

/-- All executions bound to a state execution are on its core, and the placement function agrees
with the cores of the executions. -/
structure PlacedModel.CoLocated (d : PlacedModel) : Prop where
  state : ∀ k m core, d.At k (some m) core → d.stateCoreId[m]? = some core
  placement : ∀ k core, d.placementFunction k = some core → ∃ state, d.At k state core

/-- The placement function says nothing of the execution, or that it is on the core. -/
def PlacedModel.PlacedAt (d : PlacedModel) (k : Nat) (coreId : Int) : Prop :=
  d.placementFunction k = none ∨ d.placementFunction k = some coreId

instance decidablePlacedAt (d : PlacedModel) (k : Nat) (coreId : Int) :
    Decidable (d.PlacedAt k coreId) :=
  inferInstanceAs (Decidable (_ ∨ _))

/-- The other executions with the same state are on the core already. -/
def PlacedModel.SiblingsAt (d : PlacedModel) (k m : Nat) (coreId : Int) : Prop :=
  ∀ b ∈ d.actionInstanceExecutionList.zipIdx, b.2 ≠ k → b.1.stateInstanceExecution = some m →
    b.1.coreId = coreId

instance decidableSiblingsAt (d : PlacedModel) (k m : Nat) (coreId : Int) :
    Decidable (d.SiblingsAt k m coreId) :=
  inferInstanceAs (Decidable (∀ b ∈ d.actionInstanceExecutionList.zipIdx, _))

/-- A call that changes one copy of a core finds the others as it would leave them: a call on a
state execution the placement function, a call on an action execution the placement function and
the other executions of its state, and a call on the deployment model the state execution. -/
def PlacedModel.Keeps (d : PlacedModel) : PlacementCall → Prop
  | .state sIE coreId => ∀ s ∈ d.stateInstanceExecutionList[sIE]?, ∀ k ∈ s.aIEList,
      d.PlacedAt k coreId
  | .action aIE coreId => ∀ a ∈ d.actionInstanceExecutionList[aIE]?,
      ∀ m ∈ a.stateInstanceExecution, d.PlacedAt aIE coreId ∧ d.SiblingsAt aIE m coreId
  | .deployment aIEIndex coreId => ∀ a ∈ d.actionInstanceExecutionList[aIEIndex]?,
      ∀ m ∈ a.stateInstanceExecution, d.stateCoreId[m]? = some coreId

instance decidableKeeps (d : PlacedModel) : (c : PlacementCall) → Decidable (d.Keeps c)
  | .state _ _ => inferInstanceAs (Decidable (∀ _ ∈ _, _))
  | .action _ _ => inferInstanceAs (Decidable (∀ _ ∈ _, _))
  | .deployment _ _ => inferInstanceAs (Decidable (∀ _ ∈ _, _))

/-! ### What a call changes -/

/-- The executions with some of them placed on a core. -/
def placeOn (list : List ActionInstanceExecution) (coreId : Int) (placed : List Nat) :
    List ActionInstanceExecution :=
  list.mapIdx fun k a ↦ if k ∈ placed then { a with coreId } else a

/-- Placing nothing. -/
theorem placeOn_nil (list : List ActionInstanceExecution) (coreId : Int) :
    placeOn list coreId [] = list := by
  apply List.ext_getElem?
  intro k
  unfold placeOn
  rw [List.getElem?_mapIdx]
  simp

/-- Placing one execution first. -/
theorem placeOn_modify (list : List ActionInstanceExecution) (coreId : Int) (k : Nat)
    (placed : List Nat) : placeOn (list.modify k fun a ↦ { a with coreId }) coreId placed =
      placeOn list coreId (k :: placed) := by
  apply List.ext_getElem?
  intro j
  unfold placeOn
  rw [List.getElem?_mapIdx, List.getElem?_mapIdx, List.getElem?_modify]
  cases list[j]? with
  | none => rfl
  | some a =>
    by_cases hj : k = j
    · by_cases hp : j ∈ placed <;> simp [hj, hp]
    · have hne : j ≠ k := fun h ↦ hj h.symm
      by_cases hp : j ∈ placed <;> simp [hj, hp, hne]

/-- Placing one execution. -/
theorem modify_eq_placeOn (list : List ActionInstanceExecution) (coreId : Int) (k : Nat) :
    list.modify k (fun a ↦ { a with coreId }) = placeOn list coreId [k] := by
  rw [← placeOn_modify, placeOn_nil]

/-- Executions that are placed have their states and the core, the others are where they were. -/
theorem at_placeOn_iff {d d' : PlacedModel} {placed : List Nat} {core : Int}
    (h : d'.actionInstanceExecutionList = placeOn d.actionInstanceExecutionList core placed)
    (j : Nat) (state : Option Nat) (c : Int) :
    d'.At j state c ↔ if j ∈ placed then c = core ∧ ∃ c0, d.At j state c0 else d.At j state c := by
  unfold PlacedModel.At
  rw [h]
  unfold placeOn
  simp only [List.getElem?_mapIdx, Option.map_eq_some_iff]
  by_cases hj : j ∈ placed
  · simp only [if_pos hj]
    constructor
    · rintro ⟨b, ⟨a, ha, rfl⟩, rfl, rfl⟩
      exact ⟨rfl, _, a, ha, rfl, rfl⟩
    · rintro ⟨rfl, c0, a, ha, rfl, -⟩
      exact ⟨_, ⟨a, ha, rfl⟩, rfl, rfl⟩
  · simp only [if_neg hj]
    constructor
    · rintro ⟨b, ⟨a, ha, rfl⟩, rfl, rfl⟩
      exact ⟨a, ha, rfl, rfl⟩
    · rintro ⟨a, ha, rfl, rfl⟩
      exact ⟨a, ⟨a, ha, rfl⟩, rfl, rfl⟩

/-- The state of an execution is unique. -/
theorem PlacedModel.At.state_eq {d : PlacedModel} {k : Nat} {state state' : Option Nat}
    {c c' : Int} (h : d.At k state c) (h' : d.At k state' c') : state = state' := by
  obtain ⟨a, ha, rfl, -⟩ := h
  obtain ⟨b, hb, rfl, -⟩ := h'
  rw [ha, Option.some.injEq] at hb
  rw [hb]

/-- What `Action_instance_execution.assign_core` does. -/
theorem assignCoreAction_eq_some_iff {d d' : PlacedModel} {k : Nat} {core : Int} :
    d.assignCoreAction k core = some d' ↔ ∃ m c, d.At k (some m) c ∧ d' = { d with
      actionInstanceExecutionList := placeOn d.actionInstanceExecutionList core [k]
      stateCoreId := d.stateCoreId.set m core } := by
  unfold PlacedModel.assignCoreAction PlacedModel.At
  simp only [Option.bind_eq_bind, Option.bind_eq_some_iff, modify_eq_placeOn]
  constructor
  · rintro ⟨a, ha, m, hm, hd⟩
    exact ⟨m, a.coreId, ⟨a, ha, hm, rfl⟩, (Option.some.inj hd).symm⟩
  · rintro ⟨m, c, ⟨a, ha, hm, -⟩, rfl⟩
    exact ⟨a, ha, m, hm, rfl⟩

/-- The loop of `State_instance_execution.assign_core` over executions of one state. -/
theorem foldlM_assignCoreAction {d : PlacedModel} {m : Nat} {core : Int} {l : List Nat}
    (h : ∀ k ∈ l, ∃ c, d.At k (some m) c) :
    l.foldlM (fun d k ↦ d.assignCoreAction k core) d = some { d with
      actionInstanceExecutionList := placeOn d.actionInstanceExecutionList core l
      stateCoreId := if l = [] then d.stateCoreId else d.stateCoreId.set m core } := by
  induction l generalizing d with
  | nil =>
    rw [placeOn_nil, if_pos rfl]
    rfl
  | cons k l ih =>
    obtain ⟨c, hc⟩ := h k List.mem_cons_self
    have hone : d.assignCoreAction k core = some _ :=
      assignCoreAction_eq_some_iff.mpr ⟨m, c, hc, rfl⟩
    rw [List.foldlM_cons, hone, Option.bind_eq_bind, Option.bind_some, ih]
    · rw [← modify_eq_placeOn, placeOn_modify, if_neg (List.cons_ne_nil k l)]
      by_cases hl : l = []
      · simp [hl]
      · simp [hl]
    · intro j hj
      obtain ⟨c', hc'⟩ := h j (List.mem_cons_of_mem k hj)
      by_cases hjk : j ∈ [k]
      · refine ⟨core, (at_placeOn_iff (d := d) rfl j _ _).mpr ?_⟩
        rw [if_pos hjk]
        exact ⟨rfl, c', hc'⟩
      · refine ⟨c', (at_placeOn_iff (d := d) rfl j _ _).mpr ?_⟩
        rw [if_neg hjk]
        exact hc'

/-! ### References between executions and states -/

/-- State executions list the executions that are bound to them, and have a core each. -/
structure PlacedModel.Sound (d : PlacedModel) : Prop where
  lists : ∀ (m : Nat) (s : StateInstanceExecution), d.stateInstanceExecutionList[m]? = some s →
    ∀ k, k ∈ s.aIEList ↔ ∃ c, d.At k (some m) c
  bound : ∀ k m c, d.At k (some m) c →
    m < d.stateInstanceExecutionList.length ∧ m < d.stateCoreId.length

/-- Nothing but cores is changed. -/
structure SameBindings (d d' : PlacedModel) : Prop where
  states : d'.stateInstanceExecutionList = d.stateInstanceExecutionList
  cores : d'.stateCoreId.length = d.stateCoreId.length
  at_iff : ∀ k state, (∃ c, d'.At k state c) ↔ ∃ c, d.At k state c

/-- References stay sound when only cores are changed. -/
theorem PlacedModel.Sound.mono {d d' : PlacedModel} (h : d.Sound) (hs : SameBindings d d') :
    d'.Sound where
  lists m s hm k := by
    rw [hs.states] at hm
    rw [h.lists m s hm k, hs.at_iff]
  bound k m c hc := by
    obtain ⟨c', hc'⟩ := (hs.at_iff k (some m)).mp ⟨c, hc⟩
    rw [hs.states, hs.cores]
    exact h.bound k m c' hc'

/-- Placing executions keeps their states. -/
theorem sameBindings_placeOn {d d' : PlacedModel} {placed : List Nat} {core : Int}
    (hlist : d'.actionInstanceExecutionList =
      placeOn d.actionInstanceExecutionList core placed)
    (hstates : d'.stateInstanceExecutionList = d.stateInstanceExecutionList)
    (hcores : d'.stateCoreId.length = d.stateCoreId.length) : SameBindings d d' where
  states := hstates
  cores := hcores
  at_iff k state := by
    simp only [at_placeOn_iff hlist]
    by_cases hk : k ∈ placed
    · simp only [if_pos hk]
      constructor
      · rintro ⟨c, -, hc⟩
        exact hc
      · intro hc
        exact ⟨core, rfl, hc⟩
    · simp only [if_neg hk]

/-- What `State_instance_execution.assign_core` does. -/
theorem assignCoreState_eq_some_iff {d d' : PlacedModel} (h : d.Sound) {m : Nat} {core : Int} :
    d.assignCoreState m core = some d' ↔ ∃ s, d.stateInstanceExecutionList[m]? = some s ∧
      d' = { d with
        actionInstanceExecutionList := placeOn d.actionInstanceExecutionList core s.aIEList
        stateCoreId := d.stateCoreId.set m core } := by
  have hloop (s : StateInstanceExecution) (hs : d.stateInstanceExecutionList[m]? = some s) :
      d.assignCoreState m core = some { d with
        actionInstanceExecutionList := placeOn d.actionInstanceExecutionList core s.aIEList
        stateCoreId := d.stateCoreId.set m core } := by
    have hfold : s.aIEList.foldlM (fun d k ↦ d.assignCoreAction k core) d = some _ :=
      foldlM_assignCoreAction fun k hk ↦ (h.lists m s hs k).mp hk
    unfold PlacedModel.assignCoreState
    rw [hs, Option.bind_eq_bind, Option.bind_some, hfold, Option.bind_eq_bind, Option.bind_some]
    by_cases hl : s.aIEList = []
    · simp [hl]
    · simp [hl]
  constructor
  · intro hd
    cases hs : d.stateInstanceExecutionList[m]? with
    | none =>
      rw [PlacedModel.assignCoreState, hs] at hd
      cases hd
    | some s =>
      rw [hloop s hs, Option.some.injEq] at hd
      exact ⟨s, rfl, hd.symm⟩
  · rintro ⟨s, hs, rfl⟩
    exact hloop s hs

/-- What `deployment_model.assign` does. -/
theorem assign_eq_some_iff {d d' : PlacedModel} {k : Nat} {core : Int} :
    d.assign k core = some d' ↔ k < d.actionInstanceExecutionList.length ∧ d' = { d with
      actionInstanceExecutionList := placeOn d.actionInstanceExecutionList core [k]
      placementFunction := Function.update d.placementFunction k (some core) } := by
  unfold PlacedModel.assign DeploymentModel.assign
  rw [modify_eq_placeOn]
  by_cases hk : k < d.actionInstanceExecutionList.length
  · simp only [if_pos hk, Option.bind_eq_bind, Option.bind_some]
    constructor
    · intro hd
      exact ⟨hk, (Option.some.inj hd).symm⟩
    · rintro ⟨-, rfl⟩
      rfl
  · simp [hk]

/-- Every call keeps the references. -/
theorem sameBindings_step {d d' : PlacedModel} (h : d.Sound) {c : PlacementCall}
    (hd : d.step c = some d') : SameBindings d d' := by
  cases c with
  | state m core =>
    obtain ⟨s, -, rfl⟩ := (assignCoreState_eq_some_iff h).mp hd
    exact sameBindings_placeOn rfl rfl (List.length_set ..)
  | action k core =>
    obtain ⟨m, c, -, rfl⟩ := assignCoreAction_eq_some_iff.mp hd
    exact sameBindings_placeOn rfl rfl (List.length_set ..)
  | deployment k core =>
    obtain ⟨-, rfl⟩ := assign_eq_some_iff.mp hd
    exact sameBindings_placeOn rfl rfl rfl

/-! ### When a call keeps executions and states together -/

section Steps

variable {d d' : PlacedModel}

private theorem siblingsAt_iff {k m : Nat} {core : Int} :
    d.SiblingsAt k m core ↔ ∀ j c, j ≠ k → d.At j (some m) c → c = core := by
  unfold PlacedModel.SiblingsAt
  constructor
  · rintro h j c hj ⟨a, ha, hm, rfl⟩
    exact h (a, j) (List.mem_zipIdx_iff_getElem?.mpr ha) hj hm
  · rintro h ⟨a, j⟩ hmem hj hm
    exact h j a.coreId hj ⟨a, List.mem_zipIdx_iff_getElem?.mp hmem, hm, rfl⟩

private theorem forall_state_iff {k : Nat} {P : Nat → Prop} :
    (∀ a ∈ d.actionInstanceExecutionList[k]?, ∀ m ∈ a.stateInstanceExecution, P m) ↔
      ∀ m c, d.At k (some m) c → P m := by
  constructor
  · rintro h m c ⟨a, ha, hm, -⟩
    exact h a ha m hm
  · intro h a ha m hm
    exact h m a.coreId ⟨a, ha, hm, rfl⟩

/-- The core of a state execution after a call that sets it. -/
private theorem getElem?_set_of_at (hs : d.Sound) {k m : Nat} {c : Int} (hat : d.At k (some m) c)
    (core : Int) : (d.stateCoreId.set m core)[m]? = some core :=
  List.getElem?_set_self (hs.bound k m c hat).2

/-- A call that leaves the placement function alone keeps it right exactly when it puts no execution
elsewhere. -/
private theorem placement_placeOn_iff (hp : d.CoLocated) {placed : List Nat} {core : Int}
    (hlist : d'.actionInstanceExecutionList =
      placeOn d.actionInstanceExecutionList core placed)
    (hfun : d'.placementFunction = d.placementFunction) :
    (∀ k c, d'.placementFunction k = some c → ∃ state, d'.At k state c) ↔
      ∀ k ∈ placed, d.PlacedAt k core := by
  have hat := at_placeOn_iff hlist
  rw [hfun]
  constructor
  · intro h k hk
    cases hplaced : d.placementFunction k with
    | none => exact Or.inl hplaced
    | some c =>
      obtain ⟨state, hc⟩ := h k c hplaced
      rw [hat, if_pos hk] at hc
      exact Or.inr (hc.1 ▸ hplaced)
  · intro h k c hplaced
    obtain ⟨state, hc⟩ := hp.placement k c hplaced
    refine ⟨state, (hat k state c).mpr ?_⟩
    by_cases hk : k ∈ placed
    · rw [if_pos hk]
      refine ⟨?_, c, hc⟩
      rcases h k hk with hnone | hsome
      · rw [hplaced] at hnone
        cases hnone
      · rw [hplaced, Option.some.injEq] at hsome
        exact hsome
    · rw [if_neg hk]
      exact hc

/-- A call on a state execution moves all its executions, but not in the placement function. -/
theorem coLocated_state_iff (hs : d.Sound) (hp : d.CoLocated) {m : Nat} {core : Int}
    (hd : d.assignCoreState m core = some d') :
    d'.CoLocated ↔ d.Keeps (.state m core) := by
  obtain ⟨s, hm, rfl⟩ := (assignCoreState_eq_some_iff hs).mp hd
  have hat := @at_placeOn_iff d { d with
    actionInstanceExecutionList := placeOn d.actionInstanceExecutionList core s.aIEList
    stateCoreId := d.stateCoreId.set m core } s.aIEList core rfl
  have hlist := hs.lists m s hm
  have hkeeps : d.Keeps (.state m core) ↔ ∀ k ∈ s.aIEList, d.PlacedAt k core := by
    simp only [PlacedModel.Keeps, hm, Option.mem_def, Option.some.injEq, forall_eq']
  have hplacement := @placement_placeOn_iff d { d with
    actionInstanceExecutionList := placeOn d.actionInstanceExecutionList core s.aIEList
    stateCoreId := d.stateCoreId.set m core } hp s.aIEList core rfl rfl
  rw [hkeeps, ← hplacement]
  refine ⟨fun h ↦ h.placement, fun h ↦ ⟨fun k m' c hc ↦ ?_, h⟩⟩
  rw [hat] at hc
  by_cases hk : k ∈ s.aIEList
  · rw [if_pos hk] at hc
    obtain ⟨rfl, c0, hc0⟩ := hc
    obtain ⟨c1, hc1⟩ := (hlist k).mp hk
    cases hc0.state_eq hc1
    exact getElem?_set_of_at hs hc1 c
  · rw [if_neg hk] at hc
    have hne : m ≠ m' := by
      rintro rfl
      exact hk ((hlist k).mpr ⟨c, hc⟩)
    exact (List.getElem?_set_ne hne).trans (hp.state k m' c hc)

/-- A call on an action execution moves it and its state, but not the other executions of the state
and not in the placement function. -/
theorem coLocated_action_iff (hs : d.Sound) (hp : d.CoLocated) {k : Nat} {core : Int}
    (hd : d.assignCoreAction k core = some d') :
    d'.CoLocated ↔ d.Keeps (.action k core) := by
  obtain ⟨m, c0, hk, rfl⟩ := assignCoreAction_eq_some_iff.mp hd
  have hat := @at_placeOn_iff d { d with
    actionInstanceExecutionList := placeOn d.actionInstanceExecutionList core [k]
    stateCoreId := d.stateCoreId.set m core } [k] core rfl
  simp only [List.mem_singleton] at hat
  have hkeeps : d.Keeps (.action k core) ↔ d.PlacedAt k core ∧
      ∀ j c, j ≠ k → d.At j (some m) c → c = core := by
    rw [← siblingsAt_iff]
    refine forall_state_iff.trans ⟨fun h ↦ h m c0 hk, fun h m' c hc ↦ ?_⟩
    cases hc.state_eq hk
    exact h
  have hplacement := @placement_placeOn_iff d { d with
    actionInstanceExecutionList := placeOn d.actionInstanceExecutionList core [k]
    stateCoreId := d.stateCoreId.set m core } hp [k] core rfl rfl
  rw [List.forall_mem_singleton] at hplacement
  rw [hkeeps, ← hplacement]
  constructor
  · intro h
    refine ⟨h.placement, fun j c hj hc ↦ ?_⟩
    have hsame := h.state j m c ((hat j (some m) c).mpr (by rwa [if_neg hj]))
    rw [getElem?_set_of_at hs hk core, Option.some.injEq] at hsame
    exact hsame.symm
  · rintro ⟨hplaced, hsiblings⟩
    refine ⟨fun j m' c hc ↦ ?_, hplaced⟩
    rw [hat] at hc
    by_cases hjk : j = k
    · rw [if_pos hjk] at hc
      obtain ⟨rfl, c1, hc1⟩ := hc
      subst hjk
      cases hc1.state_eq hk
      exact getElem?_set_of_at hs hk c
    · rw [if_neg hjk] at hc
      by_cases hm : m = m'
      · subst hm
        rw [hsiblings j c hjk hc]
        exact getElem?_set_of_at hs hk core
      · exact (List.getElem?_set_ne hm).trans (hp.state j m' c hc)

/-- A call on the deployment model moves an execution, also in the placement function, but not its
state. -/
theorem coLocated_deployment_iff (hp : d.CoLocated) {k : Nat} {core : Int}
    (hd : d.assign k core = some d') :
    d'.CoLocated ↔ d.Keeps (.deployment k core) := by
  obtain ⟨hlt, rfl⟩ := assign_eq_some_iff.mp hd
  have hat := @at_placeOn_iff d { d with
    actionInstanceExecutionList := placeOn d.actionInstanceExecutionList core [k]
    placementFunction := Function.update d.placementFunction k (some core) } [k] core rfl
  simp only [List.mem_singleton] at hat
  have hkeeps : d.Keeps (.deployment k core) ↔
      ∀ m c, d.At k (some m) c → d.stateCoreId[m]? = some core := forall_state_iff
  rw [hkeeps]
  constructor
  · intro h m c hc
    exact h.state k m core ((hat k (some m) core).mpr (by rw [if_pos rfl]; exact ⟨rfl, c, hc⟩))
  · intro h
    refine ⟨fun j m c hc ↦ ?_, fun j c hj ↦ ?_⟩
    · rw [hat] at hc
      by_cases hjk : j = k
      · rw [if_pos hjk] at hc
        obtain ⟨rfl, c1, hc1⟩ := hc
        subst hjk
        exact h m c1 hc1
      · rw [if_neg hjk] at hc
        exact hp.state j m c hc
    · by_cases hjk : j = k
      · subst hjk
        have hc : core = c := by simpa using hj
        have hget := List.getElem?_eq_getElem hlt
        refine ⟨d.actionInstanceExecutionList[j].stateInstanceExecution, (hat j _ c).mpr ?_⟩
        rw [if_pos rfl]
        exact ⟨hc.symm, _, _, hget, rfl, rfl⟩
      · have hold : d.placementFunction j = some c := by
          simpa [Function.update_of_ne hjk] using hj
        obtain ⟨state, hc⟩ := hp.placement j c hold
        refine ⟨state, (hat j state c).mpr ?_⟩
        rw [if_neg hjk]
        exact hc

end Steps

/-! ### Runs of calls -/

/-- The executions of a model that has just been scaled. -/
private theorem at_new_iff {sfc : Sfc} {plan : List Nat} {em : ExecutionModel}
    (hem : scaling sfc plan = some em) {k : Nat} {state : Option Nat} {c : Int} :
    (PlacedModel.new em).At k state c ↔
      ∃ a, (scaledExecutions sfc plan)[k]? = some a ∧ a.stateInstanceExecution = state ∧
        a.coreId = c := by
  have hmap (l : List ActionInstanceExecution) :
      (∃ a, l[k]? = some a ∧ a.stateInstanceExecution = state ∧ a.coreId = c) ↔
        (l.map fun a ↦ (a.stateInstanceExecution, a.coreId))[k]? = some (state, c) := by
    simp only [List.getElem?_map, Option.map_eq_some_iff, Prod.mk.injEq]
  rw [hmap, ← (bindings_of_scaling hem).2, ← hmap]
  rfl

private theorem core_of_scaled {sfc : Sfc} {plan : List Nat} {k : Nat}
    {a : ActionInstanceExecution} (ha : (scaledExecutions sfc plan)[k]? = some a) :
    a.coreId = -1 := by
  obtain ⟨e, he, rfl⟩ := getElem?_scaledExecutions.mp ha
  obtain ⟨i, -, j, -, rfl⟩ := mem_executions_iff.mp (List.mem_of_getElem? he)
  rfl

/-- The references of a model that has just been scaled are sound. -/
theorem sound_new {sfc : Sfc} (h : sfc.WellFormed) {plan : List Nat} {em : ExecutionModel}
    (hem : scaling sfc plan = some em) : (PlacedModel.new em).Sound := by
  have hstates := (bindings_of_scaling hem).1
  constructor
  · intro m s hs k
    have hs' : (stateExecutions sfc plan)[m]? = some s := hstates ▸ hs
    rw [(listsBound h plan m s hs').2 k]
    constructor
    · rintro ⟨a, ha, hm⟩
      exact ⟨a.coreId, (at_new_iff hem).mpr ⟨a, ha, hm, rfl⟩⟩
    · rintro ⟨c, hc⟩
      obtain ⟨a, ha, hm, -⟩ := (at_new_iff hem).mp hc
      exact ⟨a, ha, hm⟩
  · intro k m c hc
    obtain ⟨a, ha, hm, -⟩ := (at_new_iff hem).mp hc
    obtain ⟨e, he, rfl⟩ := getElem?_scaledExecutions.mp ha
    obtain ⟨s, hs, -⟩ := (boundTo_eq_some_iff h he).mp hm
    have hlt : m < em.stateInstanceExecutionList.length := by
      rw [hstates]
      exact (List.getElem?_eq_some_iff.mp hs).1
    exact ⟨hlt, by simpa [PlacedModel.new] using hlt⟩

/-- In a model that has just been scaled, nothing is on any core. -/
theorem coLocated_new {sfc : Sfc} (h : sfc.WellFormed) {plan : List Nat} {em : ExecutionModel}
    (hem : scaling sfc plan = some em) : (PlacedModel.new em).CoLocated := by
  constructor
  · intro k m c hc
    have hlt := (sound_new h hem).bound k m c hc
    obtain ⟨a, ha, -, rfl⟩ := (at_new_iff hem).mp hc
    rw [core_of_scaled ha]
    simp only [PlacedModel.new, List.getElem?_map, Option.map_eq_some_iff]
    exact ⟨_, List.getElem?_eq_getElem hlt.1, trivial⟩
  · intro k c hplaced
    cases hplaced

/-- Along any calls, executions stay together with their states, and the placement function agrees
with them, exactly as long as every call that changes one copy of a core finds the others as it
would leave them. -/
theorem co_location_iff {o : Objects} (ho : o.Created) {nfs : List Nat} {sfc : Sfc}
    (hsfc : Sfc.new o nfs = some sfc) {plan : List Nat} {em : ExecutionModel}
    (hem : scaling sfc plan = some em) (calls : List PlacementCall) :
    Visits PlacedModel.step PlacedModel.CoLocated (PlacedModel.new em) calls ↔
      Along PlacedModel.step PlacedModel.Keeps (PlacedModel.new em) calls := by
  have h := wellFormed_of_new ho hsfc
  apply visits_iff_along (I := PlacedModel.Sound)
  · intro d c d' hs hd
    exact hs.mono (sameBindings_step hs hd)
  · intro d c d' hs hp hd
    cases c with
    | state m core => exact coLocated_state_iff hs hp hd
    | action k core => exact coLocated_action_iff hs hp hd
    | deployment k core => exact coLocated_deployment_iff hp hd
  · intro d c hs hd
    -- a call that raises an exception has nothing to change
    cases c with
    | state m core =>
      intro s hm
      have hsome : d.assignCoreState m core = some _ :=
        (assignCoreState_eq_some_iff hs).mpr ⟨s, hm, rfl⟩
      cases hd.symm.trans hsome
    | action k core =>
      refine forall_state_iff.mpr fun m c hc ↦ ?_
      have hsome : d.assignCoreAction k core = some _ :=
        assignCoreAction_eq_some_iff.mpr ⟨m, c, hc, rfl⟩
      cases hd.symm.trans hsome
    | deployment k core =>
      refine forall_state_iff.mpr fun m c hc ↦ ?_
      obtain ⟨a, ha, -⟩ := hc
      have hlt := (List.getElem?_eq_some_iff.mp ha).1
      have hsome : d.assign k core = some _ := assign_eq_some_iff.mpr ⟨hlt, rfl⟩
      cases hd.symm.trans hsome
  · exact sound_new h hem
  · exact coLocated_new h hem

/-- The classifier and the data action move to core 2 with their state, and the deployment model is
told of both. -/
theorem co_location_gd : ∃ em, scaling gdSfc [1, 1, 1, 1, 1] = some em ∧
    Visits PlacedModel.step PlacedModel.CoLocated (PlacedModel.new em)
      [.state 0 2, .deployment 1 2, .deployment 3 2] := by
  obtain ⟨em, hem⟩ := Option.isSome_iff_exists.mp
    (show (scaling gdSfc [1, 1, 1, 1, 1]).isSome by decide)
  refine ⟨em, hem, (co_location_iff gdRegistry_created new_gd hem _).mpr ?_⟩
  have heq : em = (scaling gdSfc [1, 1, 1, 1, 1]).get (by decide) := by simp [hem]
  rw [heq]
  decide

/-- The deployment model alone is told to move the classifier: the data action, which uses the same
state, and the state itself stay behind. -/
theorem classifier_moved_alone : ∃ em d, scaling gdSfc [1, 1, 1, 1, 1] = some em ∧
    (PlacedModel.new em).step (.deployment 1 2) = some d ∧
    (d.At 1 (some 0) 2 ∧ d.At 3 (some 0) (-1) ∧ d.stateCoreId[0]? = some (-1)) ∧
    ¬ Visits PlacedModel.step PlacedModel.CoLocated (PlacedModel.new em) [.deployment 1 2] := by
  let em := (scaling gdSfc [1, 1, 1, 1, 1]).get (by decide)
  let d := ((PlacedModel.new em).step (.deployment 1 2)).get (by decide)
  have hstep : (PlacedModel.new em).step (.deployment 1 2) = some d := (Option.some_get _).symm
  have hclassifier : d.At 1 (some 0) 2 := ⟨⟨0, 0, 0, some 0, [0], 2⟩, by decide, rfl, rfl⟩
  have hdata : d.At 3 (some 0) (-1) := ⟨⟨3, 0, 0, some 0, [1, 2], -1⟩, by decide, rfl, rfl⟩
  have hstate : d.stateCoreId[0]? = some (-1) := by decide
  refine ⟨em, d, (Option.some_get _).symm, hstep, ⟨hclassifier, hdata, hstate⟩, fun h ↦ ?_⟩
  have htogether : d.CoLocated := h.2 d hstep
  have hmoved := htogether.state 1 0 2 hclassifier
  rw [hstate] at hmoved
  exact absurd hmoved (by decide)

end Nflambda.Chain
