import Nflambda.Director.Graph

/-!
# Deployment of a planned graph

Library `Director`. Source: `update_deployment`, the notebook
`src/RL_agent/rl_orchestrator.ipynb:252–357`, with the even placement that its
constant `decomposed = False` selects. The commands it builds are those of the
helpers of `src/director/nflambda/platform.py`. `None` models an exception.
-/

namespace Nflambda.Director

open Nflambda.Base

/-- `nflambda.parameter`, `rl_orchestrator.ipynb:255–260`. -/
def deploymentParameter : Parameter :=
  ((((Parameter.new.set "state_size" 1000000).set "data_state" 4000).set "control_state" 100).set
    "control_frequency" 5).set "control_complexity" 500

/-- `avaliable_cores_data`, `rl_orchestrator.ipynb:283–286`. -/
def availableCoresData (numDataCore : Int) : List Int :=
  (List.range numDataCore.toNat).map (fun i ↦ ((i : Int) * 2 + 1) % 48)

/-- `avaliable_cores_control`, `rl_orchestrator.ipynb:287–288`. -/
def availableCoresControl (numExecutionCore numDataCore : Int) : List Int :=
  (List.range numExecutionCore.toNat).map (fun i ↦ ((i : Int) * 2 + numDataCore * 2 + 1) % 48)

/-- `cores[execution_id % count]`. -/
def coreOf (cores : List Int) (executionId : Nat) (count : Int) : Option Int :=
  if count = 0 then none
  else (pyIdx? cores.length (Int.fmod executionId count)).map cores.get

/-- The core of the data or control actions of an execution, `rl_orchestrator.ipynb:279–296`. -/
def coreFor (numExecutionCore : Int) (isData : Bool) (executionId : Nat) : Option Int :=
  let numDataCore := 24 - numExecutionCore
  if isData then coreOf (availableCoresData numDataCore) executionId numDataCore
  else coreOf (availableCoresControl numExecutionCore numDataCore) executionId numExecutionCore

/-- One iteration of the placement loop, `rl_orchestrator.ipynb:293–296`. -/
def placeEntry (numExecutionCore : Int) (i : ActionRuntime) : Option ActionRuntime :=
  (coreFor numExecutionCore i.isData i.executionId).map fun coreId ↦ { i with coreId }

/-- The placement loop, `rl_orchestrator.ipynb:292–296`. -/
def place (numExecutionCore : Int) (actions : List ActionRuntime) :
    Option (List ActionRuntime) :=
  actions.mapM (placeEntry numExecutionCore)

/-- The first loop over the states, `rl_orchestrator.ipynb:262–265`. -/
def createStates (states : List StateRuntime) : List Command :=
  states.zipIdx.map (fun i ↦ createState 0 i.2)

/-- The command for an entry that is neither `packet_in` nor `packet_out`,
`rl_orchestrator.ipynb:309–311,332–334`. -/
def createEntry (i : ActionRuntime × Nat) : Command :=
  createAction i.1.action.action.registrationId i.2 i.1.stateId i.1.coreId

/-- The body of the first loop over the actions, `rl_orchestrator.ipynb:301–312`. -/
def installFirst (i : ActionRuntime × Nat) : List Command :=
  if i.1.action.action.name = "packet_in" then []
  else if i.1.action.action.name = "packet_out" then []
  else [createEntry i]

/-- The body of the second loop over the actions, `rl_orchestrator.ipynb:315–335`. -/
def installSecond (i : ActionRuntime × Nat) : List Command :=
  if i.1.action.action.name = "packet_in" then
    [configureRssReta (i.1.startingBucket : Int) i.1.numBucket i.1.coreId i.2,
      workerFirstAction i.1.coreId i.1.nextAction (i.1.startingBucket : Int) i.1.numBucket]
  else if i.1.action.action.name = "packet_out" then [createPacketOutAction i.2 i.1.coreId]
  else [createEntry i]

/-- The body of the second loop over the states, `rl_orchestrator.ipynb:340–352`. The position of
a path is searched by its value. -/
def installPath (i : StateRuntime × Nat) : List Command :=
  createState 0 i.2 ::
    ((List.ofFn i.1.path).filter (fun j ↦ decide (j ≠ -1))).map
      (fun j ↦ installSimplePath i.2 j ((List.ofFn i.1.path).idxOf j : Nat))

/-- The configuration commands for given tables, once the entries are placed. -/
def configurationCommands (parameter : Parameter) (states : List StateRuntime)
    (actions : List ActionRuntime) : List Command :=
  configureParameter parameter :: createStates states ++ actions.zipIdx.flatMap installFirst ++
    actions.zipIdx.flatMap installSecond ++ states.zipIdx.flatMap installPath

/-- All commands for given tables, once the entries are placed. -/
def deploymentCommands (parameter : Parameter) (states : List StateRuntime)
    (actions : List ActionRuntime) : List Command :=
  configurationCommands parameter states actions ++ runCommands

/-- `update_deployment`, `rl_orchestrator.ipynb:252–357`: the commands that are sent. -/
def updateDeployment (numExecutionCore : Int) (g : NfunctorGraph) : Option (List Command) :=
  (place numExecutionCore g.actions).map (deploymentCommands deploymentParameter g.states)

/-- An action entry without its core. -/
def ActionRuntime.unplaced (a : ActionRuntime) : ActionRuntime := { a with coreId := 1 }

private theorem place_cons {numExecutionCore : Int} {a : ActionRuntime}
    {actions placed : List ActionRuntime}
    (h : place numExecutionCore (a :: actions) = some placed) :
    ∃ b, placeEntry numExecutionCore a = some b ∧
      ∃ rest, place numExecutionCore actions = some rest ∧ placed = b :: rest := by
  unfold place at h
  rw [List.mapM_cons] at h
  cases hb : placeEntry numExecutionCore a with
  | none =>
    rw [hb] at h
    cases h
  | some b =>
    cases hrest : actions.mapM (placeEntry numExecutionCore) with
    | none =>
      rw [hb, hrest] at h
      cases h
    | some rest =>
      rw [hb, hrest] at h
      cases h
      exact ⟨b, rfl, rest, hrest, rfl⟩

/-- Placement changes the cores of entries only. -/
theorem place_unplaced {numExecutionCore : Int} {actions placed : List ActionRuntime}
    (h : place numExecutionCore actions = some placed) :
    placed.map ActionRuntime.unplaced = actions.map ActionRuntime.unplaced := by
  induction actions generalizing placed with
  | nil =>
    cases h
    rfl
  | cons a actions ih =>
    obtain ⟨b, hb, rest, hrest, rfl⟩ := place_cons h
    obtain ⟨core, -, rfl⟩ := Option.map_eq_some_iff.mp hb
    rw [List.map_cons, List.map_cons, ih hrest]
    rfl

/-- A placed entry is an entry of the table with a core. -/
theorem exists_of_mem_place {numExecutionCore : Int} {actions placed : List ActionRuntime}
    (h : place numExecutionCore actions = some placed) {b : ActionRuntime} (hb : b ∈ placed) :
    ∃ a ∈ actions, ∃ coreId, b = { a with coreId } := by
  induction actions generalizing placed with
  | nil =>
    cases h
    simp at hb
  | cons a actions ih =>
    obtain ⟨b', hb', rest, hrest, rfl⟩ := place_cons h
    obtain ⟨core, -, rfl⟩ := Option.map_eq_some_iff.mp hb'
    rcases List.mem_cons.mp hb with rfl | hb
    · exact ⟨a, List.mem_cons_self, core, rfl⟩
    · obtain ⟨a', ha', hcore⟩ := ih hrest hb
      exact ⟨a', List.mem_cons_of_mem a ha', hcore⟩

/-- Every entry of the table is placed. -/
theorem exists_placed {numExecutionCore : Int} {actions placed : List ActionRuntime}
    (h : place numExecutionCore actions = some placed) {a : ActionRuntime} (ha : a ∈ actions) :
    ∃ coreId, { a with coreId } ∈ placed := by
  induction actions generalizing placed with
  | nil => simp at ha
  | cons a' actions ih =>
    obtain ⟨b', hb', rest, hrest, rfl⟩ := place_cons h
    obtain ⟨core, -, rfl⟩ := Option.map_eq_some_iff.mp hb'
    rcases List.mem_cons.mp ha with rfl | ha
    · exact ⟨core, List.mem_cons_self⟩
    · obtain ⟨core', hcore⟩ := ih hrest ha
      exact ⟨core', List.mem_cons_of_mem _ hcore⟩

/-- Every placed entry is on the core of its kind and execution. -/
theorem coreFor_of_place {numExecutionCore : Int} {actions placed : List ActionRuntime}
    (h : place numExecutionCore actions = some placed) :
    ∀ b ∈ placed, coreFor numExecutionCore b.isData b.executionId = some b.coreId := by
  induction actions generalizing placed with
  | nil =>
    cases h
    simp
  | cons a actions ih =>
    obtain ⟨b, hb, rest, hrest, rfl⟩ := place_cons h
    obtain ⟨core, hcore, rfl⟩ := Option.map_eq_some_iff.mp hb
    intro b hb
    rcases List.mem_cons.mp hb with rfl | hb
    · exact hcore
    · exact ih hrest b hb

private theorem coreOf_range {cores : List Int} (h : ∀ c ∈ cores, 0 ≤ c ∧ c < 48 ∧ c % 2 = 1)
    {executionId : Nat} {count c : Int} (hc : coreOf cores executionId count = some c) :
    0 ≤ c ∧ c < 48 ∧ c % 2 = 1 := by
  unfold coreOf at hc
  split at hc
  · cases hc
  · obtain ⟨i, -, rfl⟩ := Option.map_eq_some_iff.mp hc
    exact h _ (List.get_mem cores i)

/-- Entries are placed on odd cores. -/
theorem coreFor_range {numExecutionCore c : Int} {isData : Bool} {executionId : Nat}
    (h : coreFor numExecutionCore isData executionId = some c) :
    0 ≤ c ∧ c < 48 ∧ c % 2 = 1 := by
  unfold coreFor at h
  split at h
  · refine coreOf_range ?_ h
    intro c hc
    obtain ⟨i, -, rfl⟩ := List.mem_map.mp hc
    omega
  · refine coreOf_range ?_ h
    intro c hc
    obtain ⟨i, -, rfl⟩ := List.mem_map.mp hc
    omega

end Nflambda.Director
