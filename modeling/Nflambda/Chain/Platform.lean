import Nflambda.Base.Binary64
import Nflambda.Chain.Scaling
import Nflambda.Director.Command

/-!
# Deployment of a scaled chain

Library `Chain`. Source: `NFlambda.deployment`,
`src/director/nflambda/platform.py:171–232`. The commands it builds are those of
the helpers in the same file. `none` models an exception.
-/

namespace Nflambda.Chain

open Nflambda.Base Nflambda.Director

/-- A number as Python holds it: `starting_bucket` starts as an `int` and becomes a `float`. -/
inductive Number where
  | int (i : Int)
  | float (x : ℚ)
  deriving DecidableEq, Repr

/-- `str` of a non-negative number. -/
instance : ToString Number where
  toString
    | .int i => toString i
    | .float x => binary64Repr x

/-- The value of a number. -/
def Number.value : Number → ℚ
  | .int i => i
  | .float x => x

/-- `num_buckets`, `platform.py:193`: true division. -/
def numBuckets (nPacketIn : Nat) : ℚ := toBinary64 (512 / nPacketIn)

/-- `starting_bucket` in round `i` of the loop, `platform.py:194–199`. -/
def startingBucket (nPacketIn : Nat) : Nat → Number
  | 0 => .int 0
  | i + 1 => .float (toBinary64 ((startingBucket nPacketIn i).value + numBuckets nPacketIn))

/-- The action of an execution. -/
def DeploymentModel.actionOf (d : DeploymentModel) (a : ActionInstanceExecution) :
    Option Action := do
  let i ← d.sfc.instances[a.actionInstance]?
  d.sfc.objects.actions[i.action]?

/-- The loop over the states, `platform.py:179–181`. -/
def DeploymentModel.createStates (d : DeploymentModel) : Option (List Command) :=
  d.stateInstanceExecutionList.zipIdx.mapM fun s ↦ do
    let i ← d.sfc.stateInstanceList[s.1.stateInstance]?
    let state ← d.sfc.objects.states[i.state]?
    return createState state.registrationId s.2

/-- The body of the loop over the actions, `platform.py:184–189`. -/
def DeploymentModel.createActions (d : DeploymentModel) (a : ActionInstanceExecution × Nat) :
    Option (List Command) := do
  let action ← d.actionOf a.1
  let own ←
    if action.name ∉ ["packet_in", "packet_out", "drop"] then do
      let state ← a.1.stateInstanceExecution
      pure [createAction action.registrationId a.2 state a.1.coreId]
    else pure []
  let out ←
    if action.name = "packet_out" then do
      let core ← d.placementFunction a.2
      pure [createPacketOutAction a.2 core]
    else pure []
  return own ++ out

/-- The body of the loop that fills the redirection table, `platform.py:195–200`. -/
def DeploymentModel.configureReta (d : DeploymentModel) (nPacketIn i : Nat) : Option Command := do
  let _ ← d.actionInstanceExecutionList[i]?
  let core ← d.placementFunction i
  return configureRssReta (startingBucket nPacketIn i) ⌊numBuckets nPacketIn⌋ core i

/-- The executions that depend on execution `i`, by their positions. -/
def DeploymentModel.dependents (d : DeploymentModel) (i : Nat) : List Nat :=
  (d.actionInstanceExecutionList.zipIdx.filter fun a ↦ i ∈ a.1.dependencyList).map Prod.snd

/-- The body of the loop over the first actions, `platform.py:203–210`. -/
def DeploymentModel.firstActions (d : DeploymentModel) (nPacketIn i : Nat) :
    Option (List Command) :=
  (d.dependents i).mapM fun (actionId : Nat) ↦ do
    let core ← d.placementFunction i
    return workerFirstAction core actionId (startingBucket nPacketIn i) ⌊numBuckets nPacketIn⌋

/-- The commands for the buckets, `platform.py:192–210`. -/
def DeploymentModel.bucketCommands (d : DeploymentModel) (nPacketIn : Nat) :
    Option (List Command) := do
  if nPacketIn = 0 then none
  let reta ← (List.range nPacketIn).mapM (d.configureReta nPacketIn)
  let first ← (List.range nPacketIn).mapM (d.firstActions nPacketIn)
  return reta ++ first.flatten

/-- The body of the loop over the executions that depend on `a`, `platform.py:217–232`. -/
def DeploymentModel.installPath (d : DeploymentModel) (a : ActionInstanceExecution)
    (actionId2 : Nat) : Option (List Command) := do
  let temp ← d.actionInstanceExecutionList[actionId2]?
  let stateId1 ← a.stateInstanceExecution
  let action ← d.actionOf a
  let inside ←
    if a.nfId = temp.nfId then do
      let nf ← d.sfc.objects.nfs[← action.nf]?
      let localPathId ← nf.getPathId action (← d.actionOf temp)
      pure [installSimplePath stateId1 actionId2 localPathId]
    else pure []
  let next ←
    if (a.nfId : Int) = temp.nfId - 1 then do
      let nf ← d.sfc.objects.nfs[← action.nf]?
      let last ← d.sfc.objects.actions[← nf.actionList.getLast?]?
      let localPathId ← nf.getPathId action last
      pure [installSimplePath stateId1 actionId2 localPathId]
    else pure []
  return inside ++ next

/-- The body of the loop that installs the paths, `platform.py:213–232`. -/
def DeploymentModel.installPaths (d : DeploymentModel) (a : ActionInstanceExecution × Nat) :
    Option (List Command) := do
  let action ← d.actionOf a.1
  if action.isPacketIn then return []
  return (← (d.dependents a.2).mapM (d.installPath a.1)).flatten

/-- `NFlambda.deployment`, `platform.py:171–232`: the commands that are sent. -/
def DeploymentModel.deployment (d : DeploymentModel) : Option (List Command) := do
  let nPacketIn ← d.scalingPlanList[0]?
  let states ← d.createStates
  let actions ← d.actionInstanceExecutionList.zipIdx.mapM d.createActions
  let buckets ← d.bucketCommands nPacketIn
  let paths ← d.actionInstanceExecutionList.zipIdx.mapM d.installPaths
  return states ++ actions.flatten ++ buckets ++ paths.flatten

end Nflambda.Chain
