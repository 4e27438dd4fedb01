import Nflambda.Chain.NfModel

/-!
# Scaling of a service chain

Library `Chain`. Source `src/director/em/em.py`: `execution_model.scaling` makes
the executions of the action and state instances of a chain, and
`deployment_model` adds their placement. Executions refer to each other by their
positions in the lists. `none` models an exception.
-/

namespace Nflambda.Chain

/-- `Action_instance_execution`, `nf_model.py:367–393`. -/
structure ActionInstanceExecution where
  actionInstance : Nat
  nfId : Nat
  executionId : Nat
  stateInstanceExecution : Option Nat
  dependencyList : List Nat
  coreId : Int
  deriving DecidableEq, Repr

/-- `State_instance_execution`, `nf_model.py:335–348`. -/
structure StateInstanceExecution where
  stateInstance : Nat
  nfId : Nat
  executionId : Nat
  aIEList : List Nat
  deriving DecidableEq, Repr

/-- `execution_model`, `em.py:10–30`, with the attribute that `scaling` sets. -/
structure ExecutionModel where
  sfc : Sfc
  scalingPlanList : List Nat
  actionInstanceExecutionList : List ActionInstanceExecution
  stateInstanceExecutionList : List StateInstanceExecution
  deriving DecidableEq, Repr

/-- The executions of one action instance, `em.py:36–38`. -/
def newExecutions (sfc : Sfc) (p : Nat × Nat) : Option (List ActionInstanceExecution) :=
  (List.range p.1).mapM fun j ↦ do
    let i ← sfc.actionInstanceList[p.2]?
    let a ← sfc.instances[i]?
    return ⟨i, a.nfId, j, none, [], -1⟩

/-- `get_a_i_e_list`, `em.py:108–114`. -/
def getAIEList (list : List ActionInstanceExecution) (actionInstanceList : List Nat)
    (nfId executionId : Nat) : List Nat :=
  (list.zipIdx.filter fun a ↦ a.1.actionInstance ∈ actionInstanceList ∧ a.1.nfId = nfId ∧
    a.1.executionId = executionId).map Prod.snd

/-- The body of the loop over the executions of a state instance, `em.py:44–50`. -/
def addStateExecution (s : StateInstance × Nat)
    (r : List ActionInstanceExecution × List StateInstanceExecution) (i : Nat) :
    List ActionInstanceExecution × List StateInstanceExecution :=
  let users := getAIEList r.1 s.1.actionInstanceList s.1.nfId i
  (r.1.mapIdx fun k a ↦
      if k ∈ users then { a with stateInstanceExecution := some r.2.length } else a,
    r.2 ++ [⟨s.2, s.1.nfId, i, users⟩])

/-- The second loop of `scaling`, `em.py:40–50`. -/
def addStateExecutions (sfc : Sfc) (plan : List Nat)
    (r : List ActionInstanceExecution × List StateInstanceExecution) (s : StateInstance × Nat) :
    Option (List ActionInstanceExecution × List StateInstanceExecution) := do
  let a ← s.1.actionInstanceList[0]?
  let n ← plan[sfc.actionInstanceList.idxOf a]?
  return (List.range n).foldl (addStateExecution s) r

/-- The condition under which `scaling` makes the second execution depend on the first one,
`em.py:54–69`. -/
def dependsOn (sfc : Sfc) (plan : List Nat) (a1 a2 : ActionInstanceExecution) : Option Bool := do
  let index1 := sfc.actionInstanceList.idxOf a1.actionInstance
  let index2 := sfc.actionInstanceList.idxOf a2.actionInstance
  let instance2 ← sfc.instances[a2.actionInstance]?
  if index1 < index2 ∧ a1.actionInstance ∈ instance2.dependencyList then
    let n1 ← plan[index1]?
    let n2 ← plan[index2]?
    if n1 < n2 then return a1.executionId % n2 = 0
    else if n2 < n1 then return a2.executionId % n1 = 0
    else return a1.executionId = a2.executionId
  else return false

/-- The third loop of `scaling`, `em.py:52–69`: the executions that execution `a2` depends on, in
the order of the list. -/
def dependencies (sfc : Sfc) (plan : List Nat) (list : List ActionInstanceExecution)
    (a2 : ActionInstanceExecution) : Option (List Nat) := do
  let found ← list.zipIdx.filterM fun a1 ↦ dependsOn sfc plan a1.1 a2
  return found.map Prod.snd

/-- `execution_model(sfc).scaling(plan)`, `em.py:32–69`. -/
def scaling (sfc : Sfc) (plan : List Nat) : Option ExecutionModel := do
  let list := (← plan.zipIdx.mapM (newExecutions sfc)).flatten
  let (list, states) ← sfc.stateInstanceList.zipIdx.foldlM (addStateExecutions sfc plan) (list, [])
  let list ← list.mapM fun a ↦ do
    return { a with dependencyList := a.dependencyList ++ (← dependencies sfc plan list a) }
  return ⟨sfc, plan, list, states⟩

/-- `deployment_model`, `em.py:178–195`. -/
structure DeploymentModel extends ExecutionModel where
  placementFunction : Nat → Option Int

/-- `deployment_model(em)`, `em.py:181–184`. -/
def DeploymentModel.new (em : ExecutionModel) : DeploymentModel := { em with
  placementFunction := fun _ ↦ none }

/-- `assign`, `em.py:193–195`. -/
def DeploymentModel.assign (d : DeploymentModel) (aIEIndex : Nat) (coreId : Int) :
    Option DeploymentModel :=
  if aIEIndex < d.actionInstanceExecutionList.length then
    some { d with
      placementFunction := Function.update d.placementFunction aIEIndex (some coreId)
      actionInstanceExecutionList :=
        d.actionInstanceExecutionList.modify aIEIndex fun a ↦ { a with coreId } }
  else none

/-- Every execution is assigned to a core. -/
def DeploymentModel.assignAll (d : DeploymentModel) (core : Nat → Int) : Option DeploymentModel :=
  (List.range d.actionInstanceExecutionList.length).foldlM (fun d i ↦ d.assign i (core i)) d

end Nflambda.Chain
