import Nflambda.Base.Grid
import Nflambda.Chain.Platform
import Nflambda.Chain.StateExecutions

/-!
# Uniform scaling of a chain

Library `Chain`. The executions that `execution_model.scaling`, `src/director/em/em.py:32–69`, and
the assignments of `deployment_model`, `em.py:193–195`, make when every action instance has the same
count.
-/

namespace Nflambda.Chain

open Nflambda.Base

/-- The plan with `n` executions of every action instance. -/
def uniformPlan (sfc : Sfc) (n : Nat) : List Nat := List.replicate sfc.actionInstanceList.length n

/-- `n` executions of every action instance, where execution `k` is assigned to `core k`. -/
def uniformDeployment (sfc : Sfc) (n : Nat) (core : Nat → Int) : Option DeploymentModel := do
  let em ← scaling sfc (uniformPlan sfc n)
  (DeploymentModel.new em).assignAll core

@[simp] theorem length_uniformPlan (sfc : Sfc) (n : Nat) :
    (uniformPlan sfc n).length = sfc.actionInstanceList.length := List.length_replicate

/-- All counts are the same. -/
theorem count_uniformPlan {sfc : Sfc} {i : Nat} (hi : i ∈ sfc.actionInstanceList) (n : Nat) :
    sfc.count (uniformPlan sfc n) i = n := by
  have hlt := List.idxOf_lt_length_of_mem hi
  rw [Sfc.count, uniformPlan, List.getD_eq_getElem?_getD, List.getElem?_replicate, if_pos hlt]
  rfl

private theorem zip_uniformPlan (sfc : Sfc) (n : Nat) :
    (uniformPlan sfc n).zip sfc.actionInstanceList =
      sfc.actionInstanceList.map fun i ↦ (n, i) := by
  apply List.ext_getElem
  · simp
  · intro p hp hp'
    simp [uniformPlan]

/-- The execution at a position: `n` executions of the first instance come first, and so on. -/
theorem getElem?_executions_uniform {sfc : Sfc} {n k : Nat} {e : ActionInstanceExecution} :
    (executions sfc (uniformPlan sfc n))[k]? = some e ↔
      ∃ p x i, sfc.actionInstanceList[p]? = some i ∧ x < n ∧ k = p * n + x ∧
        e = ⟨i, sfc.nfIdOf i, x, none, [], -1⟩ := by
  rw [executions, zip_uniformPlan, List.flatMap_map]
  exact getElem?_rows_eq_some

/-- There are `n` executions of every action instance. -/
theorem length_executions_uniform (sfc : Sfc) (n : Nat) :
    (executions sfc (uniformPlan sfc n)).length = sfc.actionInstanceList.length * n := by
  rw [executions, zip_uniformPlan, List.flatMap_map, List.length_flatMap]
  simp

/-- Executions with the same number are linked, if the instance of one comes first and that of the
other depends on it. -/
theorem linked_uniformPlan_iff {sfc : Sfc} {n : Nat} {a b : ActionInstanceExecution}
    (ha : a.actionInstance ∈ sfc.actionInstanceList)
    (hb : b.actionInstance ∈ sfc.actionInstanceList) :
    Linked sfc (uniformPlan sfc n) a b ↔
      sfc.actionInstanceList.idxOf a.actionInstance <
        sfc.actionInstanceList.idxOf b.actionInstance ∧
      sfc.Depends a.actionInstance b.actionInstance ∧ a.executionId = b.executionId := by
  unfold Linked
  rw [count_uniformPlan ha, count_uniformPlan hb, if_neg (Nat.lt_irrefl n),
    if_neg (Nat.lt_irrefl n)]

/-! ### Placement -/

/-- The executions where the first `m` are assigned. -/
private def assignedList (list : List ActionInstanceExecution) (core : Nat → Int) (m : Nat) :
    List ActionInstanceExecution :=
  list.mapIdx fun k a ↦ if k < m then { a with coreId := core k } else a

private theorem modify_assignedList (list : List ActionInstanceExecution) (core : Nat → Int)
    (m : Nat) : (assignedList list core m).modify m (fun a ↦ { a with coreId := core m }) =
      assignedList list core (m + 1) := by
  apply List.ext_getElem
  · simp [assignedList]
  · intro k hk hk'
    simp only [assignedList, List.getElem_modify, List.getElem_mapIdx]
    by_cases heq : m = k
    · subst heq
      simp
    · have hiff : k < m + 1 ↔ k < m := by omega
      simp [heq, hiff]

private theorem update_placement (core : Nat → Int) (m : Nat) :
    Function.update (fun k ↦ if k < m then some (core k) else none) m (some (core m)) =
      fun k ↦ if k < m + 1 then some (core k) else none := by
  funext k
  by_cases heq : k = m
  · subst heq
    simp
  · have hiff : k < m + 1 ↔ k < m := by omega
    simp [heq, hiff]

/-- The deployment with the first `m` executions assigned. -/
private def assigned (em : ExecutionModel) (core : Nat → Int) (m : Nat) : DeploymentModel :=
  { em with
    actionInstanceExecutionList := assignedList em.actionInstanceExecutionList core m
    placementFunction := fun k ↦ if k < m then some (core k) else none }

private theorem assign_assigned (em : ExecutionModel) (core : Nat → Int) {m : Nat}
    (hm : m < em.actionInstanceExecutionList.length) :
    (assigned em core m).assign m (core m) = some (assigned em core (m + 1)) := by
  unfold DeploymentModel.assign
  rw [if_pos (by simpa [assigned, assignedList] using hm)]
  simp only [assigned, modify_assignedList, update_placement]

/-- All executions are assigned to their cores. -/
theorem assignAll_eq (em : ExecutionModel) (core : Nat → Int) :
    (DeploymentModel.new em).assignAll core = some { em with
      actionInstanceExecutionList :=
        em.actionInstanceExecutionList.mapIdx fun k a ↦ { a with coreId := core k }
      placementFunction := fun k ↦
        if k < em.actionInstanceExecutionList.length then some (core k) else none } := by
  have hnone : assignedList em.actionInstanceExecutionList core 0 =
      em.actionInstanceExecutionList := by
    apply List.ext_getElem
    · simp [assignedList]
    · intro k hk hk'
      simp [assignedList]
  have hall : assignedList em.actionInstanceExecutionList core
      em.actionInstanceExecutionList.length =
      em.actionInstanceExecutionList.mapIdx fun k a ↦ { a with coreId := core k } := by
    apply List.ext_getElem
    · simp [assignedList]
    · intro k hk hk'
      have hlt : k < em.actionInstanceExecutionList.length := by simpa using hk'
      simp [assignedList, hlt]
  have hloop : ∀ m ≤ em.actionInstanceExecutionList.length,
      (List.range m).foldlM (fun d i ↦ d.assign i (core i)) (DeploymentModel.new em) =
        some (assigned em core m) := by
    intro m
    induction m with
    | zero =>
      intro _
      rw [List.range_zero, List.foldlM_nil, assigned, hnone]
      simp [DeploymentModel.new]
    | succ m ih =>
      intro hm
      rw [List.range_succ, List.foldlM_append, ih (by omega)]
      show ((assigned em core m).assign m (core m) >>= fun d ↦ pure d) = _
      rw [assign_assigned em core (by omega)]
      rfl
  have hlast := hloop _ (Nat.le_refl _)
  rw [assigned, hall] at hlast
  exact hlast

end Nflambda.Chain
