import Nflambda.Base.Dealing
import Nflambda.Chain.Composition
import Nflambda.Chain.Scaling

/-!
# Executions of one network function

Library `Chain`. Source `src/director/em/nf_model.py:411–458`: the constructor
of `Nf_instance_execution` makes the executions of the action instances of one
network function, and connects those of every instance with those of the
instances that it depends on. `none` models an exception.
-/

namespace Nflambda.Chain

open Nflambda.Base

/-- `Nf_instance`, the attributes that `nf_model.py:423–458` read. -/
structure NfInstance where
  objects : Objects
  instances : List ActionInstance
  actionInstanceList : List Nat
  deriving DecidableEq, Repr

/-- `Nf_instance(nf, nf_id, previous_nf_last_actions, last_action)`, `nf_model.py:271–318`, in a
chain of `n` network functions of which `b` has been built. -/
def NfInstance.new (o : Objects) (n : Nat) (b : Building) (p : Nat × Nat) : Option NfInstance := do
  let b' ← b.addNfInstance o n p
  return ⟨o, b'.instances, b'.actionInstanceList.drop b.actionInstanceList.length⟩

/-- The number of executions of an action instance, `nf_model.py:427–430`. -/
def NfInstance.replicas (nf : NfInstance) (scalingPlan : List Nat) (a : ActionInstance) :
    Option Nat := do
  let action ← nf.objects.actions[a.action]?
  if action.perPacketOperation then scalingPlan[0]? else scalingPlan[1]?

/-- The body of the first loop, `nf_model.py:425–435`. -/
def NfInstance.newExecutions (nf : NfInstance) (scalingPlan : List Nat) (i : Nat) :
    Option (List ActionInstanceExecution) := do
  let a ← nf.instances[i]?
  let n ← nf.replicas scalingPlan a
  return (List.range n).map fun executionId ↦ ⟨i, a.nfId, executionId, none, [], -1⟩

/-- The first loop, `nf_model.py:423–435`. -/
def NfInstance.create (nf : NfInstance) (scalingPlan : List Nat) :
    Option (List ActionInstanceExecution) := do
  return (← nf.actionInstanceList.mapM (nf.newExecutions scalingPlan)).flatten

/-- The executions of an action instance, `nf_model.py:441–447`. -/
def layer (list : List ActionInstanceExecution) (actionInstance : Nat) : List Nat :=
  positions (fun a ↦ a.actionInstance = actionInstance) list

/-- `dependency_list.append` for the execution `current`. -/
def appendDependency (list : List ActionInstanceExecution) (current previous : Nat) :
    List ActionInstanceExecution :=
  list.modify current fun a ↦ { a with dependencyList := a.dependencyList ++ [previous] }

/-- The operator `%`, which raises an exception for a divisor of zero. -/
def residue (n m : Nat) : Option Nat := if m = 0 then none else some (n % m)

/-- The connection of two layers, `nf_model.py:449–458`. -/
def connectLayers (list : List ActionInstanceExecution) (previous current : Nat) :
    Option (List ActionInstanceExecution) :=
  let layerPrevious := layer list previous
  let layerCurrent := layer list current
  if layerCurrent.length < layerPrevious.length then
    layerPrevious.foldlM (fun list aIE ↦ do
      let index := layerPrevious.idxOf aIE
      let currentIndex ← residue index layerCurrent.length
      let c ← layerCurrent[currentIndex]?
      let p ← layerPrevious[index]?
      return appendDependency list c p) list
  else
    layerCurrent.foldlM (fun list aIE ↦ do
      let index ← residue (layerCurrent.idxOf aIE) layerPrevious.length
      let p ← layerPrevious[index]?
      return appendDependency list aIE p) list

/-- The second loop, `nf_model.py:437–458`. -/
def NfInstance.connect (nf : NfInstance) (list : List ActionInstanceExecution) :
    Option (List ActionInstanceExecution) :=
  nf.actionInstanceList.foldlM (fun list current ↦ do
    let a ← nf.instances[current]?
    a.dependencyList.foldlM (fun list previous ↦ connectLayers list previous current) list) list

/-! ### Adding dependencies -/

/-- The dependencies `(current, previous)` that the connection of two layers adds, in order. -/
def edges (list : List ActionInstanceExecution) (previous current : Nat) : List (Nat × Nat) :=
  if (layer list current).length < (layer list previous).length then
    (deal (layer list previous) (layer list current)).map Prod.swap
  else deal (layer list current) (layer list previous)

/-- The executions with some dependencies added. -/
def addEdges (list : List ActionInstanceExecution) (es : List (Nat × Nat)) :
    List ActionInstanceExecution :=
  es.foldl (fun list e ↦ appendDependency list e.1 e.2) list

/-- An execution after some dependencies are added. -/
theorem getElem?_addEdges (list : List ActionInstanceExecution) (es : List (Nat × Nat)) (k : Nat) :
    (addEdges list es)[k]? = (list[k]?).map fun a ↦
      { a with dependencyList := a.dependencyList ++ (es.filter (·.1 = k)).map Prod.snd } := by
  induction es using List.reverseRecOn with
  | nil => simp [addEdges]
  | append_singleton es e ih =>
    unfold addEdges at ih ⊢
    rw [List.foldl_append, List.foldl_cons, List.foldl_nil, appendDependency,
      List.getElem?_modify, ih]
    cases list[k]? with
    | none => rfl
    | some a =>
      by_cases hk : e.1 = k
      · simp [hk]
      · simp [hk]

/-- Adding dependencies one part after the other. -/
theorem addEdges_append (list : List ActionInstanceExecution) (es es' : List (Nat × Nat)) :
    addEdges list (es ++ es') = addEdges (addEdges list es) es' :=
  List.foldl_append

private theorem layer_eq (list : List ActionInstanceExecution) (i : Nat) :
    layer list i = positions (fun j ↦ decide (j = i)) (list.map (·.actionInstance)) := by
  rw [positions_map]
  rfl

/-- Adding dependencies does not change the layers. -/
@[simp] theorem layer_addEdges (list : List ActionInstanceExecution) (es : List (Nat × Nat))
    (i : Nat) : layer (addEdges list es) i = layer list i := by
  have hmap : (addEdges list es).map (·.actionInstance) = list.map (·.actionInstance) := by
    apply List.ext_getElem?
    intro k
    rw [List.getElem?_map, getElem?_addEdges, List.getElem?_map, Option.map_map]
    rfl
  rw [layer_eq, hmap, ← layer_eq]

/-- Adding dependencies does not change what connections add. -/
@[simp] theorem edges_addEdges (list : List ActionInstanceExecution) (es : List (Nat × Nat))
    (previous current : Nat) :
    edges (addEdges list es) previous current = edges list previous current := by
  simp only [edges, layer_addEdges]

/-- The executions of an action instance are all different. -/
theorem nodup_layer (list : List ActionInstanceExecution) (i : Nat) : (layer list i).Nodup :=
  nodup_positions _ list

/-- An execution is in the layer of its action instance. -/
theorem mem_layer_iff {list : List ActionInstanceExecution} {i k : Nat} :
    k ∈ layer list i ↔ ∃ a, list[k]? = some a ∧ a.actionInstance = i := by
  unfold layer
  rw [mem_positions_iff]
  simp

/-- An execution is in one layer only. -/
theorem eq_of_mem_layer {list : List ActionInstanceExecution} {i j k : Nat}
    (hi : k ∈ layer list i) (hj : k ∈ layer list j) : i = j := by
  obtain ⟨a, ha, rfl⟩ := mem_layer_iff.mp hi
  obtain ⟨b, hb, rfl⟩ := mem_layer_iff.mp hj
  rw [ha, Option.some.injEq] at hb
  rw [hb]

/-! ### The loops in closed form -/

private theorem connectLayers_of_lt {list : List ActionInstanceExecution} {previous current : Nat}
    (hlt : (layer list current).length < (layer list previous).length)
    (hne : layer list current ≠ []) :
    connectLayers list previous current = some (addEdges list (edges list previous current)) := by
  have hzero : (layer list current).length ≠ 0 := fun h ↦ hne (List.length_eq_zero_iff.mp h)
  unfold connectLayers edges
  rw [if_pos hlt, if_pos hlt, deal_eq_filterMap (nodup_layer list previous)]
  rw [foldlM_lookup
    (fun p ↦ (layer list current)[(layer list previous).idxOf p % (layer list current).length]?)
    (fun list e ↦ appendDependency list e.2 e.1)]
  · unfold addEdges
    rw [List.foldl_map]
    rfl
  · intro p hp
    have hidx := Nat.mod_lt ((layer list previous).idxOf p) (Nat.pos_of_ne_zero hzero)
    refine ⟨_, List.getElem?_eq_getElem hidx, fun list' ↦ ?_⟩
    simp [residue, hzero, List.getElem?_eq_getElem hidx, List.getElem?_idxOf hp]

private theorem connectLayers_of_le {list : List ActionInstanceExecution} {previous current : Nat}
    (hle : ¬ (layer list current).length < (layer list previous).length)
    (hne : layer list previous = [] → layer list current = []) :
    connectLayers list previous current = some (addEdges list (edges list previous current)) := by
  unfold connectLayers edges
  rw [if_neg hle, if_neg hle, deal_eq_filterMap (nodup_layer list current)]
  rw [foldlM_lookup
    (fun c ↦ (layer list previous)[(layer list current).idxOf c % (layer list previous).length]?)
    (fun list e ↦ appendDependency list e.1 e.2)]
  · rfl
  · intro c hc
    have hzero : (layer list previous).length ≠ 0 := by
      intro h
      rw [hne (List.length_eq_zero_iff.mp h)] at hc
      cases hc
    have hidx := Nat.mod_lt ((layer list current).idxOf c) (Nat.pos_of_ne_zero hzero)
    refine ⟨_, List.getElem?_eq_getElem hidx, fun list' ↦ ?_⟩
    simp [residue, hzero, List.getElem?_eq_getElem hidx]

/-- Two layers are connected unless exactly one of them is empty. -/
theorem connectLayers_eq (list : List ActionInstanceExecution) (previous current : Nat) :
    connectLayers list previous current =
      if layer list previous = [] ↔ layer list current = [] then
        some (addEdges list (edges list previous current))
      else none := by
  by_cases hlt : (layer list current).length < (layer list previous).length
  · have hp : layer list previous ≠ [] := by
      intro h
      rw [h] at hlt
      simp at hlt
    by_cases hc : layer list current = []
    · rw [if_neg (by simp [hp, hc])]
      unfold connectLayers
      rw [if_pos hlt]
      obtain ⟨p, hmem⟩ := List.exists_mem_of_ne_nil _ hp
      apply foldlM_eq_none hmem
      intro list'
      simp [residue, hc]
    · rw [if_pos (by simp [hp, hc])]
      exact connectLayers_of_lt hlt hc
  · by_cases hc : layer list current = []
    · have hp : layer list previous = [] := by
        rw [hc] at hlt
        simpa using hlt
      rw [if_pos (by simp [hp, hc])]
      exact connectLayers_of_le hlt fun _ ↦ hc
    · by_cases hp : layer list previous = []
      · rw [if_neg (by simp [hp, hc])]
        unfold connectLayers
        rw [if_neg hlt]
        obtain ⟨c, hmem⟩ := List.exists_mem_of_ne_nil _ hc
        apply foldlM_eq_none hmem
        intro list'
        simp [residue, hp]
      · rw [if_pos (by simp [hp, hc])]
        exact connectLayers_of_le hlt fun h ↦ absurd h hp

/-- The dependencies of an action instance. -/
def NfInstance.dependencies (nf : NfInstance) (i : Nat) : List Nat :=
  match nf.instances[i]? with
  | none => []
  | some a => a.dependencyList

/-- The pairs `(current, previous)` that the second loop goes through, in order. -/
def NfInstance.pairs (nf : NfInstance) : List (Nat × Nat) :=
  nf.actionInstanceList.flatMap fun current ↦ (nf.dependencies current).map (Prod.mk current)

/-- All dependencies that the second loop adds, in order. -/
def NfInstance.allEdges (nf : NfInstance) (list : List ActionInstanceExecution) :
    List (Nat × Nat) :=
  nf.pairs.flatMap fun e ↦ edges list e.2 e.1

private theorem foldlM_pairs (nf : NfInstance) {l : List Nat}
    (hl : ∀ i ∈ l, ∃ a, nf.instances[i]? = some a) (list : List ActionInstanceExecution) :
    l.foldlM (fun list current ↦ do
      let a ← nf.instances[current]?
      a.dependencyList.foldlM (fun list previous ↦ connectLayers list previous current) list) list =
    (l.flatMap fun current ↦ (nf.dependencies current).map (Prod.mk current)).foldlM
      (fun list e ↦ connectLayers list e.2 e.1) list := by
  induction l generalizing list with
  | nil => rfl
  | cons current l ih =>
    obtain ⟨a, ha⟩ := hl current List.mem_cons_self
    have hrest := ih fun i hi ↦ hl i (List.mem_cons_of_mem current hi)
    have hdeps : nf.dependencies current = a.dependencyList := by
      simp only [NfInstance.dependencies, ha]
    rw [List.foldlM_cons, List.flatMap_cons, List.foldlM_append, List.foldlM_map, hdeps]
    simp only [ha, Option.bind_eq_bind, Option.bind_some]
    exact congrArg _ (funext hrest)

private theorem foldlM_connectLayers (list : List ActionInstanceExecution) (l : List (Nat × Nat)) :
    l.foldlM (fun list e ↦ connectLayers list e.2 e.1) list =
      if ∀ e ∈ l, (layer list e.2 = [] ↔ layer list e.1 = []) then
        some (addEdges list (l.flatMap fun e ↦ edges list e.2 e.1))
      else none := by
  induction l using List.reverseRecOn with
  | nil => simp [addEdges]
  | append_singleton l e ih =>
    rw [List.foldlM_append, ih]
    by_cases hl : ∀ e ∈ l, (layer list e.2 = [] ↔ layer list e.1 = [])
    · rw [if_pos hl]
      rw [Option.bind_eq_bind, Option.bind_some, List.foldlM_cons, connectLayers_eq]
      simp only [layer_addEdges, edges_addEdges]
      by_cases he : layer list e.2 = [] ↔ layer list e.1 = []
      · rw [if_pos he, if_pos, List.flatMap_append, addEdges_append]
        · simp
        · intro e' he'
          rcases List.mem_append.mp he' with hold | hnew
          · exact hl e' hold
          · rw [List.mem_singleton.mp hnew]
            exact he
      · rw [if_neg he, if_neg]
        · rfl
        · exact fun h ↦ he (h e (by simp))
    · rw [if_neg hl, if_neg]
      · rfl
      · exact fun h ↦ hl fun e' he' ↦ h e' (List.mem_append_left _ he')

/-- The second loop adds the dependencies of all pairs, unless exactly one layer of a pair is
empty. -/
theorem connect_eq {nf : NfInstance} (hl : ∀ i ∈ nf.actionInstanceList,
    ∃ a, nf.instances[i]? = some a) (list : List ActionInstanceExecution) :
    nf.connect list =
      if ∀ e ∈ nf.pairs, (layer list e.2 = [] ↔ layer list e.1 = []) then
        some (addEdges list (nf.allEdges list))
      else none :=
  (foldlM_pairs nf hl list).trans (foldlM_connectLayers list nf.pairs)

end Nflambda.Chain
