import Nflambda.Runtime.SetSplit

/-!
# The assignment of data cores to control cores

Library `Runtime`. Source `setup_execution_model`, `src/runtime/em.c:50–85`, and
`src/runtime/common/graph.c:13–117`. The printing of the graph is left out. As for the sets, the
number of positions of `element` that may be read is an argument. What `malloc` has left in
`property_list` is an input.
-/

namespace Nflambda.Runtime

open Nflambda.Base ElementSet

/-! ### The graph -/

/-- `enum Property`, `graph.h:7–12`. -/
inductive CoreProperty where
  | unknown
  | control
  | data
  deriving DecidableEq, Repr

/-- `struct Graph`, `graph.h:20–25`. The lists hold the vertices of their nodes, `numVertices` of
them are allocated. -/
structure AssignmentGraph where
  adjLists : List (List Nat)
  propertyList : Fin 100 → CoreProperty

namespace AssignmentGraph

/-- `createAGraph`, `graph.c:13–27`. -/
def createAGraph (memory : Fin 100 → CoreProperty) (vertices : Nat) : Option AssignmentGraph :=
  if vertices ≤ 100 then
    some ⟨List.replicate vertices [], fun v ↦ if v.val < vertices then .unknown else memory v⟩
  else none

/-- `addEdge`, `graph.c:30–50`. -/
def addEdge (graph : AssignmentGraph) (s d : Nat) : Option AssignmentGraph :=
  match graph.adjLists[s]? with
  | none => none
  | some nodes =>
    if d ∈ nodes then some graph
    else some { graph with adjLists := graph.adjLists.set s (d :: nodes) }

/-- `assign_property`, `graph.c:52–55`. -/
def assignProperty (graph : AssignmentGraph) (s : Nat) (property : CoreProperty) :
    Option AssignmentGraph :=
  if h : s < 100 then
    some { graph with propertyList := Function.update graph.propertyList ⟨s, h⟩ property }
  else none

/-- The body of the loop of `add_control_data`, `graph.c:108–113`. -/
def addData (limit : Nat) (setCopied : ElementSet) (controlNode index : Nat)
    (graph : AssignmentGraph) : Option AssignmentGraph := do
  let v ← setIteratorGet limit ⟨setCopied, index⟩
  if v = 1#16 then
    let graph ← assignProperty graph index .data
    addEdge graph controlNode index
  else return graph

/-- `add_control_data`, `graph.c:100–117`. -/
def addControlData (limit : Nat) (graph : AssignmentGraph) (controlNode : Nat)
    (dataSet : ElementSet) : Option AssignmentGraph := do
  let graph ← assignProperty graph controlNode .control
  let setCopied := setCopy dataSet
  forElements limit (addData limit setCopied controlNode) setCopied graph

/-- The cores that edges lead to from a core. -/
def successors (graph : AssignmentGraph) (s : Nat) : List Nat := graph.adjLists[s]?.getD []

/-- The property of a core. -/
def property (graph : AssignmentGraph) (v : Nat) : Option CoreProperty :=
  if h : v < 100 then some (graph.propertyList ⟨v, h⟩) else none

end AssignmentGraph

/-! ### The setup -/

/-- `struct execution_model_parameter`, `em.h:8–18`, with the core list it points to. -/
structure ExecutionModelParameter where
  dataNum : Nat
  ctlNum : Nat
  coreList : List Nat
  dataSet : ElementSet
  controlSet : ElementSet

namespace ExecutionModelParameter

/-- The loop over the core list, `em.c:56–68`: the control set and the data set. -/
def insertCores (p : ExecutionModelParameter) : Option (ElementSet × ElementSet) :=
  (p.coreList.zipIdx 1).foldlM (fun (controlSet, dataSet) (core, i) ↦
    if i ≤ p.ctlNum then (setInsert controlSet core).map fun s ↦ (s, dataSet)
    else if i ≤ p.ctlNum + p.dataNum then (setInsert dataSet core).map fun s ↦ (controlSet, s)
    else some (controlSet, dataSet)) (setReset p.controlSet, setReset p.dataSet)

/-- The body of the loop over the control set, `em.c:76–80`. -/
def addSubset (limit : Nat) (controlSet : ElementSet) (dataSetSplitted : List ElementSet)
    (index : Nat) (state : AssignmentGraph × Nat) : Option (AssignmentGraph × Nat) := do
  let v ← setIteratorGet limit ⟨controlSet, index⟩
  if v = 1#16 then
    let subset ← dataSetSplitted[state.2]?
    let graph ← state.1.addControlData limit index subset
    return (graph, state.2 + 1)
  else return state

/-- `setup_execution_model`, `em.c:50–85`: the graph. -/
def setupExecutionModel (limit : Nat) (memory : Fin 100 → CoreProperty)
    (p : ExecutionModelParameter) : Option AssignmentGraph := do
  let graph ← AssignmentGraph.createAGraph memory p.coreList.length
  let (controlSet, dataSet) ← p.insertCores
  let (_, dataSetSplitted) ← setSplit limit dataSet controlSet.num.toNat
  let (graph, _) ← forElements limit (addSubset limit controlSet dataSetSplitted) controlSet
    (graph, 0)
  return graph

/-- The cores that are meant to be control cores. -/
def controlCores (p : ExecutionModelParameter) : List Nat := p.coreList.take p.ctlNum

/-- The cores that are meant to be data cores. -/
def dataCores (p : ExecutionModelParameter) : List Nat := (p.coreList.drop p.ctlNum).take p.dataNum

/-- The cores that are left. -/
def idleCores (p : ExecutionModelParameter) : List Nat := p.coreList.drop (p.ctlNum + p.dataNum)

end ExecutionModelParameter

/-! ### Edges -/

namespace AssignmentGraph

theorem successors_set {graph : AssignmentGraph} {s : Nat} (h : s < graph.adjLists.length)
    (nodes : List Nat) (t : Nat) :
    successors { graph with adjLists := graph.adjLists.set s nodes } t =
      if t = s then nodes else graph.successors t := by
  unfold successors
  dsimp only
  by_cases hts : t = s
  · subst hts
    rw [if_pos rfl, List.getElem?_set_self h]
    rfl
  · rw [if_neg hts, List.getElem?_set_ne (Ne.symm hts)]

/-- An edge to a new core is put in front. -/
theorem addEdge_eq {graph : AssignmentGraph} {s d : Nat} (h : s < graph.adjLists.length)
    (hnew : d ∉ graph.successors s) :
    addEdge graph s d =
      some { graph with adjLists := graph.adjLists.set s (d :: graph.successors s) } := by
  have hnodes : graph.adjLists[s]? = some (graph.successors s) := by
    rw [successors, List.getElem?_eq_getElem h]
    rfl
  rw [addEdge, hnodes]
  exact if_neg hnew

theorem addEdge_of_le {graph : AssignmentGraph} {s d : Nat} (h : graph.adjLists.length ≤ s) :
    addEdge graph s d = none := by
  rw [addEdge, List.getElem?_eq_none h]

/-- What `addData` does with a member. -/
theorem addData_eq {limit : Nat} (hlimit : 100 ≤ limit) {s : ElementSet} {i : Nat}
    (hlt : i < ELEMENT_NUM) (hmem : s.element ⟨i, hlt⟩ = true) (controlNode : Nat)
    (graph : AssignmentGraph) :
    addData limit s controlNode i graph =
      (assignProperty graph i .data).bind fun graph ↦ addEdge graph controlNode i := by
  have hroom : i < limit := Nat.lt_of_lt_of_le hlt hlimit
  have hget : setIteratorGet limit ⟨s, i⟩ = some 1#16 := by
    rw [setIteratorGet, if_pos hroom, elementAt_of_lt _ hlt]
    exact congrArg some (if_pos hmem)
  rw [addData, hget]
  rfl

theorem assignProperty_eq (graph : AssignmentGraph) {s : Nat} (h : s < 100)
    (p : CoreProperty) :
    ∃ graph', assignProperty graph s p = some graph' ∧ graph'.adjLists = graph.adjLists ∧
      ∀ v, graph'.property v = if v = s then some p else graph.property v := by
  rw [assignProperty, dif_pos h]
  refine ⟨_, rfl, rfl, fun v ↦ ?_⟩
  unfold property
  by_cases hv : v = s
  · subst hv
    rw [if_pos rfl, dif_pos h]
    exact congrArg some (Function.update_self ..)
  · rw [if_neg hv]
    split
    · next hlt =>
      have hne : (⟨v, hlt⟩ : Fin 100) ≠ ⟨s, h⟩ := fun heq ↦ hv (Fin.ext_iff.mp heq)
      exact congrArg some (Function.update_of_ne hne ..)
    · rfl

/-- The edges from a control core to the members of a set, of which none is there before. -/
theorem addDataAll_eq {limit : Nat} (hlimit : 100 ≤ limit) {set : ElementSet} {s : Nat}
    (b : List Nat) :
    ∀ graph : AssignmentGraph, s < graph.adjLists.length →
      (∀ i ∈ b, ∃ h : i < ELEMENT_NUM, set.element ⟨i, h⟩ = true) → b.Nodup →
      (∀ i ∈ b, i ∉ graph.successors s) →
      ∃ graph', b.foldlM (fun graph i ↦ addData limit set s i graph) graph = some graph' ∧
        graph'.adjLists = graph.adjLists.set s (b.reverse ++ graph.successors s) ∧
        ∀ v, graph'.property v = if v ∈ b then some .data else graph.property v := by
  induction b with
  | nil =>
    intro graph hs _ _ _
    refine ⟨graph, rfl, ?_, fun v ↦ by simp⟩
    rw [List.reverse_nil, List.nil_append, successors, List.getElem?_eq_getElem hs]
    exact (List.set_getElem_self hs).symm
  | cons i b ih =>
    intro graph hs hmem hnodup hnew
    obtain ⟨hlt, hi⟩ := hmem i List.mem_cons_self
    obtain ⟨hib, hnodup'⟩ := List.nodup_cons.mp hnodup
    obtain ⟨graph₁, hassign, hadj, hprop⟩ := assignProperty_eq graph hlt .data
    have hsucc₁ : graph₁.successors s = graph.successors s := by
      rw [successors, hadj, successors]
    have hs₁ : s < graph₁.adjLists.length := by rw [hadj]; exact hs
    have hedge := addEdge_eq hs₁ (d := i) (by rw [hsucc₁]; exact hnew i List.mem_cons_self)
    obtain ⟨graph', hfold, hadj', hprop'⟩ := ih
      { graph₁ with adjLists := graph₁.adjLists.set s (i :: graph₁.successors s) }
      (by rw [List.length_set]; exact hs₁) (fun k hk ↦ hmem k (List.mem_cons_of_mem i hk)) hnodup'
      (by
        intro k hk
        rw [successors_set hs₁, if_pos rfl, hsucc₁, List.mem_cons]
        rintro (rfl | hks)
        · exact hib hk
        · exact hnew k (List.mem_cons_of_mem i hk) hks)
    refine ⟨graph', ?_, ?_, fun v ↦ ?_⟩
    · rw [List.foldlM_cons, addData_eq hlimit hlt hi, hassign]
      simp only [Option.bind_eq_bind, Option.bind_some, hedge]
      exact hfold
    · rw [hadj', successors_set hs₁, if_pos rfl, hsucc₁, List.set_set, hadj, List.reverse_cons,
        List.append_assoc]
      rfl
    · rw [hprop']
      show (if v ∈ b then _ else graph₁.property v) = _
      rw [hprop]
      by_cases hvb : v ∈ b
      · rw [if_pos hvb, if_pos (List.mem_cons_of_mem i hvb)]
      · by_cases hvi : v = i
        · rw [if_neg hvb, if_pos hvi, if_pos (hvi ▸ List.mem_cons_self)]
        · rw [if_neg hvb, if_neg hvi, if_neg (by simp [hvi, hvb])]

/-- A control core receives the edges to its data cores, if there are any. -/
theorem addControlData_eq {limit : Nat} (hlimit : 100 < limit) {graph : AssignmentGraph} {s : Nat}
    {set : ElementSet} {b : List Nat} (hset : Holds set b) (hb : b ≠ []) (hs : s < 100)
    (hlen : s < graph.adjLists.length) (hnew : graph.successors s = []) :
    ∃ graph', addControlData limit graph s set = some graph' ∧
      graph'.adjLists = graph.adjLists.set s b.reverse ∧
      ∀ v, graph'.property v =
        if v ∈ b then some .data else if v = s then some .control else graph.property v := by
  obtain ⟨graph₁, hassign, hadj, hprop⟩ := assignProperty_eq graph hs .control
  have hsucc₁ : graph₁.successors s = [] := by rw [successors, hadj, ← successors, hnew]
  have hread : set.elementAt 100 ≠ 0#16 := by
    rw [elementAt_end_of_counted hset.counted]
    obtain ⟨i, hi⟩ := List.exists_mem_of_ne_nil b hb
    obtain ⟨hlt, hmem⟩ := (hset.mem i).mp hi
    exact ⟨⟨i, hlt⟩, hmem⟩
  obtain ⟨graph', hfold, hadj', hprop'⟩ := addDataAll_eq (Nat.le_of_lt hlimit) b graph₁
    (by rw [hadj]; exact hlen) (fun i hi ↦ (hset.mem i).mp hi)
    (hset.sorted.imp fun h ↦ Nat.ne_of_lt h) (by simp [hsucc₁])
  refine ⟨graph', ?_, ?_, fun v ↦ ?_⟩
  · rw [addControlData, hassign]
    simp only [Option.bind_eq_bind, Option.bind_some]
    have hcopy : setCopy set = set := rfl
    rw [hcopy, forElements_eq, visited_eq, if_pos ⟨hlimit, hread⟩, hset.members_eq]
    exact hfold
  · rw [hadj', hsucc₁, List.append_nil, hadj]
  · rw [hprop', hprop]

theorem addEdge_some {graph graph' : AssignmentGraph} {s d : Nat}
    (h : addEdge graph s d = some graph') :
    s < graph.adjLists.length ∧ graph'.adjLists.length = graph.adjLists.length := by
  by_cases hs : s < graph.adjLists.length
  · refine ⟨hs, ?_⟩
    rw [addEdge, List.getElem?_eq_getElem hs] at h
    dsimp only at h
    split at h
    · rw [Option.some.inj h]
    · rw [← Option.some.inj h, List.length_set]
  · rw [addEdge_of_le (Nat.le_of_not_lt hs)] at h
    cases h

theorem assignProperty_some {graph graph' : AssignmentGraph} {s : Nat} {p : CoreProperty}
    (h : assignProperty graph s p = some graph') :
    graph'.adjLists = graph.adjLists := by
  unfold assignProperty at h
  split at h
  · rw [← Option.some.inj h]
  · cases h

/-- A loop over members that ends has found the list of the control core. -/
theorem addDataAll_some {limit : Nat} (hlimit : 100 ≤ limit) {set : ElementSet} {s : Nat}
    (b : List Nat) :
    ∀ {graph graph' : AssignmentGraph},
      (∀ i ∈ b, ∃ h : i < ELEMENT_NUM, set.element ⟨i, h⟩ = true) →
      b.foldlM (fun graph i ↦ addData limit set s i graph) graph = some graph' →
      graph'.adjLists.length = graph.adjLists.length ∧
        (b ≠ [] → s < graph.adjLists.length) := by
  induction b with
  | nil =>
    intro graph graph' _ h
    rw [← Option.some.inj h]
    exact ⟨rfl, fun hne ↦ absurd rfl hne⟩
  | cons i b ih =>
    intro graph graph' hmem h
    obtain ⟨hlt, hi⟩ := hmem i List.mem_cons_self
    simp only [List.foldlM_cons, addData_eq hlimit hlt hi, Option.bind_eq_bind,
      Option.bind_eq_some_iff] at h
    obtain ⟨graph₂, ⟨graph₁, hassign, hedge⟩, hrest⟩ := h
    obtain ⟨hs, hlen⟩ := addEdge_some hedge
    obtain ⟨hlen', -⟩ := ih (fun k hk ↦ hmem k (List.mem_cons_of_mem i hk)) hrest
    rw [assignProperty_some hassign] at hs hlen
    exact ⟨hlen'.trans hlen, fun _ ↦ hs⟩

/-- A control core without a list, or without data cores, is a fault. -/
theorem addControlData_some {limit : Nat} {graph graph' : AssignmentGraph} {s : Nat}
    {set : ElementSet} {b : List Nat} (hset : Holds set b)
    (h : addControlData limit graph s set = some graph') :
    100 < limit ∧ b ≠ [] ∧ s < graph.adjLists.length ∧
      graph'.adjLists.length = graph.adjLists.length := by
  have hcopy : setCopy set = set := rfl
  simp only [addControlData, hcopy, forElements_eq, visited_eq, Option.bind_eq_bind,
    Option.bind_eq_some_iff] at h
  obtain ⟨graph₁, hassign, is, his, hfold⟩ := h
  split at his
  · next hread =>
    rw [hset.members_eq, Option.some.injEq] at his
    subst his
    have hb : b ≠ [] := by
      rintro rfl
      obtain ⟨i, hi⟩ := (elementAt_end_of_counted hset.counted).mp hread.2
      exact absurd ((hset.mem i.val).mpr ⟨i.isLt, hi⟩) List.not_mem_nil
    obtain ⟨hlen, hs⟩ :=
      addDataAll_some (Nat.le_of_lt hread.1) b (fun i hi ↦ (hset.mem i).mp hi) hfold
    rw [assignProperty_some hassign] at hlen hs
    exact ⟨hread.1, hb, hs hb, hlen⟩
  · cases his

end AssignmentGraph

/-! ### The sets of cores -/

namespace ExecutionModelParameter

/-- The body of the loop over the core list. -/
private def insertCore (p : ExecutionModelParameter) (sets : ElementSet × ElementSet)
    (core : Nat × Nat) : Option (ElementSet × ElementSet) :=
  if core.2 ≤ p.ctlNum then (setInsert sets.1 core.1).map fun s ↦ (s, sets.2)
  else if core.2 ≤ p.ctlNum + p.dataNum then (setInsert sets.2 core.1).map fun s ↦ (sets.1, s)
  else some sets

private theorem insertCore_control {p : ExecutionModelParameter} (dataSet : ElementSet)
    (l : List Nat) :
    ∀ {k : Nat} {s : ElementSet} {m : List Nat}, k + l.length ≤ p.ctlNum + 1 → Collects s m →
      (∀ i ∈ l, i < ELEMENT_NUM) → (m ++ l).Nodup →
      ∃ s', (l.zipIdx k).foldlM p.insertCore (s, dataSet) = some (s', dataSet) ∧
        Collects s' (m ++ l) := by
  induction l with
  | nil =>
    intro k s m _ hs _ _
    exact ⟨s, rfl, by rwa [List.append_nil]⟩
  | cons i l ih =>
    intro k s m hk hs hlt hnodup
    rw [List.length_cons] at hk
    have hnew : i ∉ m := fun him ↦
      (List.nodup_append.mp hnodup).2.2 i him i List.mem_cons_self rfl
    obtain ⟨s₁, hinsert, hs₁⟩ := hs.setInsert (hlt i List.mem_cons_self) hnew
    obtain ⟨s', hfold, hs'⟩ := ih (k := k + 1) (m := m ++ [i]) (by omega) hs₁
      (fun j hj ↦ hlt j (List.mem_cons_of_mem i hj)) (by simpa using hnodup)
    refine ⟨s', ?_, by simpa using hs'⟩
    rw [List.zipIdx_cons, List.foldlM_cons, insertCore, if_pos (by dsimp only; omega), hinsert]
    exact hfold

private theorem insertCore_data {p : ExecutionModelParameter} (controlSet : ElementSet)
    (l : List Nat) :
    ∀ {k : Nat} {s : ElementSet} {m : List Nat}, p.ctlNum < k →
      k + l.length ≤ p.ctlNum + p.dataNum + 1 → Collects s m →
      (∀ i ∈ l, i < ELEMENT_NUM) → (m ++ l).Nodup →
      ∃ s', (l.zipIdx k).foldlM p.insertCore (controlSet, s) = some (controlSet, s') ∧
        Collects s' (m ++ l) := by
  induction l with
  | nil =>
    intro k s m _ _ hs _ _
    exact ⟨s, rfl, by rwa [List.append_nil]⟩
  | cons i l ih =>
    intro k s m hctl hk hs hlt hnodup
    rw [List.length_cons] at hk
    have hnew : i ∉ m := fun him ↦
      (List.nodup_append.mp hnodup).2.2 i him i List.mem_cons_self rfl
    obtain ⟨s₁, hinsert, hs₁⟩ := hs.setInsert (hlt i List.mem_cons_self) hnew
    obtain ⟨s', hfold, hs'⟩ := ih (k := k + 1) (m := m ++ [i]) (by omega) (by omega) hs₁
      (fun j hj ↦ hlt j (List.mem_cons_of_mem i hj)) (by simpa using hnodup)
    refine ⟨s', ?_, by simpa using hs'⟩
    rw [List.zipIdx_cons, List.foldlM_cons, insertCore, if_neg (by dsimp only; omega),
      if_pos (by dsimp only; omega), hinsert]
    exact hfold

private theorem insertCore_idle {p : ExecutionModelParameter} (sets : ElementSet × ElementSet)
    (l : List Nat) :
    ∀ {k : Nat}, p.ctlNum + p.dataNum < k → (l.zipIdx k).foldlM p.insertCore sets = some sets := by
  induction l with
  | nil => exact fun _ ↦ rfl
  | cons i l ih =>
    intro k hk
    rw [List.zipIdx_cons, List.foldlM_cons, insertCore, if_neg (by dsimp only; omega),
      if_neg (by dsimp only; omega)]
    exact ih (by omega)

theorem coreList_eq (p : ExecutionModelParameter) :
    p.coreList = p.controlCores ++ (p.dataCores ++ p.idleCores) := by
  rw [controlCores, dataCores, idleCores, ← List.drop_drop, List.take_append_drop,
    List.take_append_drop]

/-- The sets hold the cores that are meant. -/
theorem insertCores_eq {p : ExecutionModelParameter} (hnodup : p.coreList.Nodup)
    (hlt : ∀ i ∈ p.coreList, i < 100) (hsum : p.ctlNum + p.dataNum ≤ p.coreList.length) :
    ∃ controlSet dataSet, p.insertCores = some (controlSet, dataSet) ∧
      Collects controlSet p.controlCores ∧ Collects dataSet p.dataCores := by
  have hempty (s : ElementSet) : Collects (setReset s) [] := holds_setCreate.collects
  have hctl : p.controlCores.length = p.ctlNum := by
    rw [controlCores, List.length_take]
    omega
  have hdata : p.dataCores.length = p.dataNum := by
    rw [dataCores, List.length_take, List.length_drop]
    omega
  have hlist := p.coreList_eq
  rw [hlist] at hnodup hlt
  obtain ⟨hnodup₁, hnodup', -⟩ := List.nodup_append.mp hnodup
  obtain ⟨hnodup₂, -, -⟩ := List.nodup_append.mp hnodup'
  obtain ⟨controlSet, hcontrol, hcollects⟩ := insertCore_control (p := p) (setReset p.dataSet)
    p.controlCores (k := 1) (m := []) (by omega) (hempty p.controlSet)
    (fun i hi ↦ hlt i (List.mem_append_left _ hi)) hnodup₁
  obtain ⟨dataSet, hdata', hcollects'⟩ := insertCore_data (p := p) controlSet p.dataCores
    (k := 1 + p.ctlNum) (m := []) (by omega) (by omega) (hempty p.dataSet)
    (fun i hi ↦ hlt i (List.mem_append_right _ (List.mem_append_left _ hi))) hnodup₂
  refine ⟨controlSet, dataSet, ?_, hcollects, hcollects'⟩
  show (p.coreList.zipIdx 1).foldlM p.insertCore _ = _
  rw [hlist, List.zipIdx_append, List.zipIdx_append, List.foldlM_append, hcontrol]
  simp only [Option.bind_eq_bind, Option.bind_some]
  rw [List.foldlM_append, hctl, hdata']
  exact insertCore_idle _ p.idleCores (by omega)

/-! ### The loop over the control set -/

theorem addSubset_eq {limit : Nat} (hlimit : 100 ≤ limit) {controlSet : ElementSet}
    {setList : List ElementSet} {s : Nat} (hlt : s < ELEMENT_NUM)
    (hmem : controlSet.element ⟨s, hlt⟩ = true) (state : AssignmentGraph × Nat) :
    addSubset limit controlSet setList s state =
      (setList[state.2]?).bind fun subset ↦
        (state.1.addControlData limit s subset).map fun graph ↦ (graph, state.2 + 1) := by
  have hroom : s < limit := Nat.lt_of_lt_of_le hlt hlimit
  have hget : setIteratorGet limit ⟨controlSet, s⟩ = some 1#16 := by
    rw [setIteratorGet, if_pos hroom, elementAt_of_lt _ hlt]
    exact congrArg some (if_pos hmem)
  rw [addSubset, hget]
  simp only [Option.bind_eq_bind, Option.bind_some, if_pos]
  cases setList[state.2]? with
  | none => rfl
  | some subset =>
    simp only [Option.bind_some]
    cases state.1.addControlData limit s subset <;> rfl

/-- The first of some subsets. -/
private theorem getElem?_of_holds {setList : List ElementSet} {i : Nat} {b : List Nat}
    {bs : List (List Nat)} (h : List.Forall₂ Holds (setList.drop i) (b :: bs)) :
    ∃ set, setList[i]? = some set ∧ Holds set b ∧
      List.Forall₂ Holds (setList.drop (i + 1)) bs := by
  cases hdrop : setList.drop i with
  | nil =>
    rw [hdrop] at h
    cases h
  | cons set rest =>
    rw [hdrop] at h
    obtain ⟨hset, hrest⟩ := List.forall₂_cons.mp h
    refine ⟨set, ?_, hset, ?_⟩
    · rw [← List.head?_drop, hdrop, List.head?_cons]
    · rw [← List.tail_drop, hdrop]
      exact hrest

/-- The control cores receive the blocks of data cores one after the other. -/
theorem addSubsets_eq {limit : Nat} (hlimit : 100 < limit) {controlSet : ElementSet}
    {setList : List ElementSet} (cs : List Nat) :
    ∀ {bs : List (List Nat)} {i : Nat} {graph : AssignmentGraph},
      (∀ s ∈ cs, ∃ h : s < ELEMENT_NUM, controlSet.element ⟨s, h⟩ = true) →
      List.Forall₂ Holds (setList.drop i) bs → bs.length = cs.length → cs.Nodup →
      (∀ s ∈ cs, s < graph.adjLists.length ∧ graph.successors s = [] ∧ s ∉ bs.flatten) →
      (∀ b ∈ bs, b ≠ []) →
      ∃ graph', cs.foldlM (fun state s ↦ addSubset limit controlSet setList s state) (graph, i) =
          some (graph', i + cs.length) ∧
        (∀ t, t ∉ cs → graph'.successors t = graph.successors t) ∧
        (∀ x ∈ cs.zip bs, graph'.successors x.1 = x.2.reverse) ∧
        ∀ v, graph'.property v =
          if v ∈ bs.flatten then some .data else if v ∈ cs then some .control
            else graph.property v := by
  induction cs with
  | nil =>
    intro bs i graph _ _ hlen _ _ _
    obtain rfl := List.eq_nil_of_length_eq_zero hlen
    exact ⟨graph, rfl, fun _ _ ↦ rfl, by simp, by simp⟩
  | cons s cs ih =>
    intro bs i graph hmem hholds hlen hnodup hnew hne
    cases bs with
    | nil => simp at hlen
    | cons b bs =>
      obtain ⟨hlt, hs⟩ := hmem s List.mem_cons_self
      obtain ⟨hscs, hnodup'⟩ := List.nodup_cons.mp hnodup
      obtain ⟨set, hget, hset, hrest⟩ := getElem?_of_holds hholds
      obtain ⟨hslen, hsnil, hsb⟩ := hnew s List.mem_cons_self
      obtain ⟨graph₁, hadd, hadj, hprop⟩ := AssignmentGraph.addControlData_eq hlimit hset
        (hne b List.mem_cons_self) hlt hslen hsnil
      have hsucc : ∀ t, graph₁.successors t = if t = s then b.reverse else graph.successors t := by
        intro t
        rw [← AssignmentGraph.successors_set hslen, AssignmentGraph.successors, hadj,
          AssignmentGraph.successors]
      obtain ⟨graph', hfold, hother, hzip, hprop'⟩ := @ih bs (i + 1) graph₁
        (fun t ht ↦ hmem t (List.mem_cons_of_mem s ht)) hrest (by simpa using hlen) hnodup'
        (by
          intro t ht
          obtain ⟨htlen, htnil, htb⟩ := hnew t (List.mem_cons_of_mem s ht)
          have hts : t ≠ s := by
            rintro rfl
            exact hscs ht
          rw [List.flatten_cons, List.mem_append] at htb
          refine ⟨?_, ?_, fun htbs ↦ htb (.inr htbs)⟩
          · rw [hadj, List.length_set]
            exact htlen
          · rw [hsucc, if_neg hts, htnil])
        (fun b' hb' ↦ hne b' (List.mem_cons_of_mem b hb'))
      refine ⟨graph', ?_, ?_, ?_, ?_⟩
      · rw [List.foldlM_cons, addSubset_eq (Nat.le_of_lt hlimit) hlt hs, hget]
        simp only [Option.bind_eq_bind, Option.bind_some, hadd, Option.map_some]
        rw [hfold, List.length_cons]
        congr 2
        omega
      · intro t ht
        rw [List.mem_cons, not_or] at ht
        rw [hother t ht.2, hsucc, if_neg ht.1]
      · intro x hx
        rw [List.zip_cons_cons] at hx
        rcases List.mem_cons.mp hx with rfl | hx
        · rw [hother s hscs, hsucc, if_pos rfl]
        · exact hzip x hx
      · intro v
        rw [hprop', hprop, List.flatten_cons]
        by_cases hvbs : v ∈ bs.flatten
        · simp [hvbs]
        · by_cases hvb : v ∈ b
          · have hvcs : v ∉ cs := by
              intro hv
              apply (hnew v (List.mem_cons_of_mem s hv)).2.2
              rw [List.flatten_cons]
              exact List.mem_append_left _ hvb
            simp [hvbs, hvb, hvcs]
          · by_cases hvs : v = s
            · subst hvs
              rw [if_neg hvbs, if_neg hscs, if_neg hvb, if_pos rfl, if_neg (by simp [hvb, hvbs]),
                if_pos List.mem_cons_self]
            · simp [hvbs, hvb, hvs]

/-- A loop over the control set that ends has found a list and data cores for each of them. -/
theorem addSubsets_some {limit : Nat} (hlimit : 100 ≤ limit) {controlSet : ElementSet}
    {setList : List ElementSet} (cs : List Nat) :
    ∀ {bs : List (List Nat)} {i : Nat} {graph : AssignmentGraph} {r : AssignmentGraph × Nat},
      (∀ s ∈ cs, ∃ h : s < ELEMENT_NUM, controlSet.element ⟨s, h⟩ = true) →
      List.Forall₂ Holds (setList.drop i) bs → bs.length = cs.length →
      cs.foldlM (fun state s ↦ addSubset limit controlSet setList s state) (graph, i) = some r →
      (∀ s ∈ cs, s < graph.adjLists.length) ∧ ∀ b ∈ bs, b ≠ [] := by
  induction cs with
  | nil =>
    intro bs i graph r _ _ hlen _
    obtain rfl := List.eq_nil_of_length_eq_zero hlen
    exact ⟨by simp, by simp⟩
  | cons s cs ih =>
    intro bs i graph r hmem hholds hlen h
    cases bs with
    | nil => simp at hlen
    | cons b bs =>
      obtain ⟨hlt, hs⟩ := hmem s List.mem_cons_self
      obtain ⟨set, hget, hset, hrest⟩ := getElem?_of_holds hholds
      rw [List.foldlM_cons, addSubset_eq hlimit hlt hs, hget] at h
      simp only [Option.bind_eq_bind, Option.bind_some, Option.bind_eq_some_iff,
        Option.map_eq_some_iff] at h
      obtain ⟨_, ⟨graph₁, hadd, rfl⟩, hfold⟩ := h
      obtain ⟨-, hb, hslen, hkeep⟩ := AssignmentGraph.addControlData_some hset hadd
      obtain ⟨hcs, hbs⟩ := ih (fun t ht ↦ hmem t (List.mem_cons_of_mem s ht)) hrest
        (by simpa using hlen) hfold
      constructor
      · intro t ht
        rcases List.mem_cons.mp ht with rfl | ht
        · exact hslen
        · rw [← hkeep]
          exact hcs t ht
      · intro b' hb'
        rcases List.mem_cons.mp hb' with rfl | hb'
        · exact hb
        · exact hbs b' hb'

end ExecutionModelParameter

end Nflambda.Runtime
