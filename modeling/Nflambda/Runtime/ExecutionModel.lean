import Nflambda.Runtime.CoreAssignment

/-!
# What the setup of an execution model yields

Library `Runtime`. Source `setup_execution_model`, `src/runtime/em.c:50–85`. The loop over the
control set reads behind `element`, so that no call keeps within its arrays. Below: what the graph
is like where the reads of the other fields of `struct Set` are let pass, and when this fails.
-/

namespace Nflambda.Runtime

open Nflambda.Base ElementSet

namespace ExecutionModelParameter

/-- The graph assigns the cores: the first ones are control cores, the next ones data cores, each
data core has one incoming edge, edges lead from control cores to data cores, and the numbers of
data cores differ by at most one. -/
structure AssignsCores (p : ExecutionModelParameter) (graph : AssignmentGraph) : Prop where
  control : ∀ v ∈ p.coreList, graph.property v = some .control ↔ v ∈ p.controlCores
  data : ∀ v ∈ p.coreList, graph.property v = some .data ↔ v ∈ p.dataCores
  incoming : ∀ v ∈ p.dataCores, ∃! s, v ∈ graph.successors s
  simple : ∀ s, (graph.successors s).Nodup
  edges : ∀ s v, v ∈ graph.successors s → s ∈ p.controlCores ∧ v ∈ p.dataCores
  balanced : ∀ s ∈ p.controlCores, ∀ t ∈ p.controlCores,
    (graph.successors s).length ≤ (graph.successors t).length + 1

/-- The setup ends without a read behind the limit or behind another array, with such a graph. -/
def SetsUp (limit : Nat) (memory : Fin 100 → CoreProperty) (p : ExecutionModelParameter) : Prop :=
  ∃ graph, setupExecutionModel limit memory p = some graph ∧ AssignsCores p graph

/-- Distinct cores below 100, enough of them, and at least one control core. -/
structure Valid (p : ExecutionModelParameter) : Prop where
  nodup : p.coreList.Nodup
  lt : ∀ i ∈ p.coreList, i < 100
  pos : 1 ≤ p.ctlNum
  sum : p.ctlNum + p.dataNum ≤ p.coreList.length

instance decidableValid (p : ExecutionModelParameter) : Decidable p.Valid :=
  decidable_of_iff (p.coreList.Nodup ∧ (∀ i ∈ p.coreList, i < 100) ∧ 1 ≤ p.ctlNum ∧
      p.ctlNum + p.dataNum ≤ p.coreList.length)
    ⟨fun ⟨h₁, h₂, h₃, h₄⟩ ↦ ⟨h₁, h₂, h₃, h₄⟩, fun h ↦ ⟨h.nodup, h.lt, h.pos, h.sum⟩⟩

/-- Every list has its core. -/
def ListsExist (p : ExecutionModelParameter) : Prop :=
  ∀ s ∈ p.controlCores, s < p.coreList.length

/-- No idle core is found with a property that nothing has written. -/
def IdleUnknown (memory : Fin 100 → CoreProperty) (p : ExecutionModelParameter) : Prop :=
  ∀ v : Fin 100, v.val ∈ p.idleCores → p.coreList.length ≤ v.val →
    memory v ≠ .control ∧ memory v ≠ .data

theorem Valid.length_le {p : ExecutionModelParameter} (h : p.Valid) : p.coreList.length ≤ 100 := by
  have hsub : p.coreList ⊆ List.range 100 := fun i hi ↦ List.mem_range.mpr (h.lt i hi)
  have hle := (List.subperm_of_subset h.nodup hsub).length_le
  rwa [List.length_range] at hle

theorem Valid.length_controlCores {p : ExecutionModelParameter} (h : p.Valid) :
    p.controlCores.length = p.ctlNum := by
  have hsum := h.sum
  rw [controlCores, List.length_take]
  omega

theorem Valid.length_dataCores {p : ExecutionModelParameter} (h : p.Valid) :
    p.dataCores.length = p.dataNum := by
  have hsum := h.sum
  rw [dataCores, List.length_take, List.length_drop]
  omega

/-- What is prepared for the loop over the control set: the control cores in the order of the set,
and a block of data cores for each of them. -/
structure Prepared (p : ExecutionModelParameter) (cs : List Nat) (bs : List (List Nat)) : Prop where
  control : cs.Perm p.controlCores
  data : bs.flatten.Perm p.dataCores
  nodup : cs.Nodup
  sorted : bs.flatten.Pairwise (· < ·)
  sizes : bs.map List.length = balancedSizes p.dataNum p.ctlNum
  length : bs.length = cs.length

/-- The graph before the loop. -/
def newGraph (memory : Fin 100 → CoreProperty) (p : ExecutionModelParameter) : AssignmentGraph :=
  ⟨List.replicate p.coreList.length [],
    fun v ↦ if v.val < p.coreList.length then .unknown else memory v⟩

theorem successors_newGraph (memory : Fin 100 → CoreProperty) (p : ExecutionModelParameter)
    (s : Nat) : (newGraph memory p).successors s = [] := by
  unfold newGraph AssignmentGraph.successors
  rw [List.getElem?_replicate]
  split <;> rfl

/-- The setup is the loop over the control set. It needs the position behind `element`. -/
theorem setupExecutionModel_eq {p : ExecutionModelParameter} (hp : p.Valid) {limit : Nat}
    (hlimit : ELEMENT_NUM ≤ limit) (memory : Fin 100 → CoreProperty) :
    ∃ controlSet setList cs bs, Prepared p cs bs ∧ List.Forall₂ Holds setList bs ∧
      (∀ s ∈ cs, ∃ h : s < ELEMENT_NUM, controlSet.element ⟨s, h⟩ = true) ∧
      setupExecutionModel limit memory p =
        if 100 < limit then
          (cs.foldlM (fun state s ↦ addSubset limit controlSet setList s state)
            (newGraph memory p, 0)).map Prod.fst
        else none := by
  obtain ⟨controlSet, dataSet, hinsert, hcontrol, hdata⟩ := insertCores_eq hp.nodup hp.lt hp.sum
  have hnum : controlSet.num.toNat = p.ctlNum := hcontrol.num.trans hp.length_controlCores
  have hlen : dataSet.members.length = p.dataNum := hdata.perm.length_eq.trans hp.length_dataCores
  obtain ⟨setList, hsplit, hholds⟩ :=
    setSplit_eq hlimit (holds_members hdata.counted) (k := p.ctlNum) hp.pos
  rw [hlen] at hholds
  have hsizes : (balancedSizes p.dataNum p.ctlNum).sum = dataSet.members.length := by
    rw [hlen]
    exact sum_balancedSizes _ hp.pos
  refine ⟨controlSet, setList, controlSet.members, _, ?_, hholds, ?_, ?_⟩
  · constructor
    · exact hcontrol.perm
    · rw [flatten_blocks hsizes]
      exact hdata.perm
    · exact (pairwise_members controlSet).imp Nat.ne_of_lt
    · rw [flatten_blocks hsizes]
      exact pairwise_members dataSet
    · exact map_length_blocks hsizes.le
    · rw [length_blocks, length_balancedSizes, hcontrol.perm.length_eq, hp.length_controlCores]
  · intro s hs
    exact mem_members.mp hs
  · have hread : controlSet.elementAt 100 ≠ 0#16 := by
      rw [elementAt_end_of_counted hcontrol.counted]
      have hpos : 0 < controlSet.members.length := by
        rw [hcontrol.perm.length_eq, hp.length_controlCores]
        exact hp.pos
      obtain ⟨s, hs⟩ := List.length_pos_iff_exists_mem.mp hpos
      obtain ⟨hlt, hmem⟩ := mem_members.mp hs
      exact ⟨⟨s, hlt⟩, hmem⟩
    rw [setupExecutionModel, AssignmentGraph.createAGraph, if_pos hp.length_le]
    simp only [Option.bind_eq_bind, Option.bind_some, hinsert, hnum, hsplit, forElements_eq,
      visited_eq]
    by_cases h : 100 < limit
    · rw [if_pos ⟨h, hread⟩, if_pos h, Option.bind_some]
      show Option.bind (controlSet.members.foldlM
        (fun state s ↦ addSubset limit controlSet setList s state) (newGraph memory p, 0)) _ = _
      cases controlSet.members.foldlM
        (fun state s ↦ addSubset limit controlSet setList s state) (newGraph memory p, 0) <;> rfl
    · rw [if_neg fun hboth ↦ h hboth.1, if_neg h]
      rfl

/-! ### The graph after the loop -/

theorem Prepared.exists_block {p : ExecutionModelParameter} {cs : List Nat} {bs : List (List Nat)}
    (h : Prepared p cs bs) {s : Nat} (hs : s ∈ cs) : ∃ b, (s, b) ∈ cs.zip bs := by
  rw [← List.map_fst_zip h.length.ge] at hs
  obtain ⟨x, hx, rfl⟩ := List.mem_map.mp hs
  exact ⟨x.2, hx⟩

theorem Prepared.exists_core {p : ExecutionModelParameter} {cs : List Nat} {bs : List (List Nat)}
    (h : Prepared p cs bs) {v : Nat} (hv : v ∈ p.dataCores) :
    ∃ s b, (s, b) ∈ cs.zip bs ∧ v ∈ b := by
  obtain ⟨b, hb, hvb⟩ := List.mem_flatten.mp (h.data.mem_iff.mpr hv)
  rw [← List.map_snd_zip h.length.le] at hb
  obtain ⟨x, hx, rfl⟩ := List.mem_map.mp hb
  exact ⟨x.1, x.2, hx, hvb⟩

/-- No data core is in the blocks of two control cores. -/
theorem Prepared.core_unique {p : ExecutionModelParameter} {cs : List Nat} {bs : List (List Nat)}
    (h : Prepared p cs bs) {s t v : Nat} {b b' : List Nat} (hs : (s, b) ∈ cs.zip bs)
    (ht : (t, b') ∈ cs.zip bs) (hv : v ∈ b) (hv' : v ∈ b') : s = t := by
  have hordered := (List.pairwise_flatten.mp h.sorted).2
  obtain ⟨i, hi, hsi⟩ := List.mem_iff_getElem.mp hs
  obtain ⟨j, hj, htj⟩ := List.mem_iff_getElem.mp ht
  rw [List.getElem_zip, Prod.mk.injEq] at hsi htj
  rw [List.length_zip] at hi hj
  have hij : i = j := by
    rcases Nat.lt_trichotomy i j with hlt | heq | hgt
    · have hless := List.pairwise_iff_getElem.mp hordered i j (by omega) (by omega) hlt
      rw [hsi.2, htj.2] at hless
      exact absurd (hless v hv v hv') (Nat.lt_irrefl v)
    · exact heq
    · have hless := List.pairwise_iff_getElem.mp hordered j i (by omega) (by omega) hgt
      rw [hsi.2, htj.2] at hless
      exact absurd (hless v hv' v hv) (Nat.lt_irrefl v)
  subst hij
  rw [← hsi.1, ← htj.1]

theorem Prepared.mem_dataCores {p : ExecutionModelParameter} {cs : List Nat}
    {bs : List (List Nat)} (h : Prepared p cs bs) {s v : Nat} {b : List Nat}
    (hs : (s, b) ∈ cs.zip bs) (hv : v ∈ b) : s ∈ p.controlCores ∧ v ∈ p.dataCores :=
  ⟨h.control.mem_iff.mp (List.of_mem_zip hs).1,
    h.data.mem_iff.mp (List.mem_flatten.mpr ⟨b, (List.of_mem_zip hs).2, hv⟩)⟩

/-- The lists of the graph after the loop. -/
structure HasBlocks (graph : AssignmentGraph) (cs : List Nat) (bs : List (List Nat)) : Prop where
  others : ∀ t, t ∉ cs → graph.successors t = []
  blocks : ∀ x ∈ cs.zip bs, graph.successors x.1 = x.2.reverse

/-- An edge comes from a block. -/
theorem HasBlocks.exists_block {p : ExecutionModelParameter} {graph : AssignmentGraph}
    {cs : List Nat} {bs : List (List Nat)} (hg : HasBlocks graph cs bs) (h : Prepared p cs bs)
    {s v : Nat} (hv : v ∈ graph.successors s) : ∃ b, (s, b) ∈ cs.zip bs ∧ v ∈ b := by
  by_cases hs : s ∈ cs
  · obtain ⟨b, hb⟩ := h.exists_block hs
    rw [hg.blocks _ hb, List.mem_reverse] at hv
    exact ⟨b, hb, hv⟩
  · rw [hg.others s hs] at hv
    cases hv

/-- The properties of a graph after the loop: the loop writes those of control and data cores. -/
def HasProperties (memory : Fin 100 → CoreProperty) (p : ExecutionModelParameter)
    (graph : AssignmentGraph) : Prop :=
  ∀ v, graph.property v = if v ∈ p.dataCores then some .data
    else if v ∈ p.controlCores then some .control else (newGraph memory p).property v

section Properties

variable {p : ExecutionModelParameter} {memory : Fin 100 → CoreProperty} {graph : AssignmentGraph}

theorem Valid.not_mem_dataCores (hp : p.Valid) {v : Nat} (hv : v ∈ p.controlCores) :
    v ∉ p.dataCores := by
  have hnodup := hp.nodup
  rw [p.coreList_eq, List.nodup_append] at hnodup
  intro hv'
  exact hnodup.2.2 v hv v (List.mem_append_left _ hv') rfl

theorem Valid.idle_not_mem (hp : p.Valid) {v : Nat} (hv : v ∈ p.idleCores) :
    v ∉ p.controlCores ∧ v ∉ p.dataCores := by
  have hnodup := hp.nodup
  rw [p.coreList_eq, List.nodup_append] at hnodup
  obtain ⟨-, hrest, hdisjoint⟩ := hnodup
  constructor
  · intro hv'
    exact hdisjoint v hv' v (List.mem_append_right _ hv) rfl
  · intro hv'
    exact (List.nodup_append.mp hrest).2.2 v hv' v hv rfl

/-- An idle core keeps what `createAGraph` has left. -/
theorem HasProperties.idle (h : HasProperties memory p graph) (hp : p.Valid) {v : Nat}
    (hv : v ∈ p.idleCores) (hlt : v < 100) : graph.property v =
      some (if v < p.coreList.length then .unknown else memory ⟨v, hlt⟩) := by
  obtain ⟨hvc, hvd⟩ := hp.idle_not_mem hv
  rw [h, if_neg hvd, if_neg hvc]
  exact dif_pos hlt

/-- These properties tell the cores of the list apart exactly when no idle core is found with
one. -/
theorem HasProperties.distinguishes_iff (h : HasProperties memory p graph) (hp : p.Valid) :
    (∀ v ∈ p.coreList, (graph.property v = some .control ↔ v ∈ p.controlCores) ∧
      (graph.property v = some .data ↔ v ∈ p.dataCores)) ↔ IdleUnknown memory p := by
  constructor
  · intro hall v hv hle
    obtain ⟨hvc, hvd⟩ := hp.idle_not_mem hv
    have hmem : v.val ∈ p.coreList := by
      rw [p.coreList_eq]
      exact List.mem_append_right _ (List.mem_append_right _ hv)
    have hvalue := h.idle hp hv v.isLt
    rw [if_neg (Nat.not_lt_of_le hle)] at hvalue
    constructor
    · intro hcontrol
      exact hvc ((hall v hmem).1.mp (hvalue.trans (congrArg some hcontrol)))
    · intro hdata
      exact hvd ((hall v hmem).2.mp (hvalue.trans (congrArg some hdata)))
  · intro hunknown v hv
    by_cases hvd : v ∈ p.dataCores
    · have hvc : v ∉ p.controlCores := fun hvc ↦ hp.not_mem_dataCores hvc hvd
      simp [h v, hvd, hvc]
    by_cases hvc : v ∈ p.controlCores
    · simp [h v, hvd, hvc]
    have hvi : v ∈ p.idleCores := by
      rw [p.coreList_eq] at hv
      simpa [hvc, hvd] using hv
    have hlt := hp.lt v hv
    rw [h.idle hp hvi hlt]
    by_cases hlen : v < p.coreList.length
    · simp [hlen, hvc, hvd]
    · have hmemory := hunknown ⟨v, hlt⟩ hvi (Nat.le_of_not_lt hlen)
      simp [hlen, hvc, hvd, hmemory.1, hmemory.2]

end Properties

/-- A graph with these lists and properties assigns the cores. -/
theorem assignsCores_of_blocks {p : ExecutionModelParameter} (hp : p.Valid)
    {memory : Fin 100 → CoreProperty} {graph : AssignmentGraph} {cs : List Nat}
    {bs : List (List Nat)} (h : Prepared p cs bs) (hg : HasBlocks graph cs bs)
    (hproperties : HasProperties memory p graph) :
    AssignsCores p graph ↔ IdleUnknown memory p := by
  rw [← hproperties.distinguishes_iff hp]
  constructor
  · intro hassigns v hv
    exact ⟨hassigns.control v hv, hassigns.data v hv⟩
  intro hall
  constructor
  · intro v hv
    exact (hall v hv).1
  · intro v hv
    exact (hall v hv).2
  · intro v hv
    obtain ⟨s, b, hb, hvb⟩ := h.exists_core hv
    refine ⟨s, ?_, fun t ht ↦ ?_⟩
    · dsimp only
      rw [hg.blocks _ hb, List.mem_reverse]
      exact hvb
    · obtain ⟨b', hb', hvb'⟩ := hg.exists_block h ht
      exact h.core_unique hb' hb hvb' hvb
  · intro s
    by_cases hs : s ∈ cs
    · obtain ⟨b, hb⟩ := h.exists_block hs
      have hsorted := (List.pairwise_flatten.mp h.sorted).1 b (List.of_mem_zip hb).2
      rw [hg.blocks _ hb, List.nodup_reverse]
      exact hsorted.imp Nat.ne_of_lt
    · rw [hg.others s hs]
      exact List.nodup_nil
  · intro s v hv
    obtain ⟨b, hb, hvb⟩ := hg.exists_block h hv
    exact h.mem_dataCores hb hvb
  · intro s hs t ht
    obtain ⟨b, hb⟩ := h.exists_block (h.control.mem_iff.mpr hs)
    obtain ⟨b', hb'⟩ := h.exists_block (h.control.mem_iff.mpr ht)
    have hsize : ∀ c ∈ bs, c.length ∈ balancedSizes p.dataNum p.ctlNum := by
      intro c hc
      rw [← h.sizes]
      exact List.mem_map_of_mem hc
    rw [hg.blocks _ hb, hg.blocks _ hb', List.length_reverse, List.length_reverse]
    exact le_succ_of_mem_balancedSizes (hsize b (List.of_mem_zip hb).2)
      (hsize b' (List.of_mem_zip hb').2)

/-- No block is empty exactly when there are as many data cores as control cores. -/
theorem Prepared.nonempty_iff {p : ExecutionModelParameter} (hp : p.Valid) {cs : List Nat}
    {bs : List (List Nat)} (h : Prepared p cs bs) : (∀ b ∈ bs, b ≠ []) ↔ p.ctlNum ≤ p.dataNum := by
  rw [← balancedSizes_pos_iff hp.pos, ← h.sizes, List.forall_mem_map]
  exact forall₂_congr fun b _ ↦ List.length_pos_iff.symm

/-- `setup_execution_model` never keeps within its arrays: to find the end of the control set it
reads the position 100 of `element`. Where the other fields of `struct Set` may be read, it yields
the assignment exactly when the id of every control core is below the number of cores, which is the
number of lists, no control core is left without a data core, whose empty set would be iterated
beyond its object, and no idle core has by chance been given a property by the memory. -/
theorem setup_execution_model_iff (p : ExecutionModelParameter) (hp : p.Valid)
    (memory : Fin 100 → CoreProperty) :
    ¬ SetsUp ELEMENT_NUM memory p ∧
      (SetsUp OBJECT_NUM memory p ↔
        ListsExist p ∧ p.ctlNum ≤ p.dataNum ∧ IdleUnknown memory p) := by
  constructor
  · rintro ⟨graph, hgraph, -⟩
    obtain ⟨_, _, _, _, -, -, -, hsetup⟩ :=
      setupExecutionModel_eq hp (Nat.le_refl ELEMENT_NUM) memory
    rw [hsetup, if_neg (by decide)] at hgraph
    cases hgraph
  · obtain ⟨controlSet, setList, cs, bs, hprepared, hholds, hmem, hsetup⟩ :=
      setupExecutionModel_eq hp (show ELEMENT_NUM ≤ OBJECT_NUM by decide) memory
    rw [if_pos (by decide)] at hsetup
    have hlists : (newGraph memory p).adjLists.length = p.coreList.length := List.length_replicate
    have hrun : ListsExist p → p.ctlNum ≤ p.dataNum → ∃ graph,
        setupExecutionModel OBJECT_NUM memory p = some graph ∧
          (AssignsCores p graph ↔ IdleUnknown memory p) := by
      intro hexist hle
      have hstart : ∀ s ∈ cs, s < (newGraph memory p).adjLists.length ∧
          (newGraph memory p).successors s = [] ∧ s ∉ bs.flatten := by
        intro s hs
        have hsc := hprepared.control.mem_iff.mp hs
        refine ⟨hlists ▸ hexist s hsc, successors_newGraph memory p s, fun hsb ↦ ?_⟩
        exact hp.not_mem_dataCores hsc (hprepared.data.mem_iff.mp hsb)
      obtain ⟨graph, hfold, hothers, hblocks, hproperty⟩ :=
        addSubsets_eq (show 100 < OBJECT_NUM by decide) cs (i := 0) hmem hholds
          hprepared.length hprepared.nodup hstart ((hprepared.nonempty_iff hp).mpr hle)
      have hproperties : HasProperties memory p graph := by
        intro v
        simp only [hproperty, hprepared.data.mem_iff, hprepared.control.mem_iff]
      refine ⟨graph, ?_, assignsCores_of_blocks hp hprepared ⟨?_, hblocks⟩ hproperties⟩
      · rw [hsetup, hfold]
        rfl
      · intro t ht
        rw [hothers t ht, successors_newGraph]
    constructor
    · rintro ⟨graph, hgraph, hassigns⟩
      have hsome := hgraph
      rw [hsetup, Option.map_eq_some_iff] at hsome
      obtain ⟨r, hfold, -⟩ := hsome
      obtain ⟨hcs, hbs⟩ := addSubsets_some (show 100 ≤ OBJECT_NUM by decide) cs (i := 0) hmem
        hholds hprepared.length hfold
      have hexist : ListsExist p := fun s hs ↦ hlists ▸ hcs s (hprepared.control.mem_iff.mpr hs)
      have hle := (hprepared.nonempty_iff hp).mp hbs
      obtain ⟨graph', hgraph', hiff⟩ := hrun hexist hle
      obtain rfl : graph = graph' := Option.some.inj (hgraph.symm.trans hgraph')
      exact ⟨hexist, hle, hiff.mp hassigns⟩
    · rintro ⟨hexist, hle, hunknown⟩
      obtain ⟨graph, hgraph, hiff⟩ := hrun hexist hle
      exact ⟨graph, hgraph, hiff.mpr hunknown⟩

/-- Two control cores and three data cores. -/
theorem setup_execution_model_five :
    SetsUp OBJECT_NUM (fun _ ↦ .unknown) ⟨3, 2, [0, 1, 2, 3, 4], setCreate, setCreate⟩ :=
  (setup_execution_model_iff ⟨3, 2, [0, 1, 2, 3, 4], setCreate, setCreate⟩ (by decide)
    fun _ ↦ .unknown).2.mpr ⟨by unfold ListsExist; decide, by decide, by unfold IdleUnknown; decide⟩

/-- A control core and a data core are not set up without a read behind `element`, and cores 40 and
41 not even where the other fields may be read: there are only two lists. -/
theorem setup_execution_model_fails :
    ¬ SetsUp ELEMENT_NUM (fun _ ↦ .unknown) ⟨1, 1, [0, 1], setCreate, setCreate⟩ ∧
      ¬ SetsUp OBJECT_NUM (fun _ ↦ .unknown) ⟨1, 1, [40, 41], setCreate, setCreate⟩ := by
  have hread : (setupExecutionModel ELEMENT_NUM (fun _ ↦ .unknown)
      ⟨1, 1, [0, 1], setCreate, setCreate⟩).isNone = true := by decide +kernel
  have hlist : (setupExecutionModel OBJECT_NUM (fun _ ↦ .unknown)
      ⟨1, 1, [40, 41], setCreate, setCreate⟩).isNone = true := by decide +kernel
  constructor
  · rintro ⟨graph, hgraph, -⟩
    rw [hgraph] at hread
    cases hread
  · rintro ⟨graph, hgraph, -⟩
    rw [hgraph] at hlist
    cases hlist

end ExecutionModelParameter

end Nflambda.Runtime
