import Nflambda.Chain.Composed
import Nflambda.Chain.NfInstanceExecution

/-!
# Connection of layers

Library `Chain`. The loops of `Nf_instance_execution`,
`src/director/em/nf_model.py:437–458`, leave no execution of two connected
layers out, and spread the dependencies evenly over both of them.
-/

namespace Nflambda.Chain

open Nflambda.Base

/-- The executions that execution `k` depends on. -/
def dependencyListOf (list : List ActionInstanceExecution) (k : Nat) : List Nat :=
  match list[k]? with
  | none => []
  | some a => a.dependencyList

/-- How many executions of `current` depend on execution `p`. -/
def successors (list : List ActionInstanceExecution) (current p : Nat) : Nat :=
  (layer list current).countP fun c ↦ p ∈ dependencyListOf list c

/-- How many executions of `previous` execution `c` depends on. -/
def dependenciesOn (list : List ActionInstanceExecution) (previous c : Nat) : Nat :=
  (layer list previous).countP fun p ↦ p ∈ dependencyListOf list c

/-- How many dependencies the executions of `current` have on those of `previous`. -/
def edgeCount (list : List ActionInstanceExecution) (previous current : Nat) : Nat :=
  ((layer list current).map fun c ↦
    (dependencyListOf list c).countP fun p ↦ p ∈ layer list previous).sum

/-- Two layers are connected `times` times. -/
structure LayersConnected (times : Nat) (list : List ActionInstanceExecution)
    (previous current : Nat) : Prop where
  successors_pos : ∀ p ∈ layer list previous, 1 ≤ successors list current p
  dependencies_pos : ∀ c ∈ layer list current, 1 ≤ dependenciesOn list previous c
  edges : edgeCount list previous current =
    times * max (layer list previous).length (layer list current).length
  times : ∀ c ∈ layer list current, ∀ p ∈ layer list previous, p ∈ dependencyListOf list c →
    (dependencyListOf list c).count p = times
  successors_balanced : ∀ p ∈ layer list previous, ∀ p' ∈ layer list previous,
    successors list current p ≤ successors list current p' + 1
  dependencies_balanced : ∀ c ∈ layer list current, ∀ c' ∈ layer list current,
    dependenciesOn list previous c ≤ dependenciesOn list previous c' + 1

/-! ### The dependencies of one connection -/

section Edges

variable {list : List ActionInstanceExecution} {previous current : Nat}

/-- A connection is between executions of the two layers. -/
theorem mem_of_mem_edges {e : Nat × Nat} (h : e ∈ edges list previous current) :
    e.1 ∈ layer list current ∧ e.2 ∈ layer list previous := by
  unfold edges at h
  split at h
  · obtain ⟨e', he', rfl⟩ := List.mem_map.mp h
    exact (mem_of_mem_deal he').symm
  · exact mem_of_mem_deal h

/-- As many dependencies as executions in the larger layer. -/
theorem length_edges (hp : layer list previous ≠ []) (hc : layer list current ≠ []) :
    (edges list previous current).length =
      max (layer list previous).length (layer list current).length := by
  unfold edges
  split
  · rw [List.length_map, length_deal _ hc]
    omega
  · rw [length_deal _ hp]
    omega

/-- No dependency is added twice. -/
theorem nodup_edges (hp : layer list previous ≠ []) (hc : layer list current ≠ []) :
    (edges list previous current).Nodup := by
  unfold edges
  split
  · exact (nodup_deal (nodup_layer list previous) hc).map Prod.swap_injective
  · exact nodup_deal (nodup_layer list current) hp

private theorem one_le_div {n m : Nat} (hm : 0 < m) (h : m ≤ n) : 1 ≤ n / m :=
  (Nat.one_le_div_iff hm).mpr h

private theorem mem_map_swap {l : List (Nat × Nat)} {a b : Nat} :
    (a, b) ∈ l.map Prod.swap ↔ (b, a) ∈ l := by
  constructor
  · intro h
    obtain ⟨e, he, hab⟩ := List.mem_map.mp h
    cases hab
    exact he
  · intro h
    exact List.mem_map.mpr ⟨_, h, rfl⟩

/-- The executions of the first layer have `q` or `q + 1` successors. -/
theorem exists_successors (hp : layer list previous ≠ []) (hc : layer list current ≠ []) :
    ∃ q, 1 ≤ q ∧ ∀ p ∈ layer list previous,
      q ≤ (layer list current).countP (fun c ↦ (c, p) ∈ edges list previous current) ∧
        (layer list current).countP (fun c ↦ (c, p) ∈ edges list previous current) ≤ q + 1 := by
  have hpn := nodup_layer list previous
  have hcn := nodup_layer list current
  unfold edges
  by_cases hlt : (layer list current).length < (layer list previous).length
  · refine ⟨1, Nat.le_refl 1, fun p hmem ↦ ?_⟩
    simp only [if_pos hlt, mem_map_swap]
    rw [countP_receivers hpn hcn hc hmem]
    omega
  · have hq : 1 ≤ (layer list current).length / (layer list previous).length :=
      one_le_div (List.length_pos_of_ne_nil hp) (by omega)
    refine ⟨_, hq, fun p hmem ↦ ?_⟩
    simp only [if_neg hlt]
    exact countP_given hcn hpn hmem

/-- The executions of the second layer have `q` or `q + 1` dependencies. -/
theorem exists_dependencies (hp : layer list previous ≠ []) (hc : layer list current ≠ []) :
    ∃ q, 1 ≤ q ∧ ∀ c ∈ layer list current,
      q ≤ (layer list previous).countP (fun p ↦ (c, p) ∈ edges list previous current) ∧
        (layer list previous).countP (fun p ↦ (c, p) ∈ edges list previous current) ≤ q + 1 := by
  have hpn := nodup_layer list previous
  have hcn := nodup_layer list current
  unfold edges
  by_cases hlt : (layer list current).length < (layer list previous).length
  · have hq : 1 ≤ (layer list previous).length / (layer list current).length :=
      one_le_div (List.length_pos_of_ne_nil hc) (by omega)
    refine ⟨_, hq, fun c hmem ↦ ?_⟩
    simp only [if_pos hlt, mem_map_swap]
    exact countP_given hpn hcn hmem
  · refine ⟨1, Nat.le_refl 1, fun c hmem ↦ ?_⟩
    simp only [if_neg hlt]
    rw [countP_receivers hcn hpn hp hmem]
    omega

end Edges

/-! ### All connections together -/

section All

variable {nf : NfInstance} {list : List ActionInstanceExecution} {previous current : Nat}

/-- How often the second loop comes to a pair of instances. -/
theorem count_pairs (nf : NfInstance) (previous current : Nat) :
    nf.pairs.count (current, previous) =
      nf.actionInstanceList.count current * (nf.dependencies current).count previous := by
  unfold NfInstance.pairs
  rw [List.count, countP_flatMap_single (a := current)]
  · apply congrArg
    exact List.count_map_of_injective _ _ (Prod.mk_right_injective current) _
  · intro i _ hi
    rw [List.countP_eq_zero]
    intro e he
    obtain ⟨j, -, rfl⟩ := List.mem_map.mp he
    simp [hi]

/-- Of the dependencies between two layers, each is added whenever the loop comes to their pair. -/
theorem countP_allEdges {q : Nat × Nat → Bool}
    (hq : ∀ e, q e = true → e.1 ∈ layer list current ∧ e.2 ∈ layer list previous) :
    (nf.allEdges list).countP q =
      nf.actionInstanceList.count current * (nf.dependencies current).count previous *
        (edges list previous current).countP q := by
  rw [← count_pairs]
  unfold NfInstance.allEdges
  apply countP_flatMap_single
  intro e _ hne
  rw [List.countP_eq_zero]
  intro d hd hqd
  obtain ⟨hc, hp⟩ := mem_of_mem_edges hd
  obtain ⟨hc', hp'⟩ := hq d hqd
  exact hne (Prod.ext (eq_of_mem_layer hc hc') (eq_of_mem_layer hp hp'))

/-- Nothing depends on anything yet. -/
def Unconnected (list : List ActionInstanceExecution) : Prop := ∀ a ∈ list, a.dependencyList = []

/-- The dependencies of an execution after some are added. -/
theorem dependencyListOf_addEdges (h : Unconnected list) (es : List (Nat × Nat)) {c i : Nat}
    (hc : c ∈ layer list i) :
    dependencyListOf (addEdges list es) c = (es.filter (·.1 = c)).map Prod.snd := by
  obtain ⟨a, ha, -⟩ := mem_layer_iff.mp hc
  unfold dependencyListOf
  rw [getElem?_addEdges, ha]
  simp [h a (List.mem_of_getElem? ha)]

private theorem countP_dependencyListOf (h : Unconnected list) (es : List (Nat × Nat)) {c i : Nat}
    (hc : c ∈ layer list i) (q : Nat → Bool) :
    (dependencyListOf (addEdges list es) c).countP q =
      es.countP fun e ↦ e.1 = c ∧ q e.2 := by
  rw [dependencyListOf_addEdges h es hc, List.countP_map, List.countP_filter]
  apply List.countP_congr
  intro e _
  simp [and_comm]

/-- An execution depends on another one as often as the loop comes to their pair, if it does. -/
private theorem count_dependencyListOf (h : Unconnected list) {c p : Nat}
    (hc : c ∈ layer list current) (hp : p ∈ layer list previous) :
    (dependencyListOf (addEdges list (nf.allEdges list)) c).count p =
      nf.actionInstanceList.count current * (nf.dependencies current).count previous *
        (edges list previous current).count (c, p) := by
  have hq : ∀ e : Nat × Nat, decide (e.1 = c ∧ (e.2 == p) = true) = (e == (c, p)) := by
    intro e
    rw [Bool.eq_iff_iff]
    simp [Prod.ext_iff]
  rw [List.count, countP_dependencyListOf h _ hc]
  simp only [hq]
  apply countP_allEdges
  intro e he
  rw [eq_of_beq he]
  exact ⟨hc, hp⟩

private theorem edgeCount_addEdges (h : Unconnected list) :
    edgeCount (addEdges list (nf.allEdges list)) previous current =
      nf.actionInstanceList.count current * (nf.dependencies current).count previous *
        (edges list previous current).length := by
  have hrow : (layer list current).map (fun c ↦
      (dependencyListOf (addEdges list (nf.allEdges list)) c).countP
        fun p ↦ p ∈ layer list previous) =
      (layer list current).map fun c ↦ (nf.allEdges list).countP
        fun e ↦ e.1 = c ∧ decide (e.2 ∈ layer list previous) = true := by
    apply List.map_congr_left
    intro c hc
    exact countP_dependencyListOf h _ hc _
  unfold edgeCount
  simp only [layer_addEdges]
  rw [hrow, sum_countP_fst (nodup_layer list current) (fun e ↦ decide (e.2 ∈ layer list previous)),
    countP_allEdges]
  · apply congrArg
    rw [List.countP_eq_length]
    intro e he
    simpa using mem_of_mem_edges he
  · intro e he
    simpa using he

private theorem mem_dependencyListOf_iff (h : Unconnected list) {c p : Nat}
    (hcur : current ∈ nf.actionInstanceList) (hprev : previous ∈ nf.dependencies current)
    (hc : c ∈ layer list current) (hp : p ∈ layer list previous) :
    p ∈ dependencyListOf (addEdges list (nf.allEdges list)) c ↔
      (c, p) ∈ edges list previous current := by
  have htimes : 0 < nf.actionInstanceList.count current *
      (nf.dependencies current).count previous :=
    Nat.mul_pos (List.count_pos_iff.mpr hcur) (List.count_pos_iff.mpr hprev)
  rw [← List.count_pos_iff, count_dependencyListOf h hc hp, Nat.mul_pos_iff_of_pos_left htimes,
    List.count_pos_iff]

private theorem successors_addEdges (h : Unconnected list)
    (hcur : current ∈ nf.actionInstanceList) (hprev : previous ∈ nf.dependencies current) {p : Nat}
    (hp : p ∈ layer list previous) :
    successors (addEdges list (nf.allEdges list)) current p =
      (layer list current).countP fun c ↦ (c, p) ∈ edges list previous current := by
  unfold successors
  rw [layer_addEdges]
  apply List.countP_congr
  intro c hc
  simp only [decide_eq_true_iff]
  exact mem_dependencyListOf_iff h hcur hprev hc hp

private theorem dependenciesOn_addEdges (h : Unconnected list)
    (hcur : current ∈ nf.actionInstanceList) (hprev : previous ∈ nf.dependencies current) {c : Nat}
    (hc : c ∈ layer list current) :
    dependenciesOn (addEdges list (nf.allEdges list)) previous c =
      (layer list previous).countP fun p ↦ (c, p) ∈ edges list previous current := by
  unfold dependenciesOn
  rw [layer_addEdges]
  apply List.countP_congr
  intro p hp
  simp only [decide_eq_true_iff]
  exact mem_dependencyListOf_iff h hcur hprev hc hp

/-- What the second loop achieves for a pair of instances. -/
theorem layersConnected_addEdges (h : Unconnected list)
    (hcur : current ∈ nf.actionInstanceList) (hprev : previous ∈ nf.dependencies current)
    (hp : layer list previous ≠ []) (hc : layer list current ≠ []) :
    LayersConnected
      (nf.actionInstanceList.count current * (nf.dependencies current).count previous)
      (addEdges list (nf.allEdges list)) previous current := by
  obtain ⟨q, hq, hqs⟩ := exists_successors hp hc
  obtain ⟨r, hr, hrs⟩ := exists_dependencies hp hc
  constructor
  · intro p hpm
    rw [layer_addEdges] at hpm
    rw [successors_addEdges h hcur hprev hpm]
    exact Nat.le_trans hq (hqs p hpm).1
  · intro c hcm
    rw [layer_addEdges] at hcm
    rw [dependenciesOn_addEdges h hcur hprev hcm]
    exact Nat.le_trans hr (hrs c hcm).1
  · rw [edgeCount_addEdges h, length_edges hp hc, layer_addEdges, layer_addEdges]
  · intro c hcm p hpm hdep
    rw [layer_addEdges] at hcm hpm
    rw [mem_dependencyListOf_iff h hcur hprev hcm hpm] at hdep
    rw [count_dependencyListOf h hcm hpm,
      List.count_eq_one_of_mem (nodup_edges hp hc) hdep, Nat.mul_one]
  · intro p hpm p' hpm'
    rw [layer_addEdges] at hpm hpm'
    rw [successors_addEdges h hcur hprev hpm, successors_addEdges h hcur hprev hpm']
    have hle := (hqs p hpm).2
    have hge := (hqs p' hpm').1
    omega
  · intro c hcm c' hcm'
    rw [layer_addEdges] at hcm hcm'
    rw [dependenciesOn_addEdges h hcur hprev hcm, dependenciesOn_addEdges h hcur hprev hcm']
    have hle := (hrs c hcm).2
    have hge := (hrs c' hcm').1
    omega

end All

/-! ### The constructor -/

section Constructor

variable {nf : NfInstance} {plan : List Nat} {created : List ActionInstanceExecution}

/-- What the first loop makes of an action instance. -/
def NfInstance.row (nf : NfInstance) (plan : List Nat) (i : Nat) : List ActionInstanceExecution :=
  (nf.newExecutions plan i).getD []

private theorem create_eq (h : nf.create plan = some created) :
    created = nf.actionInstanceList.flatMap (nf.row plan) := by
  obtain ⟨rows, hrows, hcreated⟩ := Option.bind_eq_some_iff.mp h
  have hmap := mapM_eq_some_iff.mp hrows
  have hrow : nf.actionInstanceList.map (nf.row plan) = rows := by
    have hget := congrArg (List.map (·.getD [])) hmap
    rw [List.map_map, List.map_map] at hget
    exact hget.trans (by simp [Function.comp_def])
  rw [List.flatMap_def, hrow]
  exact (Option.some.inj hcreated).symm

private theorem exists_instance_of_create (h : nf.create plan = some created) :
    ∀ i ∈ nf.actionInstanceList, ∃ a, nf.instances[i]? = some a := by
  obtain ⟨rows, hrows, -⟩ := Option.bind_eq_some_iff.mp h
  intro i hi
  obtain ⟨row, -, hrow⟩ := exists_of_mapM hrows hi
  obtain ⟨a, ha, -⟩ := Option.bind_eq_some_iff.mp hrow
  exact ⟨a, ha⟩

private theorem mem_row {i : Nat} {e : ActionInstanceExecution} (h : e ∈ nf.row plan i) :
    e.actionInstance = i ∧ e.dependencyList = [] := by
  unfold NfInstance.row NfInstance.newExecutions at h
  cases ha : nf.instances[i]? with
  | none => simp [ha] at h
  | some a =>
    cases hn : nf.replicas plan a with
    | none => simp [ha, hn] at h
    | some n =>
      simp only [ha, hn, Option.bind_eq_bind, Option.bind_some, Option.getD_some, Option.pure_def,
        List.mem_map] at h
      obtain ⟨j, -, rfl⟩ := h
      exact ⟨rfl, rfl⟩

private theorem unconnected_of_create (h : nf.create plan = some created) :
    Unconnected created := by
  intro e he
  rw [create_eq h, List.mem_flatMap] at he
  obtain ⟨i, -, hrow⟩ := he
  exact (mem_row hrow).2

/-- An action instance that is listed once has as many executions as the plan says. -/
theorem length_layer (h : nf.create plan = some created) {i n : Nat} {a : ActionInstance}
    (ha : nf.instances[i]? = some a) (hn : nf.replicas plan a = some n) :
    (layer created i).length = nf.actionInstanceList.count i * n := by
  have hrow : (nf.row plan i).countP (fun e ↦ e.actionInstance = i) = n := by
    rw [List.countP_eq_length.mpr fun e he ↦ by simpa using (mem_row he).1]
    simp [NfInstance.row, NfInstance.newExecutions, ha, hn]
  unfold layer
  rw [length_positions, create_eq h, countP_flatMap_single, hrow]
  intro j _ hne
  rw [List.countP_eq_zero]
  intro e he
  simpa [(mem_row he).1] using hne

/-- The dependencies of an instance that exists. -/
theorem dependencies_eq {i : Nat} {a : ActionInstance} (ha : nf.instances[i]? = some a) :
    nf.dependencies i = a.dependencyList := by
  simp only [NfInstance.dependencies, ha]

private theorem forall_pairs_iff (hl : ∀ i ∈ nf.actionInstanceList,
    ∃ a, nf.instances[i]? = some a) {P : Nat → Nat → Prop} :
    (∀ e ∈ nf.pairs, P e.2 e.1) ↔ ∀ current ∈ nf.actionInstanceList, ∀ a,
      nf.instances[current]? = some a → ∀ previous ∈ a.dependencyList, P previous current := by
  unfold NfInstance.pairs
  constructor
  · intro h current hcur a ha previous hprev
    apply h (current, previous)
    rw [List.mem_flatMap]
    refine ⟨current, hcur, List.mem_map_of_mem ?_⟩
    rwa [dependencies_eq ha]
  · intro h e he
    obtain ⟨current, hcur, hmem⟩ := List.mem_flatMap.mp he
    obtain ⟨previous, hprev, rfl⟩ := List.mem_map.mp hmem
    obtain ⟨a, ha⟩ := hl current hcur
    rw [dependencies_eq ha] at hprev
    exact h current hcur a ha previous hprev

/-- The second loop finishes unless exactly one of two dependent instances has no execution. Then
every two dependent instances with executions are connected once for each time that the network
function lists the second one and that it depends on the first one: no execution is left out, and
dependencies are spread evenly over both layers. -/
theorem layers_connected (nf : NfInstance) (plan : List Nat)
    (created : List ActionInstanceExecution) (h : nf.create plan = some created) :
    ((∃ connected, nf.connect created = some connected) ↔
      ∀ current ∈ nf.actionInstanceList, ∀ a, nf.instances[current]? = some a →
        ∀ previous ∈ a.dependencyList,
          ((layer created previous).length = 0 ↔ (layer created current).length = 0)) ∧
    (∀ i ∈ nf.actionInstanceList, ∀ a n, nf.instances[i]? = some a →
      nf.replicas plan a = some n →
      (layer created i).length = nf.actionInstanceList.count i * n) ∧
    ∀ connected, nf.connect created = some connected →
      (∀ i, layer connected i = layer created i) ∧
      ∀ current ∈ nf.actionInstanceList, ∀ a, nf.instances[current]? = some a →
        ∀ previous ∈ a.dependencyList, 1 ≤ (layer connected previous).length →
          1 ≤ (layer connected current).length →
            LayersConnected (nf.actionInstanceList.count current * a.dependencyList.count previous)
              connected previous current := by
  have hl := exists_instance_of_create h
  have heq := connect_eq hl created
  simp only [List.length_eq_zero_iff]
  refine ⟨?_, fun i _ a n ha hn ↦ length_layer h ha hn, fun connected hconnect ↦ ?_⟩
  · rw [← forall_pairs_iff hl, heq]
    split
    · next hall => exact iff_of_true ⟨_, rfl⟩ hall
    · next hnot => exact iff_of_false (fun ⟨_, hsome⟩ ↦ nomatch hsome) hnot
  · rw [heq] at hconnect
    split at hconnect
    · cases hconnect
      refine ⟨layer_addEdges created _, fun current hcur a ha previous hprev hp hc ↦ ?_⟩
      rw [layer_addEdges] at hp hc
      rw [← dependencies_eq ha] at hprev ⊢
      exact layersConnected_addEdges (unconnected_of_create h) hcur hprev
        (List.ne_nil_of_length_pos hp) (List.ne_nil_of_length_pos hc)
    · cases hconnect

/-- Three executions of `packet_in` and two of the monitor that depends on it. -/
theorem layers_connected_monitor : ∃ nf created connected,
    NfInstance.new (monitorObjects 1) 1 ⟨[], [], [], []⟩ (0, 0) = some nf ∧
    nf.create [2, 3] = some created ∧ nf.connect created = some connected ∧
    layer connected 1 = [0, 1, 2] ∧ layer connected 0 = [3, 4] ∧
    LayersConnected 1 connected 1 0 := by
  let nf : NfInstance := ⟨monitorObjects 1,
    [⟨1, 0, some 0, [1]⟩, ⟨0, 0, none, []⟩, ⟨2, 0, none, [0]⟩], [1, 0, 2]⟩
  have hcreate : (nf.create [2, 3]).isSome := by decide
  obtain ⟨created, hc⟩ := Option.isSome_iff_exists.mp hcreate
  have hlayers : (nf.create [2, 3]).bind (fun l ↦ (nf.connect l).map fun m ↦
      (layer m 1, layer m 0)) = some ([0, 1, 2], [3, 4]) := by decide
  rw [hc, Option.bind_some, Option.map_eq_some_iff] at hlayers
  obtain ⟨connected, hconnect, hpair⟩ := hlayers
  have h1 : layer connected 1 = [0, 1, 2] := congrArg Prod.fst hpair
  have h0 : layer connected 0 = [3, 4] := congrArg Prod.snd hpair
  refine ⟨nf, created, connected, by decide, hc, hconnect, h1, h0, ?_⟩
  exact ((layers_connected nf [2, 3] created hc).2.2 connected hconnect).2 0 (by decide)
    ⟨1, 0, some 0, [1]⟩ rfl 1 (by decide) (by simp [h1]) (by simp [h0])

/-- A network function that lists its first action twice: one execution of `packet_in` and two of
the action are connected by four dependencies. -/
theorem monitor_twice_connected_twice : ∃ nf created connected,
    NfInstance.new (monitorObjects 2) 1 ⟨[], [], [], []⟩ (0, 0) = some nf ∧
    nf.create [1, 1] = some created ∧ nf.connect created = some connected ∧
    0 ∈ nf.actionInstanceList ∧ nf.instances[0]? = some ⟨1, 0, some 0, [2]⟩ ∧
    (layer connected 2).length = 1 ∧ (layer connected 0).length = 2 ∧
    edgeCount connected 2 0 ≠ max (layer connected 2).length (layer connected 0).length := by
  refine ⟨_, _, _, Option.some_get (by decide) |>.symm, Option.some_get (by decide) |>.symm,
    Option.some_get (by decide) |>.symm, ?_⟩
  decide

end Constructor

end Nflambda.Chain
