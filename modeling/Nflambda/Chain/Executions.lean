import Nflambda.Base.LastWrite
import Nflambda.Base.Loops
import Nflambda.Chain.Scaling

/-!
# The executions of a service chain

Library `Chain`. What the loops of `execution_model.scaling`, `src/director/em/em.py:32–69`,
compute for a chain whose references are sound and a plan with one count for each action
instance: the executions, the state executions and the executions that depend on each other, in
closed form.
-/

namespace Nflambda.Chain

open Nflambda.Base

/-- The references between the instances of a chain are sound: its action instances depend on each
other only, and belong to the state instances that list them. -/
structure Sfc.WellFormed (sfc : Sfc) : Prop where
  instance_mem : ∀ i ∈ sfc.actionInstanceList, ∃ a, sfc.instances[i]? = some a
  action_mem : ∀ i ∈ sfc.actionInstanceList, ∀ a, sfc.instances[i]? = some a →
    ∃ action, sfc.objects.actions[a.action]? = some action
  dependency_mem : ∀ i ∈ sfc.actionInstanceList, ∀ a, sfc.instances[i]? = some a →
    ∀ j ∈ a.dependencyList, j ∈ sfc.actionInstanceList
  user_iff : ∀ (q : Nat) (s : StateInstance), sfc.stateInstanceList[q]? = some s → ∀ i,
    i ∈ s.actionInstanceList ↔ i ∈ sfc.actionInstanceList ∧
      ∃ a, sfc.instances[i]? = some a ∧ a.stateInstance = some q
  nfId_eq : ∀ s ∈ sfc.stateInstanceList, ∀ i ∈ s.actionInstanceList, ∀ a,
    sfc.instances[i]? = some a → a.nfId = s.nfId
  state_mem : ∀ i ∈ sfc.actionInstanceList, ∀ a, sfc.instances[i]? = some a → ∀ q,
    a.stateInstance = some q → q < sfc.stateInstanceList.length

/-- The network function instance that an action instance belongs to. -/
def Sfc.nfIdOf (sfc : Sfc) (i : Nat) : Nat :=
  match sfc.instances[i]? with
  | some a => a.nfId
  | none => 0

/-- Action instance `i` is in the dependency list of action instance `j`. -/
def Sfc.Depends (sfc : Sfc) (i j : Nat) : Prop :=
  match sfc.instances[j]? with
  | some a => i ∈ a.dependencyList
  | none => False

instance (sfc : Sfc) (i j : Nat) : Decidable (sfc.Depends i j) := by
  unfold Sfc.Depends
  split <;> infer_instance

/-- The count of an action instance in a scaling plan, that of its first position. -/
def Sfc.count (sfc : Sfc) (plan : List Nat) (i : Nat) : Nat :=
  plan.getD (sfc.actionInstanceList.idxOf i) 0

/-- The largest count of an action instance in a scaling plan, if it has several positions. -/
def Sfc.maxCount (sfc : Sfc) (plan : List Nat) (i : Nat) : Nat :=
  (plan.zip sfc.actionInstanceList).foldr (fun p m ↦ if p.2 = i then max p.1 m else m) 0

/-- The executions of the action instances, in the order of the chain. -/
def executions (sfc : Sfc) (plan : List Nat) : List ActionInstanceExecution :=
  (plan.zip sfc.actionInstanceList).flatMap fun p ↦ (List.range p.1).map fun j ↦
    ⟨p.2, sfc.nfIdOf p.2, j, none, [], -1⟩

/-- The number of executions of a state instance, that of the first action that uses it. -/
def Sfc.stateCount (sfc : Sfc) (plan : List Nat) (s : StateInstance) : Nat :=
  sfc.count plan (s.actionInstanceList.headD 0)

/-- The executions of the state instances with the positions of the executions of their actions. -/
def stateExecutions (sfc : Sfc) (plan : List Nat) : List StateInstanceExecution :=
  sfc.stateInstanceList.zipIdx.flatMap fun s ↦ (List.range (sfc.stateCount plan s.1)).map fun i ↦
    ⟨s.2, s.1.nfId, i, getAIEList (executions sfc plan) s.1.actionInstanceList s.1.nfId i⟩

/-- The state execution that the execution at a position is bound to: the last one that lists
it. -/
def boundTo (states : List StateInstanceExecution) (k : Nat) : Option Nat :=
  lastWrite (fun s : StateInstanceExecution × Nat ↦ if k ∈ s.1.aIEList then some s.2 else none)
    states.zipIdx

/-- The condition under which `scaling` makes the second execution depend on the first one,
`em.py:57–69`. -/
def Linked (sfc : Sfc) (plan : List Nat) (a1 a2 : ActionInstanceExecution) : Prop :=
  sfc.actionInstanceList.idxOf a1.actionInstance < sfc.actionInstanceList.idxOf a2.actionInstance ∧
    sfc.Depends a1.actionInstance a2.actionInstance ∧
    if sfc.count plan a1.actionInstance < sfc.count plan a2.actionInstance then
      a1.executionId % sfc.count plan a2.actionInstance = 0
    else if sfc.count plan a2.actionInstance < sfc.count plan a1.actionInstance then
      a2.executionId % sfc.count plan a1.actionInstance = 0
    else a1.executionId = a2.executionId

instance (sfc : Sfc) (plan : List Nat) (a1 a2 : ActionInstanceExecution) :
    Decidable (Linked sfc plan a1 a2) :=
  inferInstanceAs (Decidable (_ ∧ _ ∧ _))

/-- The positions of the executions that an execution depends on. -/
def linkedTo (sfc : Sfc) (plan : List Nat) (a : ActionInstanceExecution) : List Nat :=
  positions (fun a1 ↦ decide (Linked sfc plan a1 a)) (executions sfc plan)

/-- The executions after `scaling`. -/
def scaledExecutions (sfc : Sfc) (plan : List Nat) : List ActionInstanceExecution :=
  (executions sfc plan).mapIdx fun k a ↦
    { a with
      stateInstanceExecution := boundTo (stateExecutions sfc plan) k
      dependencyList := linkedTo sfc plan a }

/-- The execution at a position after `scaling`. -/
theorem getElem?_scaledExecutions {sfc : Sfc} {plan : List Nat} {k : Nat}
    {a : ActionInstanceExecution} :
    (scaledExecutions sfc plan)[k]? = some a ↔ ∃ e, (executions sfc plan)[k]? = some e ∧
      a = { e with
        stateInstanceExecution := boundTo (stateExecutions sfc plan) k
        dependencyList := linkedTo sfc plan e } := by
  rw [scaledExecutions, List.getElem?_mapIdx, Option.map_eq_some_iff]
  simp only [eq_comm]

/-- An execution depends on those that are linked to it. -/
theorem mem_linkedTo_iff {sfc : Sfc} {plan : List Nat} {k : Nat}
    {b : ActionInstanceExecution} : k ∈ linkedTo sfc plan b ↔
      ∃ e, (executions sfc plan)[k]? = some e ∧ Linked sfc plan e b := by
  unfold linkedTo
  rw [mem_positions_iff]
  simp only [decide_eq_true_eq]

/-! ### The loops -/

/-- The executions of the instance at a position, if there is one. -/
private def executionsAt (sfc : Sfc) (p : Nat × Nat) : List ActionInstanceExecution :=
  match sfc.actionInstanceList[p.2]? with
  | none => []
  | some i => (List.range p.1).map fun j ↦ ⟨i, sfc.nfIdOf i, j, none, [], -1⟩

private theorem executionsAt_of_newExecutions {sfc : Sfc} {p : Nat × Nat}
    {row : List ActionInstanceExecution} (h : newExecutions sfc p = some row) :
    row = executionsAt sfc p := by
  have hmap := mapM_eq_some_iff.mp h
  have hlen : row.length = p.1 := by simpa using (congrArg List.length hmap).symm
  unfold executionsAt
  apply List.ext_getElem?
  intro j
  by_cases hj : j < p.1
  · have hjr : j < row.length := by omega
    have hjs := congrArg (·[j]?) hmap
    simp only [List.getElem?_map, List.getElem?_range hj, Option.map_some] at hjs
    rw [List.getElem?_eq_getElem hjr, Option.map_some, Option.some.injEq] at hjs
    obtain ⟨i, hi, hrest⟩ := Option.bind_eq_some_iff.mp hjs
    obtain ⟨a, ha, hrow⟩ := Option.bind_eq_some_iff.mp hrest
    rw [hi, List.getElem?_eq_getElem hjr, ← Option.some.inj hrow]
    simp only [List.getElem?_map, List.getElem?_range hj, Option.map_some, Sfc.nfIdOf, ha]
  · have hnone (i : Nat) : ((List.range p.1).map fun j ↦
        (⟨i, sfc.nfIdOf i, j, none, [], -1⟩ : ActionInstanceExecution))[j]? = none := by
      rw [List.getElem?_eq_none_iff]
      simpa using hj
    rw [List.getElem?_eq_none (by omega)]
    split
    · rfl
    · exact (hnone _).symm

private theorem flatMap_executionsAt (sfc : Sfc) (plan : List Nat) (k : Nat) :
    (plan.zipIdx k).flatMap (executionsAt sfc) =
      (plan.zip (sfc.actionInstanceList.drop k)).flatMap fun p ↦ (List.range p.1).map fun j ↦
        ⟨p.2, sfc.nfIdOf p.2, j, none, [], -1⟩ := by
  induction plan generalizing k with
  | nil => rfl
  | cons n plan ih =>
    rw [List.zipIdx_cons, List.flatMap_cons, ih (k + 1)]
    unfold executionsAt
    by_cases hk : k < sfc.actionInstanceList.length
    · rw [List.drop_eq_getElem_cons hk, List.getElem?_eq_getElem hk]
      rfl
    · rw [List.getElem?_eq_none (by omega), List.drop_eq_nil_of_le (by omega),
        List.drop_eq_nil_of_le (by omega), List.zip_nil_right, List.zip_nil_right]
      rfl

/-- The first loop creates the executions, whatever the length of the plan, if it finishes. -/
private theorem flatten_of_newExecutions {sfc : Sfc} {plan : List Nat}
    {lists : List (List ActionInstanceExecution)}
    (h : plan.zipIdx.mapM (newExecutions sfc) = some lists) :
    lists.flatten = executions sfc plan := by
  have hrows : lists = plan.zipIdx.map (executionsAt sfc) := by
    have hmap := mapM_eq_some_iff.mp h
    apply List.ext_getElem?
    intro k
    have hk := congrArg (·[k]?) hmap
    simp only [List.getElem?_map] at hk
    rw [List.getElem?_map]
    cases hp : plan.zipIdx[k]? with
    | none =>
      rw [hp, Option.map_none] at hk
      simpa using hk.symm
    | some p =>
      rw [hp, Option.map_some] at hk
      obtain ⟨row, hrow, heq⟩ := Option.map_eq_some_iff.mp hk.symm
      rw [hrow, Option.map_some, ← executionsAt_of_newExecutions heq.symm]
  rw [hrows, ← List.flatMap_def, flatMap_executionsAt, List.drop_zero]
  rfl

/-- The first loop finishes for a plan with a count for each instance. -/
private theorem exists_newExecutions {sfc : Sfc} (h : sfc.WellFormed) {plan : List Nat}
    (hlen : plan.length = sfc.actionInstanceList.length) :
    ∃ lists, plan.zipIdx.mapM (newExecutions sfc) = some lists := by
  apply exists_mapM_eq_some
  rintro ⟨n, i⟩ hp
  have hi : i < sfc.actionInstanceList.length := by
    have hlt := List.snd_lt_of_mem_zipIdx hp
    omega
  obtain ⟨a, ha⟩ := h.instance_mem _ (List.getElem_mem hi)
  apply exists_mapM_eq_some
  intro j _
  rw [List.getElem?_eq_getElem hi, Option.bind_eq_bind, Option.bind_some, ha]
  exact ⟨_, rfl⟩

/-- What the loops read of an execution: its action instance, network function and number. -/
def ActionInstanceExecution.core (a : ActionInstanceExecution) : Nat × Nat × Nat :=
  (a.actionInstance, a.nfId, a.executionId)

/-- The executions found for a state are given by their positions. -/
theorem getAIEList_eq (list : List ActionInstanceExecution) (users : List Nat)
    (nfId executionId : Nat) : getAIEList list users nfId executionId =
      positions
        (fun c : Nat × Nat × Nat ↦ decide (c.1 ∈ users ∧ c.2.1 = nfId ∧ c.2.2 = executionId))
        (list.map ActionInstanceExecution.core) := by
  rw [positions_map]
  rfl

/-- An execution after it has been bound, if at all. -/
private def rebind (a : ActionInstanceExecution) (state : Option Nat) : ActionInstanceExecution :=
  { a with stateInstanceExecution := state.or a.stateInstanceExecution }

/-- The state execution that a round creates. -/
def newStateExecution (list : List ActionInstanceExecution) (p : (StateInstance × Nat) × Nat) :
    StateInstanceExecution :=
  ⟨p.1.2, p.1.1.nfId, p.2, getAIEList list p.1.1.actionInstanceList p.1.1.nfId p.2⟩

/-- The binding of the execution at position `k` to one of some numbered state executions. -/
private def binding (k : Nat) (s : StateInstanceExecution × Nat) : Option Nat :=
  if k ∈ s.1.aIEList then some s.2 else none

/-- One round binds the executions that it finds to the new state execution. -/
private theorem addStateExecution_eq (p : (StateInstance × Nat) × Nat)
    (list : List ActionInstanceExecution) (states : List StateInstanceExecution) :
    addStateExecution p.1 (list, states) p.2 =
      (list.mapIdx fun k a ↦ rebind a (binding k (newStateExecution list p, states.length)),
        states ++ [newStateExecution list p]) := by
  unfold addStateExecution
  dsimp only
  congr 1
  apply List.ext_getElem
  · simp
  · intro k hk hk'
    simp only [List.getElem_mapIdx, rebind, binding, newStateExecution]
    by_cases hmem : k ∈ getAIEList list p.1.1.actionInstanceList p.1.1.nfId p.2 <;> simp [hmem]

private theorem core_mapIdx_rebind (list : List ActionInstanceExecution)
    (f : Nat → Option Nat) :
    (list.mapIdx fun k a ↦ rebind a (f k)).map ActionInstanceExecution.core =
      list.map ActionInstanceExecution.core := by
  apply List.ext_getElem
  · simp
  · intro k hk hk'
    simp [rebind, ActionInstanceExecution.core]

/-- All rounds bind every execution to the last state execution that lists it. -/
private theorem foldl_addStateExecution (specs : List ((StateInstance × Nat) × Nat)) :
    ∀ (list : List ActionInstanceExecution) (states : List StateInstanceExecution),
      specs.foldl (fun r p ↦ addStateExecution p.1 r p.2) (list, states) =
        (list.mapIdx fun k a ↦ rebind a
            (lastWrite (binding k) ((specs.map (newStateExecution list)).zipIdx states.length)),
          states ++ specs.map (newStateExecution list)) := by
  induction specs with
  | nil =>
    intro list states
    rw [List.foldl_nil, List.map_nil, List.append_nil]
    congr 1
    apply List.ext_getElem
    · simp
    · intro k hk hk'
      simp [rebind]
  | cons p specs ih =>
    intro list states
    have hnew : ∀ q, newStateExecution (list.mapIdx fun k a ↦
        rebind a (binding k (newStateExecution list p, states.length))) q =
          newStateExecution list q := by
      intro q
      unfold newStateExecution
      rw [getAIEList_eq, core_mapIdx_rebind, ← getAIEList_eq]
    rw [List.foldl_cons, addStateExecution_eq, ih, List.mapIdx_mapIdx, List.map_congr_left
      (fun q _ ↦ hnew q), List.map_cons, List.zipIdx_cons, List.append_assoc,
      List.length_append, List.length_singleton]
    congr 1
    apply List.ext_getElem
    · simp
    · intro k hk hk'
      simp only [List.getElem_mapIdx, Function.comp_apply, lastWrite_cons, rebind, Option.or_assoc]

private theorem count_of_mem {sfc : Sfc} {plan : List Nat}
    (hlen : plan.length = sfc.actionInstanceList.length) {i : Nat}
    (hi : i ∈ sfc.actionInstanceList) :
    plan[sfc.actionInstanceList.idxOf i]? = some (sfc.count plan i) := by
  have hlt : sfc.actionInstanceList.idxOf i < plan.length := by
    rw [hlen]
    exact List.idxOf_lt_length_of_mem hi
  rw [Sfc.count, List.getD_eq_getElem?_getD, List.getElem?_eq_getElem hlt]
  rfl

/-- The second loop in closed form, with the number of executions of each state. -/
private theorem foldl_addStateExecutions (sfc : Sfc) (plan : List Nat) :
    sfc.stateInstanceList.zipIdx.foldl
        (fun r s ↦ (List.range (sfc.stateCount plan s.1)).foldl (addStateExecution s) r)
        (executions sfc plan, []) =
      ((executions sfc plan).mapIdx fun k a ↦ rebind a (boundTo (stateExecutions sfc plan) k),
        stateExecutions sfc plan) := by
  -- the loops over the states and over their executions are one loop over the pairs
  have hflat : (sfc.stateInstanceList.zipIdx.flatMap fun s ↦
      (List.range (sfc.stateCount plan s.1)).map fun i ↦ (s, i)).foldl
        (fun r (p : (StateInstance × Nat) × Nat) ↦ addStateExecution p.1 r p.2)
        (executions sfc plan, []) =
      sfc.stateInstanceList.zipIdx.foldl
        (fun r s ↦ (List.range (sfc.stateCount plan s.1)).foldl (addStateExecution s) r)
        (executions sfc plan, []) := by
    rw [List.foldl_flatMap]
    simp only [List.foldl_map]
  rw [← hflat, foldl_addStateExecution, List.nil_append, List.length_nil, List.map_flatMap]
  simp only [List.map_map]
  rfl

/-- The second loop creates the state executions, if some action uses each state. -/
private theorem addStateExecutions_foldlM {sfc : Sfc} (h : sfc.WellFormed) {plan : List Nat}
    (hlen : plan.length = sfc.actionInstanceList.length)
    (hused : ∀ s ∈ sfc.stateInstanceList, s.actionInstanceList ≠ []) :
    sfc.stateInstanceList.zipIdx.foldlM (addStateExecutions sfc plan) (executions sfc plan, []) =
      some ((executions sfc plan).mapIdx fun k a ↦
          rebind a (boundTo (stateExecutions sfc plan) k),
        stateExecutions sfc plan) := by
  have hround : ∀ s ∈ sfc.stateInstanceList.zipIdx, ∀ r, addStateExecutions sfc plan r s =
      some ((List.range (sfc.stateCount plan s.1)).foldl (addStateExecution s) r) := by
    intro s hs r
    obtain ⟨s, q⟩ := s
    have hget : sfc.stateInstanceList[q]? = some s := List.mem_zipIdx_iff_getElem?.mp hs
    cases husers : s.actionInstanceList with
    | nil => exact absurd husers (hused s (List.mem_of_getElem? hget))
    | cons i users =>
      have hi : i ∈ sfc.actionInstanceList := by
        refine ((h.user_iff q s hget i).mp ?_).1
        rw [husers]
        exact List.mem_cons_self
      unfold addStateExecutions
      dsimp only
      rw [husers, List.getElem?_cons_zero, Sfc.stateCount, husers, List.headD_cons]
      show (plan[sfc.actionInstanceList.idxOf i]? >>= fun n ↦ _) = _
      rw [count_of_mem hlen hi]
      rfl
  rw [foldlM_eq_some hround]
  exact congrArg some (foldl_addStateExecutions sfc plan)

private theorem dependsOn_eq {sfc : Sfc} (h : sfc.WellFormed) {plan : List Nat}
    (hlen : plan.length = sfc.actionInstanceList.length) {a1 a2 : ActionInstanceExecution}
    (h1 : a1.actionInstance ∈ sfc.actionInstanceList)
    (h2 : a2.actionInstance ∈ sfc.actionInstanceList) :
    dependsOn sfc plan a1 a2 = some (decide (Linked sfc plan a1 a2)) := by
  obtain ⟨a, ha⟩ := h.instance_mem _ h2
  have hdepends : sfc.Depends a1.actionInstance a2.actionInstance ↔
      a1.actionInstance ∈ a.dependencyList := by
    unfold Sfc.Depends
    rw [ha]
  unfold dependsOn
  rw [ha]
  show (if _ ∧ a1.actionInstance ∈ a.dependencyList then _ else some false) = _
  by_cases hif : sfc.actionInstanceList.idxOf a1.actionInstance <
      sfc.actionInstanceList.idxOf a2.actionInstance ∧ a1.actionInstance ∈ a.dependencyList
  · rw [if_pos hif, count_of_mem hlen h1, count_of_mem hlen h2]
    show (if sfc.count plan a1.actionInstance < sfc.count plan a2.actionInstance then _ else
      if sfc.count plan a2.actionInstance < sfc.count plan a1.actionInstance then _ else _) = _
    have hlinked : Linked sfc plan a1 a2 ↔
        if sfc.count plan a1.actionInstance < sfc.count plan a2.actionInstance then
          a1.executionId % sfc.count plan a2.actionInstance = 0
        else if sfc.count plan a2.actionInstance < sfc.count plan a1.actionInstance then
          a2.executionId % sfc.count plan a1.actionInstance = 0
        else a1.executionId = a2.executionId := by
      rw [Linked, hdepends, and_iff_right hif.1, and_iff_right hif.2]
    by_cases hlt : sfc.count plan a1.actionInstance < sfc.count plan a2.actionInstance
    · rw [if_pos hlt] at hlinked ⊢
      exact congrArg some (decide_eq_decide.mpr hlinked.symm)
    · rw [if_neg hlt] at hlinked ⊢
      by_cases hgt : sfc.count plan a2.actionInstance < sfc.count plan a1.actionInstance
      · rw [if_pos hgt] at hlinked ⊢
        exact congrArg some (decide_eq_decide.mpr hlinked.symm)
      · rw [if_neg hgt] at hlinked ⊢
        exact congrArg some (decide_eq_decide.mpr hlinked.symm)
  · rw [if_neg hif]
    have hnot : ¬ Linked sfc plan a1 a2 := fun hl ↦ hif ⟨hl.1, hdepends.mp hl.2.1⟩
    simp [hnot]

/-- An action instance has executions with the numbers below its largest count. -/
theorem lt_maxCount_iff {sfc : Sfc} {plan : List Nat} {i x : Nat} :
    x < sfc.maxCount plan i ↔ ∃ n, (n, i) ∈ plan.zip sfc.actionInstanceList ∧ x < n := by
  unfold Sfc.maxCount
  induction plan.zip sfc.actionInstanceList with
  | nil => simp
  | cons p l ih =>
    obtain ⟨n, j⟩ := p
    rw [List.foldr_cons]
    by_cases hj : j = i
    · subst hj
      have hmax : ∀ m : Nat, x < max n m ↔ x < n ∨ x < m := fun m ↦ by omega
      rw [if_pos rfl, hmax, ih]
      constructor
      · rintro (hlt | ⟨m, hm, hlt⟩)
        · exact ⟨n, List.mem_cons_self, hlt⟩
        · exact ⟨m, List.mem_cons_of_mem _ hm, hlt⟩
      · rintro ⟨m, hm, hlt⟩
        rcases List.mem_cons.mp hm with heq | hm
        · cases heq
          exact .inl hlt
        · exact .inr ⟨m, hm, hlt⟩
    · rw [if_neg hj, ih]
      constructor
      · rintro ⟨m, hm, hlt⟩
        exact ⟨m, List.mem_cons_of_mem _ hm, hlt⟩
      · rintro ⟨m, hm, hlt⟩
        rcases List.mem_cons.mp hm with heq | hm
        · cases heq
          exact absurd rfl hj
        · exact ⟨m, hm, hlt⟩

/-- The count of the first position is at most the largest one. -/
theorem count_le_maxCount {sfc : Sfc} {plan : List Nat}
    (hlen : plan.length = sfc.actionInstanceList.length) {i : Nat}
    (hi : i ∈ sfc.actionInstanceList) : sfc.count plan i ≤ sfc.maxCount plan i := by
  by_contra hlt
  have hmem : (sfc.count plan i, i) ∈ plan.zip sfc.actionInstanceList :=
    List.mem_of_getElem? (List.getElem?_zip_eq_some.mpr
      ⟨count_of_mem hlen hi, List.getElem?_idxOf hi⟩)
  exact Nat.lt_irrefl _ (lt_maxCount_iff.mpr ⟨_, hmem, Nat.not_le.mp hlt⟩)

/-- If all counts are positive, those of the instances are. -/
theorem one_le_count {sfc : Sfc} {plan : List Nat}
    (hlen : plan.length = sfc.actionInstanceList.length) (hpos : ∀ n ∈ plan, 1 ≤ n) {i : Nat}
    (hi : i ∈ sfc.actionInstanceList) : 1 ≤ sfc.count plan i := by
  have hlt : sfc.actionInstanceList.idxOf i < plan.length := by
    rw [hlen]
    exact List.idxOf_lt_length_of_mem hi
  rw [Sfc.count, List.getD_eq_getElem?_getD, List.getElem?_eq_getElem hlt]
  exact hpos _ (List.getElem_mem hlt)

/-- The executions are those of the action instances of the chain. -/
theorem mem_executions_iff {sfc : Sfc} {plan : List Nat} {a : ActionInstanceExecution} :
    a ∈ executions sfc plan ↔ ∃ i ∈ sfc.actionInstanceList, ∃ j < sfc.maxCount plan i,
      a = ⟨i, sfc.nfIdOf i, j, none, [], -1⟩ := by
  unfold executions
  simp only [List.mem_flatMap, List.mem_map, List.mem_range]
  constructor
  · rintro ⟨⟨n, i⟩, hp, j, hj, rfl⟩
    exact ⟨i, (List.of_mem_zip hp).2, j, lt_maxCount_iff.mpr ⟨n, hp, hj⟩, rfl⟩
  · rintro ⟨i, -, j, hj, rfl⟩
    obtain ⟨n, hp, hj⟩ := lt_maxCount_iff.mp hj
    exact ⟨(n, i), hp, j, hj, rfl⟩

/-- `scaling` in closed form. -/
theorem scaling_eq_some {sfc : Sfc} (h : sfc.WellFormed) {plan : List Nat}
    (hlen : plan.length = sfc.actionInstanceList.length)
    (hused : ∀ s ∈ sfc.stateInstanceList, s.actionInstanceList ≠ []) :
    scaling sfc plan =
      some ⟨sfc, plan, scaledExecutions sfc plan, stateExecutions sfc plan⟩ := by
  obtain ⟨lists, hlists⟩ := exists_newExecutions h hlen
  let bound := (executions sfc plan).mapIdx fun k a ↦
    rebind a (boundTo (stateExecutions sfc plan) k)
  have hmem : ∀ a ∈ bound, a.actionInstance ∈ sfc.actionInstanceList := by
    intro a ha
    obtain ⟨k, hk, rfl⟩ := List.mem_mapIdx.mp ha
    obtain ⟨i, hi, j, -, heq⟩ := mem_executions_iff.mp (List.getElem_mem hk)
    rw [heq]
    exact hi
  have hdeps : ∀ a ∈ bound, dependencies sfc plan bound a = some (linkedTo sfc plan a) := by
    intro a ha
    have hpositions : linkedTo sfc plan a =
        positions (fun a1 ↦ decide (Linked sfc plan a1 a)) bound := by
      let q : Nat × Nat × Nat → Bool :=
        fun c ↦ decide (Linked sfc plan ⟨c.1, c.2.1, c.2.2, none, [], -1⟩ a)
      show positions (q ∘ ActionInstanceExecution.core) _ =
        positions (q ∘ ActionInstanceExecution.core) bound
      rw [← positions_map, ← positions_map, core_mapIdx_rebind]
    unfold dependencies
    rw [filterM_eq_some (q := fun a1 ↦ decide (Linked sfc plan a1.1 a)) fun a1 ha1 ↦
      dependsOn_eq h hlen (hmem a1.1 (List.fst_mem_of_mem_zipIdx ha1)) (hmem a ha), hpositions]
    rfl
  have hfinal : List.mapM (m := Option) (fun a ↦ do
      return { a with dependencyList := a.dependencyList ++ (← dependencies sfc plan bound a) })
        bound = some (bound.map fun a ↦
        { a with dependencyList := a.dependencyList ++ linkedTo sfc plan a }) := by
    apply mapM_eq_some
    intro a ha
    rw [hdeps a ha]
    rfl
  have hlist : (bound.map fun a ↦
      { a with dependencyList := a.dependencyList ++ linkedTo sfc plan a }) =
      scaledExecutions sfc plan := by
    apply List.ext_getElem
    · simp [bound, scaledExecutions]
    · intro k hk hk'
      have hklen : k < (executions sfc plan).length := by
        simpa [scaledExecutions] using hk'
      obtain ⟨i, -, j, -, heq⟩ := mem_executions_iff.mp (List.getElem_mem hklen)
      simp only [bound, scaledExecutions, List.getElem_map, List.getElem_mapIdx]
      simp [heq, rebind, linkedTo, Linked]
  unfold scaling
  rw [hlists]
  show (sfc.stateInstanceList.zipIdx.foldlM (addStateExecutions sfc plan) (lists.flatten, []) >>=
    fun r ↦ _) = _
  rw [flatten_of_newExecutions hlists, addStateExecutions_foldlM h hlen hused]
  show (List.mapM (m := Option) _ bound >>= fun list ↦ _) = _
  rw [hfinal, hlist]
  rfl

/-- `scaling` raises an exception for a chain with a state that no action uses. -/
theorem scaling_eq_none {sfc : Sfc} {plan : List Nat} {s : StateInstance}
    (hs : s ∈ sfc.stateInstanceList) (hused : s.actionInstanceList = []) :
    scaling sfc plan = none := by
  obtain ⟨q, hq⟩ := List.getElem?_of_mem hs
  have hround : ∀ r, addStateExecutions sfc plan r (s, q) = none := by
    intro r
    unfold addStateExecutions
    rw [hused]
    rfl
  unfold scaling
  cases hlists : plan.zipIdx.mapM (newExecutions sfc) with
  | none => rfl
  | some lists =>
    show (sfc.stateInstanceList.zipIdx.foldlM (addStateExecutions sfc plan) (lists.flatten, []) >>=
      fun r ↦ _) = _
    rw [foldlM_eq_none (List.mem_zipIdx_iff_getElem?.mpr hq) hround]
    rfl

/-! ### Plans of any length -/

private theorem eq_of_addStateExecutions {sfc : Sfc} {plan : List Nat}
    {r r' : List ActionInstanceExecution × List StateInstanceExecution} {s : StateInstance × Nat}
    (h : addStateExecutions sfc plan r s = some r') :
    r' = (List.range (sfc.stateCount plan s.1)).foldl (addStateExecution s) r := by
  obtain ⟨i, hi, hrest⟩ := Option.bind_eq_some_iff.mp h
  obtain ⟨n, hn, hr⟩ := Option.bind_eq_some_iff.mp hrest
  have hcount : sfc.stateCount plan s.1 = n := by
    rw [Sfc.stateCount, List.headD_eq_head?_getD, List.head?_eq_getElem?, hi, Option.getD_some,
      Sfc.count, List.getD_eq_getElem?_getD, hn, Option.getD_some]
  rw [hcount]
  exact (Option.some.inj hr).symm

/-- The states and the bindings after `scaling`, whatever the length of the plan. -/
theorem bindings_of_scaling {sfc : Sfc} {plan : List Nat} {em : ExecutionModel}
    (h : scaling sfc plan = some em) :
    em.stateInstanceExecutionList = stateExecutions sfc plan ∧
      em.actionInstanceExecutionList.map (fun a ↦ (a.stateInstanceExecution, a.coreId)) =
        (scaledExecutions sfc plan).map fun a ↦ (a.stateInstanceExecution, a.coreId) := by
  obtain ⟨lists, hlists, hrest⟩ := Option.bind_eq_some_iff.mp h
  obtain ⟨⟨list, states⟩, hstates, hrest⟩ := Option.bind_eq_some_iff.mp hrest
  obtain ⟨linked, hlinked, hem⟩ := Option.bind_eq_some_iff.mp hrest
  have hloop := foldlM_eq_foldl (fun r s r' hr ↦ eq_of_addStateExecutions hr) hstates
  rw [flatten_of_newExecutions hlists, foldl_addStateExecutions, Prod.mk.injEq] at hloop
  obtain ⟨hlist, hstatesEq⟩ := hloop
  cases hem
  refine ⟨hstatesEq, ?_⟩
  have hkeep : linked.map (fun a ↦ (a.stateInstanceExecution, a.coreId)) =
      list.map fun a ↦ (a.stateInstanceExecution, a.coreId) := by
    have hmap := mapM_eq_some_iff.mp hlinked
    apply List.ext_getElem?
    intro k
    have hk := congrArg (·[k]?) hmap
    simp only [List.getElem?_map] at hk
    rw [List.getElem?_map, List.getElem?_map]
    cases ha : list[k]? with
    | none =>
      rw [ha, Option.map_none] at hk
      rw [Option.map_none, Option.map_eq_none_iff]
      simpa using hk.symm
    | some a =>
      rw [ha, Option.map_some] at hk
      obtain ⟨b, hb, hab⟩ := Option.map_eq_some_iff.mp hk.symm
      obtain ⟨deps, -, hdeps⟩ := Option.bind_eq_some_iff.mp hab.symm
      rw [hb, Option.map_some, Option.map_some, ← Option.some.inj hdeps]
  rw [hkeep, hlist]
  apply List.ext_getElem?
  intro k
  unfold scaledExecutions
  rw [List.getElem?_map, List.getElem?_map, List.getElem?_mapIdx, List.getElem?_mapIdx,
    Option.map_map, Option.map_map]
  cases he : (executions sfc plan)[k]? with
  | none => rfl
  | some e =>
    obtain ⟨i, -, j, -, rfl⟩ := mem_executions_iff.mp (List.mem_of_getElem? he)
    simp [rebind]

end Nflambda.Chain
