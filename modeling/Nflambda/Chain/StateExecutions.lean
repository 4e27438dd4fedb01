import Nflambda.Chain.Composed
import Nflambda.Chain.GenericDecomposed
import Nflambda.Chain.Platform

/-!
# The state executions of a chain

Library `Chain`. When the second loop of `execution_model.scaling`,
`src/director/em/em.py:40–50`, gives every execution of an action the execution of its state that
`NFlambda.deployment`, `src/director/nflambda/platform.py:184–187`, looks up.
-/

namespace Nflambda.Chain

open Nflambda.Base

/-- Every execution of an action instance with a state instance is bound to the execution of that
state instance with its own number. -/
def StatefulBound (em : ExecutionModel) : Prop :=
  ∀ a ∈ em.actionInstanceExecutionList, ∀ i, em.sfc.instances[a.actionInstance]? = some i →
    ∀ q, i.stateInstance = some q → ∃ m s, a.stateInstanceExecution = some m ∧
      em.stateInstanceExecutionList[m]? = some s ∧ s.stateInstance = q ∧
      s.executionId = a.executionId

/-- The state executions list exactly the executions that are bound to them. -/
def ListsBound (em : ExecutionModel) : Prop :=
  ∀ (m : Nat) (s : StateInstanceExecution), em.stateInstanceExecutionList[m]? = some s →
    s.aIEList.Nodup ∧ ∀ k, k ∈ s.aIEList ↔
      ∃ a, em.actionInstanceExecutionList[k]? = some a ∧ a.stateInstanceExecution = some m

/-- No state instance has two executions with one number. -/
def CreatedOnce (em : ExecutionModel) : Prop :=
  (em.stateInstanceExecutionList.map fun s ↦ (s.stateInstance, s.executionId)).Nodup

/-- The look-up of `NFlambda.deployment` finds a state for every action that is no system action. -/
def LookupSucceeds (em : ExecutionModel) : Prop :=
  ∀ a ∈ em.actionInstanceExecutionList, ∀ act, (DeploymentModel.new em).actionOf a = some act →
    act.name ∉ ["packet_in", "packet_out", "drop"] →
    ∃ m < em.stateInstanceExecutionList.length, a.stateInstanceExecution = some m

/-- The first action that uses a state has the largest count of those that do. -/
def FirstUserCounts (sfc : Sfc) (plan : List Nat) : Prop :=
  ∀ s ∈ sfc.stateInstanceList, ∀ i ∈ s.actionInstanceList,
    sfc.maxCount plan i ≤ sfc.stateCount plan s

/-- All actions of a chain but the system actions use a state. -/
def Stateful (sfc : Sfc) : Prop :=
  ∀ i ∈ sfc.actionInstanceList, ∀ a, sfc.instances[i]? = some a → ∀ act,
    sfc.objects.actions[a.action]? = some act →
    act.name ∉ ["packet_in", "packet_out", "drop"] → act.state ≠ none

/-- The executions that are found for a state. -/
theorem mem_getAIEList_iff {list : List ActionInstanceExecution} {users : List Nat}
    {nfId executionId k : Nat} : k ∈ getAIEList list users nfId executionId ↔
      ∃ a, list[k]? = some a ∧ a.actionInstance ∈ users ∧ a.nfId = nfId ∧
        a.executionId = executionId := by
  refine (mem_positions_iff (q := fun a : ActionInstanceExecution ↦
    decide (a.actionInstance ∈ users ∧ a.nfId = nfId ∧ a.executionId = executionId))).trans ?_
  simp only [decide_eq_true_eq]

/-- The state executions are those of the state instances of the chain. -/
theorem mem_stateExecutions_iff {sfc : Sfc} {plan : List Nat} {s : StateInstanceExecution} :
    s ∈ stateExecutions sfc plan ↔ ∃ (q : Nat) (si : StateInstance),
      sfc.stateInstanceList[q]? = some si ∧ ∃ x < sfc.stateCount plan si,
        s = ⟨q, si.nfId, x, getAIEList (executions sfc plan) si.actionInstanceList si.nfId x⟩ := by
  unfold stateExecutions
  simp only [List.mem_flatMap, List.mem_map, List.mem_range]
  constructor
  · rintro ⟨⟨si, q⟩, hq, x, hx, rfl⟩
    exact ⟨q, si, List.mem_zipIdx_iff_getElem?.mp hq, x, hx, rfl⟩
  · rintro ⟨q, si, hq, x, hx, rfl⟩
    exact ⟨(si, q), List.mem_zipIdx_iff_getElem?.mpr hq, x, hx, rfl⟩

/-- No state instance has two executions with one number. -/
theorem nodup_stateExecutions (sfc : Sfc) (plan : List Nat) :
    ((stateExecutions sfc plan).map fun s ↦ (s.stateInstance, s.executionId)).Nodup := by
  unfold stateExecutions
  rw [List.map_flatMap]
  simp only [List.map_map]
  rw [List.nodup_flatMap]
  constructor
  · intro s _
    apply List.nodup_range.map
    intro x y hxy
    exact congrArg Prod.snd hxy
  · have hidx : (sfc.stateInstanceList.zipIdx.map Prod.snd).Nodup := by
      rw [List.zipIdx_map_snd]
      exact List.nodup_range'
    refine (List.pairwise_map.mp hidx).imp fun {s t} hne ↦ ?_
    intro p hp hp'
    obtain ⟨x, -, rfl⟩ := List.mem_map.mp hp
    obtain ⟨y, -, heq⟩ := List.mem_map.mp hp'
    exact hne (congrArg Prod.fst heq).symm

/-- A state execution lists the executions with its number whose instances use its state. -/
theorem mem_aIEList_iff {sfc : Sfc} (h : sfc.WellFormed) {plan : List Nat} {k : Nat}
    {e : ActionInstanceExecution} (he : (executions sfc plan)[k]? = some e) {a : ActionInstance}
    (ha : sfc.instances[e.actionInstance]? = some a) {s : StateInstanceExecution}
    (hs : s ∈ stateExecutions sfc plan) :
    k ∈ s.aIEList ↔ a.stateInstance = some s.stateInstance ∧ e.executionId = s.executionId := by
  obtain ⟨q, si, hq, x, -, rfl⟩ := mem_stateExecutions_iff.mp hs
  obtain ⟨i, hi, y, -, rfl⟩ := mem_executions_iff.mp (List.mem_of_getElem? he)
  have hid : sfc.nfIdOf i = a.nfId := by
    rw [Sfc.nfIdOf, show sfc.instances[i]? = some a from ha]
  rw [mem_getAIEList_iff]
  constructor
  · rintro ⟨e', he', huser, -, hx⟩
    rw [he, Option.some.injEq] at he'
    subst he'
    obtain ⟨-, a', ha', hstate⟩ := (h.user_iff q si hq i).mp huser
    rw [show sfc.instances[i]? = some a from ha, Option.some.injEq] at ha'
    subst ha'
    exact ⟨hstate, hx⟩
  · rintro ⟨hstate, hx⟩
    have huser : i ∈ si.actionInstanceList := (h.user_iff q si hq i).mpr ⟨hi, a, ha, hstate⟩
    refine ⟨_, he, huser, ?_, hx⟩
    exact hid.trans (h.nfId_eq si (List.mem_of_getElem? hq) i huser a ha)

/-- State executions with the same state instance and number are the same. -/
private theorem stateExecution_unique {sfc : Sfc} {plan : List Nat} {m m' : Nat}
    {s s' : StateInstanceExecution} (hs : (stateExecutions sfc plan)[m]? = some s)
    (hs' : (stateExecutions sfc plan)[m']? = some s') (hq : s.stateInstance = s'.stateInstance)
    (hx : s.executionId = s'.executionId) : m = m' := by
  have hlt := (List.getElem?_eq_some_iff.mp hs).1
  refine (List.getElem?_inj (by rwa [List.length_map]) (nodup_stateExecutions sfc plan)).mp ?_
  rw [List.getElem?_map, List.getElem?_map, hs, hs', Option.map_some, Option.map_some, hq, hx]

/-- An execution is bound to the state execution that lists it. -/
theorem boundTo_eq_some_iff {sfc : Sfc} (h : sfc.WellFormed) {plan : List Nat} {k m : Nat}
    {e : ActionInstanceExecution} (he : (executions sfc plan)[k]? = some e) :
    boundTo (stateExecutions sfc plan) k = some m ↔
      ∃ s, (stateExecutions sfc plan)[m]? = some s ∧ k ∈ s.aIEList := by
  obtain ⟨i, hi, y, -, rfl⟩ := mem_executions_iff.mp (List.mem_of_getElem? he)
  obtain ⟨a, ha⟩ := h.instance_mem i hi
  unfold boundTo
  constructor
  · intro hm
    obtain ⟨⟨s, m'⟩, hmem, hw⟩ := exists_of_lastWrite_eq_some hm
    by_cases hk : k ∈ s.aIEList
    · rw [if_pos hk, Option.some.injEq] at hw
      subst hw
      exact ⟨s, List.mem_zipIdx_iff_getElem?.mp hmem, hk⟩
    · rw [if_neg hk] at hw
      cases hw
  · rintro ⟨s, hs, hk⟩
    obtain ⟨hq, hx⟩ := (mem_aIEList_iff h he ha (List.mem_of_getElem? hs)).mp hk
    refine lastWrite_eq ?_ ?_
    · rintro ⟨s', m'⟩ hmem u hw
      by_cases hk' : k ∈ s'.aIEList
      · rw [if_pos hk', Option.some.injEq] at hw
        subst hw
        have hs' := List.mem_zipIdx_iff_getElem?.mp hmem
        obtain ⟨hq', hx'⟩ := (mem_aIEList_iff h he ha (List.mem_of_getElem? hs')).mp hk'
        rw [hq, Option.some.injEq] at hq'
        exact congrArg some (stateExecution_unique hs hs' hq' (hx.symm.trans hx'))
      · rw [if_neg hk'] at hw
        cases hw
    · rintro u hu
      cases hu
      exact ⟨(s, m), List.mem_zipIdx_iff_getElem?.mpr hs, if_pos hk⟩

/-- The state executions list exactly the executions that are bound to them. -/
theorem listsBound {sfc : Sfc} (h : sfc.WellFormed) (plan : List Nat) :
    ListsBound ⟨sfc, plan, scaledExecutions sfc plan, stateExecutions sfc plan⟩ := by
  intro m s hs
  constructor
  · obtain ⟨q, si, -, x, -, rfl⟩ := mem_stateExecutions_iff.mp (List.mem_of_getElem? hs)
    exact nodup_positions (fun a : ActionInstanceExecution ↦ decide (a.actionInstance ∈
      si.actionInstanceList ∧ a.nfId = si.nfId ∧ a.executionId = x)) (executions sfc plan)
  · intro k
    constructor
    · intro hk
      obtain ⟨e, he⟩ : ∃ e, (executions sfc plan)[k]? = some e := by
        obtain ⟨q, si, -, x, -, rfl⟩ := mem_stateExecutions_iff.mp (List.mem_of_getElem? hs)
        obtain ⟨e, he, -⟩ := mem_getAIEList_iff.mp hk
        exact ⟨e, he⟩
      exact ⟨_, getElem?_scaledExecutions.mpr ⟨e, he, rfl⟩,
        (boundTo_eq_some_iff h he).mpr ⟨s, hs, hk⟩⟩
    · rintro ⟨a, ha, hm⟩
      obtain ⟨e, he, rfl⟩ := getElem?_scaledExecutions.mp ha
      obtain ⟨s', hs', hk⟩ := (boundTo_eq_some_iff h he).mp hm
      rw [show (stateExecutions sfc plan)[m]? = some s from hs, Option.some.injEq] at hs'
      exact hs' ▸ hk

/-- The executions are bound to their states exactly when the first users have the largest
counts. -/
theorem statefulBound_iff {sfc : Sfc} (h : sfc.WellFormed) {plan : List Nat} :
    StatefulBound ⟨sfc, plan, scaledExecutions sfc plan, stateExecutions sfc plan⟩ ↔
      FirstUserCounts sfc plan := by
  constructor
  · intro hbound s hs i hi
    obtain ⟨q, hq⟩ := List.getElem?_of_mem hs
    obtain ⟨hmem, a, ha, hstate⟩ := (h.user_iff q s hq i).mp hi
    by_contra hlt
    -- the execution with the number of state executions has no state
    obtain ⟨k, hk⟩ := List.getElem?_of_mem (mem_executions_iff.mpr
      ⟨i, hmem, sfc.stateCount plan s, Nat.not_le.mp hlt, rfl⟩)
    obtain ⟨m, st, -, hst, hsq, hsx⟩ := hbound _
      (List.mem_of_getElem? (getElem?_scaledExecutions.mpr ⟨_, hk, rfl⟩)) a ha q hstate
    obtain ⟨q', si, hq', x, hx, rfl⟩ := mem_stateExecutions_iff.mp (List.mem_of_getElem? hst)
    have hqq : q' = q := hsq
    subst hqq
    rw [hq, Option.some.injEq] at hq'
    subst hq'
    have hxeq : x = sfc.stateCount plan s := hsx
    omega
  · intro hcount a ha i hi q hstate
    obtain ⟨k, hk⟩ := List.getElem?_of_mem ha
    obtain ⟨e, he, rfl⟩ := getElem?_scaledExecutions.mp hk
    obtain ⟨j, hj, y, hy, rfl⟩ := mem_executions_iff.mp (List.mem_of_getElem? he)
    have hlt := h.state_mem j hj i hi q hstate
    have hq := List.getElem?_eq_getElem hlt
    have huser := (h.user_iff q _ hq j).mpr ⟨hj, i, hi, hstate⟩
    have hy' : y < sfc.stateCount plan sfc.stateInstanceList[q] :=
      Nat.lt_of_lt_of_le hy (hcount _ (List.getElem_mem hlt) j huser)
    obtain ⟨m, hm⟩ := List.getElem?_of_mem (mem_stateExecutions_iff.mpr ⟨q, _, hq, y, hy', rfl⟩)
    refine ⟨m, _, (boundTo_eq_some_iff h he).mpr ⟨_, hm, ?_⟩, hm, rfl, rfl⟩
    exact (mem_aIEList_iff h he hi (List.mem_of_getElem? hm)).mpr ⟨hstate, rfl⟩

/-- The look-ups succeed exactly when all actions but the system actions use a state, if the
executions are bound. -/
theorem lookupSucceeds_iff {o : Objects} (ho : o.Created) {nfs : List Nat} {sfc : Sfc}
    (hsfc : Sfc.new o nfs = some sfc) {plan : List Nat}
    (hlen : plan.length = sfc.actionInstanceList.length) (hpos : ∀ n ∈ plan, 1 ≤ n)
    (hcount : FirstUserCounts sfc plan) :
    LookupSucceeds ⟨sfc, plan, scaledExecutions sfc plan, stateExecutions sfc plan⟩ ↔
      Stateful sfc := by
  have h := wellFormed_of_new ho hsfc
  constructor
  · intro hlook i hi a ha act hact hname hnone
    obtain ⟨k, hk⟩ := List.getElem?_of_mem (mem_executions_iff.mpr
      ⟨i, hi, 0, Nat.lt_of_lt_of_le (one_le_count hlen hpos hi) (count_le_maxCount hlen hi), rfl⟩)
    have hactionOf : (DeploymentModel.new ⟨sfc, plan, scaledExecutions sfc plan,
        stateExecutions sfc plan⟩).actionOf { (⟨i, sfc.nfIdOf i, 0, none, [], -1⟩ :
          ActionInstanceExecution) with
          stateInstanceExecution := boundTo (stateExecutions sfc plan) k
          dependencyList := linkedTo sfc plan ⟨i, sfc.nfIdOf i, 0, none, [], -1⟩ } = some act := by
      show (sfc.instances[i]? >>= fun i ↦ sfc.objects.actions[i.action]?) = some act
      rw [ha]
      exact hact
    obtain ⟨m, -, hm⟩ := hlook _ (List.mem_of_getElem? (getElem?_scaledExecutions.mpr
      ⟨_, hk, rfl⟩)) act hactionOf hname
    obtain ⟨s, hs, hmem⟩ := (boundTo_eq_some_iff h hk).mp hm
    have hstate := ((mem_aIEList_iff h hk ha (List.mem_of_getElem? hs)).mp hmem).1
    have hno : a.stateInstance = none := by
      rw [stateInstance_eq_none_iff ho hsfc hi ha, stateOf, hact]
      exact hnone
    rw [hno] at hstate
    cases hstate
  · intro hstateful a ha act hact hname
    obtain ⟨k, hk⟩ := List.getElem?_of_mem ha
    obtain ⟨e, he, rfl⟩ := getElem?_scaledExecutions.mp hk
    obtain ⟨j, hj, y, -, rfl⟩ := mem_executions_iff.mp (List.mem_of_getElem? he)
    obtain ⟨i, hi, hact⟩ := Option.bind_eq_some_iff.mp hact
    have hsome : i.stateInstance ≠ none := by
      rw [Ne, stateInstance_eq_none_iff ho hsfc hj hi, stateOf,
        show sfc.objects.actions[i.action]? = some act from hact]
      exact hstateful j hj i hi act hact hname
    obtain ⟨q, hq⟩ := Option.ne_none_iff_exists'.mp hsome
    obtain ⟨m, s, hm, hs, -⟩ := (statefulBound_iff h).mpr hcount _ ha i hi q hq
    exact ⟨m, (List.getElem?_eq_some_iff.mp hs).1, hm⟩

/-- `scaling` binds all executions to their states, so that `NFlambda.deployment` finds them,
exactly when every state is used, the first action that uses a state has the largest count, and
every action but the system actions uses a state. -/
theorem scaling_binds_iff {o : Objects} (ho : o.Created) {nfs : List Nat} {sfc : Sfc}
    (hsfc : Sfc.new o nfs = some sfc) {plan : List Nat}
    (hlen : plan.length = sfc.actionInstanceList.length) (hpos : ∀ n ∈ plan, 1 ≤ n) :
    (∃ em, scaling sfc plan = some em ∧ StatefulBound em ∧ ListsBound em ∧ CreatedOnce em ∧
      LookupSucceeds em) ↔
    (∀ s ∈ sfc.stateInstanceList, s.actionInstanceList ≠ []) ∧ FirstUserCounts sfc plan ∧
      Stateful sfc := by
  have h := wellFormed_of_new ho hsfc
  constructor
  · rintro ⟨em, hem, hbound, -, -, hlook⟩
    have hused : ∀ s ∈ sfc.stateInstanceList, s.actionInstanceList ≠ [] := by
      intro s hs hnil
      rw [scaling_eq_none hs hnil] at hem
      cases hem
    rw [scaling_eq_some h hlen hused, Option.some.injEq] at hem
    subst hem
    have hcount := (statefulBound_iff h).mp hbound
    exact ⟨hused, hcount, (lookupSucceeds_iff ho hsfc hlen hpos hcount).mp hlook⟩
  · rintro ⟨hused, hcount, hstateful⟩
    exact ⟨_, scaling_eq_some h hlen hused, (statefulBound_iff h).mpr hcount, listsBound h plan,
      nodup_stateExecutions sfc plan, (lookupSucceeds_iff ho hsfc hlen hpos hcount).mpr hstateful⟩

/-- With one execution of the classifier and two of the data action, which use one state, the second
execution of the data action is bound to no state. -/
theorem gd_one_two_not_bound : ∃ em, scaling gdSfc [1, 1, 1, 2, 1] = some em ∧
    ¬ StatefulBound em := by
  refine ⟨(scaling gdSfc [1, 1, 1, 2, 1]).get (by decide), (Option.some_get _).symm, fun h ↦ ?_⟩
  obtain ⟨m, s, hm, -⟩ :=
    h ⟨3, 0, 1, none, [1, 2], -1⟩ (by decide) ⟨5, 0, some 0, [0, 2]⟩ (by decide) 0 rfl
  cases hm

/-- With three executions of every action but two of the control action, all are bound. -/
theorem gd_three_two_bound : ∃ em, scaling gdSfc [3, 3, 2, 3, 3] = some em ∧ StatefulBound em ∧
    ListsBound em ∧ CreatedOnce em ∧ LookupSucceeds em := by
  refine (scaling_binds_iff gdRegistry_created new_gd (by decide) (by decide)).mpr
    ⟨by decide, ?_, ?_⟩
  · unfold FirstUserCounts
    decide
  · have hall : ∀ i ∈ gdSfc.actionInstanceList, ∀ a ∈ gdSfc.instances[i]?,
        ∀ act ∈ gdSfc.objects.actions[a.action]?,
        act.name ∉ ["packet_in", "packet_out", "drop"] → act.state ≠ none := by decide
    exact fun i hi a ha act hact ↦ hall i hi a ha act hact

end Nflambda.Chain
