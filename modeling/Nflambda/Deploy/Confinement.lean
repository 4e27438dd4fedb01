import Nflambda.Deploy.Planned
import Nflambda.Runtime.Taken

/-!
# State confinement

Library `Deploy`. State objects and transmit buffers are used without locks. The
placement of `update_deployment`, `src/RL_agent/rl_orchestrator.ipynb:278–296`,
and the core test of `event_handler`, `src/runtime/worker.h:86`, together see to
it that each of them is used by one worker only, if the tables of the runtime are
long enough and every action has a state: nothing checks a position of the action
table, and an action without a state gets the one before the first.
-/

namespace Nflambda.Deploy

open Nflambda.Base Nflambda.Runtime Nflambda.Director

variable {H : Type}

/-- The action of an nfunctor runs for every packet. -/
def IsPerPacket (f : Nfunctor) : Prop := some pPerPacketOperation ∈ f.action.properties

instance (f : Nfunctor) : Decidable (IsPerPacket f) := by
  unfold IsPerPacket
  infer_instance

/-- The nfunctors that share a state are all per-packet or all not. -/
def SharesByKind (nf : Nf) : Prop :=
  ∀ f ∈ nf.nfunctorList, ∀ f' ∈ nf.nfunctorList, f.state ≠ none → f.state = f'.state →
    (IsPerPacket f ↔ IsPerPacket f')

/-- All nfunctors have a state, but for those that `update_deployment` creates no state for. -/
def HaveStates (nf : Nf) : Prop :=
  ∀ f ∈ nf.nfunctorList, f.action.name ≠ "packet_in" → f.action.name ≠ "packet_out" →
    f.state ≠ none

/-- `update_deployment` creates the entry at this position: it is not one of `packet_in`. -/
def Created (actions : List ActionRuntime) (i : Fin ACTION_TABLE_SIZE) : Prop :=
  ∃ a, actions[i.val]? = some a ∧ a.action.action.name ≠ "packet_in"

/-- Of the entries that are created, those with the same state are on the same core. -/
def EntriesConfined (actions : List ActionRuntime) (c : Config H) : Prop :=
  ∀ i j, Created actions i → Created actions j →
    (c.actionTable i).state = (c.actionTable j).state →
      (c.actionTable i).coreId = (c.actionTable j).coreId

/-- Every call was made by the worker of its entry, for the state of its entry. -/
def CallsOnCore (n : Net H) : Prop :=
  ∀ x ∈ n.hist.calls, ∃ e, n.config.entry x.actionId = some e ∧ e.Runs ∧ e.state = x.state ∧
    e.coreId = (x.core.val : Int)

/-- Every state object and every worker object is passed to actions by one worker only. -/
def CallsConfined (n : Net H) : Prop :=
  ∀ x ∈ n.hist.calls, ∀ y ∈ n.hist.calls, x.state = y.state → x.core = y.core

/-! ### Entries -/

private theorem coreId_eq_of_stateId {nf : Nf} {n : Nat} {g : NfunctorGraph}
    (hg : nfunctorGraph nf n = some g) (hs : SharesByKind nf) {numExecutionCore : Int}
    {placed : List ActionRuntime} (hp : place numExecutionCore g.actions = some placed)
    {a b : ActionRuntime} (ha : a ∈ placed) (hb : b ∈ placed) (h : a.stateId = b.stateId)
    (h0 : 0 ≤ a.stateId) : a.coreId = b.coreId := by
  obtain ⟨a', ha', ca, rfl⟩ := exists_of_mem_place hp ha
  obtain ⟨b', hb', cb, rfl⟩ := exists_of_mem_place hp hb
  obtain ⟨e, -, hmem, hbare⟩ := exists_of_mem_actions hg ha'
  obtain ⟨e', -, hmem', hbare'⟩ := exists_of_mem_actions hg hb'
  have hexec : a'.executionId = e := congrArg ActionRuntime.executionId hbare
  have hexec' : b'.executionId = e' := congrArg ActionRuntime.executionId hbare'
  have hid : a'.stateId = stateIdOf nf.nfunctorList e a'.action :=
    congrArg ActionRuntime.stateId hbare
  have hid' : b'.stateId = stateIdOf nf.nfunctorList e' b'.action :=
    congrArg ActionRuntime.stateId hbare'
  dsimp only at h h0 ⊢
  rw [hid] at h h0
  rw [hid'] at h
  obtain ⟨rfl, hne, hst⟩ := stateIdOf_inj hmem hmem' h h0
  have hkind := hs _ hmem _ hmem' hne hst
  have hdata : a'.isData = b'.isData := by
    unfold ActionRuntime.isData
    rw [Bool.eq_iff_iff, List.contains_iff_mem, List.contains_iff_mem]
    exact hkind
  have hca := coreFor_of_place hp _ ha
  have hcb := coreFor_of_place hp _ hb
  change coreFor numExecutionCore a'.isData a'.executionId = some ca at hca
  change coreFor numExecutionCore b'.isData b'.executionId = some cb at hcb
  rw [hdata, hexec, ← hexec', hcb, Option.some.injEq] at hca
  exact hca.symm

/-- The state object of a state index. -/
theorem stateRefOf_eq_state {i : Int} {s : Fin STATE_NUM}
    (h : stateRefOf i = .state s) : i = (s.val : Int) := by
  unfold stateRefOf at h
  split at h
  · next j hj =>
    rw [StateRef.state.injEq] at h
    rw [← h]
    exact idx?_eq_some_iff.mp hj
  · cases h

private theorem stateRefOf_ne_worker (i : Int) (w : Core) : stateRefOf i ≠ .worker w := by
  unfold stateRefOf
  split <;> simp

/-- The index of a state that is given is a position of the state table. -/
private theorem exists_stateRefOf {nf : Nf} {n : Nat} (hfit : TablesFit nf n) {e : Nat}
    (he : e < n) {f : Nfunctor} (hf : f ∈ nf.nfunctorList) (hs : f.state ≠ none) :
    ∃ s, stateRefOf (stateIdOf nf.nfunctorList e f) = .state s := by
  obtain ⟨x, hx⟩ := Option.ne_none_iff_exists'.mp hs
  have hlt := (stateIdOf_range he hf).2
  have hnum := hfit.numStates
  have hnat : stateIdOf nf.nfunctorList e f = ((e * (stateList nf.nfunctorList).length +
      (stateList nf.nfunctorList).idxOf x : Nat) : Int) := by
    simp [stateIdOf, stateIdFrom, hx]
  rw [hnat] at hlt ⊢
  generalize e * (stateList nf.nfunctorList).length + (stateList nf.nfunctorList).idxOf x = k at hlt
  have hk : k < STATE_NUM := by omega
  have hidx : idx? STATE_NUM (k : Int) = some ⟨k, hk⟩ := idx?_eq_some_iff.mpr rfl
  rw [stateRefOf, hidx]
  exact ⟨_, rfl⟩

/-- Placement does not change which entries are created. -/
private theorem created_place {actions placed : List ActionRuntime} {numExecutionCore : Int}
    (hp : place numExecutionCore actions = some placed) (i : Fin ACTION_TABLE_SIZE) :
    Created placed i ↔ Created actions i := by
  have hunplaced : ∀ l : List ActionRuntime, Created (l.map ActionRuntime.unplaced) i ↔
      Created l i := by
    intro l
    unfold Created
    rw [List.getElem?_map]
    constructor
    · rintro ⟨a, ha, hname⟩
      obtain ⟨b, hb, rfl⟩ := Option.map_eq_some_iff.mp ha
      exact ⟨b, hb, hname⟩
    · rintro ⟨a, ha, hname⟩
      exact ⟨a.unplaced, by rw [ha]; rfl, hname⟩
  rw [← hunplaced placed, place_unplaced hp, hunplaced]

/-- What a deployment writes to an entry that it creates. -/
private theorem exists_of_created {states : List StateRuntime} {placed : List ActionRuntime}
    {c c' : Config H} (hi : Installed states placed c c') {i : Fin ACTION_TABLE_SIZE}
    (h : Created placed i) :
    ∃ a ∈ placed,
      (c'.actionTable i).state = .worker (coreIndex a) ∧
          (c'.actionTable i).coreId = ((coreIndex a).val : Int) ∨
        IsOrdinary a ∧ (c'.actionTable i).state = stateRefOf a.stateId ∧
          (c'.actionTable i).coreId = a.coreId := by
  obtain ⟨a, ha, hname⟩ := h
  have he := hi.entry i
  rw [ha, Option.bind_some, entryWritten, if_neg hname] at he
  refine ⟨a, List.mem_of_getElem? ha, ?_⟩
  by_cases hout : a.action.action.name = "packet_out"
  · rw [if_pos hout, Option.getD_some] at he
    exact .inl ⟨congrArg (·.2.1) he, congrArg (·.2.2) he⟩
  · rw [if_neg hout, Option.getD_some] at he
    exact .inr ⟨⟨hname, hout⟩, congrArg (·.2.1) he, congrArg (·.2.2) he⟩

/-- Entries that a deployment has filled are created by it. -/
private theorem created_of_filled {states : List StateRuntime} {placed : List ActionRuntime}
    {c c' : Config H} (hi : Installed states placed c c')
    (hnone : ∀ i, (c.actionTable i).action = none) {i : Fin ACTION_TABLE_SIZE}
    (h : (c'.actionTable i).action ≠ none) : Created placed i := by
  have he := hi.entry i
  cases ha : (placed[i.val]?).bind (entryWritten c.actionRegistration) with
  | none =>
    rw [ha, Option.getD_none] at he
    have haction : (c'.actionTable i).action = (c.actionTable i).action := congrArg (·.1) he
    rw [haction, hnone i] at h
    exact absurd rfl h
  | some v =>
    obtain ⟨a, hget, hw⟩ := Option.bind_eq_some_iff.mp ha
    refine ⟨a, hget, fun hname ↦ ?_⟩
    rw [entryWritten, if_pos hname] at hw
    cases hw

/-- After the deployment of a planned graph whose actions have states, the entries that are created
and have the same state are on the same core. -/
theorem entriesConfined_of_installed {nf : Nf} {n : Nat} {g : NfunctorGraph}
    (hg : nfunctorGraph nf n = some g) (hs : SharesByKind nf) (hfit : TablesFit nf n)
    (hstates : HaveStates nf) {numExecutionCore : Int} {placed : List ActionRuntime}
    (hp : place numExecutionCore g.actions = some placed) {c c' : Config H}
    (hi : Installed g.states placed c c') : EntriesConfined g.actions c' := by
  have hstate : ∀ a ∈ placed, IsOrdinary a → ∃ s, stateRefOf a.stateId = .state s := by
    intro a ha hord
    obtain ⟨a', ha', core, rfl⟩ := exists_of_mem_place hp ha
    obtain ⟨e, he, hmem, hbare⟩ := exists_of_mem_actions hg ha'
    have hid : a'.stateId = stateIdOf nf.nfunctorList e a'.action :=
      congrArg ActionRuntime.stateId hbare
    obtain ⟨s, hs⟩ := exists_stateRefOf hfit he hmem (hstates _ hmem hord.1 hord.2)
    exact ⟨s, (congrArg stateRefOf hid).trans hs⟩
  intro i j hci hcj heq
  obtain ⟨a, ha, h⟩ := exists_of_created hi ((created_place hp i).mpr hci)
  obtain ⟨b, hb, h'⟩ := exists_of_created hi ((created_place hp j).mpr hcj)
  rcases h with ⟨hsi, hci⟩ | ⟨horda, hsi, hci⟩
  · rcases h' with ⟨hsj, hcj⟩ | ⟨-, hsj, hcj⟩
    · rw [hsi, hsj, StateRef.worker.injEq] at heq
      rw [hci, hcj, heq]
    · rw [hsi, hsj] at heq
      exact absurd heq.symm (stateRefOf_ne_worker _ _)
  · rcases h' with ⟨hsj, hcj⟩ | ⟨-, hsj, hcj⟩
    · rw [hsi, hsj] at heq
      exact absurd heq (stateRefOf_ne_worker _ _)
    · obtain ⟨s, hr⟩ := hstate a ha horda
      rw [hsi, hsj] at heq
      have hid := stateRefOf_eq_state hr
      have hid' := stateRefOf_eq_state (heq.symm.trans hr)
      rw [hci, hcj]
      exact coreId_eq_of_stateId hg hs hp ha hb (hid.trans hid'.symm) (by omega)

/-! ### Runs -/

/-- Entries with the same state stay on one core while the action table stays as it is. -/
theorem EntriesConfined.of_fields {actions : List ActionRuntime} {c c' : Config H}
    (h : EntriesConfined actions c) (hf : ∀ i, entryFields c' i = entryFields c i) :
    EntriesConfined actions c' := by
  intro i j
  have hstate (i) : (c'.actionTable i).state = (c.actionTable i).state :=
    congrArg (·.2.1) (hf i)
  have hcore (i) : (c'.actionTable i).coreId = (c.actionTable i).coreId :=
    congrArg (·.2.2) (hf i)
  rw [hstate, hstate, hcore, hcore]
  exact h i j

/-- A step calls an action on the worker of its entry only. -/
theorem CallsOnCore.taken {n n' : Net H} {ev : Event} (hn : CallsOnCore n) (ht : Taken n ev n')
    (hev : ev.KeepsActions) : CallsOnCore n' := by
  have hf := entryFields_taken ht hev
  have hold : ∀ x : Call, (∃ e, n.config.entry x.actionId = some e ∧ e.Runs ∧
      e.state = x.state ∧ e.coreId = (x.core.val : Int)) →
      ∃ e, n'.config.entry x.actionId = some e ∧ e.Runs ∧ e.state = x.state ∧
        e.coreId = (x.core.val : Int) := by
    rintro x ⟨e, he, hr, hs, hc⟩
    obtain ⟨e', he', ha', hs', hc'⟩ := exists_entry_of_fields hf he
    refine ⟨e', he', ?_, hs'.trans hs, hc'.trans hc⟩
    unfold ActionTableEntry.Runs
    rw [ha', hs']
    exact hr
  intro x hx
  rcases calls_taken ht with hsame | ⟨w, h, e, rfl, -, he, hc, hr, hsnoc⟩
  · rw [hsame] at hx
    exact hold x (hn x hx)
  · rw [hsnoc, List.mem_append, List.mem_singleton] at hx
    rcases hx with hx | rfl
    · exact hold x (hn x hx)
    · exact hold _ ⟨e, he, hr, rfl, hc⟩

/-- While the action table is not changed, all calls are made on the core of their entry. -/
theorem callsOnCore_run {c : Config H} {launched : Core → Bool} {size : Nat} {mem : Item → Message}
    {scratch : Core → Message} {es : List Event} {n : Net H} (hes : ∀ ev ∈ es, ev.KeepsActions)
    (h : run step (launch c launched size mem scratch) es = some n) :
    (∀ i, entryFields n.config i = entryFields c i) ∧ CallsOnCore n := by
  refine run_invariant_along
    (P := fun n : Net H ↦ (∀ i, entryFields n.config i = entryFields c i) ∧ CallsOnCore n)
    ?_ ⟨fun _ ↦ rfl, ?_⟩ (along_of_forall hes _) h
  · rintro m ev m' ⟨hf, hcalls⟩ hev hm
    have ht := step_taken hm
    exact ⟨fun i ↦ (entryFields_taken ht hev i).trans (hf i), hcalls.taken ht hev⟩
  · intro x hx
    cases hx

/-- If entries with the same state are on one core and calls are made on the core of their entry,
every state is used by one worker. -/
theorem CallsOnCore.confined {n : Net H} (hn : CallsOnCore n) {actions : List ActionRuntime}
    (he : EntriesConfined actions n.config)
    (hfilled : ∀ i, (n.config.actionTable i).action ≠ none → Created actions i) :
    CallsConfined n := by
  have hruns {e : ActionTableEntry H} (h : e.Runs) : e.action ≠ none := by
    rcases h with ⟨v, ha, hs⟩ | ⟨f, s, ha, hs⟩ <;> rw [ha] <;> simp
  intro x hx y hy hxy
  obtain ⟨e, hge, hre, hse, hce⟩ := hn x hx
  obtain ⟨e', hge', hre', hse', hce'⟩ := hn y hy
  obtain ⟨i, -, rfl⟩ := Option.map_eq_some_iff.mp hge
  obtain ⟨j, -, rfl⟩ := Option.map_eq_some_iff.mp hge'
  have hcore := he i j (hfilled i (hruns hre)) (hfilled j (hruns hre'))
    (hse.trans (hxy.trans hse'.symm))
  apply Fin.ext
  omega

/-- After the planning and deployment of a network function whose tables fit the runtime and whose
actions have states, and as long as the action table is not changed, every state object and every
worker object is used by one worker only, namely the one its entries are on. -/
theorem state_confined [RteHash H] (memory : Config H) (create : Fin STATE_NUM → H) {nf : Nf}
    {scalingN : Nat} {g : NfunctorGraph} (hg : nfunctorGraph nf scalingN = some g)
    (hs : SharesByKind nf) (hfit : TablesFit nf scalingN) (hstates : HaveStates nf)
    {numExecutionCore : Int} {commands : List Command}
    (hu : updateDeployment numExecutionCore g = some commands) :
    ∃ c, sendCommands (configInit memory create) commands = .ok c ∧
      ∀ (launched : Core → Bool) (size : Nat) (mem : Item → Message) (scratch : Core → Message)
        (es : List Event) (n : Net H), (∀ ev ∈ es, ev.KeepsActions) →
        run step (launch c launched size mem scratch) es = some n →
        EntriesConfined g.actions n.config ∧ CallsOnCore n ∧ CallsConfined n := by
  obtain ⟨placed, hp, rfl⟩ := Option.map_eq_some_iff.mp hu
  obtain ⟨c, hc, hi⟩ := sendCommands_deployment ((deployable_nfunctorGraph hg hfit).place hp)
    (core_of_place hp) isInt_deploymentParameter (configInit memory create)
  refine ⟨c, hc, fun launched size mem scratch es n hes hn ↦ ?_⟩
  have hconf := entriesConfined_of_installed hg hs hfit hstates hp hi
  have hrun := callsOnCore_run hes hn
  have he := hconf.of_fields hrun.1
  refine ⟨he, hrun.2, hrun.2.confined he fun i hfilled ↦ ?_⟩
  have haction : (n.config.actionTable i).action = (c.actionTable i).action :=
    congrArg (·.1) (hrun.1 i)
  rw [haction] at hfilled
  exact (created_place hp i).mp (created_of_filled hi (fun _ ↦ rfl) hfilled)

/-- The generic decomposed network function with 20 executions is confined. -/
theorem state_confined_gd :
    ∃ g, nfunctorGraph gd 20 = some g ∧ ∃ commands, updateDeployment 6 g = some commands ∧
      ∃ c, sendCommands (configInit (Config.zeroed ([] : List Ipv4FiveTuple)) fun _ ↦ [])
          commands = .ok c ∧
        ∀ (launched : Core → Bool) (size : Nat) (mem : Item → Message)
          (scratch : Core → Message) (es : List Event) (n : Net (List Ipv4FiveTuple)),
          (∀ ev ∈ es, ev.KeepsActions) →
          run step (launch c launched size mem scratch) es = some n →
          EntriesConfined g.actions n.config ∧ CallsOnCore n ∧ CallsConfined n := by
  obtain ⟨g, hg⟩ : ∃ g, nfunctorGraph gd 20 = some g :=
    (exists_nfunctorGraph_iff (by decide)).mpr (by decide)
  obtain ⟨placed, hp⟩ : ∃ placed, place 6 g.actions = some placed :=
    exists_place (by decide) (by decide) g.actions
  have hu : updateDeployment 6 g = some (deploymentCommands deploymentParameter g.states placed) :=
    by rw [updateDeployment, hp]; rfl
  have hs : SharesByKind gd := by
    unfold SharesByKind
    decide
  have hstates : HaveStates gd := by
    unfold HaveStates
    decide
  have hfit : TablesFit gd 20 := ⟨by decide, by decide, by decide, by decide⟩
  exact ⟨g, hg, _, hu, state_confined _ _ hg hs hfit hstates hu⟩

/-! ### Tables that do not fit, and actions without a state -/

/-- If the commands of a deployment are executed, the entries of network functions are in the action
table. -/
theorem lt_of_sendCommands {parameter : Parameter} {states : List StateRuntime}
    {placed : List ActionRuntime} {c c' : Config H}
    (h : sendCommands c (deploymentCommands parameter states placed) = .ok c') {i : Nat}
    {a : ActionRuntime} (ha : placed[i]? = some a) (hord : IsOrdinary a) (hi : IsInt i)
    (hregistration : IsInt a.action.action.registrationId) (hstate : IsInt a.stateId)
    (hcore : IsInt a.coreId) : i < ACTION_TABLE_SIZE := by
  have hmem : createEntry (a, i) ∈ deploymentCommands parameter states placed := by
    have hfirst : createEntry (a, i) ∈ installFirst (a, i) := by
      rw [installFirst, if_neg hord.1, if_neg hord.2]
      exact List.mem_singleton_self _
    have hzip : (a, i) ∈ placed.zipIdx := by
      rw [List.mk_mem_zipIdx_iff_getElem?]
      exact ha
    have hloop := List.mem_flatMap.mpr ⟨(a, i), hzip, hfirst⟩
    unfold deploymentCommands configurationCommands
    simp only [List.mem_append, List.mem_cons, hloop, true_or, or_true]
  obtain ⟨d, hd⟩ := exists_runs_of_sendCommands ⟨c', h⟩ hmem
  obtain ⟨⟨-, hlt⟩, -⟩ := (runs_createAction d hregistration hi hstate hcore).mp hd
  exact_mod_cast hlt

/-- The deployment of 41 executions of the generic decomposed network function writes behind the
action table. -/
private theorem gd_overruns {g : NfunctorGraph} (hg : nfunctorGraph gd 41 = some g)
    {placed : List ActionRuntime} (hp : place 6 g.actions = some placed) (c c' : Config H) :
    sendCommands c (deploymentCommands deploymentParameter g.states placed) ≠ .ok c' := by
  intro h
  have hplanned := map_planned hg (place_unplaced hp)
  have hget : (placed.map planned)[40 * 5 + 1]? =
      some (nfunctor2, 40, stateIdOf gd.nfunctorList 40 nfunctor2,
        nextActionOf gd.nfunctorList 40 nfunctor2) := by
    rw [hplanned]
    exact getElem?_grid (l := distinctNfunctors gd.nfunctorList) (by decide) (by decide)
  rw [List.getElem?_map] at hget
  obtain ⟨a, ha, hplan⟩ := Option.map_eq_some_iff.mp hget
  have haction : a.action = nfunctor2 := congrArg (·.1) hplan
  have hid : a.stateId = stateIdOf gd.nfunctorList 40 nfunctor2 := congrArg (·.2.2.1) hplan
  have hstate : IsInt a.stateId := by
    rw [hid]
    unfold IsInt
    decide
  have hcore := core_of_place hp a (List.mem_of_getElem? ha)
  have hlt := lt_of_sendCommands h ha (by rw [IsOrdinary, haction]; decide)
    (by constructor <;> decide) (by rw [haction]; constructor <;> decide) hstate
    (by constructor <;> omega)
  exact absurd hlt (by decide)

/-- The generic decomposed network function whose data and control actions have no state. -/
def statelessGd : Nf :=
  ⟨"gd", [nfunctor1, nfunctor2, { nfunctor3 with state := none }, { nfunctor4 with state := none },
    nfunctor5], nfunctorRelationshipList⟩

/-- Its plan for one execution. -/
def statelessGraph : NfunctorGraph := (nfunctorGraph statelessGd 1).get (by decide)

/-- Its data action and its control action share what lies before the state table, on two cores. -/
private theorem stateless_shares {placed : List ActionRuntime}
    (hp : place 6 statelessGraph.actions = some placed) {c c' : Config H}
    (hi : Installed statelessGraph.states placed c c') :
    ¬ EntriesConfined statelessGraph.actions c' := by
  have hplaced : placed = (place 6 statelessGraph.actions).get (by decide) := by simp [hp]
  subst hplaced
  have hdata : entryFields c' 2 = (c.actionRegistration 4, .wild, 1) := (hi.entry 2).trans rfl
  have hcontrol : entryFields c' 3 = (c.actionRegistration 5, .wild, 37) := (hi.entry 3).trans rfl
  intro hconf
  have hcore := hconf 2 3 ⟨_, rfl, by decide⟩ ⟨_, rfl, by decide⟩
    ((congrArg (·.2.1) hdata).trans (congrArg (·.2.1) hcontrol).symm)
  have hdata : (c'.actionTable 2).coreId = 1 := congrArg (·.2.2) hdata
  have hcontrol : (c'.actionTable 3).coreId = 37 := congrArg (·.2.2) hcontrol
  omega

/-- The data action and the control action without a state are not confined; and the commands for 41
executions of the generic decomposed network function write behind the action table. -/
theorem stateless_not_confined :
    (SharesByKind statelessGd ∧ ∃ g, nfunctorGraph statelessGd 1 = some g ∧
      ∃ commands, updateDeployment 6 g = some commands ∧
        ∃ c, sendCommands (configInit (Config.zeroed ([] : List Ipv4FiveTuple)) fun _ ↦ [])
          commands = .ok c ∧ ¬ EntriesConfined g.actions c) ∧
    SharesByKind gd ∧ ∃ g, nfunctorGraph gd 41 = some g ∧
      ∃ commands, updateDeployment 6 g = some commands ∧
        ∀ c, sendCommands (configInit (Config.zeroed ([] : List Ipv4FiveTuple)) fun _ ↦ [])
          commands ≠ .ok c := by
  constructor
  · have hg : nfunctorGraph statelessGd 1 = some statelessGraph := by simp [statelessGraph]
    obtain ⟨placed, hp⟩ : ∃ placed, place 6 statelessGraph.actions = some placed :=
      exists_place (by decide) (by decide) statelessGraph.actions
    have hfit : TablesFit statelessGd 1 := ⟨by decide, by decide, by decide, by decide⟩
    obtain ⟨c, hc, hi⟩ := sendCommands_deployment ((deployable_nfunctorGraph hg hfit).place hp)
      (core_of_place hp) isInt_deploymentParameter
      (configInit (Config.zeroed ([] : List Ipv4FiveTuple)) fun _ ↦ [])
    exact ⟨by unfold SharesByKind; decide, _, hg, _, by rw [updateDeployment, hp]; rfl, c, hc,
      stateless_shares hp hi⟩
  · obtain ⟨g, hg⟩ : ∃ g, nfunctorGraph gd 41 = some g :=
      (exists_nfunctorGraph_iff (by decide)).mpr (by decide)
    obtain ⟨placed, hp⟩ : ∃ placed, place 6 g.actions = some placed :=
      exists_place (by decide) (by decide) g.actions
    exact ⟨by unfold SharesByKind; decide, g, hg, _, by rw [updateDeployment, hp]; rfl,
      gd_overruns hg hp _⟩

end Nflambda.Deploy
