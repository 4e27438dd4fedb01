import Nflambda.Deploy.ChainRoutes
import Nflambda.Deploy.Functions
import Nflambda.Deploy.Route

/-!
# The two planners

Library `Deploy`. What the entries run after `NFlambda.deployment`,
`src/director/nflambda/platform.py:171–232`: the function that `config_init`,
`src/runtime/Config.c:203–210`, registers under the number that the action's file gives it. For the
generic decomposed network function, the numbers of
`src/director/nf_registry/generic_decomposed.yaml` are not those of the runtime.
-/

namespace Nflambda.Deploy

open Nflambda.Base Nflambda.Runtime Nflambda.Director Nflambda.Chain

/-! ### Commands that keep the entries -/

private theorem numeric_of_args {first w : String} {rest : List String}
    (hfirst : first ∈ ["config", "state", "worker"])
    (hw : w ∈ ["install_simple_path", "rss_reta_config", "first_action"])
    (hrest : ∀ v ∈ rest, ∀ x ∈ v.toList, IsNumberChar x) : Numeric ⟨first, w :: rest⟩ := by
  have hword : IsWord w.toList ∧ w.toList.length ≤ 1000 := by
    simp only [List.mem_cons, List.not_mem_nil, or_false] at hw
    rcases hw with rfl | rfl | rfl <;>
      exact ⟨⟨by simp, by simp [IsWordChar, isDelimiter]⟩, by decide⟩
  exact ⟨hfirst, w, rest, rfl, hword.1, hword.2, hrest⟩

private theorem isNumberChar_number (x : Number) : ∀ c ∈ (toString x).toList, IsNumberChar c := by
  cases x with
  | int i => exact isNumberChar_toString i
  | float x => exact isNumberChar_binary64Repr x

private theorem numeric_installSimplePath (m b p : Int) : Numeric (installSimplePath m b p) := by
  apply numeric_of_args (by decide) (by decide)
  intro v hv
  simp only [List.mem_cons, List.not_mem_nil, or_false] at hv
  rcases hv with rfl | rfl | rfl <;> exact isNumberChar_toString _

private theorem numeric_configureRssReta (start : Number) (num w a : Int) :
    Numeric (configureRssReta start num w a) := by
  apply numeric_of_args (by decide) (by decide)
  intro v hv
  simp only [List.mem_cons, List.not_mem_nil, or_false] at hv
  rcases hv with rfl | rfl | rfl | rfl
  · exact isNumberChar_number start
  · exact isNumberChar_toString num
  · exact isNumberChar_toString w
  · exact isNumberChar_toString a

private theorem numeric_workerFirstAction (w a : Int) (start : Number) (num : Int) :
    Numeric (Director.workerFirstAction w a start num) := by
  apply numeric_of_args (by decide) (by decide)
  intro v hv
  simp only [List.mem_cons, List.not_mem_nil, or_false] at hv
  rcases hv with rfl | rfl | rfl | rfl
  · exact isNumberChar_toString w
  · exact isNumberChar_toString a
  · exact isNumberChar_number start
  · exact isNumberChar_toString num

private theorem numeric_buckets {d : DeploymentModel} {n : Nat} {commands : List Command}
    (h : d.bucketCommands n = some commands) : ∀ command ∈ commands, Numeric command := by
  unfold DeploymentModel.bucketCommands at h
  split at h
  · cases h
  · obtain ⟨reta, hreta, h⟩ := Option.bind_eq_some_iff.mp h
    obtain ⟨first, hfirst, h⟩ := Option.bind_eq_some_iff.mp h
    cases h
    intro command hmem
    rcases List.mem_append.mp hmem with hmem | hmem
    · obtain ⟨i, -, hcommand⟩ := (mem_of_mapM hreta).mp hmem
      obtain ⟨a, -, hcommand⟩ := Option.bind_eq_some_iff.mp hcommand
      obtain ⟨w, -, hcommand⟩ := Option.bind_eq_some_iff.mp hcommand
      cases hcommand
      exact numeric_configureRssReta _ _ _ _
    · obtain ⟨l, hl, hmem⟩ := List.mem_flatten.mp hmem
      obtain ⟨i, -, hloop⟩ := (mem_of_mapM hfirst).mp hl
      obtain ⟨b, -, hcommand⟩ := (mem_of_mapM hloop).mp hmem
      obtain ⟨w, -, hcommand⟩ := Option.bind_eq_some_iff.mp hcommand
      cases hcommand
      exact numeric_workerFirstAction _ _ _ _

private theorem numeric_paths {d : DeploymentModel} {commands : List Command}
    (h : d.pathCommands = some commands) : ∀ command ∈ commands, Numeric command := by
  intro command hmem
  obtain ⟨k, b, a, cs, -, hcs, hc⟩ := (pathCommands_eq_some h).2 command hmem
  obtain ⟨m, p, -, rfl⟩ := mem_installPath hcs hc
  exact numeric_installSimplePath _ _ _

/-! ### The entries of a deployed chain -/

section

variable {H : Type} {sfc : Sfc} {n : Nat} {core : Nat → Core}

/-- A deployment sends the commands for the states, the entries, the buckets and the paths. -/
private theorem exists_run_of_deployment {d : DeploymentModel} {commands : List Command}
    (h : d.deployment = some commands) {c c' : Config H}
    (hrun : sendCommands c commands = .ok c') : ∃ actions c₁ c₂,
      d.actionInstanceExecutionList.zipIdx.mapM d.createActions = some actions ∧
      c₁.actionRegistration = c.actionRegistration ∧
      sendCommands c₁ actions.flatten = .ok c₂ ∧ ∀ i, entryFields c' i = entryFields c₂ i := by
  rw [deployment_eq] at h
  obtain ⟨setup, hsetup, h⟩ := Option.bind_eq_some_iff.mp h
  obtain ⟨paths, hpaths, h⟩ := Option.bind_eq_some_iff.mp h
  obtain ⟨m, hm, hsetup⟩ := Option.bind_eq_some_iff.mp hsetup
  obtain ⟨states, hstates, hsetup⟩ := Option.bind_eq_some_iff.mp hsetup
  obtain ⟨actions, hactions, hsetup⟩ := Option.bind_eq_some_iff.mp hsetup
  obtain ⟨buckets, hbuckets, hsetup⟩ := Option.bind_eq_some_iff.mp hsetup
  cases h
  cases hsetup
  obtain ⟨c₃, hrun, hrun₃⟩ := exists_of_sendCommands_append hrun
  obtain ⟨c₂, hrun, hrun₂⟩ := exists_of_sendCommands_append hrun
  obtain ⟨c₁, hrun₀, hrun₁⟩ := exists_of_sendCommands_append hrun
  refine ⟨actions, c₁, c₂, hactions, sendCommands_actionRegistration hrun₀, hrun₁, fun i ↦ ?_⟩
  rw [entryFields_of_numeric (numeric_paths hpaths) hrun₃,
    entryFields_of_numeric (numeric_buckets hbuckets) hrun₂]

/-- The commands that create the entry of an execution mean requests for it. -/
private theorem means_createActions (H : Type) (h : sfc.WellFormed)
    (hused : ∀ s ∈ sfc.stateInstanceList, s.actionInstanceList ≠ [])
    (hactions : sfc.actionInstanceList.length * n ≤ ACTION_TABLE_SIZE)
    (hstates : sfc.stateInstanceList.length * n ≤ 2 ^ 31)
    (hids : ∀ a ∈ sfc.objects.actions, 0 ≤ a.registrationId ∧ a.registrationId < 200)
    {a : ActionInstanceExecution × Nat}
    (ha : a ∈ (uniformModel sfc n fun k ↦ (core k).val).actionInstanceExecutionList.zipIdx)
    {commands : List Command}
    (hcommands : (uniformModel sfc n fun k ↦ (core k).val).createActions a = some commands) :
    ∃ action, (uniformModel sfc n fun k ↦ (core k).val).actionOf a.1 = some action ∧
      ∀ command ∈ commands,
        (action.name ∉ ["packet_in", "packet_out", "drop"] ∧
          ∃ (r : Fin 200) (i : Fin ACTION_TABLE_SIZE) (m : Nat),
            (r.val : Int) = action.registrationId ∧ i.val = a.2 ∧
            a.1.stateInstanceExecution = some m ∧
            Means H command (.createAction r i m (core a.2).val)) ∨
        (action.name = "packet_out" ∧ ∃ i : Fin ACTION_TABLE_SIZE, i.val = a.2 ∧
          Means H command (.createPacketOutAction i (core a.2))) := by
  obtain ⟨s, x, i, hs, hx, hk, hentry⟩ := (getElem?_uniformModel h hused).mp
    (List.mem_zipIdx_iff_getElem?.mp ha)
  have hlen := pos_lt (List.getElem?_eq_some_iff.mp hs).1 hx
  rw [← hk] at hlen
  have hlt : a.2 < ACTION_TABLE_SIZE := Nat.lt_of_lt_of_le hlen hactions
  have hcore : a.1.coreId = ((core a.2).val : Int) := by
    rw [hentry, hk]
    rfl
  obtain ⟨action, haction, hown, hout, hnone⟩ := createActions_eq_some hcommands
  refine ⟨action, haction, fun command hmem ↦ ?_⟩
  by_cases hname : action.name ∉ ["packet_in", "packet_out", "drop"]
  · obtain ⟨m, hm, rfl⟩ := hown hname
    obtain ⟨inst, hinst, hact⟩ := Option.bind_eq_some_iff.mp haction
    obtain ⟨hreg, hreg'⟩ := hids action (List.mem_of_getElem? hact)
    have hint : IsInt (m : Int) := by
      rw [hentry] at hm
      obtain ⟨q, hq, rfl⟩ := Option.map_eq_some_iff.mp hm
      obtain ⟨a', ha', hstate⟩ := Option.bind_eq_some_iff.mp hq
      have hlt := h.state_mem i (List.mem_of_getElem? hs) a' ha' q hstate
      have hpos := Nat.lt_of_lt_of_le (pos_lt hlt hx) hstates
      exact isInt_of_range (Nat.le_refl (2 ^ 31)) (by omega) (by omega)
    refine .inl ⟨hname, ⟨action.registrationId.toNat, by omega⟩, ⟨a.2, hlt⟩, m,
      Int.toNat_of_nonneg hreg, rfl, hm, means_of_eq ?_ ⟨hint, isInt_val (by decide) _⟩⟩
    rw [List.mem_singleton.mp hmem]
    simp only [Request.command, hcore, Int.toNat_of_nonneg hreg]
  · by_cases hpacket : action.name = "packet_out"
    · obtain ⟨w, hw, rfl⟩ := hout hpacket
      rw [placement_uniformModel (by rw [length_uniformModel]; exact hlen), Option.some.injEq] at hw
      subst hw
      exact .inr ⟨hpacket, ⟨a.2, hlt⟩, rfl,
        means_of_eq (List.mem_singleton.mp hmem) trivial⟩
    · have hsystem : action.name ∈ ["packet_in", "drop"] := by
        simp only [List.mem_cons, List.not_mem_nil, or_false, not_not] at hname ⊢
        rcases hname with hname | hname | hname
        · exact .inl hname
        · exact absurd hname hpacket
        · exact .inr hname
      rw [hnone hsystem] at hmem
      cases hmem

/-- What the commands for an execution write to the entries: only that of the execution, and there,
the registered function, the state and the core, unless it is one of a system action. -/
private theorem exists_request (h : sfc.WellFormed)
    (hused : ∀ s ∈ sfc.stateInstanceList, s.actionInstanceList ≠ [])
    (hactions : sfc.actionInstanceList.length * n ≤ ACTION_TABLE_SIZE)
    (hstates : sfc.stateInstanceList.length * n ≤ 2 ^ 31)
    (hids : ∀ a ∈ sfc.objects.actions, 0 ≤ a.registrationId ∧ a.registrationId < 200)
    {s x i : Nat} {action : Chain.Action} (hs : sfc.actionInstanceList[s]? = some i) (hx : x < n)
    (ha : sfc.actionOf i = some action) {commands : List Command}
    (hcommands : (uniformModel sfc n fun k ↦ (core k).val).createActions
      (uniformEntry sfc n (fun k ↦ (core k).val) s x i, s * n + x) = some commands)
    {command : Command} (hcommand : command ∈ commands) :
    ∃ request, Means H command request ∧ request.Stays ∧
      ∀ (registration : Fin 200 → Option (Handler H)) (k : Fin ACTION_TABLE_SIZE),
      (∀ u, request.entry registration k = some u → k.val = s * n + x) ∧
      (action.name ∉ ["packet_in", "packet_out", "drop"] → k.val = s * n + x →
        ∃ (r : Fin 200) (q : Nat), (r.val : Int) = action.registrationId ∧
          sfc.stateInstanceOf i = some q ∧ request.entry registration k =
            some (registration r, stateRefOf ((q * n + x : Nat) : Int),
              ((core k.val).val : Int))) := by
  have hmem : (uniformEntry sfc n (fun k ↦ ((core k).val : Int)) s x i, s * n + x) ∈
      (uniformModel sfc n fun k ↦ (core k).val).actionInstanceExecutionList.zipIdx :=
    List.mem_zipIdx_iff_getElem?.mpr
      ((getElem?_uniformModel h hused).mpr ⟨s, x, i, hs, hx, rfl, rfl⟩)
  obtain ⟨action', haction', hall⟩ :=
    means_createActions H h hused hactions hstates hids hmem hcommands
  obtain rfl : action' = action := Option.some.inj (haction'.symm.trans ha)
  rcases hall command hcommand with ⟨-, r, j, m, hr, hj, hm, hmeans⟩ | ⟨hout, j, hj, hmeans⟩
  · obtain ⟨q, hq, hqm⟩ := Option.map_eq_some_iff.mp hm
    refine ⟨_, hmeans, trivial, fun registration k ↦ ⟨fun u hu ↦ ?_, fun _ hk ↦ ?_⟩⟩
    · rw [Request.entry] at hu
      split at hu
      · next heq =>
        rw [← heq, hj]
      · cases hu
    · obtain rfl : j = k := Fin.ext (hj.trans hk.symm)
      refine ⟨r, q, hr, hq, ?_⟩
      rw [Request.entry, if_pos rfl, hqm, hk]
  · refine ⟨_, hmeans, trivial, fun registration k ↦ ⟨fun u hu ↦ ?_, fun hname _ ↦ ?_⟩⟩
    · rw [Request.entry] at hu
      split at hu
      · next heq =>
        rw [← heq, hj]
      · cases hu
    · rw [hout] at hname
      exact absurd hname (by decide)

/-- After a deployment, the entry of an action holds the function that the runtime has registered
under the number of the action, the state of the execution and its core. -/
theorem entry_of_deployment {o : Objects} (ho : o.Created) {nfs : List Nat}
    (hsfc : Sfc.new o nfs = some sfc)
    (hactions : sfc.actionInstanceList.length * n ≤ ACTION_TABLE_SIZE)
    (hstates : sfc.stateInstanceList.length * n ≤ 2 ^ 31)
    (hids : ∀ a ∈ sfc.objects.actions, 0 ≤ a.registrationId ∧ a.registrationId < 200)
    {d : DeploymentModel} (hd : uniformDeployment sfc n (fun k ↦ (core k).val) = some d)
    {commands : List Command} (hcommands : d.deployment = some commands) {c c' : Config H}
    (hrun : sendCommands c commands = .ok c') {s x i : Nat} {action : Chain.Action}
    (hs : sfc.actionInstanceList[s]? = some i) (hx : x < n) (ha : sfc.actionOf i = some action)
    (hname : action.name ∉ ["packet_in", "packet_out", "drop"]) {k : Fin ACTION_TABLE_SIZE}
    (hk : k.val = s * n + x) {r : Fin 200} (hr : (r.val : Int) = action.registrationId) :
    ∃ q, sfc.stateInstanceOf i = some q ∧ entryFields c' k =
      (c.actionRegistration r, stateRefOf ((q * n + x : Nat) : Int), ((core k.val).val : Int)) := by
  have h := wellFormed_of_new ho hsfc
  have hused : ∀ s ∈ sfc.stateInstanceList, s.actionInstanceList ≠ [] := by
    intro s hs hnil
    rw [uniformDeployment_eq_none hs hnil] at hd
    cases hd
  rw [uniformDeployment_eq h hused, Option.some.injEq] at hd
  subst hd
  obtain ⟨actions, c₁, c₂, hcreate, hreg, hrun, hkeep⟩ := exists_run_of_deployment hcommands hrun
  have hpos {s' x' i' : Nat} (hs' : sfc.actionInstanceList[s']? = some i') (hx' : x' < n)
      (heq : k.val = s' * n + x') : s' = s ∧ x' = x ∧ i' = i := by
    obtain ⟨rfl, rfl⟩ := (pos_inj hx' hx).mp (heq.symm.trans hk)
    exact ⟨rfl, rfl, Option.some.inj (hs'.symm.trans hs)⟩
  have hvalue {request : Request} (hwrite : ∃ (r' : Fin 200) (q' : Nat),
      (r'.val : Int) = action.registrationId ∧ sfc.stateInstanceOf i = some q' ∧
        request.entry c₁.actionRegistration k = some (c₁.actionRegistration r',
          stateRefOf ((q' * n + x : Nat) : Int), ((core k.val).val : Int))) :
      ∃ q, sfc.stateInstanceOf i = some q ∧ request.entry c₁.actionRegistration k =
        some (c₁.actionRegistration r, stateRefOf ((q * n + x : Nat) : Int),
          ((core k.val).val : Int)) := by
    obtain ⟨r', q', hr', hq', hwrite⟩ := hwrite
    obtain rfl : r' = r := Fin.ext (by omega)
    exact ⟨q', hq', hwrite⟩
  -- the command for the entry
  have hget : (uniformModel sfc n fun k ↦ (core k).val).actionInstanceExecutionList[s * n + x]? =
      some (uniformEntry sfc n (fun k ↦ (core k).val) s x i) :=
    (getElem?_uniformModel h hused).mpr ⟨s, x, i, hs, hx, rfl, rfl⟩
  obtain ⟨own, hown, hcreateOwn⟩ := exists_of_mapM hcreate (a := (_, s * n + x))
    (List.mem_zipIdx_iff_getElem?.mpr hget)
  obtain ⟨action', haction', hownEq, -, -⟩ := createActions_eq_some hcreateOwn
  obtain rfl : action' = action := Option.some.inj (haction'.symm.trans ha)
  obtain ⟨m, -, rfl⟩ := hownEq hname
  obtain ⟨request, hmeans, hstays, hwrites⟩ := exists_request (H := H) h hused hactions hstates hids
    hs hx ha hcreateOwn (List.mem_singleton_self _)
  obtain ⟨q, hq, hwrite⟩ := hvalue ((hwrites c₁.actionRegistration k).2 hname hk)
  refine ⟨q, hq, ?_⟩
  rw [hkeep, ← hreg]
  apply entryFields_of_writes hrun
  · intro command hcommand
    obtain ⟨l, hl, hcommand⟩ := List.mem_flatten.mp hcommand
    obtain ⟨⟨a, j⟩, haj, hcreate'⟩ := (mem_of_mapM hcreate).mp hl
    obtain ⟨s', x', i', hs', hx', rfl, rfl⟩ :=
      (getElem?_uniformModel h hused).mp (List.mem_zipIdx_iff_getElem?.mp haj)
    obtain ⟨action₂, haction₂, -⟩ := createActions_eq_some hcreate'
    obtain ⟨request', hmeans', hstays', hwrites'⟩ := exists_request (H := H) h hused hactions
      hstates hids hs' hx' haction₂ hcreate' hcommand
    refine ⟨request', hmeans', hstays', fun u hu ↦ ?_⟩
    have hk' := (hwrites' c₁.actionRegistration k).1 u hu
    obtain ⟨rfl, rfl, rfl⟩ := hpos hs' hx' hk'
    obtain rfl : action₂ = action' := Option.some.inj (haction₂.symm.trans ha)
    obtain ⟨q', hq', hwrite'⟩ := hvalue ((hwrites' c₁.actionRegistration k).2 hname hk)
    obtain rfl : q = q' := Option.some.inj (hq.symm.trans hq')
    exact Option.some.inj (hu.symm.trans hwrite')
  · exact ⟨_, List.mem_flatten.mpr ⟨_, hown, List.mem_singleton_self _⟩, request, hmeans, hstays,
      hwrite⟩

end

/-! ### The generic decomposed network function -/

/-- The entry of an action in execution `e` of the chain with `n` executions, by its name. -/
def chainEntry (n e : Nat) (name : String) : Int :=
  ((gdSfc.actionInstanceList.findIdx
    (fun i ↦ (gdSfc.actionOf i).map Chain.Action.name = some name) * n + e : Nat) : Int)

/-- The deployment of `n` executions of every action of the generic decomposed network function,
where execution `k` is on `core k`, succeeds in a fresh runtime, and then every execution runs the
network function. -/
def ChainRunsGd {H : Type} [RteHash H] (memory : Config H) (create : Fin STATE_NUM → H) (n : Nat)
    (core : Nat → Core) : Prop :=
  ∃ d commands c, gdDeployment n (fun k ↦ (core k).val) = some d ∧
    d.deployment = some commands ∧ sendCommands (configInit memory create) commands = .ok c ∧
    ∀ e, e < n → RunsGd c (chainEntry n e)

/-- The chain is scaled uniformly. -/
private theorem gdDeployment_eq (n : Nat) (core : Nat → Int) :
    gdDeployment n core = uniformDeployment gdSfc n core := by
  have hlen : gdSfc.actionInstanceList.length = 5 := by decide
  unfold gdDeployment uniformDeployment uniformPlan
  rw [hlen]

/-- The numbers under which the file registers the two actions. -/
private theorem gd_actions : ∃ control data,
    gdSfc.actionInstanceList[2]? = some 2 ∧ gdSfc.actionOf 2 = some control ∧
    control.name = "gd_control" ∧ control.registrationId = 4 ∧
    gdSfc.actionInstanceList[3]? = some 3 ∧ gdSfc.actionOf 3 = some data ∧
    data.name = "gd_data" ∧ data.registrationId = 5 := by
  refine ⟨(gdSfc.actionOf 2).get (by decide), (gdSfc.actionOf 3).get (by decide), ?_⟩
  simp only [Option.some_get]
  decide

section

variable {H : Type} [RteHash H] {n : Nat} {core : Nat → Core}

/-- After the deployment, the entries of the control action run the data action, and those of the
data action run the control action. -/
theorem functions_of_gdDeployment (ha : 5 * n ≤ ACTION_TABLE_SIZE) {d : DeploymentModel}
    (hd : gdDeployment n (fun k ↦ (core k).val) = some d) {commands : List Command}
    (hcommands : d.deployment = some commands) {memory c : Config H}
    {create : Fin STATE_NUM → H}
    (hrun : sendCommands (configInit memory create) commands = .ok c) {e : Nat} (he : e < n) :
    (∃ en, c.entry (chainEntry n e "gd_control") = some en ∧ en.action = functionOf "gd_data") ∧
      ∃ en, c.entry (chainEntry n e "gd_data") = some en ∧ en.action = functionOf "gd_control" := by
  rw [gdDeployment_eq] at hd
  obtain ⟨control, data, hs, hc, hcname, hcid, hs', hdata, hdname, hdid⟩ := gd_actions
  have hactions : gdSfc.actionInstanceList.length * n ≤ ACTION_TABLE_SIZE := by
    rw [(by decide : gdSfc.actionInstanceList.length = 5)]
    exact ha
  have hstates : gdSfc.stateInstanceList.length * n ≤ 2 ^ 31 := by
    rw [(by decide : gdSfc.stateInstanceList.length = 2)]
    exact (Nat.mul_le_mul_right n (by decide : 2 ≤ 5)).trans (ha.trans (by decide))
  have hentry {s : Nat} (hs : s < 5) {i : Nat} {action : Chain.Action}
      (hi : gdSfc.actionInstanceList[s]? = some i) (haction : gdSfc.actionOf i = some action)
      (hname : action.name ∉ ["packet_in", "packet_out", "drop"]) {r : Fin 200}
      (hr : (r.val : Int) = action.registrationId) :
      ∃ en, c.entry ((s * n + e : Nat) : Int) = some en ∧
        en.action = actionRegistration (H := H) r := by
    have hlt : s * n + e < ACTION_TABLE_SIZE := Nat.lt_of_lt_of_le (pos_lt hs he) ha
    obtain ⟨q, -, hfields⟩ := entry_of_deployment gdRegistry_created new_gd hactions hstates
      (by decide) hd hcommands hrun hi he haction hname (k := ⟨s * n + e, hlt⟩) rfl hr
    refine ⟨c.actionTable ⟨s * n + e, hlt⟩, ?_, congrArg (·.1) hfields⟩
    rw [Config.entry, idx?_natCast _ hlt, Option.map_some]
  constructor
  · exact hentry (by decide) hs hc (by rw [hcname]; decide) (r := 4) hcid.symm
  · exact hentry (by decide) hs' hdata (by rw [hdname]; decide) (r := 5) hdid.symm

/-- A chain that runs the network function fits the action table. -/
private theorem le_of_runsGd {c : Config H} (hn : 0 < n)
    (h : ∀ e, e < n → RunsGd c (chainEntry n e)) : 5 * n ≤ ACTION_TABLE_SIZE := by
  obtain ⟨en, hen, -⟩ := (h (n - 1) (by omega)).functions "packet_out" (by decide)
  obtain ⟨j, hj, -⟩ := Option.map_eq_some_iff.mp hen
  have hidx := idx?_eq_some_iff.mp hj
  have hentry : chainEntry n (n - 1) "packet_out" = ((4 * n + (n - 1) : Nat) : Int) := rfl
  have hlt := j.isLt
  omega

/-- An execution whose control entry runs the data action does not run the network function. -/
private theorem not_runsGd_of_exchanged {c : Config H} {index : String → Int} {h : H}
    (hempty : ∀ key, RteHash.lookup h key = -ENOENT)
    (hadd : ∀ key, ∃ j : Fin VALUE_SIZE, (RteHash.addKey h key).2 = (j.val : Int))
    (hex : ∃ en, c.entry (index "gd_control") = some en ∧ en.action = functionOf "gd_data") :
    ¬ RunsGd c index := by
  intro hruns
  obtain ⟨en, hen, hdata⟩ := hex
  obtain ⟨en', hen', hcontrol⟩ := hruns.functions "gd_control" (by decide)
  rw [hen, Option.some.injEq] at hen'
  subst hen'
  rw [hdata] at hcontrol
  have heq : Handler.action (H := H) genericDecomposedDataAction =
      .action genericDecomposedControlAction := Option.some.inj hcontrol
  rw [Handler.action.injEq] at heq
  exact genericDecomposedControlAction_ne hempty hadd heq.symm

/-- For no number of executions and no placement does the deployment of the chain leave a runtime
that runs the network function. -/
theorem chain_never_runsGd {h : H} (hempty : ∀ key, RteHash.lookup h key = -ENOENT)
    (hadd : ∀ key, ∃ j : Fin VALUE_SIZE, (RteHash.addKey h key).2 = (j.val : Int))
    (memory : Config H) (create : Fin STATE_NUM → H) (n : Nat) (hn : 0 < n) (core : Nat → Core) :
    ¬ ChainRunsGd memory create n core := by
  rintro ⟨d, commands, c, hd, hcommands, hrun, hruns⟩
  obtain ⟨hcontrol, -⟩ := functions_of_gdDeployment (le_of_runsGd hn hruns) hd hcommands hrun hn
  exact not_runsGd_of_exchanged hempty hadd hcontrol (hruns 0 hn)

end

private theorem empty_lookup (key : Ipv4FiveTuple) :
    RteHash.lookup ([] : List Ipv4FiveTuple) key = -ENOENT := if_neg List.not_mem_nil

private theorem empty_addKey (key : Ipv4FiveTuple) : ∃ j : Fin VALUE_SIZE,
    (RteHash.addKey ([] : List Ipv4FiveTuple) key).2 = (j.val : Int) := by
  refine ⟨⟨0, by decide⟩, ?_⟩
  show (if key ∈ ([] : List Ipv4FiveTuple) then (([] : List Ipv4FiveTuple), _) else _).2 = _
  rw [if_neg List.not_mem_nil]
  rfl

/-- All executions are on core 1. -/
def oneCore : Nat → Core := fun _ ↦ 1

/-- Two executions of every action on one core. -/
theorem chain_never_runsGd_two : ¬ ChainRunsGd (Config.zeroed ([] : List Ipv4FiveTuple))
    (fun _ ↦ []) 2 oneCore :=
  chain_never_runsGd empty_lookup empty_addKey _ _ 2 (by decide) _

/-- After the deployment of one execution of every action on one core, the entry of the control
action runs the data action. -/
theorem gd_control_runs_data :
    (∃ d commands c, gdDeployment 1 (fun k ↦ (oneCore k).val) = some d ∧
      d.deployment = some commands ∧
      sendCommands (configInit (Config.zeroed ([] : List Ipv4FiveTuple)) fun _ ↦ []) commands =
        .ok c ∧
      ∃ en, c.entry (chainEntry 1 0 "gd_control") = some en ∧ en.action = functionOf "gd_data") ∧
    ¬ ChainRunsGd (Config.zeroed ([] : List Ipv4FiveTuple)) (fun _ ↦ []) 1 oneCore := by
  have hcore : ∀ k, k < 5 * 1 → InTable 48 ((oneCore k).val : Int) :=
    fun k _ ↦ ⟨Int.natCast_nonneg _, by exact_mod_cast (oneCore k).isLt⟩
  constructor
  · obtain ⟨d, setup, paths, hd, hcommands, -, hinstalled⟩ :=
      chainRoutes_of_fit (H := List Ipv4FiveTuple) gdRegistry_created new_gd
        (isCChain_gd (by decide) fun k _ ↦ isInt_val (by decide) (oneCore k))
        (routesFit_gd Nat.zero_lt_one (by decide) hcore)
    obtain ⟨c, hc, -⟩ := hinstalled.holds (Config.zeroed ([] : List Ipv4FiveTuple)) fun _ ↦ []
    rw [← gdDeployment_eq] at hd
    exact ⟨d, _, c, hd, hcommands, hc,
      (functions_of_gdDeployment (by decide) hd hcommands hc Nat.zero_lt_one).1⟩
  · rintro ⟨d, commands, c, hd, hcommands, hc, hruns⟩
    exact not_runsGd_of_exchanged empty_lookup empty_addKey
      (functions_of_gdDeployment (by decide) hd hcommands hc Nat.zero_lt_one).1
      (hruns 0 Nat.zero_lt_one)

end Nflambda.Deploy
