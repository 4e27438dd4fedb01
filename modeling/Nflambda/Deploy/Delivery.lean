import Nflambda.Deploy.Route
import Nflambda.Runtime.Faultless
import Nflambda.Runtime.FlowCounters

/-!
# The deployed network function delivers its packets

Library `Deploy`. A deployment of the generic decomposed network function,
`src/RL_agent/rl_orchestrator.ipynb:252–357`, meets the conditions under which fair runs of the
workers, `src/runtime/worker.h:80–185`, drain the network: the paths go down in a rank of three, the
actions of `src/runtime/nf/generic_decomposed.h:20–89` always have results, and every entry on the
way of a packet is on a launched core.
-/

namespace Nflambda.Deploy

open Nflambda.Base Nflambda.Runtime Nflambda.Director

variable {H : Type}

/-! ### Room for the keys -/

section Keys

variable [RteHash H] [RteHashPositions H]

open RteHashPositions

/-- The keys that the cursor can reach from `key` while the range is `R`. -/
def keyRange (key : Ipv4FiveTuple) (R : Nat) : Finset Ipv4FiveTuple :=
  (Finset.range R).image fun i ↦ key.withIpSrc (BitVec.ofNat 32 i)

/-- The table of a state holds only keys that the cursor can reach, and has room for all of them. -/
structure Roomy (R : Int) (state : Runtime.State H) : Prop where
  randRange : state.randRange = R
  keys : keys state.hashTable ⊆ keyRange state.key R.toNat
  room : R.toNat ≤ capacity state.hashTable

omit [RteHash H] [RteHashPositions H] in
/-- The cursor stays in its range. -/
theorem nextKey_mem_keyRange (state : Runtime.State H) (h : PositiveRange state.randRange) :
    nextKey state ∈ keyRange state.key state.randRange.toNat := by
  obtain ⟨hpos, hlt⟩ := h
  have hmodulus : (BitVec.ofInt 32 state.randRange).toNat = state.randRange.toNat := by
    rw [BitVec.toNat_ofInt]
    change (state.randRange % 2 ^ 32).toNat = _
    omega
  have hmod : ((state.key.ipSrc + 1) % BitVec.ofInt 32 state.randRange).toNat <
      state.randRange.toNat := by
    rw [BitVec.toNat_umod, hmodulus]
    exact Nat.mod_lt _ (by omega)
  refine Finset.mem_image.mpr ⟨_, Finset.mem_range.mpr hmod, ?_⟩
  rw [BitVec.ofNat_toNat, BitVec.setWidth_eq]
  rfl

/-- A key that the table does not hold has room in it. -/
theorem Roomy.card_lt {R : Int} {state : Runtime.State H} (h : Roomy R state)
    (hR : PositiveRange R) (hnew : nextKey state ∉ RteHashPositions.keys state.hashTable) :
    (RteHashPositions.keys state.hashTable).card < capacity state.hashTable := by
  have hmem := nextKey_mem_keyRange state (h.randRange ▸ hR)
  rw [h.randRange] at hmem
  have hlt : (RteHashPositions.keys state.hashTable).card < (keyRange state.key R.toNat).card :=
    Finset.card_lt_card ⟨h.keys, fun hsub ↦ hnew (hsub hmem)⟩
  have hle : (keyRange state.key R.toNat).card ≤ R.toNat := by
    have himage := Finset.card_image_le (s := Finset.range R.toNat)
      (f := fun i ↦ state.key.withIpSrc (BitVec.ofNat 32 i))
    rwa [Finset.card_range] at himage
  have hroom := h.room
  omega

/-- A message leaves room for the keys. -/
theorem Roomy.advanced {R : Int} {state t : Runtime.State H} {j : Fin VALUE_SIZE}
    (h : Roomy R state) (hR : PositiveRange R) (ha : Advanced state t j) : Roomy R t := by
  have hkey : keyRange t.key R.toNat = keyRange state.key R.toNat := by
    rw [ha.key]
    rfl
  refine ⟨ha.randRange.trans h.randRange, ?_, ha.room ▸ h.room⟩
  rw [ha.present, hkey]
  refine Finset.insert_subset ?_ h.keys
  have hmem := nextKey_mem_keyRange state (h.randRange ▸ hR)
  rwa [h.randRange] at hmem

/-- The control action has a result while there is room for the keys. -/
theorem Roomy.control {R : Int} {state : Runtime.State H} (h : Roomy R state)
    (hR : PositiveRange R) (m : Message) :
    ∃ t path, genericDecomposedControlAction state m = .ok (t, path) ∧ Roomy R t := by
  obtain ⟨t, j, ht, ha⟩ := flowResult_control (h.randRange ▸ hR.ofInt_ne_zero) (h.card_lt hR) m
  obtain ⟨r, hr, rfl⟩ := ok_of_map_fst ht
  exact ⟨r.1, r.2, hr, h.advanced hR ha⟩

/-- The data action has a result while there is room for the keys. -/
theorem Roomy.data {R : Int} {state : Runtime.State H} (h : Roomy R state)
    (hR : PositiveRange R) (m : Message) :
    ∃ t path, genericDecomposedDataAction state m = .ok (t, path) ∧ Roomy R t := by
  obtain ⟨t, j, ht, ha⟩ := flowResult_data (h.randRange ▸ hR.ofInt_ne_zero) (h.card_lt hR) m
  obtain ⟨r, hr, rfl⟩ := ok_of_map_fst ht
  exact ⟨r.1, r.2, hr, h.advanced hR ha⟩

/-- The classifier always has a result, and only counts. -/
theorem Roomy.classifier {R : Int} {state : Runtime.State H} (h : Roomy R state) (m : Message) :
    ∃ t path, genericDecomposedClassifier state m = .ok (t, path) ∧ Roomy R t := by
  have hcount (k : Int) : Roomy R { state with counter := k } := ⟨h.randRange, h.keys, h.room⟩
  unfold genericDecomposedClassifier
  split
  · exact ⟨_, _, rfl, h⟩
  · split
    · split
      · exact ⟨_, _, rfl, hcount _⟩
      · exact ⟨_, _, rfl, hcount _⟩
    · split
      · exact ⟨_, _, rfl, hcount _⟩
      · exact ⟨_, _, rfl, hcount _⟩

end Keys

/-! ### What a deployment leaves in the states -/

/-- A field that no request writes. -/
theorem meantBy_keeps {α : Type} (g : Config H → α)
    (hg : ∀ (r : Request) (c : Config H), g (r.meant c) = g c) (rs : List Request) (c : Config H) :
    g (meantBy rs c) = g c := by
  induction rs generalizing c with
  | nil => rfl
  | cons r rs ih => exact (ih (r.meant c)).trans (hg r c)

/-- A field of the states that is not written. -/
theorem setState_field {α : Type} (φ : Runtime.State H → α) (c : Config H) {j : Fin STATE_NUM}
    {s : Runtime.State H} (hs : φ s = φ (c.states j)) (i : Fin STATE_NUM) :
    φ ((c.setState j s).states i) = φ (c.states i) := by
  by_cases hj : i = j
  · subst hj
    simpa [Config.setState] using hs
  · simp [Config.setState, hj]

/-- The tables of the states are not changed by requests. -/
theorem hashTable_meantBy (rs : List Request) (c : Config H) (i : Fin STATE_NUM) :
    ((meantBy rs c).states i).hashTable = (c.states i).hashTable := by
  refine meantBy_keeps (fun c ↦ (c.states i).hashTable) (fun r c ↦ ?_) rs c
  have hset {j : Fin STATE_NUM} {s : Runtime.State H}
      (hs : s.hashTable = (c.states j).hashTable) :
      ((c.setState j s).states i).hashTable = (c.states i).hashTable := setState_field _ c hs i
  cases r with
  | createState r j => exact hset rfl
  | configureState k j v => cases k <;> exact hset rfl
  | stateNumFlows j v => exact hset rfl
  | installSimplePath j a q => exact hset rfl
  | _ => rfl

/-- The workers are not asked to quit by requests, and the rings keep their size. -/
theorem dpQuit_meantBy (rs : List Request) (c : Config H) :
    (meantBy rs c).dpQuit = c.dpQuit ∧ (meantBy rs c).ringSize = c.ringSize := by
  have h := meantBy_keeps (fun c : Config H ↦ (c.dpQuit, c.ringSize)) (fun r c ↦ ?_) rs c
  · exact ⟨congrArg Prod.fst h, congrArg Prod.snd h⟩
  · cases r with
    | configureState k => cases k <;> rfl
    | _ => rfl

/-- What a request sets state `i` to when it creates the state, with the values `v` of the
parameters. -/
def Request.creates {α : Type} (v : α) (i : Fin STATE_NUM) : Request → Option α
  | .createState _ j => if j = i then some v else none
  | _ => none

/-- The values of a state that `state create` takes from the parameters or resets. -/
def createdValues (s : Runtime.State H) : Int × Int × Int :=
  (s.randRange, s.controlFrequency, s.counter)

/-- Every state of the plan gets the range and the frequency of the parameters, and a counter that
starts at 0. -/
theorem createdValues_deployment {states : List StateRuntime} {actions : List ActionRuntime}
    (parameter : Parameter) (c : Config H) {i : Fin STATE_NUM} (hi : i.val < states.length) :
    createdValues ((meantBy (deploymentRequests parameter states actions) c).states i) =
      (parameter.get "data_state", parameter.get "control_frequency", 0) := by
  -- the parameters come first, and are those of every state that is created afterwards
  have hcons : deploymentRequests parameter states actions =
      .configureParameter parameter :: (deploymentRequests parameter states actions).tail := rfl
  have hsent {r : Request} (hr : r ∈ (deploymentRequests parameter states actions).tail) :
      Sent parameter states actions r :=
    mem_deploymentRequests.mp (List.mem_of_mem_tail hr)
  generalize hv : (parameter.get "data_state", parameter.get "control_frequency", (0 : Int)) = v
  have hfold := foldl_lastWrite (f := fun c r ↦ Request.meant r c)
    (I := fun c : Config H ↦
      (c.initStateParameter.dataStateSize, c.initStateParameter.controlFrequency, 0) = v)
    (g := fun c : Config H ↦ createdValues (c.states i)) (w := Request.creates v i)
    (deploymentRequests parameter states actions).tail (fun c r hr hc ↦ ?_) (fun c r hr hc ↦ ?_)
    ((Request.configureParameter parameter).meant c) hv
  · have hlast : lastWrite (Request.creates v i)
        (deploymentRequests parameter states actions).tail = some v := by
      refine lastWrite_eq (fun r hr u hu ↦ ?_) fun u hu ↦ ?_
      · cases r with
        | createState k j =>
          rw [Request.creates] at hu
          split at hu
          · exact hu
          · cases hu
        | _ => cases hu
      · refine ⟨.createState 0 i, ?_, by rw [Request.creates, if_pos rfl]; exact hu⟩
        have hmem : Request.createState 0 i ∈ deploymentRequests parameter states actions := by
          have hsent : Sent parameter states actions
              (.createState 0 (Fin.ofNat STATE_NUM i.val)) :=
            .create (List.getElem?_eq_getElem hi)
          have hcreate := mem_deploymentRequests.mpr hsent
          rwa [Fin.ofNat_val_eq_self] at hcreate
        rw [hcons] at hmem
        rcases List.mem_cons.mp hmem with h | h
        · cases h
        · exact h
    rw [hlast] at hfold
    exact hfold
  · cases hsent hr with
    | parameter => exact hv
    | create | path | reta | firstAction | packetOut | ordinary => exact hc
  · cases hsent hr with
    | @create s k hs =>
      generalize Fin.ofNat STATE_NUM k = j
      by_cases hj : j = i
      · subst hj
        simpa [Request.meant, Request.creates, Config.setState, createdValues, stateUpdate]
          using hc
      · have hj' : ¬ i = j := fun h ↦ hj h.symm
        simp [Request.meant, Request.creates, Config.setState, hj, hj']
    | @path s k p hs hp =>
      exact setState_field createdValues c (j := Fin.ofNat STATE_NUM k) (by rfl) i
    | parameter | reta | firstAction | packetOut | ordinary => rfl

/-- What a request sets the flag of worker `w` to that makes it poll a queue of the NIC. -/
def Request.polls (w : Core) : Request → Option Bool
  | .workerFirstAction v _ _ _ => if v = w then some true else none
  | _ => none

/-- The workers of the `packet_in` entries poll queues of the NIC. -/
theorem firstAction_deployment {states : List StateRuntime} {actions : List ActionRuntime}
    (parameter : Parameter) (c : Config H) {a : ActionRuntime} (ha : a ∈ actions)
    (hin : a.action.action.name = "packet_in") :
    ((meantBy (deploymentRequests parameter states actions) c).workerList
      (coreIndex a)).firstAction = true := by
  obtain ⟨i, hget⟩ := List.mem_iff_getElem?.mp ha
  have hfold := foldl_lastWrite (f := fun c r ↦ Request.meant r c) (I := fun _ : Config H ↦ True)
    (g := fun c : Config H ↦ (c.workerList (coreIndex a)).firstAction)
    (w := Request.polls (coreIndex a)) (deploymentRequests parameter states actions)
    (fun _ _ _ _ ↦ trivial) (fun c r _ _ ↦ ?_) c trivial
  · have hlast : lastWrite (Request.polls (coreIndex a))
        (deploymentRequests parameter states actions) = some true := by
      refine lastWrite_eq (fun r _ u hu ↦ ?_) fun u hu ↦ ?_
      · cases r with
        | workerFirstAction v b s m =>
          rw [Request.polls] at hu
          split at hu
          · exact hu
          · cases hu
        | _ => cases hu
      · exact ⟨_, mem_deploymentRequests.mpr (.firstAction hget hin),
          by rw [Request.polls, if_pos rfl]; exact hu⟩
    rw [hlast] at hfold
    exact hfold
  · cases r with
    | workerFirstAction v b s m =>
      by_cases hv : v = coreIndex a
      · subst hv
        simp [Request.meant, Request.polls, Config.setWorker]
      · have hv' : ¬ coreIndex a = v := fun h ↦ hv h.symm
        simp [Request.meant, Request.polls, Config.setWorker, hv, hv']
    | createPacketOutAction j v =>
      by_cases hv : coreIndex a = v
      · subst hv
        simp [Request.meant, Request.polls, Config.setWorker, Config.setEntry]
      · simp [Request.meant, Request.polls, Config.setWorker, Config.setEntry, hv]
    | configureState k => cases k <;> rfl
    | _ => rfl

/-! ### The ways of the packets -/

/-- How many actions a packet has in front of it at most, by the position of its next one among the
nfunctors of the execution. -/
def gdRank (i : Int) : Nat :=
  if i % 5 = 1 then 3 else if i % 5 = 3 then 2 else if i % 5 = 2 then 1 else 0

/-- The NIC hands a packet to the worker that polls the queue of its bucket. -/
def Steered (c : Config H) (w : Core) (p : Mbuf) : Prop :=
  ∃ reta, c.nicReta = some reta ∧ reta (bucketOf p) = (c.workerList w).queueId

section Deployed

variable [RteHash H] {n : Nat} {g : NfunctorGraph} {placed : List ActionRuntime} {c : Config H}

private theorem gdRank_gdIndex (e : Nat) {f : Nfunctor} {k : Nat}
    (hf : nfunctorList.idxOf f = k) (hk : k < 5) :
    gdRank (gdIndex e f) = if k = 1 then 3 else if k = 3 then 2 else if k = 2 then 1 else 0 := by
  have hmod : (gdIndex e f) % 5 = (k : Int) := by
    rw [gdIndex_eq, hf]
    omega
  unfold gdRank
  rw [hmod]
  norm_cast

/-- The paths go down in the rank. -/
theorem Deployed.descends (h : Deployed n g placed c) : c.Descends gdRank 3 := by
  refine ⟨fun i j hij ↦ ?_, fun i ↦ ?_⟩
  · obtain ⟨e, -, hnext⟩ := h.next hij
    have h2 : gdRank (gdIndex e nfunctor2) = 3 := gdRank_gdIndex e (k := 1) (by decide) (by decide)
    have h3 : gdRank (gdIndex e nfunctor3) = 1 := gdRank_gdIndex e (k := 2) (by decide) (by decide)
    have h4 : gdRank (gdIndex e nfunctor4) = 2 := gdRank_gdIndex e (k := 3) (by decide) (by decide)
    have h5 : gdRank (gdIndex e nfunctor5) = 0 := gdRank_gdIndex e (k := 4) (by decide) (by decide)
    cases hnext with
    | data => omega
    | control => omega
    | back => omega
    | out => omega
  · unfold gdRank
    split
    · exact Nat.le_refl 3
    · split
      · omega
      · split <;> omega

/-- The actions have results while there is room for the keys. -/
theorem Deployed.closed [RteHashPositions H] (h : Deployed n g placed c) {R : Int}
    (hR : PositiveRange R) : c.Closed (Roomy R) := by
  intro i en F s hen hF _ σ m hσ
  obtain ⟨j, a, -, -, -, hmem, -, hfun⟩ := h.exists_entry hen hF
  generalize a.action = f at *
  simp only [nfunctorList, List.mem_cons, List.not_mem_nil, or_false] at hmem
  rcases hmem with rfl | rfl | rfl | rfl | rfl <;> cases hfun
  · exact hσ.classifier m
  · exact hσ.data hR m
  · exact hσ.control hR m

/-- The states on which the actions run are those of the plan. -/
theorem Deployed.state_lt (h : Deployed n g placed c) {i : Int} {en : ActionTableEntry H}
    {F : Runtime.State H → Message → Except Fault (Runtime.State H × Int)} {s : Fin STATE_NUM}
    (hen : c.entry i = some en) (hF : en.action = some (.action F)) (hs : en.state = .state s) :
    s.val < g.states.length := by
  obtain ⟨j, a, rfl, ha, he, hmem, -, hfun⟩ := h.exists_entry hen hF
  have hlen : (stateList gd.nfunctorList).length = 2 := by decide
  have hidx : ∀ x ∈ stateList gd.nfunctorList, (stateList gd.nfunctorList).idxOf x < 2 :=
    fun x hx ↦ hlen ▸ List.idxOf_lt_length_of_mem hx
  have hx : ∃ x ∈ stateList gd.nfunctorList, a.action.state = some x := by
    generalize a.action = f at *
    simp only [nfunctorList, List.mem_cons, List.not_mem_nil, or_false] at hmem
    rcases hmem with rfl | rfl | rfl | rfl | rfl
    · cases hfun
    · exact ⟨gdDataState, by decide, rfl⟩
    · exact ⟨gdDataState, by decide, rfl⟩
    · exact ⟨gdControlState, by decide, rfl⟩
    · cases hfun
  obtain ⟨x, hx, hstate⟩ := hx
  have hlt := hidx x hx
  rw [h.state ha hstate hs, gdStateIndex, states_nfunctorGraph h.plan, length_grid, hlen]
  exact pos_lt he hlt

/-- Every bucket that the planner deals belongs to an entry. -/
theorem Deployed.exists_serves (h : Deployed n g placed c) {b : Fin RSS_I_TABLE_SIZE}
    (hb : b.val < n * (512 / n)) : ∃ a ∈ placed, Serves a b := by
  have hpos : 0 < 512 / n := by
    by_contra hz
    have hz' : 512 / n = 0 := Nat.eq_zero_of_not_pos hz
    rw [hz', Nat.mul_zero] at hb
    omega
  have he : b.val / (512 / n) < n := (Nat.div_lt_iff_lt_mul hpos).mpr hb
  obtain ⟨a, hget, hplanned⟩ := h.getElem? he (f := nfunctor1) (by decide)
  have ha := List.mem_of_getElem? hget
  have haction : a.action = nfunctor1 := congrArg (·.1) hplanned
  have hexec : a.executionId = b.val / (512 / n) := congrArg (·.2.1) hplanned
  -- the ranges of buckets do not depend on the placement
  have hmem : a.unplaced ∈ g.actions.map ActionRuntime.unplaced := by
    rw [← h.cores]
    exact List.mem_map_of_mem ha
  obtain ⟨d, hd, hda⟩ := List.mem_map.mp hmem
  have hin : a.action.IsPacketIn := by
    rw [haction]
    decide
  have haction' : d.action = a.action :=
    (congrArg ActionRuntime.action hda :)
  have hexec' : d.executionId = a.executionId :=
    (congrArg ActionRuntime.executionId hda :)
  have hstart : d.startingBucket = a.startingBucket :=
    (congrArg ActionRuntime.startingBucket hda :)
  have hnum : d.numBucket = a.numBucket :=
    (congrArg ActionRuntime.numBucket hda :)
  obtain ⟨hs, hn⟩ := buckets_nfunctorGraph h.plan (by decide) d hd (by rw [haction']; exact hin)
  rw [hstart, hexec', hexec] at hs
  rw [hnum] at hn
  have hdiv := Nat.div_add_mod b.val (512 / n)
  have hmod := Nat.mod_lt b.val hpos
  rw [Nat.mul_comm] at hdiv
  refine ⟨a, ha, hin, ?_, ?_⟩
  · rw [hs]
    omega
  · rw [hs, hn]
    omega

/-- The worker that receives a packet is the one of the bucket's entry. -/
theorem Deployed.eq_coreIndex (h : Deployed n g placed c)
    (hodd : ∀ a ∈ placed, a.coreId % 2 = 1) {a : ActionRuntime} (ha : a ∈ placed) {w : Core}
    {p : Mbuf} (hw : workerRun w = true) (hb : Serves a (bucketOf p)) (hs : Steered c w p) :
    w = coreIndex a := by
  obtain ⟨memory, create, hi⟩ := h.installed
  obtain ⟨reta, hreta, hq⟩ := hs
  have hval := val_coreIndex (h.onCore a ha)
  have hcore := hodd a ha
  rw [hi.nicReta, Option.some.injEq] at hreta
  rw [← hreta, hi.reta h.fits.disjoint a ha _ hb, hi.queueId, hi.queueId] at hq
  refine (queue_odd_inj memory create _ _ ?_ ?_ hq).symm
  · omega
  · simpa [workerRun] using hw

/-- Every entry on the way of a packet is on a core of the plan. -/
theorem Deployed.exists_entry_of_trail (h : Deployed n g placed c) {a : ActionRuntime}
    (ha : a ∈ placed) {p : Mbuf} (hb : Serves a (bucketOf p)) {l : List Int} {i : Int}
    (ht : c.Trail (c.firstOf (coreIndex a) p) l i) :
    ∃ en, ∃ b ∈ placed, c.entry i = some en ∧ en.coreId = ((coreIndex b).val : Int) ∧ en.Runs := by
  obtain ⟨he, hfirst⟩ := h.first ha hb
  rw [hfirst] at ht
  obtain ⟨r, hr, hpre, -⟩ := h.exists_route he (h.trail ht)
  have hi : i ∈ r := hpre.mem (List.mem_append_right _ (List.mem_singleton_self _))
  obtain ⟨f, hf, hne, rfl⟩ := h.mem_route he hr hi
  obtain ⟨j, b, en, hj, hbget, -, -, hen, -, hcore, hruns⟩ := h.routeEntry he hf hne
  have hbm := List.mem_of_getElem? hbget
  exact ⟨en, b, hbm, hj ▸ hen, hcore.trans (val_coreIndex (h.onCore b hbm)).symm, hruns⟩

/-- Packets in a bucket of an entry have selectable entries on launched workers in front of them. -/
theorem Deployed.ways (h : Deployed n g placed c) (hodd : ∀ a ∈ placed, a.coreId % 2 = 1)
    {a : ActionRuntime} (ha : a ∈ placed) {p : Mbuf} (hb : Serves a (bucketOf p)) :
    c.Selectable (coreIndex a) p ∧ ∀ l i v, c.Trail (c.firstOf (coreIndex a) p) l i →
      c.servesAt i = some v → workerRun v = true := by
  refine ⟨fun l i ht ↦ ?_, fun l i v ht hv ↦ ?_⟩
  · obtain ⟨en, b, -, hen, hcore, hruns⟩ := h.exists_entry_of_trail ha hb ht
    exact ⟨en, coreIndex b, hen, hcore, hruns⟩
  · obtain ⟨en, b, hb, hen, hcore, -⟩ := h.exists_entry_of_trail ha hb ht
    rw [Config.servesAt, hen, Option.bind_some, hcore, idx?_natCast _ (coreIndex b).isLt,
      Option.some.injEq] at hv
    have hval := val_coreIndex (h.onCore b hb)
    have hoddb := hodd b hb
    have hmod : (coreIndex b).val % 2 = 1 := by omega
    rw [← hv]
    simpa [workerRun] using hmod

end Deployed

/-! ### Delivery -/

/-- A deployed network function whose workers can be launched: they are the odd ones, they poll
queues, nobody has asked them to quit, and the states that the actions use have room for the keys
and the values of the parameters. -/
structure Ready [RteHash H] [RteHashPositions H] (n : Nat) (g : NfunctorGraph)
    (placed : List ActionRuntime) (parameter : Parameter) (c : Config H) : Prop
    extends Deployed n g placed c where
  odd : ∀ a ∈ placed, a.coreId % 2 = 1
  states : c.StatesMeet (Roomy (parameter.get "data_state")) c.states
  created : ∀ i : Fin STATE_NUM, i.val < g.states.length → createdValues (c.states i) =
    (parameter.get "data_state", parameter.get "control_frequency", 0)
  polls : ∀ a ∈ placed, a.action.action.name = "packet_in" →
    (c.workerList (coreIndex a)).firstAction = true
  quit : c.dpQuit = false
  ring : c.ringSize = 1024

section Ready

variable [RteHash H] [RteHashPositions H]

/-- The planning and the deployment of the generic decomposed network function succeed, and leave
workers that can be launched. -/
theorem exists_ready (memory : Config H) (create : Fin STATE_NUM → H) {scalingN : Nat}
    (hn : 0 < scalingN) (hs : 2 * scalingN ≤ STATE_NUM) (ha : 5 * scalingN ≤ ACTION_TABLE_SIZE)
    {numExecutionCore : Int} (h1 : 1 ≤ numExecutionCore) (h2 : numExecutionCore ≤ 23)
    {parameter : Parameter} (hp : ∀ e ∈ parameter.d, IsInt e.2)
    (hempty : ∀ i, RteHashPositions.keys (create i) = ∅)
    (hroom : ∀ i, (parameter.get "data_state").toNat ≤ RteHashPositions.capacity (create i)) :
    ∃ g placed c, nfunctorGraph gd scalingN = some g ∧
      place numExecutionCore g.actions = some placed ∧
      sendCommands (configInit memory create) (deploymentCommands parameter g.states placed) =
        .ok c ∧ Ready scalingN g placed parameter c := by
  obtain ⟨g, hg⟩ : ∃ g, nfunctorGraph gd scalingN = some g :=
    (exists_nfunctorGraph_iff hn).mpr (by decide)
  obtain ⟨placed, hplaced⟩ := exists_place h1 h2 g.actions
  have hfits : Fits g.states g.actions := by
    have hlen : (stateList gd.nfunctorList).length = 2 := by decide
    have hlen' : (distinctNfunctors gd.nfunctorList).length = 5 := by decide
    apply fits_nfunctorGraph hg (by decide)
    · rw [hlen, Nat.mul_comm]
      exact hs
    · rw [hlen', Nat.mul_comm]
      exact ha
    · decide
  have hcore := core_of_place hplaced
  have hfits' := hfits.place hplaced
  obtain ⟨c, hc, hi⟩ := sendCommands_deployment hfits'.toDeployable hcore hp
    (configInit memory create)
  have hd : Deployed scalingN g placed c :=
    ⟨hg, place_unplaced hplaced, hcore, hfits', memory, create, hi⟩
  -- what the commands leave, field by field
  have hconf := sendCommands_of_means (means_deployment (H := H) hfits'.toDeployable hcore hp)
    (configInit memory create)
  have heq := hc
  unfold deploymentCommands at heq
  rw [sendCommands_append_of_ok hconf, sendCommands_run, Except.ok.injEq] at heq
  have hstates : c.states = (meantBy (deploymentRequests parameter g.states placed)
      (configInit memory create)).states := by rw [← heq]
  have hcreated (i : Fin STATE_NUM) (hi : i.val < g.states.length) :
      createdValues (c.states i) =
        (parameter.get "data_state", parameter.get "control_frequency", 0) := by
    rw [hstates]
    exact createdValues_deployment parameter _ hi
  have hquit := dpQuit_meantBy (deploymentRequests parameter g.states placed)
    (configInit memory create)
  refine ⟨g, placed, c, hg, hplaced, hc, hd, fun a ha ↦ ?_, fun i en F s hen hF hst ↦ ?_, hcreated,
    fun a ha hin ↦ ?_, ?_, ?_⟩
  · exact (coreFor_range (coreFor_of_place hplaced a ha)).2.2
  · have hlt := hd.state_lt hen hF hst
    have htable : (c.states s).hashTable = create s := by
      rw [hstates, hashTable_meantBy]
      rfl
    refine ⟨congrArg Prod.fst (hcreated s hlt), ?_, ?_⟩
    · rw [htable, hempty]
      exact Finset.empty_subset _
    · rw [htable]
      exact hroom s
  · rw [← heq]
    exact firstAction_deployment parameter _ ha hin
  · rw [← heq]
    exact hquit.1
  · rw [← heq]
    exact hquit.2

variable {n : Nat} {g : NfunctorGraph} {placed : List ActionRuntime} {parameter : Parameter}
  {c : Config H}

/-- The NIC steers the packets in the buckets of an entry to the worker of the entry. -/
theorem Ready.steered (h : Ready n g placed parameter c) {a : ActionRuntime} (ha : a ∈ placed)
    {p : Mbuf} (hb : Serves a (bucketOf p)) : Steered c (coreIndex a) p := by
  obtain ⟨memory, create, hi⟩ := h.installed
  exact ⟨_, hi.nicReta, hi.reta h.fits.disjoint a ha _ hb⟩

/-- A worker that was launched first receives a packet in a bucket of its entry. -/
theorem Ready.exists_reception (h : Ready n g placed parameter c) {a : ActionRuntime}
    (ha : a ∈ placed) {p : Mbuf} (hb : Serves a (bucketOf p)) (size : Nat) (mem : Item → Message)
    (scratch : Core → Message) :
    ∃ N, ReachableBy step Event.IsSmooth (launch c workerRun size mem scratch) N ∧
      N.hist.received = [(coreIndex a, p)] ∧ N.hist.transmitted = [] ∧ N.hist.freed = [] := by
  have hval := val_coreIndex (h.onCore a ha)
  have hodd := h.odd a ha
  have hw : workerRun (coreIndex a) = true := by
    have hmod : (coreIndex a).val % 2 = 1 := by omega
    simpa [workerRun] using hmod
  have hpolls := h.polls a ha hb.packetIn
  have hquit := h.quit
  generalize coreIndex a = w at hw hpolls
  have h1 : step (launch c workerRun size mem scratch) (.work w) =
      some ((launch c workerRun size mem scratch).setPc w .dequeue) := by
    simp [step, workerAction, launch, hw, hquit]
  have h2 : step ((launch c workerRun size mem scratch).setPc w .dequeue) (.work w) =
      some (((launch c workerRun size mem scratch).setPc w .dequeue).setPc w .rx) := by
    simp [step, workerAction, launch, Net.setPc, hpolls]
  have h3 : step (((launch c workerRun size mem scratch).setPc w .dequeue).setPc w .rx)
      (.rxBurst w [p]) = some (receive
        (((launch c workerRun size mem scratch).setPc w .dequeue).setPc w .rx) w [p]) :=
    enabled_rxBurst (by simp [Net.setPc])
      ⟨by simp, List.nodup_singleton p, by simp [launch, Net.setPc]⟩
  refine ⟨_, (((ReachableBy.refl _ _).tail (isSmooth_work w) h1).tail (isSmooth_work w) h2).tail
    (isSmooth_rxBurst w [p]) h3, ?_, rfl, rfl⟩
  simp [receive, launch, Net.setPc]

end Ready

/-- A table without keys. -/
def KeySet.empty (entries : Nat) : KeySet entries := ⟨.empty entries, List.nodup_nil⟩

end Nflambda.Deploy
