import Nflambda.Deploy.Effect
import Nflambda.Director.UpdateDeployment

/-!
# What a deployment installs

Library `Deploy`. What the commands of `update_deployment`,
`src/RL_agent/rl_orchestrator.ipynb:252–357`, leave in the configuration of the
runtime, for any state and action tables that fit it.
-/

namespace Nflambda.Deploy

open Nflambda.Base Nflambda.Runtime Nflambda.Director

variable {H : Type}

/-- An entry that a network function's action runs for. -/
def IsOrdinary (a : ActionRuntime) : Prop :=
  a.action.action.name ≠ "packet_in" ∧ a.action.action.name ≠ "packet_out"

/-- The buckets of two `packet_in` entries are different. -/
def BucketsDisjoint (a b : ActionRuntime) : Prop :=
  a.action.action.name = "packet_in" → b.action.action.name = "packet_in" →
    a.startingBucket + a.numBucket ≤ b.startingBucket ∨
      b.startingBucket + b.numBucket ≤ a.startingBucket

/-- Tables that fit those of the runtime, with numbers that are C integers. -/
@[mk_iff] structure Deployable (states : List StateRuntime) (actions : List ActionRuntime) :
    Prop where
  numStates : states.length ≤ STATE_NUM
  numActions : actions.length ≤ ACTION_TABLE_SIZE
  registration : ∀ a ∈ actions, 0 ≤ a.action.action.registrationId ∧
    a.action.action.registrationId < 200
  stateId : ∀ a ∈ actions, IsInt a.stateId
  next : ∀ a ∈ actions, IsInt a.nextAction
  path : ∀ s ∈ states, ∀ p, IsInt (s.path p)
  buckets : ∀ a ∈ actions, a.action.action.name = "packet_in" →
    a.startingBucket + a.numBucket ≤ RSS_I_TABLE_SIZE

/-- Tables that fit those of the runtime, with disjoint ranges of buckets. -/
structure Fits (states : List StateRuntime) (actions : List ActionRuntime) : Prop
    extends Deployable states actions where
  disjoint : actions.Pairwise BucketsDisjoint

private theorem deployable_unplaced (states : List StateRuntime)
    (actions : List ActionRuntime) :
    Deployable states (actions.map ActionRuntime.unplaced) ↔ Deployable states actions := by
  simp only [deployable_iff, List.length_map, List.forall_mem_map]
  rfl

private theorem disjoint_unplaced (actions : List ActionRuntime) :
    (actions.map ActionRuntime.unplaced).Pairwise BucketsDisjoint ↔
      actions.Pairwise BucketsDisjoint := by
  rw [List.pairwise_map]
  rfl

/-- Placement does not matter for the size of tables. -/
theorem Deployable.place {states : List StateRuntime} {actions placed : List ActionRuntime}
    (h : Deployable states actions) {numExecutionCore : Int}
    (hp : place numExecutionCore actions = some placed) : Deployable states placed := by
  rw [← deployable_unplaced, place_unplaced hp, deployable_unplaced]
  exact h

/-- Placement does not matter for the ranges of buckets. -/
theorem Fits.place {states : List StateRuntime} {actions placed : List ActionRuntime}
    (h : Fits states actions) {numExecutionCore : Int}
    (hp : place numExecutionCore actions = some placed) : Fits states placed := by
  refine ⟨h.toDeployable.place hp, ?_⟩
  rw [← disjoint_unplaced, place_unplaced hp, disjoint_unplaced]
  exact h.disjoint

/-- Entries are placed on cores. -/
theorem core_of_place {actions placed : List ActionRuntime} {numExecutionCore : Int}
    (hp : place numExecutionCore actions = some placed) :
    ∀ a ∈ placed, 0 ≤ a.coreId ∧ a.coreId < 48 := by
  intro a ha
  obtain ⟨h0, h1, -⟩ := coreFor_range (coreFor_of_place hp a ha)
  exact ⟨h0, h1⟩

/-- The parameters of a deployment are C integers. -/
theorem isInt_deploymentParameter : ∀ e ∈ deploymentParameter.d, IsInt e.2 := by
  unfold IsInt
  decide

/-! ### The requests of a deployment -/

/-- The core of a placed entry. -/
def coreIndex (a : ActionRuntime) : Core := Fin.ofNat 48 a.coreId.toNat

/-- The request for an entry that is neither `packet_in` nor `packet_out`. -/
def entryRequest (i : ActionRuntime × Nat) : Request :=
  .createAction (Fin.ofNat 200 i.1.action.action.registrationId.toNat)
    (Fin.ofNat ACTION_TABLE_SIZE i.2) i.1.stateId i.1.coreId

/-- The requests of the first loop over the actions. -/
def firstRequests (i : ActionRuntime × Nat) : List Request :=
  if i.1.action.action.name = "packet_in" then []
  else if i.1.action.action.name = "packet_out" then []
  else [entryRequest i]

/-- The requests of the second loop over the actions. -/
def secondRequests (i : ActionRuntime × Nat) : List Request :=
  if i.1.action.action.name = "packet_in" then
    [.configureRssReta i.1.startingBucket i.1.numBucket (coreIndex i.1) i.2,
      .workerFirstAction (coreIndex i.1) i.1.nextAction i.1.startingBucket i.1.numBucket]
  else if i.1.action.action.name = "packet_out" then
    [.createPacketOutAction (Fin.ofNat ACTION_TABLE_SIZE i.2) (coreIndex i.1)]
  else [entryRequest i]

/-- The requests of the second loop over the states. -/
def pathRequests (i : StateRuntime × Nat) : List Request :=
  .createState 0 (Fin.ofNat STATE_NUM i.2) ::
    ((List.ofFn i.1.path).filter (fun j ↦ decide (j ≠ -1))).map
      (fun j ↦ .installSimplePath (Fin.ofNat STATE_NUM i.2) j
        (Fin.ofNat 10 ((List.ofFn i.1.path).idxOf j)))

/-- The requests of a deployment. -/
def deploymentRequests (parameter : Parameter) (states : List StateRuntime)
    (actions : List ActionRuntime) : List Request :=
  .configureParameter parameter ::
    states.zipIdx.map (fun i ↦ .createState 0 (Fin.ofNat STATE_NUM i.2)) ++
    actions.zipIdx.flatMap firstRequests ++ actions.zipIdx.flatMap secondRequests ++
    states.zipIdx.flatMap pathRequests

private theorem means_createState {k : Nat} (hk : k < STATE_NUM) :
    Means H (createState 0 k) (.createState 0 (Fin.ofNat STATE_NUM k)) := by
  refine means_of_eq ?_ ⟨by decide, by decide⟩
  rw [Request.command, val_ofNat hk]

/-- The core of a placed entry, as a number. -/
theorem val_coreIndex {a : ActionRuntime} (h : 0 ≤ a.coreId ∧ a.coreId < 48) :
    ((coreIndex a).val : Int) = a.coreId := by
  rw [coreIndex, val_ofNat (by omega), Int.toNat_of_nonneg h.1]

/-- The two commands for the range of a `packet_in` entry. -/
theorem means_buckets {a : ActionRuntime} {i : Nat} (hin : a.action.action.name = "packet_in")
    (hcore : 0 ≤ a.coreId ∧ a.coreId < 48)
    (hb : a.startingBucket + a.numBucket ≤ RSS_I_TABLE_SIZE) (hnext : IsInt a.nextAction)
    (hi : i < 2 ^ 31) :
    List.Forall₂ (Means H) (installSecond (a, i)) (secondRequests (a, i)) := by
  have hb' : a.startingBucket + a.numBucket ≤ 512 := hb
  have hpos : IsInt (i : Int) := isInt_of_range (Nat.le_refl (2 ^ 31)) (by omega) (by omega)
  have hstart : IsInt (a.startingBucket : Int) :=
    isInt_of_range (n := 513) (by decide) (by omega) (by omega)
  have hnum : IsInt (a.numBucket : Int) :=
    isInt_of_range (n := 513) (by decide) (by omega) (by omega)
  have hrange : IsRange RSS_I_TABLE_SIZE (a.startingBucket : Int) a.numBucket :=
    ⟨by omega, by omega, by change _ ≤ (512 : Int); omega⟩
  unfold installSecond secondRequests
  dsimp only
  rw [if_pos hin, if_pos hin]
  refine List.Forall₂.cons (means_of_eq ?_ ⟨hstart, hnum, hpos, hrange⟩)
    (List.Forall₂.cons (means_of_eq ?_ ⟨hnext, hstart, hnum, hrange⟩) List.Forall₂.nil)
  · rw [Request.command, val_coreIndex hcore]
  · rw [Request.command, val_coreIndex hcore]

section Plan

variable {states : List StateRuntime} {actions : List ActionRuntime}

private theorem means_entry (hf : Deployable states actions)
    (hcore : ∀ a ∈ actions, 0 ≤ a.coreId ∧ a.coreId < 48) {a : ActionRuntime} {i : Nat}
    (ha : actions[i]? = some a) : Means H (createEntry (a, i)) (entryRequest (a, i)) := by
  have hm := List.mem_of_getElem? ha
  obtain ⟨hi, -⟩ := List.getElem?_eq_some_iff.mp ha
  have hi' : i < ACTION_TABLE_SIZE := Nat.lt_of_lt_of_le hi hf.numActions
  obtain ⟨hr0, hr⟩ := hf.registration a hm
  obtain ⟨hc0, hc⟩ := hcore a hm
  refine means_of_eq ?_ ⟨hf.stateId a hm, isInt_of_range (n := 48) (by decide) hc0 hc⟩
  have hr' : a.action.action.registrationId.toNat < 200 := by omega
  unfold createEntry entryRequest
  dsimp only
  rw [Request.command, val_ofNat hi', val_ofNat hr', Int.toNat_of_nonneg hr0]

private theorem means_first (hf : Deployable states actions)
    (hcore : ∀ a ∈ actions, 0 ≤ a.coreId ∧ a.coreId < 48) {a : ActionRuntime} {i : Nat}
    (ha : actions[i]? = some a) :
    List.Forall₂ (Means H) (installFirst (a, i)) (firstRequests (a, i)) := by
  unfold installFirst firstRequests
  split
  · exact List.Forall₂.nil
  · split
    · exact List.Forall₂.nil
    · exact List.Forall₂.cons (means_entry hf hcore ha) List.Forall₂.nil

private theorem means_second (hf : Deployable states actions)
    (hcore : ∀ a ∈ actions, 0 ≤ a.coreId ∧ a.coreId < 48) {a : ActionRuntime} {i : Nat}
    (ha : actions[i]? = some a) :
    List.Forall₂ (Means H) (installSecond (a, i)) (secondRequests (a, i)) := by
  have hm := List.mem_of_getElem? ha
  obtain ⟨hi, -⟩ := List.getElem?_eq_some_iff.mp ha
  have hi' : i < ACTION_TABLE_SIZE := Nat.lt_of_lt_of_le hi hf.numActions
  by_cases hin : a.action.action.name = "packet_in"
  · exact means_buckets hin (hcore a hm) (hf.buckets a hm hin) (hf.next a hm)
      (Nat.lt_of_lt_of_le hi' (by decide))
  · unfold installSecond secondRequests
    dsimp only
    rw [if_neg hin, if_neg hin]
    split
    · refine List.Forall₂.cons (means_of_eq ?_ trivial) List.Forall₂.nil
      rw [Request.command, val_coreIndex (hcore a hm), val_ofNat hi']
    · exact List.Forall₂.cons (means_entry hf hcore ha) List.Forall₂.nil

/-- A value of a path has a position in it. -/
theorem idxOf_ofFn_lt {f : Fin 10 → Int} {j : Int} (hj : j ∈ List.ofFn f) :
    (List.ofFn f).idxOf j < 10 := by
  have h := List.idxOf_lt_length_of_mem hj
  rwa [List.length_ofFn] at h

private theorem means_path (hf : Deployable states actions) {s : StateRuntime} {k : Nat}
    (hs : states[k]? = some s) :
    List.Forall₂ (Means H) (installPath (s, k)) (pathRequests (s, k)) := by
  have hm := List.mem_of_getElem? hs
  obtain ⟨hk, -⟩ := List.getElem?_eq_some_iff.mp hs
  have hk' : k < STATE_NUM := Nat.lt_of_lt_of_le hk hf.numStates
  refine List.Forall₂.cons (means_createState hk') (forall₂_map _ ?_)
  intro j hj
  have hmem := (List.mem_filter.mp hj).1
  obtain ⟨p, hp⟩ := List.mem_ofFn.mp hmem
  refine means_of_eq ?_ (hp ▸ hf.path s hm p)
  rw [Request.command, val_ofNat hk', val_ofNat (idxOf_ofFn_lt hmem)]

/-- Every command of a deployment means its request. -/
theorem means_deployment (hf : Deployable states actions)
    (hcore : ∀ a ∈ actions, 0 ≤ a.coreId ∧ a.coreId < 48) {parameter : Parameter}
    (hp : ∀ e ∈ parameter.d, IsInt e.2) :
    List.Forall₂ (Means H) (configurationCommands parameter states actions)
      (deploymentRequests parameter states actions) := by
  have hget {α : Type} {l : List α} {q : α × Nat} (h : q ∈ l.zipIdx) :
      l[q.2]? = some q.1 := List.mem_zipIdx_iff_getElem?.mp h
  unfold configurationCommands deploymentRequests
  refine List.rel_append (List.rel_append (List.rel_append (List.Forall₂.cons ?_ ?_) ?_) ?_) ?_
  · exact means_of_eq rfl hp
  · apply forall₂_map
    intro i hi
    obtain ⟨hk, -⟩ := List.getElem?_eq_some_iff.mp (hget hi)
    exact means_createState (Nat.lt_of_lt_of_le hk hf.numStates)
  · exact forall₂_flatMap _ fun i hi ↦ means_first hf hcore (hget hi)
  · exact forall₂_flatMap _ fun i hi ↦ means_second hf hcore (hget hi)
  · exact forall₂_flatMap _ fun i hi ↦ means_path hf (hget hi)

/-! ### What the requests write -/

private theorem mem_zipIdx_flatMap {α β : Type} {l : List α} {f : α × Nat → List β} {b : β} :
    b ∈ l.zipIdx.flatMap f ↔ ∃ a i, l[i]? = some a ∧ b ∈ f (a, i) := by
  rw [List.mem_flatMap]
  constructor
  · rintro ⟨q, hq, hb⟩
    exact ⟨q.1, q.2, List.mem_zipIdx_iff_getElem?.mp hq, hb⟩
  · rintro ⟨a, i, ha, hb⟩
    exact ⟨(a, i), List.mem_zipIdx_iff_getElem?.mpr ha, hb⟩

/-- The requests of a deployment, by what they are for. -/
inductive Sent (parameter : Parameter) (states : List StateRuntime)
    (actions : List ActionRuntime) : Request → Prop
  | parameter : Sent parameter states actions (.configureParameter parameter)
  | create {s : StateRuntime} {k : Nat} (hs : states[k]? = some s) :
    Sent parameter states actions (.createState 0 (Fin.ofNat STATE_NUM k))
  | reta {a : ActionRuntime} {i : Nat} (ha : actions[i]? = some a)
    (hin : a.action.action.name = "packet_in") :
    Sent parameter states actions
      (.configureRssReta a.startingBucket a.numBucket (coreIndex a) i)
  | firstAction {a : ActionRuntime} {i : Nat} (ha : actions[i]? = some a)
    (hin : a.action.action.name = "packet_in") :
    Sent parameter states actions
      (.workerFirstAction (coreIndex a) a.nextAction a.startingBucket a.numBucket)
  | packetOut {a : ActionRuntime} {i : Nat} (ha : actions[i]? = some a)
    (hout : a.action.action.name = "packet_out") :
    Sent parameter states actions
      (.createPacketOutAction (Fin.ofNat ACTION_TABLE_SIZE i) (coreIndex a))
  | ordinary {a : ActionRuntime} {i : Nat} (ha : actions[i]? = some a) (ho : IsOrdinary a) :
    Sent parameter states actions (entryRequest (a, i))
  | path {s : StateRuntime} {k : Nat} {p : Fin 10} (hs : states[k]? = some s)
    (hp : s.path p ≠ -1) :
    Sent parameter states actions
      (.installSimplePath (Fin.ofNat STATE_NUM k) (s.path p)
        (Fin.ofNat 10 ((List.ofFn s.path).idxOf (s.path p))))

private theorem sent_of_mem {parameter : Parameter} {r : Request}
    (h : r ∈ deploymentRequests parameter states actions) : Sent parameter states actions r := by
  unfold deploymentRequests at h
  rw [List.mem_append, List.mem_append, List.mem_append, List.mem_cons, List.mem_map,
    mem_zipIdx_flatMap, mem_zipIdx_flatMap, mem_zipIdx_flatMap] at h
  rcases h with (((rfl | ⟨q, hq, rfl⟩) | ⟨a, i, ha, h⟩) | ⟨a, i, ha, h⟩) | ⟨s, k, hs, h⟩
  · exact .parameter
  · exact .create (List.mem_zipIdx_iff_getElem?.mp hq)
  · unfold firstRequests at h
    split at h
    · cases h
    · next hin =>
      split at h
      · cases h
      · next hout =>
        rw [List.mem_singleton.mp h]
        exact .ordinary ha ⟨hin, hout⟩
  · unfold secondRequests at h
    dsimp only at h
    split at h
    · next hin =>
      rcases List.mem_cons.mp h with rfl | h
      · exact .reta ha hin
      · rw [List.mem_singleton.mp h]
        exact .firstAction ha hin
    · next hin =>
      split at h
      · next hout =>
        rw [List.mem_singleton.mp h]
        exact .packetOut ha hout
      · next hout =>
        rw [List.mem_singleton.mp h]
        exact .ordinary ha ⟨hin, hout⟩
  · rcases List.mem_cons.mp h with rfl | h
    · exact .create hs
    · obtain ⟨j, hj, rfl⟩ := List.mem_map.mp h
      obtain ⟨hmem, hne⟩ := List.mem_filter.mp hj
      obtain ⟨p, rfl⟩ := List.mem_ofFn.mp hmem
      exact .path hs (by simpa using hne)

private theorem mem_of_sent {parameter : Parameter} {r : Request}
    (h : Sent parameter states actions r) : r ∈ deploymentRequests parameter states actions := by
  unfold deploymentRequests
  rw [List.mem_append, List.mem_append, List.mem_append, List.mem_cons, List.mem_map,
    mem_zipIdx_flatMap, mem_zipIdx_flatMap, mem_zipIdx_flatMap]
  cases h with
  | parameter => exact Or.inl (Or.inl (Or.inl (Or.inl rfl)))
  | @create s k hs =>
    exact Or.inl (Or.inl (Or.inl (Or.inr ⟨(s, k), List.mem_zipIdx_iff_getElem?.mpr hs, rfl⟩)))
  | @reta a i ha hin =>
    refine Or.inl (Or.inr ⟨a, i, ha, ?_⟩)
    rw [secondRequests, if_pos hin]
    exact List.mem_cons_self
  | @firstAction a i ha hin =>
    refine Or.inl (Or.inr ⟨a, i, ha, ?_⟩)
    rw [secondRequests, if_pos hin]
    exact List.mem_cons_of_mem _ (List.mem_singleton_self _)
  | @packetOut a i ha hout =>
    refine Or.inl (Or.inr ⟨a, i, ha, ?_⟩)
    have hin : ¬ a.action.action.name = "packet_in" := by
      rw [hout]
      decide
    rw [secondRequests, if_neg hin, if_pos hout]
    exact List.mem_singleton_self _
  | @ordinary a i ha ho =>
    refine Or.inl (Or.inr ⟨a, i, ha, ?_⟩)
    rw [secondRequests, if_neg ho.1, if_neg ho.2]
    exact List.mem_singleton_self _
  | @path s k p hs hp =>
    refine Or.inr ⟨s, k, hs, List.mem_cons_of_mem _ (List.mem_map.mpr ⟨s.path p, ?_, rfl⟩)⟩
    exact List.mem_filter.mpr ⟨List.mem_ofFn.mpr ⟨p, rfl⟩, by simpa using hp⟩

/-- Every request of a deployment is one of these. -/
theorem mem_deploymentRequests {parameter : Parameter} {r : Request} :
    r ∈ deploymentRequests parameter states actions ↔ Sent parameter states actions r :=
  ⟨sent_of_mem, mem_of_sent⟩

/-- A deployment migrates no entry. -/
theorem stays_deploymentRequests (parameter : Parameter) :
    ∀ r ∈ deploymentRequests parameter states actions, r.Stays := by
  intro r hr
  cases mem_deploymentRequests.mp hr <;> trivial

/-- What a deployment writes to the entry of `a`. -/
def entryWritten (registration : Fin 200 → Option (Handler H)) (a : ActionRuntime) :
    Option (Option (Handler H) × StateRef × Int) :=
  if a.action.action.name = "packet_in" then none
  else if a.action.action.name = "packet_out" then
    some (some .transmitPacket, .worker (coreIndex a), ((coreIndex a).val : Int))
  else
    some (registration (Fin.ofNat 200 a.action.action.registrationId.toNat), stateRefOf a.stateId,
      a.coreId)

/-- The last write to an action entry. -/
theorem lastWrite_entry (hf : Deployable states actions) (parameter : Parameter)
    (registration : Fin 200 → Option (Handler H)) (i : Fin ACTION_TABLE_SIZE) :
    lastWrite (Request.entry registration i) (deploymentRequests parameter states actions) =
      (actions[i.val]?).bind (entryWritten registration) := by
  apply lastWrite_eq
  · intro r hr v hv
    cases mem_deploymentRequests.mp hr with
    | @packetOut a j ha hout =>
      have hj := lt_of_getElem? hf.numActions ha
      rw [Request.entry] at hv
      split at hv
      · next he =>
        have hval : i.val = j := by rw [← he, val_ofNat hj]
        have hin : ¬ a.action.action.name = "packet_in" := by
          rw [hout]
          decide
        rw [hval, ha, Option.bind_some, entryWritten, if_neg hin, if_pos hout]
        exact hv
      · cases hv
    | @ordinary a j ha ho =>
      have hj := lt_of_getElem? hf.numActions ha
      rw [entryRequest, Request.entry] at hv
      split at hv
      · next he =>
        have hval : i.val = j := by rw [← he, val_ofNat hj]
        rw [hval, ha, Option.bind_some, entryWritten, if_neg ho.1, if_neg ho.2]
        exact hv
      · cases hv
    | _ => cases hv
  · intro v hv
    obtain ⟨a, ha, hw⟩ := Option.bind_eq_some_iff.mp hv
    have hi : Fin.ofNat ACTION_TABLE_SIZE i.val = i := Fin.ofNat_val_eq_self i
    unfold entryWritten at hw
    split at hw
    · cases hw
    · next hin =>
      split at hw
      · next hout =>
        refine ⟨_, mem_deploymentRequests.mpr (.packetOut ha hout), ?_⟩
        rw [Request.entry, if_pos hi]
        exact hw
      · next hout =>
        refine ⟨_, mem_deploymentRequests.mpr (.ordinary ha ⟨hin, hout⟩), ?_⟩
        rw [entryRequest, Request.entry, if_pos hi]
        exact hw

/-- The position of a value in a path holds it. -/
theorem path_eq_of_idxOf {f : Fin 10 → Int} {j : Int} {p : Fin 10}
    (hj : j ∈ List.ofFn f) (hp : (List.ofFn f).idxOf j = p.val) : f p = j := by
  have hlt := List.idxOf_lt_length_of_mem hj
  have hget := List.getElem_idxOf hlt
  rw [List.getElem_ofFn] at hget
  have hfin : (⟨(List.ofFn f).idxOf j, by simpa using hlt⟩ : Fin 10) = p := Fin.ext hp
  rw [← hfin]
  exact hget

/-- What a deployment writes to slot `p` of the state of `s`: the value is searched in the path,
so only its first position is written. -/
def slotWritten (p : Fin 10) (s : StateRuntime) : Option Int :=
  if s.path p ≠ -1 ∧ (List.ofFn s.path).idxOf (s.path p) = p.val then some (s.path p) else none

/-- A deployment writes every slot of a path if and only if no two of them hold the same action. -/
theorem slotWritten_iff (s : StateRuntime) :
    (∀ p, s.path p ≠ -1 → slotWritten p s = some (s.path p)) ↔
      ∀ p q : Fin 10, s.path p ≠ -1 → s.path p = s.path q → p = q := by
  have hidx (p q : Fin 10) (hq : s.path p = s.path q)
      (h : slotWritten p s = some (s.path p)) :
      (List.ofFn s.path).idxOf (s.path q) = p.val := by
    unfold slotWritten at h
    split at h
    · next hc =>
      rw [← hq]
      exact hc.2
    · cases h
  constructor
  · intro h p q hp hpq
    have h1 := hidx p q hpq (h p hp)
    have h2 := hidx q q rfl (h q (hpq ▸ hp))
    exact Fin.ext (h1.symm.trans h2)
  · intro h p hp
    have hmem : s.path p ∈ List.ofFn s.path := List.mem_ofFn.mpr ⟨p, rfl⟩
    have hlt := idxOf_ofFn_lt hmem
    have hq : s.path ⟨_, hlt⟩ = s.path p := path_eq_of_idxOf hmem rfl
    have hpq := h p ⟨_, hlt⟩ hp hq.symm
    have hval : (List.ofFn s.path).idxOf (s.path p) = p.val := (congrArg Fin.val hpq).symm
    rw [slotWritten, if_pos ⟨hp, hval⟩]

/-- The last write to a slot of a state. -/
theorem lastWrite_simplePath (hf : Deployable states actions) (parameter : Parameter)
    (i : Fin STATE_NUM) (p : Fin 10) :
    lastWrite (Request.simplePath i p) (deploymentRequests parameter states actions) =
      (states[i.val]?).bind (slotWritten p) := by
  apply lastWrite_eq
  · intro r hr v hv
    cases mem_deploymentRequests.mp hr with
    | @path s k q hs hq =>
      have hk := lt_of_getElem? hf.numStates hs
      have hmem : s.path q ∈ List.ofFn s.path := List.mem_ofFn.mpr ⟨q, rfl⟩
      rw [Request.simplePath] at hv
      split at hv
      · next he =>
        have hval : i.val = k := by rw [← he.1, val_ofNat hk]
        have hidx : (List.ofFn s.path).idxOf (s.path q) = p.val := by
          rw [← he.2, val_ofNat (idxOf_ofFn_lt hmem)]
        have hpq : s.path p = s.path q := path_eq_of_idxOf hmem hidx
        rw [hval, hs, Option.bind_some, slotWritten, hpq, if_pos ⟨hq, hidx⟩]
        exact hv
      · cases hv
    | _ => cases hv
  · intro v hv
    obtain ⟨s, hs, hw⟩ := Option.bind_eq_some_iff.mp hv
    unfold slotWritten at hw
    split at hw
    · next h =>
      refine ⟨_, mem_deploymentRequests.mpr (.path hs h.1), ?_⟩
      have hp : Fin.ofNat 10 ((List.ofFn s.path).idxOf (s.path p)) = p := by
        rw [h.2]
        exact Fin.ofNat_val_eq_self p
      rw [Request.simplePath, if_pos ⟨Fin.ofNat_val_eq_self i, hp⟩]
      exact hw
    · cases hw

/-- Bucket `b` belongs to the range of the `packet_in` entry `a`. -/
structure Serves (a : ActionRuntime) (b : Fin RSS_I_TABLE_SIZE) : Prop where
  packetIn : a.action.action.name = "packet_in"
  start : (a.startingBucket : Int) ≤ b.val
  stop : (b.val : Int) < a.startingBucket + a.numBucket

/-- A bucket belongs to one entry at most. -/
theorem serves_unique (hd : actions.Pairwise BucketsDisjoint) {a a' : ActionRuntime} {i j : Nat}
    {b : Fin RSS_I_TABLE_SIZE} (ha : actions[i]? = some a) (ha' : actions[j]? = some a')
    (h : Serves a b) (h' : Serves a' b) : i = j := by
  obtain ⟨hi, hgi⟩ := List.getElem?_eq_some_iff.mp ha
  obtain ⟨hj, hgj⟩ := List.getElem?_eq_some_iff.mp ha'
  have hpair := List.pairwise_iff_getElem.mp hd
  have h1 := h.start
  have h2 := h.stop
  have h1' := h'.start
  have h2' := h'.stop
  by_contra hne
  rcases Nat.lt_or_gt_of_ne hne with hlt | hlt
  · have hd := hpair i j hi hj hlt
    rw [hgi, hgj] at hd
    have := hd h.packetIn h'.packetIn
    omega
  · have hd := hpair j i hj hi hlt
    rw [hgi, hgj] at hd
    have := hd h'.packetIn h.packetIn
    omega

/-- The last write to a bucket of the worker that serves it. -/
theorem lastWrite_bucket (hd : actions.Pairwise BucketsDisjoint) (parameter : Parameter)
    {a : ActionRuntime} {b : Fin RSS_I_TABLE_SIZE} (ha : a ∈ actions) (h : Serves a b) :
    lastWrite (Request.bucket (coreIndex a) b) (deploymentRequests parameter states actions) =
      some a.nextAction := by
  obtain ⟨i, ha⟩ := List.mem_iff_getElem?.mp ha
  apply lastWrite_bucket_eq
  · exact ⟨_, _, mem_deploymentRequests.mpr (.firstAction ha h.packetIn), h.start, h.stop⟩
  · intro u s n hr h1 h2
    have hsent := mem_deploymentRequests.mp hr
    generalize hw : coreIndex a = w at hsent
    cases hsent with
    | @firstAction a' j ha' hin =>
      have hij := serves_unique hd ha ha' h ⟨hin, h1, h2⟩
      rw [← hij, ha] at ha'
      rw [Option.some.inj ha']

/-- The last write to a bucket of the redirection table. -/
theorem lastWrite_reta (hd : actions.Pairwise BucketsDisjoint) (parameter : Parameter)
    (queue : Core → Int) {a : ActionRuntime} {b : Fin RSS_I_TABLE_SIZE} (ha : a ∈ actions)
    (h : Serves a b) :
    lastWrite (Request.reta queue b) (deploymentRequests parameter states actions) =
      some (queue (coreIndex a)) := by
  obtain ⟨i, ha⟩ := List.mem_iff_getElem?.mp ha
  apply lastWrite_reta_eq
  · exact ⟨_, _, _, _, mem_deploymentRequests.mpr (.reta ha h.packetIn), h.start, h.stop, rfl⟩
  · intro s n w x hr h1 h2
    have hsent := mem_deploymentRequests.mp hr
    generalize hx : x = y at hsent
    cases hsent with
    | @reta a' j ha' hin =>
      have hij := serves_unique hd ha ha' h ⟨hin, h1, h2⟩
      rw [← hij, ha] at ha'
      rw [Option.some.inj ha']

/-- `c'` is the configuration `c` after a deployment of the tables. -/
structure Installed (states : List StateRuntime) (actions : List ActionRuntime)
    (c c' : Config H) : Prop where
  entry : ∀ i, entryFields c' i =
    ((actions[i.val]?).bind (entryWritten c.actionRegistration)).getD (entryFields c i)
  simplePath : ∀ i p, (c'.states i).simplePath p =
    ((states[i.val]?).bind (slotWritten p)).getD ((c.states i).simplePath p)
  bucket : actions.Pairwise BucketsDisjoint → ∀ a ∈ actions, ∀ b, Serves a b →
    (c'.workerList (coreIndex a)).buckets b = a.nextAction
  reta : actions.Pairwise BucketsDisjoint → ∀ a ∈ actions, ∀ b, Serves a b →
    c'.retaConf b = (c'.workerList (coreIndex a)).queueId
  nicReta : c'.nicReta = some c'.retaConf
  queueId : ∀ w, (c'.workerList w).queueId = (c.workerList w).queueId
  running : c'.running = true

/-- A deployment of tables that fit the runtime installs them. -/
theorem sendCommands_deployment (hf : Deployable states actions)
    (hcore : ∀ a ∈ actions, 0 ≤ a.coreId ∧ a.coreId < 48) {parameter : Parameter}
    (hp : ∀ e ∈ parameter.d, IsInt e.2) (c : Config H) :
    ∃ c', sendCommands c (deploymentCommands parameter states actions) = .ok c' ∧
      Installed states actions c c' := by
  have hconf := sendCommands_of_means (means_deployment (H := H) hf hcore hp) c
  have hentry := entryFields_meantBy (deploymentRequests parameter states actions)
    (stays_deploymentRequests parameter) c
  have hpath := simplePath_meantBy (deploymentRequests parameter states actions) c
  have hbucket := buckets_meantBy (deploymentRequests parameter states actions) c
  have hreta := retaConf_meantBy (deploymentRequests parameter states actions) c
  have hqueue := queueId_meantBy (deploymentRequests parameter states actions) c
  generalize meantBy (deploymentRequests parameter states actions) c = d at *
  refine ⟨{ d with nQueue := 24, nicReta := some d.retaConf, running := true }, ?_, ?_⟩
  · unfold deploymentCommands
    rw [sendCommands_append_of_ok hconf, sendCommands_run]
  · refine ⟨?_, ?_, ?_, ?_, rfl, hqueue, rfl⟩
    · intro i
      refine (hentry i).trans ?_
      rw [lastWrite_entry hf]
    · intro i p
      refine (hpath i p).trans ?_
      rw [lastWrite_simplePath hf]
    · intro hd a ha b hb
      refine (hbucket _ b).trans ?_
      rw [lastWrite_bucket hd parameter ha hb]
      rfl
    · intro hd a ha b hb
      refine (hreta b).trans ?_
      rw [lastWrite_reta hd parameter _ ha hb]
      exact (hqueue _).symm

end Plan

/-- The plan of the generic decomposed network function for two executions. -/
def gdGraph : NfunctorGraph := (nfunctorGraph gd 2).get (by decide)

/-- The plan of the generic decomposed network function fits the runtime. -/
theorem fits_gdGraph : Fits gdGraph.states gdGraph.actions := by
  refine ⟨⟨by decide, by decide, by decide, ?_, ?_, ?_, by decide⟩, ?_⟩
  · unfold IsInt
    decide
  · unfold IsInt
    decide
  · unfold IsInt
    decide
  · unfold BucketsDisjoint
    decide

end Nflambda.Deploy
