import Nflambda.Deploy.Installed

/-!
# A deployment mirrors the plan

Library `Deploy`. When the configuration that `update_deployment`,
`src/RL_agent/rl_orchestrator.ipynb:252–357`, leaves in the runtime says the same
as the state and action tables of the planner.
-/

namespace Nflambda.Deploy

open Nflambda.Base Nflambda.Runtime Nflambda.Director

variable {H : Type}

/-- The configuration `c'` mirrors the tables, for functions registered in `c`. -/
structure Mirrors (states : List StateRuntime) (actions : List ActionRuntime)
    (c c' : Config H) : Prop where
  action : ∀ (i : Nat) (a : ActionRuntime), actions[i]? = some a → IsOrdinary a →
    ∃ (e : Fin ACTION_TABLE_SIZE) (r : Fin 200) (s : Fin STATE_NUM),
      e.val = i ∧ (r.val : Int) = a.action.action.registrationId ∧ (s.val : Int) = a.stateId ∧
      (c'.actionTable e).action = c.actionRegistration r ∧
      (c'.actionTable e).state = .state s ∧ (c'.actionTable e).coreId = a.coreId
  path : ∀ (k : Nat) (s : StateRuntime), states[k]? = some s → ∀ p : Fin 10, s.path p ≠ -1 →
    ∃ i : Fin STATE_NUM, i.val = k ∧ (c'.states i).simplePath p = s.path p
  bucket : ∀ a ∈ actions, a.action.action.name = "packet_in" →
    ∃ w : Core, (w.val : Int) = a.coreId ∧ ∀ b : Fin RSS_I_TABLE_SIZE,
      a.startingBucket ≤ b.val → b.val < a.startingBucket + a.numBucket →
      (c'.workerList w).buckets b = a.nextAction ∧ c'.nicReta = some c'.retaConf ∧
        c'.retaConf b = (c'.workerList w).queueId

/-- No two path ids of a state lead to the same action, and the entries of the network function
have states of the runtime. -/
structure Mirrorable (g : NfunctorGraph) : Prop where
  path : ∀ s ∈ g.states, ∀ p q : Fin 10, s.path p ≠ -1 → s.path p = s.path q → p = q
  state : ∀ a ∈ g.actions, IsOrdinary a → 0 ≤ a.stateId ∧ a.stateId < STATE_NUM

private theorem stateRefOf_val (s : Fin STATE_NUM) : stateRefOf (s.val : Int) = .state s := by
  unfold stateRefOf
  rw [idx?_natCast _ s.isLt]

private theorem mirrors_of_installed {states : List StateRuntime} {actions : List ActionRuntime}
    {c c' : Config H} (hf : Fits states actions)
    (hcore : ∀ a ∈ actions, 0 ≤ a.coreId ∧ a.coreId < 48)
    (hpath : ∀ s ∈ states, ∀ p q : Fin 10, s.path p ≠ -1 → s.path p = s.path q → p = q)
    (hstate : ∀ a ∈ actions, IsOrdinary a → 0 ≤ a.stateId ∧ a.stateId < STATE_NUM)
    (h : Installed states actions c c') : Mirrors states actions c c' := by
  refine ⟨?_, ?_, ?_⟩
  · intro i a ha ho
    have hm := List.mem_of_getElem? ha
    have hi := lt_of_getElem? hf.numActions ha
    obtain ⟨hr0, hr⟩ := hf.registration a hm
    obtain ⟨hs0, hs⟩ := hstate a hm ho
    have hs' : a.stateId.toNat < STATE_NUM := by omega
    have he := h.entry ⟨i, hi⟩
    rw [ha, Option.bind_some, entryWritten, if_neg ho.1, if_neg ho.2, Option.getD_some] at he
    have href : stateRefOf a.stateId = .state ⟨a.stateId.toNat, hs'⟩ := by
      rw [← stateRefOf_val]
      exact congrArg stateRefOf (Int.toNat_of_nonneg hs0).symm
    refine ⟨⟨i, hi⟩, Fin.ofNat 200 a.action.action.registrationId.toNat,
      ⟨a.stateId.toNat, hs'⟩, rfl, ?_, Int.toNat_of_nonneg hs0, congrArg (·.1) he, ?_,
      congrArg (·.2.2) he⟩
    · rw [val_ofNat (by omega), Int.toNat_of_nonneg hr0]
    · exact (congrArg (·.2.1) he).trans href
  · intro k s hs p hp
    have hk := lt_of_getElem? hf.numStates hs
    refine ⟨⟨k, hk⟩, rfl, ?_⟩
    rw [h.simplePath, hs, Option.bind_some,
      (slotWritten_iff s).mpr (hpath s (List.mem_of_getElem? hs)) p hp]
    rfl
  · intro a ha hin
    obtain ⟨hc0, hc⟩ := hcore a ha
    refine ⟨coreIndex a, ?_, ?_⟩
    · rw [coreIndex, val_ofNat (by omega), Int.toNat_of_nonneg hc0]
    · intro b h1 h2
      have hs : Serves a b := ⟨hin, by omega, by omega⟩
      exact ⟨h.bucket hf.disjoint a ha b hs, h.nicReta, h.reta hf.disjoint a ha b hs⟩

/-- A plan that is mirrored on every prior configuration can be mirrored. -/
theorem mirrorable_of_mirrors (h : H) {g : NfunctorGraph} (hf : Fits g.states g.actions)
    {numExecutionCore : Int} {placed : List ActionRuntime}
    (hp : place numExecutionCore g.actions = some placed)
    (hall : ∀ c : Config H, ∃ c',
      sendCommands c (deploymentCommands deploymentParameter g.states placed) = .ok c' ∧
        Mirrors g.states placed c c') : Mirrorable g := by
  refine ⟨?_, ?_⟩
  · intro s hs
    rw [← slotWritten_iff]
    intro p hne
    obtain ⟨k, hk⟩ := List.mem_iff_getElem?.mp hs
    -- a configuration whose states hold `-1` everywhere
    let c : Config H := { Config.zeroed h with
      states := fun i ↦ { (Config.zeroed h).states i with simplePath := fun _ ↦ -1 } }
    obtain ⟨c', hc', hm⟩ := hall c
    obtain ⟨d, hd, hi⟩ := sendCommands_deployment (hf.toDeployable.place hp)
      (core_of_place hp)
      isInt_deploymentParameter c
    have hcd : c' = d := Except.ok.inj (hc'.symm.trans hd)
    subst hcd
    obtain ⟨i, rfl, hslot⟩ := hm.path k s hk p hne
    rw [hi.simplePath, hk, Option.bind_some] at hslot
    cases hw : slotWritten p s with
    | none =>
      rw [hw] at hslot
      exact absurd hslot.symm hne
    | some v =>
      rw [hw] at hslot
      rw [← hslot]
      rfl
  · intro a ha ho
    obtain ⟨core, hb⟩ := exists_placed hp ha
    obtain ⟨i, hi⟩ := List.mem_iff_getElem?.mp hb
    obtain ⟨c', -, hm⟩ := hall (Config.zeroed h)
    obtain ⟨-, -, s, -, -, hs, -⟩ := hm.action i _ hi ho
    change (s.val : Int) = a.stateId at hs
    have hlt := s.isLt
    omega

/-- A deployment mirrors the plan on every prior configuration if and only if no state has two
path ids with the same action and every entry of the network function has a state,
`rl_orchestrator.ipynb:252–357`. -/
theorem deployment_mirrors_iff (h : H) (g : NfunctorGraph) (hf : Fits g.states g.actions)
    {numExecutionCore : Int} {placed : List ActionRuntime}
    (hp : place numExecutionCore g.actions = some placed) :
    (∀ c : Config H, ∃ c',
      sendCommands c (deploymentCommands deploymentParameter g.states placed) = .ok c' ∧
        Mirrors g.states placed c c') ↔ Mirrorable g := by
  constructor
  · exact mirrorable_of_mirrors h hf hp
  · intro hm c
    obtain ⟨c', hc', hi⟩ := sendCommands_deployment (hf.toDeployable.place hp)
      (core_of_place hp)
      isInt_deploymentParameter c
    refine ⟨c', hc', mirrors_of_installed (hf.place hp) (core_of_place hp) hm.path ?_ hi⟩
    intro b hb ho
    obtain ⟨a, ha, core, rfl⟩ := exists_of_mem_place hp hb
    exact hm.state a ha ho

/-- The plan of the generic decomposed network function is mirrored. -/
theorem deployment_mirrors_gd : Fits gdGraph.states gdGraph.actions ∧
    ∃ placed, place 6 gdGraph.actions = some placed ∧ ∀ c : Config Unit, ∃ c',
      sendCommands c (deploymentCommands deploymentParameter gdGraph.states placed) = .ok c' ∧
        Mirrors gdGraph.states placed c c' := by
  have hm : Mirrorable gdGraph := by
    refine ⟨by decide, ?_⟩
    unfold IsOrdinary
    decide
  have hp : place 6 gdGraph.actions = some ((place 6 gdGraph.actions).get (by decide)) := by simp
  exact ⟨fits_gdGraph, _, hp, (deployment_mirrors_iff () gdGraph fits_gdGraph hp).mpr hm⟩

/-- A plan in which two path ids of a state lead to the same action. -/
def sharedPathGraph : NfunctorGraph where
  numBuckets := 512
  startingBucket := 512
  states := [⟨gdDataState, 0, 0, fun p ↦ if p = 0 ∨ p = 1 then 2 else -1⟩]
  actions :=
    [⟨nfunctor1, 0, 0, -1, 1, 0, 512, 1⟩, ⟨nfunctor2, 0, 0, 0, 1, 0, 0, -1⟩,
      ⟨nfunctor5, 0, 0, -1, 1, 0, 0, -1⟩]

/-- A plan with two paths to the same action is not mirrored. -/
theorem sharedPathGraph_not_mirrored :
    Fits sharedPathGraph.states sharedPathGraph.actions ∧
    ∃ placed, place 6 sharedPathGraph.actions = some placed ∧ ¬ ∀ c : Config Unit, ∃ c',
      sendCommands c (deploymentCommands deploymentParameter sharedPathGraph.states placed) =
          .ok c' ∧
        Mirrors sharedPathGraph.states placed c c' := by
  have hf : Fits sharedPathGraph.states sharedPathGraph.actions := by
    refine ⟨⟨by decide, by decide, by decide, ?_, ?_, ?_, by decide⟩, ?_⟩
    · unfold IsInt
      decide
    · unfold IsInt
      decide
    · unfold IsInt
      decide
    · unfold BucketsDisjoint
      decide
  have hp : place 6 sharedPathGraph.actions =
      some ((place 6 sharedPathGraph.actions).get (by decide)) := by simp
  refine ⟨hf, _, hp, fun hall ↦ ?_⟩
  have hm := mirrorable_of_mirrors () hf hp hall
  exact absurd (hm.path _ (List.mem_singleton_self _) 0 1 (by decide) rfl) (by decide)

end Nflambda.Deploy
