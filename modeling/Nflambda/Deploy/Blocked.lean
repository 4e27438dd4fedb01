import Nflambda.Deploy.Processing
import Nflambda.Runtime.Crossing

/-!
# A deployment whose packets block each other

Library `Deploy`. With a negative frequency, the classifier of
`src/runtime/nf/generic_decomposed.h:20–48` sends packet after packet to the control action, which
`src/RL_agent/rl_orchestrator.ipynb:252–357` puts on a core of its own. Two bursts of the size of
the rings, `src/runtime/Config.c:236`, fill the rings between the two cores in both directions.
-/

namespace Nflambda.Deploy

open Nflambda.Base Nflambda.Runtime Nflambda.Director

variable {H : Type}

/-- The classifier sends the next `k` packets to the control action. -/
structure AsksControl (k : Nat) (ask : Int) (state : Runtime.State H) : Prop where
  frequency : state.controlFrequency = -2048
  path : state.simplePath 1 = ask
  left : -2048 + (k : Int) ≤ state.counter

/-- A call of the classifier asks, and leaves one question less. -/
theorem AsksControl.classifier {k : Nat} {ask : Int} {state : Runtime.State H}
    (h : AsksControl (k + 1) ask state) (m : Message) :
    ∃ t, genericDecomposedClassifier state m = .ok (t, ask) ∧ AsksControl k ask t := by
  obtain ⟨hf, hp, hl⟩ := h
  have hne : ¬ (-2048 : Int) = state.counter := by omega
  refine ⟨{ state with counter := state.counter - 1 }, ?_, hf, hp, ?_⟩
  · rw [genericDecomposedClassifier, hf, if_neg (by decide), if_neg (by decide), if_neg hne, hp]
  · simp only
    omega

section Ready

variable [RteHash H] [RteHashPositions H] {g : NfunctorGraph} {placed : List ActionRuntime}
  {parameter : Parameter} {c : Config H}

/-- On 18 data and 6 control cores, the control action of execution 0 is on core 37 and its other
actions are on core 1. -/
private theorem coreId_of_place (hplaced : place 6 g.actions = some placed) {b : ActionRuntime}
    (hb : b ∈ placed) (hexec : b.executionId = 0) :
    b.coreId = if b.isData then 1 else 37 := by
  have hcore := coreFor_of_place hplaced b hb
  rw [hexec] at hcore
  cases hd : b.isData with
  | true =>
    rw [hd, (by decide : coreFor 6 true 0 = some 1), Option.some.injEq] at hcore
    exact hcore.symm
  | false =>
    rw [hd, (by decide : coreFor 6 false 0 = some 37), Option.some.injEq] at hcore
    exact hcore.symm

/-- With one execution, six control cores and the frequency −2048, core 1 asks core 37 about all
packets of two bursts. -/
theorem Ready.exists_crossing (h : Ready 1 g placed parameter c)
    (hplaced : place 6 g.actions = some placed)
    (hR : PositiveRange (parameter.get "data_state"))
    (hf : parameter.get "control_frequency" = -2048) :
    ∃ x : Crossing c, x.u = 1 ∧ x.v = 37 ∧ x.asks 2048 (c.states x.s) ∧
      x.answers (c.states x.t) ∧ ∃ a ∈ placed, ∀ p : Mbuf, p.rss = 0 →
        Serves a (bucketOf p) ∧ coreIndex a = 1 ∧ c.firstOf 1 p = x.first := by
  obtain ⟨b2, en2, s2, hb2, hact2, hexec2, hen2, hfun2, hcore2, hst2, hs2, hslot2⟩ :=
    h.stateEntry (e := 0) (by decide) (f := nfunctor2) (by decide) (x := gdDataState) rfl
  obtain ⟨b3, en3, -, hb3, hact3, hexec3, hen3, -, hcore3, -⟩ :=
    h.stateEntry (e := 0) (by decide) (f := nfunctor3) (by decide) (x := gdDataState) rfl
  obtain ⟨b4, en4, s4, hb4, hact4, hexec4, hen4, hfun4, hcore4, hst4, hs4, hslot4⟩ :=
    h.stateEntry (e := 0) (by decide) (f := nfunctor4) (by decide) (x := gdControlState) rfl
  obtain ⟨a, ha, hserves⟩ := h.exists_serves (b := 0) (by decide)
  have hclassifier : en2.action = some (.action genericDecomposedClassifier) := hfun2.trans rfl
  have hcontrol : en4.action = some (.action genericDecomposedControlAction) := hfun4.trans rfl
  -- where the actions are
  have hc2 : b2.coreId = 1 := by
    rw [coreId_of_place hplaced hb2 hexec2, ActionRuntime.isData, hact2]
    decide
  have hc3 : b3.coreId = 1 := by
    rw [coreId_of_place hplaced hb3 hexec3, ActionRuntime.isData, hact3]
    decide
  have hc4 : b4.coreId = 37 := by
    rw [coreId_of_place hplaced hb4 hexec4, ActionRuntime.isData, hact4]
    decide
  have hbucket (p : Mbuf) (hp : p.rss = 0) : bucketOf p = 0 := by
    apply Fin.ext
    simp [bucketOf, hp]
  obtain ⟨i, hget⟩ := List.mem_iff_getElem?.mp ha
  obtain ⟨e, he, hmem, -, hexec, -⟩ := h.exists_getElem? hget
  have hca : a.coreId = 1 := by
    have haction : a.action = nfunctor1 := (by decide : ∀ f ∈ nfunctorList,
      f.action.name = "packet_in" → f = nfunctor1) _ hmem hserves.packetIn
    rw [coreId_of_place hplaced ha (by omega), ActionRuntime.isData, haction]
    decide
  have hone : coreIndex a = 1 := by
    have hval := val_coreIndex (h.onCore a ha)
    apply Fin.ext
    rw [hca] at hval
    exact Int.ofNat_inj.mp hval
  have hserved (p : Mbuf) (hp : p.rss = 0) : Serves a (bucketOf p) := by
    rw [hbucket p hp]
    exact hserves
  have hexec0 : a.executionId = 0 := by omega
  have hfirst (p : Mbuf) (hp : p.rss = 0) : c.firstOf 1 p = gdIndex 0 nfunctor2 := by
    obtain ⟨-, hfirst⟩ := h.first ha (hserved p hp)
    rw [← hone, hfirst, hexec0]
  -- what the states hold
  obtain ⟨-, h1, -⟩ := lastJoined_data 1 0
  have hlen : g.states.length = 2 := by
    rw [states_nfunctorGraph h.plan, length_grid]
    decide
  have hs2' : s2.val = 0 := hs2.trans (by decide)
  have hs4' : s4.val = 1 := hs4.trans (by decide)
  have hcreated := h.created s2 (by omega)
  rw [hf, createdValues, Prod.mk.injEq, Prod.mk.injEq] at hcreated
  refine ⟨{
    u := 1
    v := 37
    first := gdIndex 0 nfunctor2
    ask := gdIndex 0 nfunctor4
    back := gdIndex 0 nfunctor3
    classify := genericDecomposedClassifier
    answer := genericDecomposedControlAction
    s := s2
    t := s4
    asks := fun k σ ↦ AsksControl k (gdIndex 0 nfunctor4) σ
    answers := fun σ ↦ Roomy (parameter.get "data_state") σ ∧ σ.simplePath 0 = gdIndex 0 nfunctor3
    cores_ne := by decide
    states_ne := fun heq ↦ by rw [heq] at hs2'; omega
    polls := hone ▸ h.polls a ha hserves.packetIn
    firstEntry := ⟨en2, hen2, hcore2.trans hc2, hclassifier, hst2⟩
    askEntry := ⟨en4, hen4, hcore4.trans hc4, hcontrol, hst4⟩
    backEntry := ⟨en3, hen3, hcore3.trans hc3⟩
    classifies := fun k σ m hσ ↦ hσ.classifier m
    replies := fun σ m hσ ↦ ?_ }, rfl, rfl, ?_, ?_, a, ha,
      fun p hp ↦ ⟨hserved p hp, hone, hfirst p hp⟩⟩
  · obtain ⟨t, path, hok, hroomy⟩ := hσ.1.control hR m
    obtain ⟨hkeep, hpath⟩ := genericDecomposedControlAction_path hok
    rw [hσ.2] at hpath
    subst hpath
    exact ⟨t, hok, hroomy, (congrFun hkeep 0).trans hσ.2⟩
  · exact ⟨hcreated.2.1, hslot2 1 nfunctor4 h1, by rw [hcreated.2.2]; decide⟩
  · exact ⟨h.states _ en4 _ s4 hen4 hcontrol hst4, hslot4 0 nfunctor3 (lastJoined_control 1 0)⟩

end Ready

/-- On fresh runtime memory filled with zeros, with one execution, six control cores and the control
frequency −2048: a run of the workers in which every search for a free item succeeds, and in which
packets arrive in the bucket of the `packet_in` entry only, comes to a state from which one of the
packets is never transmitted nor freed, whatever the workers do. -/
theorem gd_packet_blocked : ∃ g placed c, nfunctorGraph gd 1 = some g ∧
    place 6 g.actions = some placed ∧
    sendCommands (configInit (Config.zeroed (KeySet.empty HASH_ENTRIES))
      fun _ ↦ KeySet.empty HASH_ENTRIES)
      (deploymentCommands (deploymentParameter.set "control_frequency" (-2048))
        g.states placed) = .ok c ∧
    ∃ es n a p, (∀ ev ∈ es, ev.KeepsRunning) ∧
      Along step FindsFree (launch c workerRun 131071 (fun _ ↦ ⟨0, 0, 0, 0, ⟨0, 0⟩, 0⟩)
        (fun _ ↦ ⟨0, 0, 0, 0, ⟨0, 0⟩, 0⟩)) es ∧
      run step (launch c workerRun 131071 (fun _ ↦ ⟨0, 0, 0, 0, ⟨0, 0⟩, 0⟩)
        (fun _ ↦ ⟨0, 0, 0, 0, ⟨0, 0⟩, 0⟩)) es = some n ∧
      a ∈ placed ∧ (∀ w q, (w, q) ∈ n.hist.received → Arrives c a w q) ∧
      (1, p) ∈ n.hist.received ∧
      ∀ fs n', (∀ ev ∈ fs, ev.IsWork) → run step n fs = some n' →
        p ∉ n'.hist.transmitted ∧ p ∉ n'.hist.freed := by
  have hf : IsInt (-2048) := by constructor <;> decide
  obtain ⟨g, placed, c, hg, hplaced, hc, hready⟩ := exists_ready
    (Config.zeroed (KeySet.empty HASH_ENTRIES)) (fun _ ↦ KeySet.empty HASH_ENTRIES)
    (show 0 < 1 by decide) (by decide) (by decide) (show (1 : Int) ≤ 6 by decide) (by decide)
    (isInt_set isInt_deploymentParameter hf "control_frequency") (fun _ ↦ rfl)
    fun _ ↦ by decide
  obtain ⟨x, hu, hv, hasks, hanswers, a, ha, hserves⟩ :=
    hready.exists_crossing hplaced ⟨by decide, by decide⟩ rfl
  have hring := hready.ring
  have hsize : 2 * c.ringSize ≤ 131071 := by omega
  have hlen : ((List.range 2048).map (Mbuf.mk · 0)).length = 2 * c.ringSize := by
    rw [hring, List.length_map, List.length_range]
  obtain ⟨n, p, ⟨es, hes, hrun⟩, hrec, hp, htrapped⟩ := x.exists_trapped
    (show workerRun x.u = true by rw [hu]; decide) (by rw [hv]; decide) hready.quit (by omega)
    (by omega) hsize (by rw [hring]; exact hasks) hanswers (fun _ ↦ ⟨0, 0, 0, 0, ⟨0, 0⟩, 0⟩)
    (fun _ ↦ ⟨0, 0, 0, 0, ⟨0, 0⟩, 0⟩) hlen
    (List.nodup_range.map fun i j hij ↦ congrArg Mbuf.oid hij) fun q hq ↦ by
      obtain ⟨i, -, rfl⟩ := List.mem_map.mp hq
      rw [hu]
      exact (hserves _ rfl).2.2
  have hkeeps : ∀ ev ∈ es, ev.KeepsRunning := fun ev hev ↦ (hes ev hev).1
  have hrouted := routed_run hready.keepsPaths hready.pathsInTable workerRun _ _ _
    (fun ev hev ↦ (hkeeps ev hev).1) hrun
  refine ⟨g, placed, c, hg, hplaced, hc, es, n, a, p, hkeeps, along_findsFree hes _, hrun, ha,
    ?_, ?_, ?_⟩
  · intro w q hw
    rw [hrec] at hw
    obtain ⟨q', hq', heq⟩ := List.mem_map.mp hw
    obtain ⟨i, -, rfl⟩ := List.mem_map.mp hq'
    obtain ⟨rfl, rfl⟩ := Prod.mk.inj heq
    obtain ⟨hb, hone, -⟩ := hserves ⟨i, 0⟩ rfl
    rw [hu, ← hone]
    exact ⟨hb, hready.steered ha hb⟩
  · rw [hrec, ← hu]
    exact List.mem_map_of_mem hp
  · intro fs n' hfs hrun'
    exact (htrapped.run hrouted hready.keepsPaths hready.pathsInTable hfs hrun').not_out
      (hrouted.run hready.keepsPaths hready.pathsInTable hfs hrun').packets

end Nflambda.Deploy
