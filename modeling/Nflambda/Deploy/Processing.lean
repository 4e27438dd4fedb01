import Nflambda.Deploy.Delivery

/-!
# The processing of a packet

Library `Deploy`. What becomes of a packet that arrives at a worker of the deployed generic
decomposed network function, `src/runtime/worker.h:80–185` with the actions of
`src/runtime/nf/generic_decomposed.h:20–89`: it executes a route of its execution, each action on
the core of its entry. In fair runs it is transmitted at the end of the route, unless it was freed
by a worker with an empty pool or lies with workers that block each other with full rings.
-/

namespace Nflambda.Deploy

open Nflambda.Base Nflambda.Runtime Nflambda.Director

variable {H : Type}

/-- What holds of a packet of execution `e`: it has executed the beginning of a route, each action
on the core of its entry, it is on its way to the next one, freed, or transmitted at the end of a
route, and the loop over it goes on and ends. -/
structure FollowsRoute [RteHash H] (g : NfunctorGraph) (placed : List ActionRuntime) (e : Nat)
    (n : Net H) (p : Mbuf) : Prop where
  begun : ∃ r, IsRoute g e r ∧ n.actionsOf p <+: r
  calls : ∀ x ∈ n.hist.calls, x.m = p → ∃ (j : Nat) (a : ActionRuntime) (en : ActionTableEntry H),
    x.actionId = (j : Int) ∧ placed[j]? = some a ∧ a.executionId = e ∧
      (x.core.val : Int) = a.coreId ∧ n.config.entry (j : Int) = some en ∧
      en.action = functionOf a.action.action.name
  place : p ∈ n.hist.transmitted ∨ p ∈ n.hist.freed ∨ (∃ w, p ∈ (n.pc w).pending) ∨
    ∃ m, n.Holds m ∧ m.m = p
  next : ∀ m, n.Holds m → m.m = p → ∃ r, IsRoute g e r ∧ n.actionsOf p ++ [m.actionId] <+: r
  transmitted : p ∈ n.hist.transmitted → IsRoute g e (n.actionsOf p)
  loop : ∀ w d, n.pc w = .handle d → (n.message w d).m = p → n.LoopEnds w d 3 ∧ n.Proceeds w

/-- After the run `es` from `n₀` to `n`, a packet of execution `e` is done: transmitted at the end
of a route, freed by a worker whose pool was empty, or with workers that block each other. -/
def Settled (g : NfunctorGraph) (e : Nat) (n₀ : Net H) (es : List Event) (n : Net H) (p : Mbuf) :
    Prop :=
  (p ∈ n.hist.transmitted ∧ IsRoute g e (n.actionsOf p)) ∨ FreedEmpty n₀ es p ∨ Trapped n p

/-- Packet `p` arrives at worker `w` in a bucket of entry `a`. -/
structure Arrives (c : Config H) (a : ActionRuntime) (w : Core) (p : Mbuf) : Prop where
  serves : Serves a (bucketOf p)
  steered : Steered c w p

section Ready

variable [RteHash H] [RteHashPositions H] {n : Nat} {g : NfunctorGraph}
  {placed : List ActionRuntime} {parameter : Parameter} {c : Config H} {a : ActionRuntime}
  {p : Mbuf}

/-- A packet that was received in a bucket of an execution follows its route. -/
theorem Ready.follows (h : Ready n g placed parameter c)
    (hR : PositiveRange (parameter.get "data_state")) (ha : a ∈ placed)
    (hb : Serves a (bucketOf p)) {N : Net H}
    (hN : Faultless c (Roomy (parameter.get "data_state")) N) (hcalls : CallsOnCore N)
    (hrec : (coreIndex a, p) ∈ N.hist.received) : FollowsRoute g placed a.executionId N p := by
  obtain ⟨he, -⟩ := h.first ha hb
  obtain ⟨hheld, -, htrans, -⟩ := h.onRoute ha hb hN.routed hrec
  refine ⟨h.begun ha hb hN.routed hrec, fun x hx hxp ↦ ?_,
    hN.routed.packets.somewhere (List.mem_map_of_mem hrec), fun m hm hmp ↦ ?_, htrans,
    fun w d hpc hm ↦ ⟨?_, hN.proceeds (h.closed hR) (fun v hv ↦ ?_) hpc⟩⟩
  · obtain ⟨r, hr, hpre⟩ := h.begun ha hb hN.routed hrec
    have hmem : x.actionId ∈ N.actionsOf p :=
      List.mem_map_of_mem (List.mem_filter.mpr ⟨hx, decide_eq_true hxp⟩)
    obtain ⟨f, hf, hne, hidx⟩ := h.mem_route he hr (hpre.mem hmem)
    obtain ⟨j, b, en, hj, hbget, -, hbe, hen, hact, hcore, -⟩ := h.routeEntry he hf hne
    obtain ⟨en', hen', -, -, hcore'⟩ := hcalls x hx
    rw [hidx, hj] at hen'
    obtain ⟨en0, hen0, ha0, -, hc0⟩ := hN.routed.same.exists_entry hen'
    rw [hen, Option.some.injEq] at hen0
    subst hen0
    exact ⟨j, b, en', hidx.trans hj, hbget, hbe, by rw [← hcore', ← hc0, hcore], hen',
      ha0.symm.trans hact⟩
  · obtain ⟨r, hr, hpre, -⟩ := h.exists_route he (hheld m hm hmp)
    exact ⟨r, hr, hpre⟩
  · apply loopEnds h.keepsPaths h.pathsInTable hN.routed
    intro N' hN' hrec' hpc' hm'
    rw [hm] at hm' ⊢
    obtain ⟨hheld', -⟩ := h.onRoute ha hb hN' (hrec' _ hrec)
    have hholds : N'.Holds (N'.message w d) :=
      .inl ⟨w, by rw [hpc']; exact List.mem_singleton_self _⟩
    obtain ⟨-, -, -, hlen⟩ := h.exists_route he (hheld' _ hholds hm')
    exact hlen
  -- a packet is received once, by the worker of the entry
  · rw [hm] at hv ⊢
    have heq := List.inj_on_of_nodup_map hN.routed.packets.fresh hv hrec rfl
    obtain rfl : v = coreIndex a := congrArg Prod.fst heq
    exact (h.ways h.odd ha hb).1

/-- The worker that receives a packet is that of the packet's entry. -/
theorem Ready.eq_of_arrives (h : Ready n g placed parameter c) (ha : a ∈ placed) {size : Nat}
    {mem : Item → Message} {scratch : Core → Message} {es : List Event} {N : Net H}
    (hrun : run step (launch c workerRun size mem scratch) es = some N) {w : Core}
    (hp : Arrives c a w p) (hw : (w, p) ∈ N.hist.received) : w = coreIndex a :=
  h.eq_coreIndex h.odd ha (launched_of_received hrun hw) hp.serves hp.steered

/-- Packets that arrive in buckets of entries have selectable entries on launched workers in front
of them. -/
theorem Ready.ways_of_arrives (h : Ready n g placed parameter c) {size : Nat}
    {mem : Item → Message} {scratch : Core → Message} {es : List Event} {N : Net H}
    (hrun : run step (launch c workerRun size mem scratch) es = some N)
    (harr : ∀ w p, (w, p) ∈ N.hist.received → ∃ a ∈ placed, Arrives c a w p) {w : Core}
    (hw : (w, p) ∈ N.hist.received) :
    c.Selectable w p ∧ ∀ l i v, c.Trail (c.firstOf w p) l i → c.servesAt i = some v →
      workerRun v = true := by
  obtain ⟨a, ha, hp⟩ := harr w p hw
  rw [h.eq_of_arrives ha hrun hp hw]
  exact h.ways h.odd ha hp.serves

/-- In a fair run of more rounds than packets can move, every packet that had been received before
is done. -/
theorem Ready.settled (h : Ready n g placed parameter c) {size : Nat} {mem : Item → Message}
    {scratch : Core → Message} {es : List Event} {N : Net H}
    (hes : ∀ ev ∈ es, ev.KeepsRunning)
    (hfree : Along step FindsFree (launch c workerRun size mem scratch) es)
    (hrun : run step (launch c workerRun size mem scratch) es = some N)
    {rounds : List (List Event)} {N' : Net H} (hev : ∀ ev ∈ rounds.flatten, ev.KeepsRunning)
    (hfree' : Along step FindsFree N rounds.flatten) (hfair : FairRun workerRun N rounds N')
    (harr : ∀ w p, (w, p) ∈ N'.hist.received → ∃ a ∈ placed, Arrives c a w p)
    (hlong : 26 * N'.received.length < rounds.length) (ha : a ∈ placed) {w : Core}
    (hp : Arrives c a w p) (hw : (w, p) ∈ N.hist.received) :
    Settled g a.executionId (launch c workerRun size mem scratch) (es ++ rounds.flatten) N' p := by
  have hall := run_append_iff.mpr ⟨N, hrun, hfair.run⟩
  have hw' : (w, p) ∈ N'.hist.received := (before_run hfair.run).received.subset hw
  have hdriven := (driven_launch c workerRun size mem scratch h.quit).run h.keepsPaths
    h.pathsInTable hes hrun
  have hmoves := countAlong_after_launch_le h.descends h.keepsPaths hes hev hrun hfair.run
  have hout := hfair.drains_or_traps hev hdriven (fun v ↦ idle_of_launch hrun) h.keepsPaths
    h.pathsInTable (by rw [h.ring]; decide)
    (fun v q l i u hv ht hu ↦ (h.ways_of_arrives hall harr hv).2 l i u ht hu) (by omega) p
    (List.mem_map_of_mem hw)
  rcases hout with ht | hf | ht
  · have hN' := (hdriven.run h.keepsPaths h.pathsInTable hev hfair.run).routed
    rw [h.eq_of_arrives ha hall hp hw'] at hw'
    obtain ⟨-, -, htrans, -⟩ := h.onRoute ha hp.serves hN' hw'
    exact .inl ⟨ht, htrans ht⟩
  · exact .inr (.inl (freedEmpty_of_freed ((along_append_iff hrun).mpr ⟨hfree, hfree'⟩) hall
      List.not_mem_nil hf))
  · exact .inr (.inr ht)

end Ready

/-- For every number of executions whose tables fit the runtime, every split of the cores and every
control frequency, after the planning and the deployment of the generic decomposed network function
and in every interleaving of the workers, every packet that arrives in a bucket of an execution
follows a route of that execution, and is freed by a worker with an empty pool only. While packets
arrive in buckets of executions only, fair runs of any number of rounds exist, and after a fair run
of more rounds than 26 for each packet every packet that had been received before is transmitted at
the end of its route, was freed so, or lies with workers that block each other. -/
theorem gd_follows_route [RteHash H] [RteHashPositions H] (memory : Config H)
    (create : Fin STATE_NUM → H) {scalingN : Nat} (hn : 0 < scalingN)
    (hs : 2 * scalingN ≤ STATE_NUM) (ha : 5 * scalingN ≤ ACTION_TABLE_SIZE)
    {numExecutionCore : Int} (h1 : 1 ≤ numExecutionCore) (h2 : numExecutionCore ≤ 23)
    {controlFrequency : Int} (hf : IsInt controlFrequency)
    (hempty : ∀ i, RteHashPositions.keys (create i) = ∅)
    (hroom : ∀ i, HASH_ENTRIES ≤ RteHashPositions.capacity (create i)) :
    ∃ g placed c, nfunctorGraph gd scalingN = some g ∧
      place numExecutionCore g.actions = some placed ∧
      sendCommands (configInit memory create)
        (deploymentCommands (deploymentParameter.set "control_frequency" controlFrequency)
          g.states placed) = .ok c ∧
      ∀ (size : Nat) (mem : Item → Message) (scratch : Core → Message) (es : List Event)
        (n : Net H), (∀ ev ∈ es, ev.IsWork) →
        Along step FindsFree (launch c workerRun size mem scratch) es →
        run step (launch c workerRun size mem scratch) es = some n →
        (∀ a ∈ placed, ∀ w p, Arrives c a w p → (w, p) ∈ n.hist.received →
          FollowsRoute g placed a.executionId n p ∧
            (p ∈ n.hist.freed → FreedEmpty (launch c workerRun size mem scratch) es p)) ∧
        ((∀ ev ∈ es, ev ≠ .quit) →
          (∀ w p, (w, p) ∈ n.hist.received → ∃ a ∈ placed, Arrives c a w p) →
          (∀ m, ∃ rounds n', rounds.length = m ∧ (∀ ev ∈ rounds.flatten, ev.IsInternal) ∧
            Along step FindsFree n rounds.flatten ∧ FairRun workerRun n rounds n') ∧
          ∀ rounds n', (∀ ev ∈ rounds.flatten, ev.KeepsRunning) →
            Along step FindsFree n rounds.flatten → FairRun workerRun n rounds n' →
            (∀ w p, (w, p) ∈ n'.hist.received → ∃ a ∈ placed, Arrives c a w p) →
            26 * n'.received.length < rounds.length →
            ∀ a ∈ placed, ∀ w p, Arrives c a w p → (w, p) ∈ n.hist.received →
              Settled g a.executionId (launch c workerRun size mem scratch)
                (es ++ rounds.flatten) n' p) := by
  have hrange : (deploymentParameter.set "control_frequency" controlFrequency).get "data_state" =
      4000 := rfl
  obtain ⟨g, placed, c, hg, hplaced, hc, hready⟩ := exists_ready memory create hn hs ha h1 h2
    (isInt_set isInt_deploymentParameter hf "control_frequency") hempty
    (fun i ↦ le_trans (by rw [hrange]; decide) (hroom i))
  have hR : PositiveRange
      ((deploymentParameter.set "control_frequency" controlFrequency).get "data_state") := by
    rw [hrange]
    exact ⟨by decide, by decide⟩
  refine ⟨g, placed, c, hg, hplaced, hc, ?_⟩
  intro size mem scratch es n hes hfree hrun
  have hfaultless := Faultless.run
    ⟨routed_launch c workerRun size mem scratch, hready.states⟩ (hready.closed hR)
    hready.keepsPaths hready.pathsInTable hes hrun
  refine ⟨fun a ha w p hp hw ↦ ⟨?_, ?_⟩, fun hquit harr ↦ ⟨fun m ↦ ?_, ?_⟩⟩
  · rw [hready.eq_of_arrives ha hrun hp hw] at hw
    exact hready.follows hR ha hp.serves hfaultless
      (callsOnCore_run (fun ev hev ↦ (hes ev hev).keepsActions) hrun).2 hw
  · exact freedEmpty_of_freed hfree hrun List.not_mem_nil
  · have hdriven := (driven_launch c workerRun size mem scratch hready.quit).run
      hready.keepsPaths hready.pathsInTable (fun ev hev ↦ ⟨hes ev hev, hquit ev hev⟩) hrun
    exact hfaultless.exists_fairRun hdriven.running (hready.closed hR) hready.keepsPaths
      hready.pathsInTable (fun w p hw ↦ (hready.ways_of_arrives hrun harr hw).1) m
  · intro rounds n' hev hfree' hfair harr' hlong a ha w p hp hw
    exact hready.settled (fun ev hev ↦ ⟨hes ev hev, hquit ev hev⟩) hfree hrun hev hfree' hfair
      harr' hlong ha hp hw

/-- Two executions on six control cores, with the parameters of the notebook: a worker that was
launched receives a packet, which follows its route and is done after 27 fair rounds. -/
theorem gd_follows_route_two : ∃ g placed c, nfunctorGraph gd 2 = some g ∧
    place 6 g.actions = some placed ∧
    sendCommands (configInit (Config.zeroed (KeySet.empty HASH_ENTRIES))
      fun _ ↦ KeySet.empty HASH_ENTRIES)
      (deploymentCommands (deploymentParameter.set "control_frequency" 5) g.states placed) =
        .ok c ∧
    ∃ es n a w, run step (launch c workerRun 131071 (fun _ ↦ ⟨0, 0, 0, 0, ⟨0, 0⟩, 0⟩)
        (fun _ ↦ ⟨0, 0, 0, 0, ⟨0, 0⟩, 0⟩)) es = some n ∧
      a ∈ placed ∧ Arrives c a w ⟨7, 0⟩ ∧ n.hist.received = [(w, ⟨7, 0⟩)] ∧
      FollowsRoute g placed a.executionId n ⟨7, 0⟩ ∧
      ∃ rounds n', rounds.length = 27 ∧ FairRun workerRun n rounds n' ∧
        Settled g a.executionId (launch c workerRun 131071 (fun _ ↦ ⟨0, 0, 0, 0, ⟨0, 0⟩, 0⟩)
          (fun _ ↦ ⟨0, 0, 0, 0, ⟨0, 0⟩, 0⟩)) (es ++ rounds.flatten) n' ⟨7, 0⟩ := by
  have hf : IsInt 5 := by constructor <;> decide
  obtain ⟨g, placed, c, hg, hp, hc, hall⟩ := gd_follows_route
    (Config.zeroed (KeySet.empty HASH_ENTRIES)) (fun _ ↦ KeySet.empty HASH_ENTRIES)
    (show 0 < 2 by decide) (by decide) (by decide) (show (1 : Int) ≤ 6 by decide) (by decide)
    hf (fun _ ↦ rfl) fun _ ↦ le_rfl
  obtain ⟨g', placed', c', hg', hp', hc', hready⟩ := exists_ready
    (Config.zeroed (KeySet.empty HASH_ENTRIES)) (fun _ ↦ KeySet.empty HASH_ENTRIES)
    (show 0 < 2 by decide) (by decide) (by decide) (show (1 : Int) ≤ 6 by decide) (by decide)
    (isInt_set isInt_deploymentParameter hf "control_frequency") (fun _ ↦ rfl)
    fun _ ↦ by decide
  -- the plan and the commands have one result
  obtain rfl : g = g' := Option.some.inj (hg.symm.trans hg')
  obtain rfl : placed = placed' := Option.some.inj (hp.symm.trans hp')
  obtain rfl : c = c' := Except.ok.inj (hc.symm.trans hc')
  obtain ⟨a, ha, hb⟩ := hready.exists_serves (b := bucketOf ⟨7, 0⟩) (by decide)
  obtain ⟨n, ⟨es, hes, hrun⟩, hrec, -⟩ := hready.exists_reception ha hb 131071
    (fun _ ↦ ⟨0, 0, 0, 0, ⟨0, 0⟩, 0⟩) (fun _ ↦ ⟨0, 0, 0, 0, ⟨0, 0⟩, 0⟩)
  have harrives : Arrives c a (coreIndex a) ⟨7, 0⟩ := ⟨hb, hready.steered ha hb⟩
  have harrived (k : Net (KeySet HASH_ENTRIES)) (hk : k.hist.received = n.hist.received)
      (w : Core) (p : Mbuf) (hw : (w, p) ∈ k.hist.received) : ∃ a ∈ placed, Arrives c a w p := by
    rw [hk, hrec, List.mem_singleton, Prod.mk.injEq] at hw
    obtain ⟨rfl, rfl⟩ := hw
    exact ⟨a, ha, harrives⟩
  have hmem : (coreIndex a, ⟨7, 0⟩) ∈ n.hist.received := by
    rw [hrec]
    exact List.mem_singleton_self _
  obtain ⟨hfollows, hsettles⟩ := hall 131071 _ _ es n (fun ev hev ↦ (hes ev hev).1.1)
    (along_findsFree hes _) hrun
  obtain ⟨hfair, hdone⟩ := hsettles (fun ev hev ↦ (hes ev hev).1.2) (harrived n rfl)
  obtain ⟨rounds, n', hlen, hint, hfree, hrounds⟩ := hfair 27
  have hsame := run_internal hint hrounds.run
  have hone : n'.received.length = 1 := by
    rw [Net.received, hsame, hrec]
    rfl
  exact ⟨g, placed, c, hg, hp, hc, es, n, a, _, hrun, ha, harrives, hrec,
    (hfollows a ha _ _ harrives hmem).1, rounds, n', hlen, hrounds,
    hdone rounds n' (fun ev hev ↦ (hint ev hev).keepsRunning) hfree hrounds (harrived n' hsame)
      (by omega) a ha _ _ harrives hmem⟩

end Nflambda.Deploy
