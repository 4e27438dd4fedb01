import Nflambda.Deploy.ChainSetup

/-!
# The installed routes of a chain

Library `Deploy`. When the paths that `NFlambda.deployment`,
`src/director/nflambda/platform.py:212–232`, installs for a uniformly scaled chain stand in the
slots of the runtime's states, `src/runtime/state/state.h:12–29`, and none overwrites another.
-/

namespace Nflambda.Deploy

open Nflambda.Base Nflambda.Runtime Nflambda.Director Nflambda.Chain

/-- The commands `paths`, which are sent after `setup`, put every route of a deployment into a slot
of its own in the state of its source, where the index of its target stays. -/
structure RoutesInstalled (H : Type) [RteHash H] (d : DeploymentModel)
    (setup paths : List Command) : Prop where
  placed : ∀ k b a, d.Route k b a →
    ∃ m p, d.UsesSlot k b m p ∧ m < STATE_NUM ∧ p < 10 ∧ b < 2 ^ 31
  apart : ∀ k b k' b' m p, d.UsesSlot k b m p → d.UsesSlot k' b' m p → b = b'
  holds : ∀ (memory : Config H) (create : Fin STATE_NUM → H), ∃ c',
    sendCommands (configInit memory create) (setup ++ paths) = .ok c' ∧
      ∀ k b m p, d.UsesSlot k b m p → ∃ (i : Fin STATE_NUM) (q : Fin 10), i.val = m ∧
        q.val = p ∧ (c'.states i).simplePath q = b

/-- The deployment of `n` executions of every action instance, where execution `k` is on
`core k`, succeeds and installs all routes. -/
def ChainRoutes (H : Type) [RteHash H] (sfc : Sfc) (n : Nat) (core : Nat → Int) : Prop :=
  ∃ d setup paths, uniformDeployment sfc n core = some d ∧
    d.deployment = some (setup ++ paths) ∧ d.pathCommands = some paths ∧
    RoutesInstalled H d setup paths

/-- The tables of the runtime hold the executions of a chain, the slots of its edges are in range,
and edges from instances with the same state to different targets have different slots. -/
structure RoutesFit (sfc : Sfc) (n : Nat) (core : Nat → Int) : Prop
    extends SetupFits sfc n core where
  executions : 0 < n ∧ sfc.actionInstanceList ≠ []
  used : ∀ s ∈ sfc.stateInstanceList, s.actionInstanceList ≠ []
  stateful : Stateful sfc
  placed : ∀ s t i j, sfc.Edge s t i j → ∃ q p, sfc.stateInstanceOf i = some q ∧
    sfc.pathSlot i j = some p ∧ p < 10
  apart : ∀ s t i j s' t' i' j', sfc.Edge s t i j → sfc.Edge s' t' i' j' →
    sfc.stateInstanceOf i = sfc.stateInstanceOf i' → sfc.pathSlot i j = sfc.pathSlot i' j' → t = t'

section

variable {H : Type}

/-- The commands for routes whose slots are in range and different run in every configuration, and
leave the target of every route in its slot. -/
private theorem sendCommands_paths {d : DeploymentModel} {paths : List Command}
    (hpaths : d.pathCommands = some paths)
    (hrange : ∀ k b m p, d.UsesSlot k b m p → m < STATE_NUM ∧ p < 10 ∧ b < 2 ^ 31)
    (hapart : ∀ k b k' b' m p, d.UsesSlot k b m p → d.UsesSlot k' b' m p → b = b')
    (c : Config H) :
    ∃ c', sendCommands c paths = .ok c' ∧ ∀ k b m p, d.UsesSlot k b m p →
      ∃ (i : Fin STATE_NUM) (q : Fin 10), i.val = m ∧ q.val = p ∧
        (c'.states i).simplePath q = b := by
  obtain ⟨hin, hout⟩ := pathCommands_eq_some hpaths
  -- every command is that of a route
  have hreq : ∀ command, ∃ r : Request, command ∈ paths → ∃ k b i q,
      d.UsesSlot k b i.val q.val ∧ r = .installSimplePath i b q ∧ command = r.command := by
    intro command
    by_cases hmem : command ∈ paths
    · obtain ⟨k, b, a, cs, hroute, hcs, hc⟩ := hout command hmem
      obtain ⟨m, p, hm, rfl⟩ := mem_installPath hcs hc
      have huses : d.UsesSlot k b m p := ⟨a, cs, hroute, hm, hcs, hc⟩
      obtain ⟨hm', hp', -⟩ := hrange k b m p huses
      exact ⟨.installSimplePath ⟨m, hm'⟩ b ⟨p, hp'⟩,
        fun _ ↦ ⟨k, b, ⟨m, hm'⟩, ⟨p, hp'⟩, huses, rfl, rfl⟩⟩
    · exact ⟨.configureParameter Parameter.new, fun hmem' ↦ absurd hmem' hmem⟩
  choose request hreq using hreq
  have hmeans : List.Forall₂ (Means H) paths (paths.map request) := by
    have hmap := forall₂_map (R := Means H) (f := id) (g := request) paths fun command hmem ↦ by
      obtain ⟨k, b, i, q, huses, hr, hcommand⟩ := hreq command hmem
      refine means_of_eq hcommand ?_
      rw [hr]
      have hb := (hrange k b _ _ huses).2.2
      exact isInt_of_range (Nat.le_refl (2 ^ 31)) (by omega) (by omega)
    rwa [List.map_id] at hmap
  refine ⟨_, sendCommands_of_means hmeans c, fun k b m p huses ↦ ?_⟩
  obtain ⟨hm, hp, -⟩ := hrange k b m p huses
  refine ⟨⟨m, hm⟩, ⟨p, hp⟩, rfl, rfl, ?_⟩
  rw [simplePath_meantBy]
  have hlast : lastWrite (Request.simplePath ⟨m, hm⟩ ⟨p, hp⟩) (paths.map request) =
      some (b : Int) := by
    apply lastWrite_eq
    · intro r hr u hu
      obtain ⟨command, hmem, rfl⟩ := List.mem_map.mp hr
      obtain ⟨k', b', i, q, huses', hr', -⟩ := hreq command hmem
      rw [hr', Request.simplePath] at hu
      split at hu
      · next heq =>
        obtain ⟨rfl, rfl⟩ := heq
        rw [hapart k b k' b' m p huses huses']
        exact hu
      · cases hu
    · intro u hu
      obtain ⟨a, cs, hroute, hstate, hcs, hc⟩ := huses
      obtain ⟨cs', hcs', hall⟩ := hin k b a hroute
      rw [hcs, Option.some.injEq] at hcs'
      subst hcs'
      have hmem := hall _ hc
      obtain ⟨k', b', i, q, huses', hr', hcommand⟩ := hreq _ hmem
      refine ⟨_, List.mem_map_of_mem hmem, ?_⟩
      rw [hr'] at hcommand ⊢
      have hargs := congrArg Command.argumentList hcommand
      simp only [Request.command, installSimplePath, Command.withArgument, List.cons.injEq,
        true_and, and_true] at hargs
      obtain ⟨hi, hb, hq⟩ := hargs
      have hi' := toString_natCast_inj hi
      have hb' := toString_natCast_inj hb
      have hq' := toString_natCast_inj hq
      rw [Request.simplePath, if_pos ⟨Fin.ext hi'.symm, Fin.ext hq'.symm⟩, ← hb']
      exact hu
  rw [hlast]
  rfl

/-- If the tables hold the executions and the slots of the edges are in range and different, the
deployment installs every route. -/
theorem chainRoutes_of_fit [RteHash H] {o : Objects} (ho : o.Created) {nfs : List Nat} {sfc : Sfc}
    (hsfc : Sfc.new o nfs = some sfc) {n : Nat} {core : Nat → Int} (hint : IsCChain sfc n core)
    (hfit : RoutesFit sfc n core) : ChainRoutes H sfc n core := by
  have h := wellFormed_of_new ho hsfc
  have hnext : ∀ j ∈ sfc.actionInstanceList, ∀ i, sfc.Depends i j →
      sfc.nfIdOf i = sfc.nfIdOf j ∨ sfc.nfIdOf i + 1 = sfc.nfIdOf j :=
    fun j hj i hdep ↦ nfIdOf_of_depends ho hsfc hj hdep
  obtain ⟨hsetupFits, ⟨hn, hne⟩, hused, hstateful, hplaced, hapart⟩ := hfit
  obtain ⟨setup, hsetup⟩ : ∃ setup, (uniformModel sfc n core).setupCommands = some setup :=
    (exists_setupCommands_iff ho hsfc hused).mpr ⟨hn, hne, hstateful⟩
  obtain ⟨paths, hpaths⟩ : ∃ paths, (uniformModel sfc n core).pathCommands = some paths := by
    apply (exists_pathCommands_iff h hused hn hnext).mpr
    intro s t i j hedge
    obtain ⟨q, p, hq, hp, -⟩ := hplaced s t i j hedge
    exact ⟨q, p, hq, hp⟩
  have hrange : ∀ k b m p, (uniformModel sfc n core).UsesSlot k b m p →
      m < STATE_NUM ∧ p < 10 ∧ b < 2 ^ 31 := by
    intro k b m p huses
    obtain ⟨s, t, i, j, x, q, hedge, hx, rfl, rfl, hq, rfl, hp⟩ :=
      (usesSlot_uniformModel_iff h hused hnext).mp huses
    obtain ⟨q', p', hq', hp', hlt⟩ := hplaced s t i j hedge
    rw [hp, Option.some.injEq] at hp'
    subst hp'
    obtain ⟨a, ha, hstate⟩ := Option.bind_eq_some_iff.mp hq
    have hlength := h.state_mem i (List.mem_of_getElem? hedge.source) a ha q hstate
    exact ⟨Nat.lt_of_lt_of_le (pos_lt hlength hx) hsetupFits.states, hlt, Nat.lt_of_lt_of_le
      (pos_lt (List.getElem?_eq_some_iff.mp hedge.target).1 hx) hint.positions⟩
  have hdifferent : ∀ k b k' b' m p, (uniformModel sfc n core).UsesSlot k b m p →
      (uniformModel sfc n core).UsesSlot k' b' m p → b = b' := by
    intro k b k' b' m p huses huses'
    obtain ⟨s, t, i, j, x, q, hedge, hx, rfl, rfl, hq, rfl, hp⟩ :=
      (usesSlot_uniformModel_iff h hused hnext).mp huses
    obtain ⟨s', t', i', j', x', q', hedge', hx', rfl, rfl, hq', hm, hp'⟩ :=
      (usesSlot_uniformModel_iff h hused hnext).mp huses'
    obtain ⟨rfl, rfl⟩ := (pos_inj hx hx').mp hm
    rw [hapart s t i j s' t' i' j' hedge hedge' (hq.trans hq'.symm) (hp.trans hp'.symm)]
  refine ⟨_, setup, paths, uniformDeployment_eq h hused, ?_, hpaths, ?_, hdifferent, ?_⟩
  · rw [deployment_eq, hsetup, hpaths]
    rfl
  · intro k b a hroute
    obtain ⟨s, t, i, j, x, hedge, hx, rfl, rfl, rfl⟩ := (route_uniformModel_iff h hused).mp hroute
    obtain ⟨q, p, hq, hp, -⟩ := hplaced s t i j hedge
    have huses : (uniformModel sfc n core).UsesSlot (s * n + x) (t * n + x) (q * n + x) p :=
      (usesSlot_uniformModel_iff h hused hnext).mpr
        ⟨s, t, i, j, x, q, hedge, hx, rfl, rfl, hq, rfl, hp⟩
    exact ⟨_, p, huses, hrange _ _ _ _ huses⟩
  · intro memory create
    obtain ⟨c, hc⟩ := (runs_setup_iff ho hsfc hused hn hne hint hsetup
      (configInit memory create)).mpr hsetupFits
    obtain ⟨c', hc', hslots⟩ := sendCommands_paths hpaths hrange hdifferent c
    exact ⟨c', (sendCommands_append_of_ok hc paths).trans hc', hslots⟩

/-- The routes of a chain are installed exactly when its states are used, its actions but the
system actions use a state, the tables of the runtime hold its executions, and the slots of its
edges are in range and different. -/
theorem chainRoutes_iff [RteHash H] (e : H) {o : Objects} (ho : o.Created) {nfs : List Nat}
    {sfc : Sfc} (hsfc : Sfc.new o nfs = some sfc) (n : Nat) (core : Nat → Int)
    (hint : IsCChain sfc n core) : ChainRoutes H sfc n core ↔ RoutesFit sfc n core := by
  have h := wellFormed_of_new ho hsfc
  have hnext : ∀ j ∈ sfc.actionInstanceList, ∀ i, sfc.Depends i j →
      sfc.nfIdOf i = sfc.nfIdOf j ∨ sfc.nfIdOf i + 1 = sfc.nfIdOf j :=
    fun j hj i hdep ↦ nfIdOf_of_depends ho hsfc hj hdep
  constructor
  · rintro ⟨d, setup, paths, hd, hdeploy, hpaths, hplaced, hapart, hholds⟩
    have hused : ∀ s ∈ sfc.stateInstanceList, s.actionInstanceList ≠ [] := by
      intro s hs hnil
      rw [uniformDeployment_eq_none hs hnil] at hd
      cases hd
    rw [uniformDeployment_eq h hused, Option.some.injEq] at hd
    subst hd
    rw [deployment_eq] at hdeploy
    obtain ⟨setup', hsetup, hdeploy⟩ := Option.bind_eq_some_iff.mp hdeploy
    obtain ⟨paths', hpaths', hdeploy⟩ := Option.bind_eq_some_iff.mp hdeploy
    obtain ⟨hn, hne, hstateful⟩ := (exists_setupCommands_iff ho hsfc hused).mp ⟨setup', hsetup⟩
    have hedges := (exists_pathCommands_iff h hused hn hnext).mp ⟨paths, hpaths⟩
    refine ⟨?_, ⟨hn, hne⟩, hused, hstateful, ?_, ?_⟩
    · -- the commands before the paths run, since all of them do
      rw [hpaths, Option.some.injEq] at hpaths'
      subst hpaths'
      have heq : setup' = setup := List.append_cancel_right (Option.some.inj hdeploy)
      subst heq
      obtain ⟨c', hrun, -⟩ := hholds (Config.zeroed e) fun _ ↦ e
      obtain ⟨c, hc, -⟩ := exists_of_sendCommands_append hrun
      exact (runs_setup_iff ho hsfc hused hn hne hint hsetup _).mp ⟨c, hc⟩
    · intro s t i j hedge
      obtain ⟨q, p, hq, hp⟩ := hedges s t i j hedge
      obtain ⟨m, p', huses, -, hp', -⟩ := hplaced _ _ _ ((route_uniformModel_iff h hused).mpr
        ⟨s, t, i, j, 0, hedge, hn, rfl, rfl, rfl⟩)
      obtain ⟨s', t', i', j', x, q', hedge', hx, hk, hb', -, -, hslot⟩ :=
        (usesSlot_uniformModel_iff h hused hnext).mp huses
      obtain ⟨rfl, rfl⟩ := (pos_inj hn hx).mp hk
      obtain ⟨rfl, -⟩ := (pos_inj hn hn).mp hb'
      have hi : i = i' := Option.some.inj (hedge.source.symm.trans hedge'.source)
      have hj : j = j' := Option.some.inj (hedge.target.symm.trans hedge'.target)
      subst hi hj
      rw [hp, Option.some.injEq] at hslot
      subst hslot
      exact ⟨q, p, hq, hp, hp'⟩
    · intro s t i j s' t' i' j' hedge hedge' hstate hslot
      obtain ⟨q, p, hq, hp⟩ := hedges s t i j hedge
      have huses : (uniformModel sfc n core).UsesSlot (s * n + 0) (t * n + 0) (q * n + 0) p :=
        (usesSlot_uniformModel_iff h hused hnext).mpr
          ⟨s, t, i, j, 0, q, hedge, hn, rfl, rfl, hq, rfl, hp⟩
      have huses' : (uniformModel sfc n core).UsesSlot (s' * n + 0) (t' * n + 0) (q * n + 0) p :=
        (usesSlot_uniformModel_iff h hused hnext).mpr
          ⟨s', t', i', j', 0, q, hedge', hn, rfl, rfl, hstate ▸ hq, rfl, hslot ▸ hp⟩
      exact ((pos_inj hn hn).mp (hapart _ _ _ _ _ _ huses huses')).1
  · exact chainRoutes_of_fit ho hsfc hint

end

/-! ### Examples -/

/-- A network function where two actions follow `packet_in` and precede `packet_out`. -/
def fork : NfFile where
  name := "fork"
  state := [⟨"state_left", ["private"], some 0⟩, ⟨"state_right", ["private"], some 1⟩]
  action :=
    [⟨"packet_in", none, none, none⟩,
      ⟨"left", some "state_left", some 3, some ["data_operation"]⟩,
      ⟨"right", some "state_right", some 4, some ["data_operation"]⟩,
      ⟨"packet_out", none, none, none⟩]
  edges :=
    [("left", ["packet_in"]), ("right", ["packet_in"]), ("packet_out", ["left", "right"])]

/-- What the registry holds after it has read the file. -/
def forkRegistry : NfRegistry := (NfRegistry.new.readFile fork).get (by decide)

/-- The chain of two instances of the network function. -/
def forkSfc : Sfc := (Sfc.new forkRegistry.objects [0, 0]).get (by decide)

/-- The deployment of one execution of every action of this chain. -/
def forkDeployment : DeploymentModel := (uniformDeployment forkSfc 1 fun _ ↦ 1).get (by decide)

/-- The routes of the first left action to the second left and to the second right one use the
same slot. -/
private theorem fork_usesSlot :
    forkDeployment.UsesSlot 1 3 0 2 ∧ forkDeployment.UsesSlot 1 4 0 2 := by
  have hsource : forkDeployment.actionInstanceExecutionList[1]? =
      some ⟨0, 0, 0, some 0, [0], 1⟩ := by decide
  have hleft : forkDeployment.actionInstanceExecutionList[3]? =
      some ⟨3, 1, 0, some 2, [1, 2], 1⟩ := by decide
  have hright : forkDeployment.actionInstanceExecutionList[4]? =
      some ⟨4, 1, 0, some 3, [1, 2], 1⟩ := by decide
  have hsends : ∀ action ∈ forkDeployment.actionOf ⟨0, 0, 0, some 0, [0], 1⟩,
      action.isPacketIn = false := by decide
  exact ⟨⟨_, [installSimplePath 0 3 2], ⟨hsource, ⟨_, hleft, by decide⟩, hsends⟩, rfl,
      by decide, by decide⟩,
    ⟨_, [installSimplePath 0 4 2], ⟨hsource, ⟨_, hright, by decide⟩, hsends⟩, rfl,
      by decide, by decide⟩⟩

/-- In the chain of two instances of the network function with one execution of every action, the
route of the first left action to the second right one overwrites that to the second left one. -/
theorem fork_overwritten : forkRegistry.objects.Created ∧
    Sfc.new forkRegistry.objects [0, 0] = some forkSfc ∧
    ¬ ChainRoutes (List Ipv4FiveTuple) forkSfc 1 fun _ ↦ 1 := by
  have hread : NfRegistry.new.readFile fork = some forkRegistry := (Option.some_get _).symm
  refine ⟨(NfRegistry.new_valid.readFile hread).created, (Option.some_get _).symm, ?_⟩
  rintro ⟨d, setup, paths, hd, -, -, -, hapart, -⟩
  have hfork : uniformDeployment forkSfc 1 (fun _ ↦ 1) = some forkDeployment :=
    (Option.some_get _).symm
  rw [hfork, Option.some.injEq] at hd
  subst hd
  exact absurd (hapart _ _ _ _ _ _ fork_usesSlot.1 fork_usesSlot.2) (by decide)

/-- The edges of the chain of the generic decomposed network function. -/
private def gdEdges : List (Nat × Nat × Nat × Nat) :=
  [(1, 2, 0, 2), (1, 3, 0, 3), (2, 3, 2, 3), (3, 4, 3, 4)]

private theorem mem_gdEdges {s t i j : Nat} (h : gdSfc.Edge s t i j) :
    (s, t, i, j) ∈ gdEdges := by
  have hs := (List.getElem?_eq_some_iff.mp h.source).1
  have ht := (List.getElem?_eq_some_iff.mp h.target).1
  have hall : ∀ s ∈ List.range 5, ∀ t ∈ List.range 5, ∀ i ∈ gdSfc.actionInstanceList,
      ∀ j ∈ gdSfc.actionInstanceList, gdSfc.Edge s t i j → (s, t, i, j) ∈ gdEdges := by decide
  exact hall s (List.mem_range.mpr hs) t (List.mem_range.mpr ht) i
    (List.mem_of_getElem? h.source) j (List.mem_of_getElem? h.target) h

/-- The tables of the runtime hold the chain of the generic decomposed network function, and the
slots of its edges are in range and different, if the entries fit and the cores are those of the
runtime. -/
theorem routesFit_gd {n : Nat} {core : Nat → Int} (hn : 0 < n) (hs : 5 * n ≤ ACTION_TABLE_SIZE)
    (hcore : ∀ k, k < 5 * n → InTable 48 (core k)) : RoutesFit gdSfc n core := by
  have hpos {s x i : Nat} (h : gdSfc.actionInstanceList[s]? = some i) (hx : x < n) :
      s * n + x < 5 * n := pos_lt (List.getElem?_eq_some_iff.mp h).1 hx
  refine ⟨⟨?_, ?_, ?_, ?_, ?_⟩, ⟨hn, by decide⟩, by decide, ?_, ?_, ?_⟩
  · show 2 * n ≤ 100
    have hs' : 5 * n ≤ 200 := hs
    omega
  · intro s i action h _ _
    have ht : s < 5 := (List.getElem?_eq_some_iff.mp h).1
    exact (Nat.mul_le_mul_right n ht).trans hs
  · have hall : ∀ i ∈ gdSfc.actionInstanceList, ∀ action ∈ gdSfc.actionOf i,
        action.name ∉ ["packet_in", "packet_out", "drop"] →
        InTable 200 action.registrationId := by decide
    exact hall
  · exact fun s i action x h _ _ hx ↦ hcore _ (hpos h hx)
  · exact fun i hi _ ↦ hcore i (by omega)
  · have hall : ∀ i ∈ gdSfc.actionInstanceList, ∀ a ∈ gdSfc.instances[i]?,
        ∀ act ∈ gdSfc.objects.actions[a.action]?,
        act.name ∉ ["packet_in", "packet_out", "drop"] → act.state ≠ none := by decide
    exact fun i hi a ha act hact ↦ hall i hi a ha act hact
  · have hall : ∀ e ∈ gdEdges, ∃ q ∈ gdSfc.stateInstanceOf e.2.2.1,
        ∃ p ∈ gdSfc.pathSlot e.2.2.1 e.2.2.2, p < 10 := by decide
    intro s t i j h
    obtain ⟨q, hq, p, hp, hp'⟩ := hall _ (mem_gdEdges h)
    exact ⟨q, p, hq, hp, hp'⟩
  · have hall : ∀ e ∈ gdEdges, ∀ e' ∈ gdEdges,
        gdSfc.stateInstanceOf e.2.2.1 = gdSfc.stateInstanceOf e'.2.2.1 →
        gdSfc.pathSlot e.2.2.1 e.2.2.2 = gdSfc.pathSlot e'.2.2.1 e'.2.2.2 →
        e.2.1 = e'.2.1 := by decide
    exact fun s t i j s' t' i' j' h h' ↦ hall _ (mem_gdEdges h) _ (mem_gdEdges h')

/-- The numbers of the chain are values of a C `int`. -/
theorem isCChain_gd {n : Nat} {core : Nat → Int} (hs : 5 * n ≤ 2 ^ 31)
    (hcore : ∀ k, k < 5 * n → IsInt (core k)) : IsCChain gdSfc n core := by
  have hstates : ∀ s ∈ gdSfc.objects.states, -(2 ^ 31) ≤ s.registrationId ∧
      s.registrationId < 2 ^ 31 := by decide
  have hactions : ∀ a ∈ gdSfc.objects.actions, -(2 ^ 31) ≤ a.registrationId ∧
      a.registrationId < 2 ^ 31 := by decide
  exact ⟨hs, hcore, hstates, hactions⟩

/-- The routes of two executions of every action of the generic decomposed network function are
installed. -/
theorem gd_chainRoutes : ChainRoutes (List Ipv4FiveTuple) gdSfc 2 fun k ↦ k := by
  have hcore : ∀ k : Nat, k < 5 * 2 → InTable 48 (k : Int) := fun k hk ↦ ⟨by omega, by omega⟩
  have hint : ∀ k : Nat, k < 5 * 2 → IsInt (k : Int) := fun k hk ↦ ⟨by omega, by omega⟩
  exact (chainRoutes_iff [] gdRegistry_created new_gd 2 _ (isCChain_gd (by decide) hint)).mpr
    (routesFit_gd (by decide) (by decide) hcore)

end Nflambda.Deploy
