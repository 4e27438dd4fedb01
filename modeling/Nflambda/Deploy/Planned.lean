import Nflambda.Base.Loops
import Nflambda.Deploy.Installed
import Nflambda.Director.Buckets

/-!
# Planned tables can be deployed

Library `Deploy`. The tables that `Nfunctor_graph`,
`src/director/em/__init__.py:209–251`, computes for a network function with one
`packet_in` fit the runtime when they are not longer than its tables, and
`update_deployment`, `src/RL_agent/rl_orchestrator.ipynb:278–296`, places them on
every split of the cores.
-/

namespace Nflambda.Deploy

open Nflambda.Base Nflambda.Runtime Nflambda.Director

/-- A state index is `-1` or a position of the state table. -/
theorem stateIdOf_range {l : List Nfunctor} {e n : Nat} (he : e < n) {f : Nfunctor}
    (hf : f ∈ l) :
    -1 ≤ stateIdOf l e f ∧ stateIdOf l e f < ((n * (stateList l).length : Nat) : Int) := by
  unfold stateIdOf stateIdFrom
  cases hs : f.state with
  | none => exact ⟨Int.le_refl _, by dsimp only; omega⟩
  | some s =>
    have hlt := pos_lt he (List.idxOf_lt_length_of_mem (mem_stateList hf hs))
    dsimp only
    omega

private theorem pathOf_range {l : List Nfunctor} {e n : Nat} (he : e < n) (x : State) (p : Fin 10) :
    -1 ≤ pathOf l n e x p ∧
      pathOf l n e x p < ((n * (distinctNfunctors l).length : Nat) : Int) := by
  unfold pathOf
  cases hf : lastJoined l n e x p with
  | none => exact ⟨Int.le_refl _, by simp only [Option.map_none, Option.getD_none]; omega⟩
  | some f =>
    have hmem : f ∈ distinctNfunctors l := List.mem_eraseDups.mpr (mem_of_lastJoined f hf)
    have hlt := pos_lt he (List.idxOf_lt_length_of_mem hmem)
    change -1 ≤ indexIn l e f ∧ indexIn l e f < _
    unfold indexIn
    omega

private theorem mul_succ_le {n e : Nat} (he : e < n) :
    e * (512 / n) + 512 / n ≤ RSS_I_TABLE_SIZE :=
  calc e * (512 / n) + 512 / n = (e + 1) * (512 / n) := (Nat.succ_mul _ _).symm
    _ ≤ n * (512 / n) := Nat.mul_le_mul_right _ he
    _ ≤ RSS_I_TABLE_SIZE := Nat.mul_div_le 512 n

/-- The ranges of buckets of a planned graph are disjoint. -/
private theorem disjoint_nfunctorGraph {nf : Nf} {n : Nat} {g : NfunctorGraph}
    (hg : nfunctorGraph nf n = some g) (h1 : packetIns nf.nfunctorList = 1) :
    g.actions.Pairwise BucketsDisjoint := by
  obtain ⟨f, -, -, hfilter⟩ := filter_nfunctorGraph hg h1
  have hpair : ((List.range n).map (packetInEntry nf.nfunctorList n f)).Pairwise
      BucketsDisjoint := by
    rw [List.pairwise_map]
    refine List.pairwise_lt_range.imp fun {a b} hab _ _ ↦ Or.inl ?_
    calc a * (512 / n) + 512 / n = (a + 1) * (512 / n) := (Nat.succ_mul _ _).symm
      _ ≤ b * (512 / n) := Nat.mul_le_mul_right _ hab
  rw [← hfilter, List.pairwise_filter] at hpair
  refine hpair.imp fun {a b} hab ha hb ↦ ?_
  exact hab (decide_eq_true ha) (decide_eq_true hb) ha hb

/-- The tables that the planner computes for `n` executions of a network function are not longer
than those of the runtime, its actions are in the registry, and its executions share the buckets. -/
structure TablesFit (nf : Nf) (n : Nat) : Prop where
  numStates : n * (stateList nf.nfunctorList).length ≤ STATE_NUM
  numActions : n * (distinctNfunctors nf.nfunctorList).length ≤ ACTION_TABLE_SIZE
  registration : ∀ f ∈ nf.nfunctorList, 0 ≤ f.action.registrationId ∧ f.action.registrationId < 200
  packetIn : packetIns nf.nfunctorList ≤ 1

/-- The tables of a planned graph can be deployed if they fit the runtime. -/
theorem deployable_nfunctorGraph {nf : Nf} {n : Nat} {g : NfunctorGraph}
    (hg : nfunctorGraph nf n = some g) (h : TablesFit nf n) : Deployable g.states g.actions := by
  have hs' : n * (stateList nf.nfunctorList).length ≤ 100 := h.numStates
  have ha' : n * (distinctNfunctors nf.nfunctorList).length ≤ 200 := h.numActions
  have hint {i : Int} {m : Nat} (h : -1 ≤ i ∧ i < (m : Int)) (hm : m ≤ 200) : IsInt i := by
    constructor <;> omega
  refine ⟨?_, ?_, ?_, ?_, ?_, ?_, ?_⟩
  · rw [states_nfunctorGraph hg, length_grid]
    exact h.numStates
  · rw [length_nfunctorGraph hg]
    exact h.numActions
  · intro a hm
    obtain ⟨e, he, hmem, -⟩ := exists_of_mem_actions hg hm
    exact h.registration a.action hmem
  · intro a hm
    obtain ⟨e, he, hmem, hbare⟩ := exists_of_mem_actions hg hm
    have hid : a.stateId = stateIdOf nf.nfunctorList e a.action :=
      congrArg ActionRuntime.stateId hbare
    rw [hid]
    exact hint (stateIdOf_range he hmem) (by omega)
  · intro a hm
    obtain ⟨e, he, hmem, hbare⟩ := exists_of_mem_actions hg hm
    have hnext : a.nextAction = nextActionOf nf.nfunctorList e a.action :=
      congrArg ActionRuntime.nextAction hbare
    rw [hnext]
    exact hint (nextActionOf_range he a.action) ha'
  · intro s hm p
    rw [states_nfunctorGraph hg, mem_grid] at hm
    obtain ⟨e, he, x, -, rfl⟩ := hm
    exact hint (pathOf_range he x p) ha'
  · intro a hm hin
    obtain ⟨e, he, hmem, hbare⟩ := exists_of_mem_actions hg hm
    have hpos : 0 < packetIns nf.nfunctorList :=
      List.countP_pos_iff.mpr ⟨a.action, hmem, decide_eq_true hin⟩
    have hone : packetIns nf.nfunctorList = 1 := by
      have hle := h.packetIn
      omega
    obtain ⟨hstart, hnum⟩ := buckets_nfunctorGraph hg hone a hm hin
    have hexec : a.executionId = e := congrArg ActionRuntime.executionId hbare
    rw [hstart, hnum, hexec]
    exact mul_succ_le he

/-- The tables of a planned graph with one `packet_in` fit the runtime if they are not longer than
its tables. -/
theorem fits_nfunctorGraph {nf : Nf} {n : Nat} {g : NfunctorGraph}
    (hg : nfunctorGraph nf n = some g) (h1 : packetIns nf.nfunctorList = 1)
    (hs : n * (stateList nf.nfunctorList).length ≤ STATE_NUM)
    (ha : n * (distinctNfunctors nf.nfunctorList).length ≤ ACTION_TABLE_SIZE)
    (hr : ∀ f ∈ nf.nfunctorList, 0 ≤ f.action.registrationId ∧ f.action.registrationId < 200) :
    Fits g.states g.actions :=
  ⟨deployable_nfunctorGraph hg ⟨hs, ha, hr, Nat.le_of_eq h1⟩, disjoint_nfunctorGraph hg h1⟩

private theorem exists_coreOf {cores : List Int} {count : Int} (hpos : 0 < count)
    (hlen : (cores.length : Int) = count) (executionId : Nat) :
    ∃ c, coreOf cores executionId count = some c := by
  have hne : ¬ count = 0 := by omega
  have hmod := Int.fmod_nonneg_of_pos (executionId : Int) hpos
  have hlt := Int.fmod_lt_of_pos (executionId : Int) hpos
  have hidx : (Int.fmod executionId count).toNat < cores.length := by omega
  unfold coreOf
  rw [if_neg hne, ← Int.toNat_of_nonneg hmod, pyIdx?_natCast _ hidx]
  exact ⟨_, rfl⟩

/-- Every entry is placed if there are data cores and control cores. -/
theorem exists_place {numExecutionCore : Int} (h1 : 1 ≤ numExecutionCore)
    (h2 : numExecutionCore ≤ 23) (actions : List ActionRuntime) :
    ∃ placed, place numExecutionCore actions = some placed := by
  have hcore (a : ActionRuntime) :
      ∃ c, coreFor numExecutionCore a.isData a.executionId = some c := by
    unfold coreFor
    dsimp only
    split
    · apply exists_coreOf (by omega)
      have hlen : (availableCoresData (24 - numExecutionCore)).length =
          (24 - numExecutionCore).toNat := by simp [availableCoresData]
      omega
    · apply exists_coreOf (by omega)
      have hlen : (availableCoresControl numExecutionCore (24 - numExecutionCore)).length =
          numExecutionCore.toNat := by simp [availableCoresControl]
      omega
  choose core hcore using hcore
  refine ⟨actions.map fun a ↦ { a with coreId := core a }, ?_⟩
  exact mapM_eq_some fun a _ ↦ by rw [placeEntry, hcore a]; rfl

/-- What the planner determines of an entry, but for its buckets. -/
def planned (a : ActionRuntime) : Nfunctor × Nat × Int × Int :=
  (a.action, a.executionId, a.stateId, a.nextAction)

/-- The placed entries in closed form. -/
theorem map_planned {nf : Nf} {n : Nat} {g : NfunctorGraph} (hg : nfunctorGraph nf n = some g)
    {placed : List ActionRuntime}
    (h : placed.map ActionRuntime.unplaced = g.actions.map ActionRuntime.unplaced) :
    placed.map planned = grid n (distinctNfunctors nf.nfunctorList) fun e f ↦
      (f, e, stateIdOf nf.nfunctorList e f, nextActionOf nf.nfunctorList e f) :=
  calc placed.map planned
      = (placed.map ActionRuntime.unplaced).map planned := by rw [List.map_map]; rfl
    _ = (g.actions.map ActionRuntime.unplaced).map planned := by rw [h]
    _ = (g.actions.map ActionRuntime.bare).map planned := by rw [List.map_map, List.map_map]; rfl
    _ = _ := by
      rw [actions_nfunctorGraph hg]
      unfold grid
      rw [List.map_flatMap]
      simp only [List.map_map]
      rfl

/-- The parameters stay C integers when one of them is set to a C integer. -/
theorem isInt_set {p : Parameter} (hp : ∀ e ∈ p.d, IsInt e.2) {v : Int} (hv : IsInt v)
    (key : String) : ∀ e ∈ (p.set key v).d, IsInt e.2 := by
  intro e he
  obtain ⟨e', he', rfl⟩ := List.mem_map.mp he
  dsimp only
  split
  · exact hv
  · exact hp e' he'

end Nflambda.Deploy
