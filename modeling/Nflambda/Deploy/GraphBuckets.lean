import Nflambda.Deploy.Installed
import Nflambda.Deploy.Served
import Nflambda.Director.Buckets

/-!
# The buckets of a plan

Library `Deploy`. When the ranges of buckets that `Nfunctor_graph`,
`src/director/em/__init__.py:217–248`, computes serve every bucket, once the
commands of `src/RL_agent/rl_orchestrator.ipynb:315–331` for them are executed.
-/

namespace Nflambda.Deploy

open Nflambda.Base Nflambda.Runtime Nflambda.Director

variable {H : Type}

/-- An entry on the core that its execution is assigned to. -/
def onCore (core : Nat → Core) (a : ActionRuntime) : ActionRuntime :=
  { a with coreId := ((core a.executionId).val : Int) }

/-- The `packet_in` entries, assigned to cores, with their positions. -/
def packetInEntries (core : Nat → Core) (g : NfunctorGraph) : List (ActionRuntime × Nat) :=
  (g.actions.map (onCore core)).zipIdx.filter fun i ↦ i.1.action.IsPacketIn

/-- The commands for the buckets of a plan, `rl_orchestrator.ipynb:315–331`. -/
def graphCommands (core : Nat → Core) (g : NfunctorGraph) : List Command :=
  (packetInEntries core g).flatMap installSecond

/-- The range of buckets of a `packet_in` entry. -/
def rangeOf (core : Nat → Core) (a : ActionRuntime) : BucketRange :=
  ⟨a.startingBucket, a.numBucket, core a.executionId, [a.nextAction]⟩

/-- The ranges of buckets of a plan. -/
def graphRanges (core : Nat → Core) (g : NfunctorGraph) : List BucketRange :=
  (g.actions.filter fun a ↦ a.action.IsPacketIn).map (rangeOf core)

/-- The commands for the buckets of the plan of `nf` serve every bucket of a fresh runtime. -/
def GraphServes (H : Type) [RteHash H] (nf : Nf) (n : Nat) (core : Nat → Core) : Prop :=
  ∃ g, nfunctorGraph nf n = some g ∧
    ∀ (memory : Config H) (create : Fin STATE_NUM → H),
      ∃ c', sendCommands (configInit memory create) (graphCommands core g) = .ok c' ∧
        Served (graphRanges core g) c'

private theorem coreIndex_onCore (core : Nat → Core) (a : ActionRuntime) :
    coreIndex (onCore core a) = core a.executionId := by
  change Fin.ofNat 48 ((core a.executionId).val : Int).toNat = core a.executionId
  rw [Int.toNat_natCast]
  exact Fin.ofNat_val_eq_self _

private theorem mem_packetInEntries {core : Nat → Core} {g : NfunctorGraph}
    {i : ActionRuntime × Nat} :
    i ∈ packetInEntries core g ↔
      ∃ a, g.actions[i.2]? = some a ∧ a.action.IsPacketIn ∧ i.1 = onCore core a := by
  unfold packetInEntries
  rw [List.mem_filter, List.mem_zipIdx_iff_getElem?, List.getElem?_map, Option.map_eq_some_iff,
    decide_eq_true_iff]
  constructor
  · rintro ⟨⟨a, ha, hi⟩, hin⟩
    rw [← hi] at hin
    exact ⟨a, ha, hin, hi.symm⟩
  · rintro ⟨a, ha, hin, hi⟩
    rw [hi]
    exact ⟨⟨a, ha, rfl⟩, hin⟩

private theorem secondRequests_onCore {core : Nat → Core} {a : ActionRuntime} (k : Nat)
    (hin : a.action.IsPacketIn) :
    secondRequests (onCore core a, k) =
      [.configureRssReta a.startingBucket a.numBucket (core a.executionId) k,
        .workerFirstAction (core a.executionId) a.nextAction a.startingBucket a.numBucket] := by
  have hname : (onCore core a, k).1.action.action.name = "packet_in" := hin
  unfold secondRequests
  rw [if_pos hname, coreIndex_onCore]
  rfl

private theorem mem_graphRanges {core : Nat → Core} {g : NfunctorGraph} {r : BucketRange} :
    r ∈ graphRanges core g ↔ ∃ (k : Nat) (a : ActionRuntime), g.actions[k]? = some a ∧
      a.action.IsPacketIn ∧ rangeOf core a = r := by
  unfold graphRanges
  rw [List.mem_map]
  constructor
  · rintro ⟨a, ha, hr⟩
    obtain ⟨hm, hin⟩ := List.mem_filter.mp ha
    obtain ⟨k, hk⟩ := List.mem_iff_getElem?.mp hm
    exact ⟨k, a, hk, by simpa using hin, hr⟩
  · rintro ⟨k, a, hk, hin, hr⟩
    exact ⟨a, List.mem_filter.mpr ⟨List.mem_of_getElem? hk, by simpa using hin⟩, hr⟩

/-- The requests of a plan are those for its ranges. -/
private theorem deals_graph (core : Nat → Core) (g : NfunctorGraph) :
    Deals (graphRanges core g) ((packetInEntries core g).flatMap secondRequests) := by
  have hrequest {q : Request} (h : q ∈ (packetInEntries core g).flatMap secondRequests) :
      ∃ (k : Nat) (a : ActionRuntime), g.actions[k]? = some a ∧ a.action.IsPacketIn ∧
        (q = .configureRssReta a.startingBucket a.numBucket (core a.executionId) k ∨
          q = .workerFirstAction (core a.executionId) a.nextAction a.startingBucket
            a.numBucket) := by
    obtain ⟨⟨b, k⟩, hi, hq⟩ := List.mem_flatMap.mp h
    obtain ⟨a, ha, hin, hb⟩ := mem_packetInEntries.mp hi
    dsimp only at ha hb
    rw [hb, secondRequests_onCore k hin, List.mem_pair] at hq
    exact ⟨k, a, ha, hin, hq⟩
  have hmem {k : Nat} {a : ActionRuntime} (ha : g.actions[k]? = some a)
      (hin : a.action.IsPacketIn) {q : Request} (hq : q ∈ secondRequests (onCore core a, k)) :
      q ∈ (packetInEntries core g).flatMap secondRequests :=
    List.mem_flatMap.mpr ⟨(onCore core a, k), mem_packetInEntries.mpr ⟨a, ha, hin, rfl⟩, hq⟩
  refine ⟨?_, ?_, ?_, ?_⟩
  · intro s n w x h
    obtain ⟨k, a, ha, hin, hq | hq⟩ := hrequest h
    · cases hq
      exact ⟨rangeOf core a, mem_graphRanges.mpr ⟨k, a, ha, hin, rfl⟩, rfl, rfl, rfl⟩
    · cases hq
  · intro r hr
    obtain ⟨k, a, ha, hin, rfl⟩ := mem_graphRanges.mp hr
    exact ⟨k, hmem ha hin (by rw [secondRequests_onCore k hin]; exact List.mem_cons_self)⟩
  · intro w x s n h
    obtain ⟨k, a, ha, hin, hq | hq⟩ := hrequest h
    · cases hq
    · cases hq
      exact ⟨rangeOf core a, mem_graphRanges.mpr ⟨k, a, ha, hin, rfl⟩, rfl, rfl, rfl,
        List.mem_singleton_self _⟩
  · intro r hr
    obtain ⟨k, a, ha, hin, rfl⟩ := mem_graphRanges.mp hr
    refine ⟨a.nextAction, hmem ha hin ?_⟩
    rw [secondRequests_onCore k hin]
    exact List.mem_cons_of_mem _ List.mem_cons_self

/-- The number of executions divides the number of buckets, and the module joins the `packet_in`
to an nfunctor of a network function with a state. -/
structure Servable (nf : Nf) (n : Nat) : Prop where
  divides : n ∣ RSS_I_TABLE_SIZE
  next : ∃ f ∈ nf.nfunctorList, f.IsPacketIn ∧ ∃ f' ∈ nf.nfunctorList,
    inRelationshipList nfunctorRelationshipList f.action f'.action ≠ -1
  state : ∃ f ∈ nf.nfunctorList, f.state ≠ none

/-- The requests of a plan are meant by its commands. -/
private theorem means_graph {nf : Nf} {n : Nat} {g : NfunctorGraph} (core : Nat → Core)
    (h : nfunctorGraph nf n = some g) (h1 : packetIns nf.nfunctorList = 1)
    (hd : n ∣ RSS_I_TABLE_SIZE)
    (hint : n * (distinctNfunctors nf.nfunctorList).length ≤ 2 ^ 31) :
    List.Forall₂ (Means H) (graphCommands core g)
      ((packetInEntries core g).flatMap secondRequests) := by
  refine forall₂_flatMap _ ?_
  rintro ⟨b, k⟩ hi
  obtain ⟨a, ha, hin, rfl⟩ := mem_packetInEntries.mp hi
  have hm := List.mem_of_getElem? ha
  obtain ⟨hk, -⟩ := List.getElem?_eq_some_iff.mp ha
  obtain ⟨hs, hnum⟩ := buckets_nfunctorGraph h h1 a hm hin
  obtain ⟨e, he, hmem, hbare⟩ := exists_of_mem_actions h hm
  have hexec : a.executionId = e := congrArg ActionRuntime.executionId hbare
  have hnext : a.nextAction = nextActionOf nf.nfunctorList e a.action :=
    congrArg ActionRuntime.nextAction hbare
  obtain ⟨hlow, hhigh⟩ := nextActionOf_range he a.action (l := nf.nfunctorList)
  rw [length_nfunctorGraph h] at hk
  refine means_buckets hin ⟨Int.natCast_nonneg _, ?_⟩ ?_ ?_ (Nat.lt_of_lt_of_le hk hint)
  · have hc := (core a.executionId).isLt
    change ((core a.executionId).val : Int) < 48
    omega
  · change a.startingBucket + a.numBucket ≤ RSS_I_TABLE_SIZE
    rw [hs, hnum, hexec]
    calc e * (512 / n) + 512 / n = (e + 1) * (512 / n) := (Nat.succ_mul _ _).symm
      _ ≤ n * (512 / n) := Nat.mul_le_mul_right _ he
      _ = RSS_I_TABLE_SIZE := Nat.mul_div_cancel' hd
  · change IsInt a.nextAction
    rw [hnext]
    constructor <;> omega

/-- The commands for the buckets of a plan serve every bucket if and only if the number of
executions divides the number of buckets and the `packet_in` has a next action. -/
theorem graphServes_iff [RteHash H] (h : H) {nf : Nf} {n : Nat} {core : Nat → Core} (hn : 0 < n)
    (h1 : packetIns nf.nfunctorList = 1) (hodd : ∀ e, e < n → (core e).val % 2 = 1)
    (hint : n ∣ RSS_I_TABLE_SIZE → n * (distinctNfunctors nf.nfunctorList).length ≤ 2 ^ 31) :
    GraphServes H nf n core ↔ Servable nf n := by
  constructor
  · rintro ⟨g, hg, hserves⟩
    obtain ⟨c', -, hc'⟩ := hserves (Config.zeroed h) fun _ ↦ h
    obtain ⟨f, hf, hin, hfilter⟩ := filter_nfunctorGraph hg h1
    have hranges : graphRanges core g =
        (List.range n).map (rangeOf core ∘ packetInEntry nf.nfunctorList n f) := by
      rw [graphRanges, hfilter, List.map_map]
    have hdiv : n ∣ RSS_I_TABLE_SIZE := by
      have hsize : RSS_I_TABLE_SIZE ≤ (graphRanges core g).length * (512 / n) :=
          size_le_of_covers (by
        intro r hr
        rw [hranges, List.mem_map] at hr
        obtain ⟨e, -, rfl⟩ := hr
        exact Int.le_refl _) fun b ↦ by
          obtain ⟨i, r, hr, hb, -⟩ := hc' b
          exact ⟨i, r, hr, hb.covers⟩
      rw [hranges, List.length_map, List.length_range] at hsize
      exact ⟨512 / n, Nat.le_antisymm hsize (Nat.mul_div_le 512 n)⟩
    have hnext : ∃ f' ∈ nf.nfunctorList,
        inRelationshipList nfunctorRelationshipList f.action f'.action ≠ -1 := by
      obtain ⟨i, r, hr, hb, -⟩ := hc' 0
      rw [hranges] at hr
      obtain ⟨e, -, rfl⟩ := List.mem_map.mp (List.mem_of_getElem? hr)
      have hfirst := List.mem_singleton.mp hb.first
      rw [← nextActionOf_nonneg_iff e hf hin]
      have hset := hb.isSet
      rw [hfirst] at hset
      exact hset
    obtain ⟨f', hf', hj⟩ := hnext
    exact ⟨hdiv, ⟨f, hf, hin, f', hf', hj⟩,
      (exists_nfunctorGraph_iff hn).mp ⟨g, hg⟩ f hf f' hf' hj⟩
  · rintro ⟨hdiv, hnext, hstate⟩
    obtain ⟨g, hg⟩ : ∃ g, nfunctorGraph nf n = some g :=
      (exists_nfunctorGraph_iff hn).mpr fun _ _ _ _ _ ↦ hstate
    refine ⟨g, hg, ?_⟩
    intro memory create
    obtain ⟨f, hf, hin, hfilter⟩ := filter_nfunctorGraph hg h1
    have hranges : graphRanges core g =
        (List.range n).map (rangeOf core ∘ packetInEntry nf.nfunctorList n f) := by
      rw [graphRanges, hfilter, List.map_map]
    refine ⟨_, sendCommands_of_means (means_graph core hg h1 hdiv (hint hdiv)) _,
      served_of_deals (deals_graph core g) ?_ ?_ ?_ ?_⟩
    · rw [hranges]
      exact covers_once (m := 512 / n) (fun i _ ↦ ⟨rfl, rfl⟩) (Nat.mul_div_cancel' hdiv)
    · rw [hranges]
      intro r hr a ha
      obtain ⟨e, -, rfl⟩ := List.mem_map.mp hr
      rw [List.mem_singleton.mp ha]
      obtain ⟨f', hf', hin', hj⟩ := hnext
      rw [eq_of_isPacketIn h1 hf hin hf' hin'] at hj
      exact (nextActionOf_nonneg_iff e hf hin).mpr hj
    · rw [hranges]
      intro r hr
      obtain ⟨e, he, rfl⟩ := List.mem_map.mp hr
      exact hodd e (List.mem_range.mp he)
    · exact fun v w hv hw ↦ queue_odd_inj memory create v w hv hw

end Nflambda.Deploy
