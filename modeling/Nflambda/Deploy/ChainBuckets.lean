import Nflambda.Base.Loops
import Nflambda.Chain.GenericDecomposed
import Nflambda.Chain.Platform
import Nflambda.Deploy.GraphBuckets

/-!
# The buckets of a scaled chain

Library `Deploy`. When the ranges of buckets that `NFlambda.deployment`,
`src/director/nflambda/platform.py:192–210`, computes serve every bucket. The
starts are sums of a fractional quotient, sent as text, of which `atoi` keeps the
integer part.
-/

namespace Nflambda.Deploy

open Nflambda.Base Nflambda.Runtime Nflambda.Director Nflambda.Chain

variable {H : Type}

/-- The range of buckets of a `packet_in` execution, as the commands for it are read. -/
def chainRange (d : DeploymentModel) (n : Nat) (core : Nat → Core) (i : Nat) : BucketRange :=
  ⟨atoi (toString (startingBucket n i)), ⌊numBuckets n⌋, core i,
    (d.dependents i).map fun (k : Nat) ↦ (k : Int)⟩

/-- The ranges of buckets of a deployment. -/
def chainRanges (d : DeploymentModel) (n : Nat) (core : Nat → Core) : List BucketRange :=
  (List.range n).map (chainRange d n core)

/-- The commands for the buckets of a deployment serve every bucket of a fresh runtime. -/
def ChainServes (H : Type) [RteHash H] (d : DeploymentModel) (n : Nat) (core : Nat → Core) :
    Prop :=
  ∃ commands, d.bucketCommands n = some commands ∧
    ∀ (memory : Config H) (create : Fin STATE_NUM → H),
      ∃ c', sendCommands (configInit memory create) commands = .ok c' ∧
        Served (chainRanges d n core) c'

/-- The first `n` executions exist and are placed on cores. -/
structure PlacedOn (d : DeploymentModel) (n : Nat) (core : Nat → Core) : Prop where
  exists_execution : n ≤ d.actionInstanceExecutionList.length
  placed : ∀ i, i < n → d.placementFunction i = some ((core i).val : Int)

theorem floor_numBuckets_le {n : Nat} (hn : 0 < n) :
    ⌊numBuckets n⌋ ≤ ((512 / n : Nat) : Int) :=
  floor_toBinary64_div_le hn (by decide) (by decide)

theorem numBuckets_eq {n : Nat} (hn : 0 < n) (hd : n ∣ 512) :
    numBuckets n = ((512 / n : Nat) : ℚ) := by
  have hdiv : (512 : ℚ) / n = ((512 / n : Nat) : ℚ) := by
    have hne : (n : ℚ) ≠ 0 := by exact_mod_cast hn.ne'
    rw [div_eq_iff hne]
    exact_mod_cast (Nat.div_mul_cancel hd).symm
  have hle : 512 / n ≤ 512 := Nat.div_le_self 512 n
  unfold numBuckets
  rw [hdiv, toBinary64_natCast (by omega)]

private theorem isInt_natCast {m : Nat} (h : m ≤ 512) : IsInt (m : Int) := by
  constructor <;> omega

/-- The starts of ranges whose size is a natural number. -/
private theorem startingBucket_eq {n : Nat} (hn : 0 < n) (hd : n ∣ 512) {i : Nat} (hi : i ≤ n) :
    (startingBucket n i).value = ((i * (512 / n) : Nat) : ℚ) := by
  induction i with
  | zero => simp [startingBucket, Number.value]
  | succ i ih =>
    have hle : (i + 1) * (512 / n) ≤ 512 :=
      (Nat.mul_le_mul_right _ hi).trans (Nat.mul_div_le 512 n)
    have hsum : ((i * (512 / n) : Nat) : ℚ) + ((512 / n : Nat) : ℚ) =
        (((i + 1) * (512 / n) : Nat) : ℚ) := by
      rw [Nat.succ_mul, Nat.cast_add]
    unfold startingBucket
    rw [ih (by omega), numBuckets_eq hn hd, hsum, toBinary64_natCast (by omega)]
    rfl

/-- Whole starts are read back from their texts. -/
private theorem reads_startingBucket {n : Nat} (hn : 0 < n) (hd : n ∣ 512) {i : Nat} (hi : i < n) :
    Reads (toString (startingBucket n i)) ((i * (512 / n) : Nat) : Int) := by
  have hm : 0 < 512 / n := Nat.div_pos (Nat.le_of_dvd (by decide) hd) hn
  have hle : i * (512 / n) ≤ 512 :=
    (Nat.mul_le_mul_right _ hi.le).trans (Nat.mul_div_le 512 n)
  cases i with
  | zero =>
    rw [Nat.zero_mul]
    exact reads_toString ⟨by decide, by decide⟩
  | succ i =>
    have hpos : 0 < (i + 1) * (512 / n) := Nat.mul_pos (Nat.succ_pos i) hm
    have hvalue := startingBucket_eq hn hd hi.le
    have htext : toString (startingBucket n (i + 1)) =
        binary64Repr (((i + 1) * (512 / n) : Nat) : ℚ) := by
      rw [← hvalue]
      rfl
    rw [htext, binary64Repr_natCast hpos (by omega)]
    exact reads_toDigits (by omega) (by simp) (by simp [IsNumberChar]) (by simp)

/-- The requests for the buckets, if the sizes of the ranges are natural numbers. -/
def chainRequests (d : DeploymentModel) (n : Nat) (core : Nat → Core) : List Request :=
  (List.range n).map (fun i ↦
      .configureRssReta ((i * (512 / n) : Nat) : Int) ((512 / n : Nat) : Int) (core i) i) ++
    (List.range n).flatMap fun i ↦ (d.dependents i).map fun (k : Nat) ↦
      .workerFirstAction (core i) k ((i * (512 / n) : Nat) : Int) ((512 / n : Nat) : Int)

/-- The commands for the buckets of placed executions. -/
theorem bucketCommands_eq {d : DeploymentModel} {n : Nat} {core : Nat → Int} (hn : 0 < n)
    (hlength : n ≤ d.actionInstanceExecutionList.length)
    (hplaced : ∀ i, i < n → d.placementFunction i = some (core i)) :
    d.bucketCommands n = some
      ((List.range n).map (fun i ↦
          configureRssReta (startingBucket n i) ⌊numBuckets n⌋ (core i) i) ++
        (List.range n).flatMap fun i ↦ (d.dependents i).map fun (k : Nat) ↦
          workerFirstAction (core i) k (startingBucket n i) ⌊numBuckets n⌋) := by
  have hreta : (List.range n).mapM (d.configureReta n) = some ((List.range n).map fun i ↦
      configureRssReta (startingBucket n i) ⌊numBuckets n⌋ (core i) i) := by
    apply mapM_eq_some
    intro i hi
    have hin := List.mem_range.mp hi
    unfold DeploymentModel.configureReta
    rw [List.getElem?_eq_getElem (Nat.lt_of_lt_of_le hin hlength), hplaced i hin]
    rfl
  have hfirst : (List.range n).mapM (d.firstActions n) = some ((List.range n).map fun i ↦
      (d.dependents i).map fun (k : Nat) ↦
        workerFirstAction (core i) k (startingBucket n i) ⌊numBuckets n⌋) := by
    apply mapM_eq_some
    intro i hi
    unfold DeploymentModel.firstActions
    apply mapM_eq_some
    intro k _
    rw [hplaced i (List.mem_range.mp hi)]
    rfl
  unfold DeploymentModel.bucketCommands
  rw [if_neg (by omega), hreta, hfirst, List.flatMap_def]
  rfl

/-- The requests of a deployment are meant by its commands. -/
theorem means_chain {d : DeploymentModel} {n : Nat} {core : Nat → Core} (hn : 0 < n)
    (hd : n ∣ 512) (hp : PlacedOn d n core)
    (hint : d.actionInstanceExecutionList.length ≤ 2 ^ 31) :
    ∃ commands, d.bucketCommands n = some commands ∧
      List.Forall₂ (Means H) commands (chainRequests d n core) := by
  refine ⟨_, bucketCommands_eq hn hp.exists_execution hp.placed, ?_⟩
  have hnum : IsInt ((512 / n : Nat) : Int) := isInt_natCast (Nat.div_le_self 512 n)
  have hfloor : ⌊numBuckets n⌋ = ((512 / n : Nat) : Int) := by
    rw [numBuckets_eq hn hd, Int.floor_natCast]
  have hrange {i : Nat} (hi : i < n) : IsRange RSS_I_TABLE_SIZE ((i * (512 / n) : Nat) : Int)
      ((512 / n : Nat) : Int) := by
    have hle : (i + 1) * (512 / n) ≤ 512 :=
      (Nat.mul_le_mul_right _ hi).trans (Nat.mul_div_le 512 n)
    rw [Nat.succ_mul] at hle
    exact ⟨Int.natCast_nonneg _, by exact_mod_cast Nat.zero_le _, by exact_mod_cast hle⟩
  have hpos {k : Nat} (hk : k < d.actionInstanceExecutionList.length) : IsInt (k : Int) :=
    isInt_of_range (Nat.le_refl (2 ^ 31)) (by omega) (by omega)
  rw [hfloor]
  unfold chainRequests
  refine List.rel_append (forall₂_map _ ?_) (forall₂_flatMap _ ?_)
  · intro i hi c
    have hin := List.mem_range.mp hi
    exact sendCommand_configureRssReta c _ (core i) (reads_startingBucket hn hd hin) hnum
      (hpos (Nat.lt_of_lt_of_le hin hp.exists_execution)) (hrange hin)
  · intro i hi
    have hin := List.mem_range.mp hi
    apply forall₂_map
    intro k hk c
    obtain ⟨a, ha, rfl⟩ := List.mem_map.mp hk
    obtain ⟨hk, -⟩ := List.getElem?_eq_some_iff.mp
      (List.mem_zipIdx_iff_getElem?.mp (List.mem_filter.mp ha).1)
    exact sendCommand_workerFirstAction c _ (core i) (reads_startingBucket hn hd hin) hnum
      (hpos hk) (hrange hin)

/-- The ranges of a deployment, if their sizes are natural numbers. -/
private theorem chainRange_eq (d : DeploymentModel) {n : Nat} (core : Nat → Core) (hn : 0 < n)
    (hd : n ∣ 512) {i : Nat} (hi : i < n) :
    (chainRange d n core i).start = ((i * (512 / n) : Nat) : Int) ∧
      (chainRange d n core i).num = ((512 / n : Nat) : Int) := by
  refine ⟨(reads_startingBucket hn hd hi).value, ?_⟩
  change ⌊numBuckets n⌋ = _
  rw [numBuckets_eq hn hd, Int.floor_natCast]

private theorem deals_chain (d : DeploymentModel) {n : Nat} (core : Nat → Core) (hn : 0 < n)
    (hd : n ∣ 512) (hdep : ∀ i, i < n → d.dependents i ≠ []) :
    Deals (chainRanges d n core) (chainRequests d n core) := by
  have hrange {i : Nat} (hi : i < n) := chainRange_eq d core hn hd hi
  have hmem {i : Nat} (hi : i < n) : chainRange d n core i ∈ chainRanges d n core :=
    List.mem_map_of_mem (List.mem_range.mpr hi)
  have hex {r : BucketRange} (hr : r ∈ chainRanges d n core) :
      ∃ i, i < n ∧ chainRange d n core i = r := by
    obtain ⟨i, hi, hr⟩ := List.mem_map.mp hr
    exact ⟨i, List.mem_range.mp hi, hr⟩
  unfold chainRequests
  refine ⟨?_, ?_, ?_, ?_⟩
  · intro s m w a h
    rcases List.mem_append.mp h with h | h
    · obtain ⟨i, hi, hq⟩ := List.mem_map.mp h
      have hin := List.mem_range.mp hi
      cases hq
      exact ⟨_, hmem hin, (hrange hin).1, (hrange hin).2, rfl⟩
    · obtain ⟨i, -, hq⟩ := List.mem_flatMap.mp h
      obtain ⟨k, -, hq⟩ := List.mem_map.mp hq
      cases hq
  · intro r hr
    obtain ⟨i, hi, rfl⟩ := hex hr
    refine ⟨(i : Int), List.mem_append_left _ (List.mem_map.mpr ⟨i, List.mem_range.mpr hi, ?_⟩)⟩
    rw [(hrange hi).1, (hrange hi).2]
    rfl
  · intro w a s m h
    rcases List.mem_append.mp h with h | h
    · obtain ⟨i, -, hq⟩ := List.mem_map.mp h
      cases hq
    · obtain ⟨i, hi, hq⟩ := List.mem_flatMap.mp h
      obtain ⟨k, hk, hq⟩ := List.mem_map.mp hq
      have hin := List.mem_range.mp hi
      cases hq
      exact ⟨_, hmem hin, (hrange hin).1, (hrange hin).2, rfl, List.mem_map_of_mem hk⟩
  · intro r hr
    obtain ⟨i, hi, rfl⟩ := hex hr
    obtain ⟨k, hk⟩ := List.exists_mem_of_ne_nil _ (hdep i hi)
    refine ⟨(k : Int), List.mem_append_right _ (List.mem_flatMap.mpr
      ⟨i, List.mem_range.mpr hi, List.mem_map.mpr ⟨k, hk, ?_⟩⟩)⟩
    rw [(hrange hi).1, (hrange hi).2]
    rfl

/-- The commands for the buckets of a deployment serve every bucket if and only if the number of
executions divides the number of buckets and some execution depends on every `packet_in`. -/
theorem chainServes_iff [RteHash H] (h : H) {d : DeploymentModel} {n : Nat} {core : Nat → Core}
    (hn : 0 < n) (hp : PlacedOn d n core) (hodd : ∀ e, e < n → (core e).val % 2 = 1)
    (hint : n ∣ RSS_I_TABLE_SIZE → d.actionInstanceExecutionList.length ≤ 2 ^ 31) :
    ChainServes H d n core ↔
      n ∣ RSS_I_TABLE_SIZE ∧ ∀ i, i < n → d.dependents i ≠ [] := by
  have hlength : (chainRanges d n core).length = n := by
    rw [chainRanges, List.length_map, List.length_range]
  constructor
  · rintro ⟨commands, -, hserves⟩
    obtain ⟨c', -, hc'⟩ := hserves (Config.zeroed h) fun _ ↦ h
    have hd : n ∣ 512 := by
      have hsize : RSS_I_TABLE_SIZE ≤ (chainRanges d n core).length * (512 / n) :=
          size_le_of_covers (by
        intro r hr
        obtain ⟨i, -, rfl⟩ := List.mem_map.mp hr
        exact floor_numBuckets_le hn) fun b ↦ by
          obtain ⟨i, r, hr, hb, -⟩ := hc' b
          exact ⟨i, r, hr, hb.covers⟩
      rw [hlength] at hsize
      exact ⟨512 / n, Nat.le_antisymm hsize (Nat.mul_div_le 512 n)⟩
    refine ⟨hd, ?_⟩
    intro i hi hnone
    -- The range of execution `i` is not empty, and only it serves its first bucket.
    have hm : 0 < 512 / n := Nat.div_pos (Nat.le_of_dvd (by decide) hd) hn
    have hlt : i * (512 / n) < RSS_I_TABLE_SIZE := by
      calc i * (512 / n) < n * (512 / n) := Nat.mul_lt_mul_of_pos_right hi hm
        _ = RSS_I_TABLE_SIZE := Nat.mul_div_cancel' hd
    obtain ⟨hs, hnum⟩ := chainRange_eq d core hn hd hi
    have hget : (chainRanges d n core)[i]? = some (chainRange d n core i) := by
      rw [chainRanges, List.getElem?_map, List.getElem?_range hi]
      rfl
    have hcov : (chainRange d n core i).Covers ⟨i * (512 / n), hlt⟩ := by
      constructor
      · exact Int.le_of_eq hs
      · rw [hs, hnum]
        exact_mod_cast Nat.lt_add_of_pos_right hm
    obtain ⟨j, r, hr, hb, hone⟩ := hc' ⟨i * (512 / n), hlt⟩
    rw [← hone i _ hget hcov, hget] at hr
    have hfirst := hb.first
    rw [← Option.some.inj hr, chainRange, hnone] at hfirst
    cases hfirst
  · rintro ⟨hd, hdep⟩
    obtain ⟨commands, hcommands, hmeans⟩ := means_chain (H := H) hn hd hp (hint hd)
    refine ⟨commands, hcommands, ?_⟩
    intro memory create
    refine ⟨_, sendCommands_of_means hmeans _, served_of_deals (deals_chain d core hn hd hdep)
      ?_ ?_ ?_ ?_⟩
    · exact covers_once (fun i hi ↦ chainRange_eq d core hn hd hi) (Nat.mul_div_cancel' hd)
    · intro r hr a ha
      obtain ⟨i, -, rfl⟩ := List.mem_map.mp hr
      obtain ⟨k, -, rfl⟩ := List.mem_map.mp ha
      exact Int.natCast_nonneg k
    · intro r hr
      obtain ⟨i, hi, rfl⟩ := List.mem_map.mp hr
      exact hodd i (List.mem_range.mp hi)
    · exact fun v w hv hw ↦ queue_odd_inj memory create v w hv hw

/-- With one `packet_in` on odd cores, both planners serve every bucket if and only if the number
of executions divides the number of buckets and the `packet_in` executions are followed by an
entry, `__init__.py:217–248`, `platform.py:192–210`. -/
theorem buckets_served_iff [RteHash H] (h : H) (nf : Director.Nf) (d : DeploymentModel) (n : Nat)
    (core : Nat → Core) (hn : 0 < n) (h1 : packetIns nf.nfunctorList = 1)
    (hp : PlacedOn d n core) (hodd : ∀ e, e < n → (core e).val % 2 = 1)
    (hint : n ∣ RSS_I_TABLE_SIZE → n * (distinctNfunctors nf.nfunctorList).length ≤ 2 ^ 31 ∧
      d.actionInstanceExecutionList.length ≤ 2 ^ 31) :
    (GraphServes H nf n core ↔ Servable nf n) ∧
      (ChainServes H d n core ↔
        n ∣ RSS_I_TABLE_SIZE ∧ ∀ i, i < n → d.dependents i ≠ []) :=
  ⟨graphServes_iff h hn h1 hodd fun hd ↦ (hint hd).1,
    chainServes_iff h hn hp hodd fun hd ↦ (hint hd).2⟩

/-- Execution `e` on core `2 e + 1`. -/
def oddCore (e : Nat) : Core := ⟨(2 * e + 1) % 48, Nat.mod_lt _ (by decide)⟩

/-- The deployment of `n` executions of every action of the generic decomposed network function
where those of `packet_in` are on odd cores. -/
def gdPlaced (n : Nat) : Option DeploymentModel := gdDeployment n fun i ↦ ((oddCore i).val : Int)

/-- Two executions of the generic decomposed network function serve every bucket. -/
theorem buckets_served_gd : ∃ d, gdPlaced 2 = some d ∧
    GraphServes (List Ipv4FiveTuple) gd 2 oddCore ∧
    ChainServes (List Ipv4FiveTuple) d 2 oddCore := by
  refine ⟨(gdPlaced 2).get (by decide), by simp, ?_⟩
  have hp : PlacedOn ((gdPlaced 2).get (by decide)) 2 oddCore := ⟨by decide, by decide⟩
  have hiff := buckets_served_iff ([] : List Ipv4FiveTuple) gd ((gdPlaced 2).get (by decide)) 2
    oddCore (by decide) (by decide) hp (by decide) fun _ ↦ ⟨by decide, by decide⟩
  refine ⟨hiff.1.mpr ⟨by decide, by decide, by decide⟩, hiff.2.mpr ⟨by decide, by decide⟩⟩

/-- Three executions leave buckets unserved. -/
theorem buckets_not_served : packetIns gd.nfunctorList = 1 ∧ ∃ d, gdPlaced 3 = some d ∧
    PlacedOn d 3 oddCore ∧ ¬ GraphServes (List Ipv4FiveTuple) gd 3 oddCore ∧
      ¬ ChainServes (List Ipv4FiveTuple) d 3 oddCore := by
  have hdiv : ¬ 3 ∣ RSS_I_TABLE_SIZE := by decide
  have hp : PlacedOn ((gdPlaced 3).get (by decide)) 3 oddCore := ⟨by decide, by decide⟩
  refine ⟨by decide, (gdPlaced 3).get (by decide), by simp, hp, ?_, ?_⟩
  · intro hserves
    exact hdiv ((graphServes_iff [] (by decide) (by decide) (by decide)
      fun hd ↦ absurd hd hdiv).mp hserves).divides
  · intro hserves
    exact hdiv ((chainServes_iff [] (by decide) hp (by decide)
      fun hd ↦ absurd hd hdiv).mp hserves).1

end Nflambda.Deploy
