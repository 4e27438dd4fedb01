import Nflambda.Chain.Routes
import Nflambda.Deploy.ChainBuckets

/-!
# The commands before the paths

Library `Deploy`. When the commands that `NFlambda.deployment`,
`src/director/nflambda/platform.py:174–210`, sends for a uniformly scaled chain before those for
the paths all run: when the tables of the runtime hold what they name.
-/

namespace Nflambda.Deploy

open Nflambda.Base Nflambda.Runtime Nflambda.Director Nflambda.Chain

/-! ### Ranges of any size -/

/-- The quotient of the buckets by the executions. -/
private theorem quotient_bounds {n : Nat} (hn : 0 < n) (hlarge : n ≤ 2 ^ 31) :
    2 ^ (-22 : Int) ≤ (512 : ℚ) / n ∧ (512 : ℚ) / n ≤ 512 := by
  have hone : (1 : ℚ) ≤ n := by exact_mod_cast hn
  have hle : (n : ℚ) ≤ 2147483648 := by exact_mod_cast hlarge
  refine ⟨?_, div_le_self (by norm_num) hone⟩
  rw [le_div_iff₀ (by linarith)]
  norm_num
  linarith

/-- The exact ends of the ranges are at most the number of buckets. -/
private theorem mul_quotient_le {n i : Nat} (hn : 0 < n) (hi : i ≤ n) :
    (i : ℚ) * (512 / n) ≤ 512 := by
  have hcast : (i : ℚ) ≤ n := by exact_mod_cast hi
  have hpos : (0 : ℚ) < n := by exact_mod_cast hn
  rw [mul_div_assoc', div_le_iff₀ hpos]
  linarith

/-- One rounding of a number up to 600. -/
private theorem round_error {x : ℚ} (hx : 0 < x) (h : x ≤ 600) :
    |toBinary64 x - x| ≤ 2 ^ (-43 : Int) := by
  refine (abs_toBinary64_sub_le x).trans ?_
  have hs := spacing_le_mul hx
  norm_num at hs ⊢
  linarith

/-- The size of the ranges is close to the exact quotient. -/
private theorem numBuckets_near {n : Nat} (hn : 0 < n) (hlarge : n ≤ 2 ^ 31) :
    |numBuckets n - 512 / n| ≤ 2 ^ (-43 : Int) := by
  obtain ⟨hlow, hhigh⟩ := quotient_bounds hn hlarge
  exact round_error (lt_of_lt_of_le (zpow_pos (by norm_num) _) hlow) (by linarith)

private theorem floor_numBuckets_nonneg {n : Nat} (hn : 0 < n) (hlarge : n ≤ 2 ^ 31) :
    0 ≤ ⌊numBuckets n⌋ := by
  obtain ⟨hlow, -⟩ := quotient_bounds hn hlarge
  have hnear := abs_le.mp (numBuckets_near hn hlarge)
  norm_num at hlow hnear
  exact Int.floor_nonneg.mpr (by linarith [hnear.1])

private theorem isInt_floor_numBuckets {n : Nat} (hn : 0 < n) (hlarge : n ≤ 2 ^ 31) :
    IsInt ⌊numBuckets n⌋ := by
  have hnonneg := floor_numBuckets_nonneg hn hlarge
  have hfloor := floor_numBuckets_le hn
  have hle : 512 / n ≤ 512 := Nat.div_le_self 512 n
  constructor <;> omega

/-- The starts are close to the multiples of the exact quotient. -/
private theorem startingBucket_near {n : Nat} (hn : 0 < n) (hlarge : n ≤ 2 ^ 31) {i : Nat}
    (hi : i ≤ n) :
    |(startingBucket n i).value - i * (512 / n)| ≤ i * 2 ^ (-42 : Int) := by
  obtain ⟨hlow, hhigh⟩ := quotient_bounds hn hlarge
  induction i with
  | zero => simp [startingBucket, Number.value]
  | succ i ih =>
    have hstart := abs_le.mp (ih (by omega))
    have hwhole := mul_quotient_le hn hi
    have hcount : (i : ℚ) ≤ 2147483648 := by exact_mod_cast (by omega : i ≤ 2147483648)
    have hdrift : 0 ≤ (i : ℚ) * (512 / n - 2 ^ (-42 : Int)) := by
      apply mul_nonneg (Nat.cast_nonneg i)
      norm_num at hlow ⊢
      linarith
    have hsize := abs_le.mp (numBuckets_near hn hlarge)
    have hvalue : (startingBucket n (i + 1)).value =
        toBinary64 ((startingBucket n i).value + numBuckets n) := rfl
    rw [hvalue]
    generalize (512 : ℚ) / n = q at *
    norm_num at hlow hstart hdrift hsize
    push_cast at hwhole ⊢
    have hround := abs_le.mp (round_error (x := (startingBucket n i).value + numBuckets n)
      (by linarith [hstart.1, hsize.1]) (by linarith [hstart.2, hsize.2]))
    norm_num at hround
    rw [abs_le]
    norm_num
    constructor <;> linarith [hstart.1, hstart.2, hsize.1, hsize.2, hround.1, hround.2]

/-- Ranges hold a bucket up to as many executions as there are buckets. -/
theorem floor_numBuckets_pos_iff {n : Nat} (hn : 0 < n) (hlarge : n ≤ 2 ^ 31) :
    0 < ⌊numBuckets n⌋ ↔ n ≤ RSS_I_TABLE_SIZE := by
  have hpos : (0 : ℚ) < n := by exact_mod_cast hn
  have hsize := abs_le.mp (numBuckets_near hn hlarge)
  rw [← Int.add_one_le_iff, zero_add, Int.le_floor]
  norm_num at hsize ⊢
  constructor
  · intro h
    by_contra hlt
    change ¬ n ≤ 512 at hlt
    have hmore : (513 : ℚ) ≤ n := by exact_mod_cast (by omega : 513 ≤ n)
    have hquot : (512 : ℚ) / n ≤ 512 / 513 :=
      div_le_div_of_nonneg_left (by norm_num) (by norm_num) hmore
    norm_num at hquot
    linarith [hsize.2]
  · intro hle
    rcases Nat.lt_or_eq_of_le (show n ≤ 512 from hle) with hlt | rfl
    · have hless : (n : ℚ) ≤ 511 := by exact_mod_cast (by omega : n ≤ 511)
      have hquot : (512 : ℚ) / 511 ≤ 512 / n := div_le_div_of_nonneg_left (by norm_num) hpos hless
      norm_num at hquot
      linarith [hsize.1]
    · rw [numBuckets_eq (n := 512) (by decide) (by decide)]
      norm_num

/-- The start of every range is read as a number, and the range lies in the table. -/
theorem exists_reads_startingBucket {n : Nat} (hn : 0 < n) (hlarge : n ≤ 2 ^ 31) {i : Nat}
    (hi : i < n) : ∃ s, Reads (toString (startingBucket n i)) s ∧
      IsRange RSS_I_TABLE_SIZE s ⌊numBuckets n⌋ := by
  have hnonneg := floor_numBuckets_nonneg hn hlarge
  have hfloor := floor_numBuckets_le hn
  have hsize : ((⌊numBuckets n⌋ : Int) : ℚ) ≤ 512 / n := by
    have hdiv : ((512 / n : Nat) : ℚ) ≤ (512 : ℚ) / n := by exact_mod_cast Nat.cast_div_le
    have hcast := (Int.cast_le (R := ℚ)).mpr hfloor
    rw [Int.cast_natCast] at hcast
    exact hcast.trans hdiv
  cases i with
  | zero =>
    refine ⟨0, reads_toString ⟨by decide, by decide⟩, le_rfl, by omega, ?_⟩
    have hle : 512 / n ≤ 512 := Nat.div_le_self 512 n
    change 0 + ⌊numBuckets n⌋ ≤ (512 : Nat)
    omega
  | succ i =>
    obtain ⟨hlow, hhigh⟩ := quotient_bounds hn hlarge
    have hnear := abs_le.mp (startingBucket_near hn hlarge (i := i + 1) hi.le)
    have hend := mul_quotient_le hn (i := i + 1 + 1) hi
    have hcount : ((i + 1 : Nat) : ℚ) ≤ 2147483648 := by
      exact_mod_cast (by omega : i + 1 ≤ 2147483648)
    have hdrift : 0 ≤ (i : ℚ) * (512 / n - 2 ^ (-42 : Int)) := by
      apply mul_nonneg (Nat.cast_nonneg i)
      norm_num at hlow ⊢
      linarith
    have htext : toString (startingBucket n (i + 1)) =
        binary64Repr (startingBucket n (i + 1)).value := rfl
    rw [htext]
    generalize (startingBucket n (i + 1)).value = v at *
    generalize (512 : ℚ) / n = q at *
    push_cast at hnear hcount hend
    norm_num at hnear hlow hdrift
    obtain ⟨k, rest, c, hrepr, hhead, hlength, hclose, hdigits⟩ := exists_binary64Repr (x := v)
      (by norm_num; linarith [hnear.1]) (by linarith [hnear.2])
    have hclose' := abs_le.mp hclose
    norm_num at hclose'
    have hfit : (k : ℚ) + ⌊numBuckets n⌋ < 513 := by
      rcases hdigits with hk | ⟨hk, hc⟩
      · linarith [hnear.2, hclose'.1]
      · have hk' : (k : ℚ) ≤ 10 := by exact_mod_cast hk.le
        linarith [hnear.1, hclose'.2]
    have hfit' : (k : Int) + ⌊numBuckets n⌋ < 513 := by exact_mod_cast hfit
    have hchars : ∀ x ∈ rest, IsNumberChar x := by
      intro x hx
      apply isNumberChar_binary64Repr v
      rw [hrepr, String.toList_ofList]
      exact List.mem_append_right _ hx
    rw [hrepr]
    refine ⟨k, reads_toDigits (by omega) hhead hchars hlength, by omega, by omega, ?_⟩
    change (k : Int) + ⌊numBuckets n⌋ ≤ (512 : Nat)
    omega

/-! ### The commands -/

/-- The commands that create the executions of a uniformly scaled chain and deal buckets to them. -/
inductive SetupCommand (sfc : Sfc) (n : Nat) (core : Nat → Int) : Command → Prop where
  | createState {q x : Nat} {s : StateInstance} {state : Chain.State}
      (hq : sfc.stateInstanceList[q]? = some s) (hx : x < n)
      (hstate : sfc.objects.states[s.state]? = some state) :
      SetupCommand sfc n core (createState state.registrationId (q * n + x : Nat))
  | createAction {s x i m : Nat} {action : Chain.Action}
      (hs : sfc.actionInstanceList[s]? = some i) (hx : x < n)
      (haction : sfc.actionOf i = some action)
      (hname : action.name ∉ ["packet_in", "packet_out", "drop"])
      (hstate : (uniformEntry sfc n core s x i).stateInstanceExecution = some m) :
      SetupCommand sfc n core
        (createAction action.registrationId (s * n + x : Nat) m (core (s * n + x)))
  | createPacketOutAction {s x i : Nat} {action : Chain.Action}
      (hs : sfc.actionInstanceList[s]? = some i) (hx : x < n)
      (haction : sfc.actionOf i = some action) (hname : action.name = "packet_out") :
      SetupCommand sfc n core (createPacketOutAction (s * n + x : Nat) (core (s * n + x)))
  | configureRssReta {i : Nat} (hi : i < n) :
      SetupCommand sfc n core (configureRssReta (startingBucket n i) ⌊numBuckets n⌋ (core i) i)
  | workerFirstAction {i k : Nat} (hi : i < n) (hk : k ∈ (uniformModel sfc n core).dependents i) :
      SetupCommand sfc n core (workerFirstAction (core i) k (startingBucket n i) ⌊numBuckets n⌋)

section

variable {sfc : Sfc} {n : Nat} {core : Nat → Int}

private theorem mem_createStates_iff (h : sfc.WellFormed)
    (hused : ∀ s ∈ sfc.stateInstanceList, s.actionInstanceList ≠ []) {commands : List Command}
    (hcommands : (uniformModel sfc n core).createStates = some commands) {command : Command} :
    command ∈ commands ↔ ∃ q x s state, sfc.stateInstanceList[q]? = some s ∧ x < n ∧
      sfc.objects.states[s.state]? = some state ∧
      command = createState state.registrationId (q * n + x : Nat) := by
  rw [mem_of_mapM hcommands]
  constructor
  · rintro ⟨⟨s, m⟩, hs, hcommand⟩
    obtain ⟨q, x, si, hq, hx, rfl, rfl⟩ := (getElem?_stateExecutions_uniform h hused).mp
      (List.mem_zipIdx_iff_getElem?.mp hs)
    obtain ⟨si', hsi, hcommand⟩ := Option.bind_eq_some_iff.mp hcommand
    obtain ⟨state, hstate, hcommand⟩ := Option.bind_eq_some_iff.mp hcommand
    cases hcommand
    have heq : si = si' := Option.some.inj (hq.symm.trans hsi)
    subst heq
    exact ⟨q, x, si, state, hq, hx, hstate, rfl⟩
  · rintro ⟨q, x, s, state, hq, hx, hstate, rfl⟩
    have hs := (getElem?_stateExecutions_uniform (n := n) h hused).mpr
      ⟨q, x, s, hq, hx, rfl, rfl⟩
    refine ⟨(_, q * n + x), List.mem_zipIdx_iff_getElem?.mpr hs, ?_⟩
    exact Option.bind_eq_some_iff.mpr ⟨s, hq, Option.bind_eq_some_iff.mpr ⟨state, hstate, rfl⟩⟩

private theorem mem_createActions_iff (h : sfc.WellFormed)
    (hused : ∀ s ∈ sfc.stateInstanceList, s.actionInstanceList ≠ []) {l : List (List Command)}
    (hl : (uniformModel sfc n core).actionInstanceExecutionList.zipIdx.mapM
      (uniformModel sfc n core).createActions = some l) {command : Command} :
    command ∈ l.flatten ↔ ∃ s x i action, sfc.actionInstanceList[s]? = some i ∧ x < n ∧
      sfc.actionOf i = some action ∧
      ((action.name ∉ ["packet_in", "packet_out", "drop"] ∧ ∃ m : Nat,
          (uniformEntry sfc n core s x i).stateInstanceExecution = some m ∧
          command = createAction action.registrationId (s * n + x : Nat) m (core (s * n + x))) ∨
        (action.name = "packet_out" ∧
          command = createPacketOutAction (s * n + x : Nat) (core (s * n + x)))) := by
  have hplacement {s x i : Nat} (hs : sfc.actionInstanceList[s]? = some i) (hx : x < n) :
      (uniformModel sfc n core).placementFunction (s * n + x) = some (core (s * n + x)) := by
    apply placement_uniformModel
    rw [length_uniformModel]
    exact pos_lt (List.getElem?_eq_some_iff.mp hs).1 hx
  constructor
  · intro hmem
    obtain ⟨commands, hcs, hmem⟩ := List.mem_flatten.mp hmem
    obtain ⟨⟨a, k⟩, ha, hcreate⟩ := (mem_of_mapM hl).mp hcs
    obtain ⟨s, x, i, hs, hx, rfl, rfl⟩ := (getElem?_uniformModel h hused).mp
      (List.mem_zipIdx_iff_getElem?.mp ha)
    obtain ⟨action, haction, hown, hout, hnone⟩ := createActions_eq_some hcreate
    refine ⟨s, x, i, action, hs, hx, haction, ?_⟩
    by_cases hname : action.name ∉ ["packet_in", "packet_out", "drop"]
    · obtain ⟨m, hm, rfl⟩ := hown hname
      exact .inl ⟨hname, m, hm, List.mem_singleton.mp hmem⟩
    · by_cases hpacket : action.name = "packet_out"
      · obtain ⟨w, hw, rfl⟩ := hout hpacket
        rw [hplacement hs hx, Option.some.injEq] at hw
        subst hw
        exact .inr ⟨hpacket, List.mem_singleton.mp hmem⟩
      · have hsystem : action.name ∈ ["packet_in", "drop"] := by
          simp only [List.mem_cons, List.not_mem_nil, or_false, not_not] at hname ⊢
          rcases hname with hname | hname | hname
          · exact .inl hname
          · exact absurd hname hpacket
          · exact .inr hname
        rw [hnone hsystem] at hmem
        cases hmem
  · rintro ⟨s, x, i, action, hs, hx, haction, hcommand⟩
    have hmem : (uniformEntry sfc n core s x i, s * n + x) ∈
        (uniformModel sfc n core).actionInstanceExecutionList.zipIdx :=
      List.mem_zipIdx_iff_getElem?.mpr
        ((getElem?_uniformModel h hused).mpr ⟨s, x, i, hs, hx, rfl, rfl⟩)
    obtain ⟨commands, hcs, hcreate⟩ := exists_of_mapM hl hmem
    obtain ⟨action', haction', hown, hout, -⟩ := createActions_eq_some hcreate
    have heq : action = action' := Option.some.inj (haction.symm.trans haction')
    subst heq
    refine List.mem_flatten.mpr ⟨commands, hcs, ?_⟩
    rcases hcommand with ⟨hname, m, hm, rfl⟩ | ⟨hname, rfl⟩
    · obtain ⟨m', hm', rfl⟩ := hown hname
      have heq : m = m' := Option.some.inj (hm.symm.trans hm')
      subst heq
      exact List.mem_singleton_self _
    · obtain ⟨w, hw, rfl⟩ := hout hname
      rw [hplacement hs hx, Option.some.injEq] at hw
      subst hw
      exact List.mem_singleton_self _

private theorem mem_bucketCommands_iff (hn : 0 < n) (hne : sfc.actionInstanceList ≠ [])
    {commands : List Command}
    (hcommands : (uniformModel sfc n core).bucketCommands n = some commands) {command : Command} :
    command ∈ commands ↔
      (∃ i, i < n ∧
        command = configureRssReta (startingBucket n i) ⌊numBuckets n⌋ (core i) i) ∨
      ∃ i k : Nat, i < n ∧ k ∈ (uniformModel sfc n core).dependents i ∧
        command = workerFirstAction (core i) k (startingBucket n i) ⌊numBuckets n⌋ := by
  have hlength : n ≤ (uniformModel sfc n core).actionInstanceExecutionList.length := by
    rw [length_uniformModel]
    exact Nat.le_mul_of_pos_left n (List.length_pos_iff.mpr hne)
  rw [bucketCommands_eq hn hlength fun i hi ↦
    placement_uniformModel (Nat.lt_of_lt_of_le hi hlength), Option.some.injEq] at hcommands
  subst hcommands
  simp only [List.mem_append, List.mem_map, List.mem_flatMap, List.mem_range, eq_comm,
    exists_and_left]

/-- Actions whose entries are created are bound to states. -/
private theorem exists_stateExecution (h : sfc.WellFormed)
    (hused : ∀ s ∈ sfc.stateInstanceList, s.actionInstanceList ≠ []) {setup : List Command}
    (hsetup : (uniformModel sfc n core).setupCommands = some setup) {s x i : Nat}
    {action : Chain.Action} (hs : sfc.actionInstanceList[s]? = some i) (hx : x < n)
    (haction : sfc.actionOf i = some action)
    (hname : action.name ∉ ["packet_in", "packet_out", "drop"]) :
    ∃ m : Nat, (uniformEntry sfc n core s x i).stateInstanceExecution = some m := by
  obtain ⟨_, _, hsetup⟩ := Option.bind_eq_some_iff.mp hsetup
  obtain ⟨_, _, hsetup⟩ := Option.bind_eq_some_iff.mp hsetup
  obtain ⟨actions, hactions, -⟩ := Option.bind_eq_some_iff.mp hsetup
  have hmem : (uniformEntry sfc n core s x i, s * n + x) ∈
      (uniformModel sfc n core).actionInstanceExecutionList.zipIdx :=
    List.mem_zipIdx_iff_getElem?.mpr
      ((getElem?_uniformModel h hused).mpr ⟨s, x, i, hs, hx, rfl, rfl⟩)
  obtain ⟨commands, -, hcreate⟩ := exists_of_mapM hactions hmem
  obtain ⟨action', haction', hown, -⟩ := createActions_eq_some hcreate
  have heq : action = action' := Option.some.inj (haction.symm.trans haction')
  subst heq
  obtain ⟨m, hm, -⟩ := hown hname
  exact ⟨m, hm⟩

/-- The commands before the paths are these. -/
theorem mem_setupCommands_iff (h : sfc.WellFormed)
    (hused : ∀ s ∈ sfc.stateInstanceList, s.actionInstanceList ≠ []) (hn : 0 < n)
    (hne : sfc.actionInstanceList ≠ []) {setup : List Command}
    (hsetup : (uniformModel sfc n core).setupCommands = some setup) {command : Command} :
    command ∈ setup ↔ SetupCommand sfc n core command := by
  obtain ⟨m, hm, hsetup⟩ := Option.bind_eq_some_iff.mp hsetup
  obtain ⟨states, hstates, hsetup⟩ := Option.bind_eq_some_iff.mp hsetup
  obtain ⟨actions, hactions, hsetup⟩ := Option.bind_eq_some_iff.mp hsetup
  obtain ⟨buckets, hbuckets, hsetup⟩ := Option.bind_eq_some_iff.mp hsetup
  cases hsetup
  have hplan : (uniformModel sfc n core).scalingPlanList[0]? = some n := by
    show (List.replicate sfc.actionInstanceList.length n)[0]? = some n
    rw [List.getElem?_replicate, if_pos (List.length_pos_iff.mpr hne)]
  rw [hplan, Option.some.injEq] at hm
  subst hm
  rw [List.mem_append, List.mem_append, mem_createStates_iff h hused hstates,
    mem_createActions_iff h hused hactions, mem_bucketCommands_iff hn hne hbuckets]
  constructor
  · rintro ((⟨q, x, s, state, hq, hx, hstate, rfl⟩ | ⟨s, x, i, action, hs, hx, haction, hcommand⟩) |
      ⟨i, hi, rfl⟩ | ⟨i, k, hi, hk, rfl⟩)
    · exact .createState hq hx hstate
    · rcases hcommand with ⟨hname, m, hm, rfl⟩ | ⟨hname, rfl⟩
      · exact .createAction hs hx haction hname hm
      · exact .createPacketOutAction hs hx haction hname
    · exact .configureRssReta hi
    · exact .workerFirstAction hi hk
  · intro hcommand
    cases hcommand with
    | createState hq hx hstate => exact .inl (.inl ⟨_, _, _, _, hq, hx, hstate, rfl⟩)
    | createAction hs hx haction hname hm =>
      exact .inl (.inr ⟨_, _, _, _, hs, hx, haction, .inl ⟨hname, _, hm, rfl⟩⟩)
    | createPacketOutAction hs hx haction hname =>
      exact .inl (.inr ⟨_, _, _, _, hs, hx, haction, .inr ⟨hname, rfl⟩⟩)
    | configureRssReta hi => exact .inr (.inl ⟨_, hi, rfl⟩)
    | workerFirstAction hi hk => exact .inr (.inr ⟨_, _, hi, hk, rfl⟩)

/-! ### When they run -/

/-- Some action instance comes after the first one of a chain and depends on it. -/
def HasFirstAction (sfc : Sfc) : Prop :=
  ∃ i j, sfc.actionInstanceList[0]? = some i ∧ j ∈ sfc.actionInstanceList ∧
    sfc.actionInstanceList.idxOf i < sfc.actionInstanceList.idxOf j ∧ sfc.Depends i j

/-- The numbers of a chain and its placement are values of a C `int`. -/
structure IsCChain (sfc : Sfc) (n : Nat) (core : Nat → Int) : Prop where
  positions : sfc.actionInstanceList.length * n ≤ 2 ^ 31
  cores : ∀ k, k < sfc.actionInstanceList.length * n → IsInt (core k)
  stateIds : ∀ s ∈ sfc.objects.states, IsInt s.registrationId
  actionIds : ∀ a ∈ sfc.objects.actions, IsInt a.registrationId

/-- The tables of the runtime hold the executions of a chain: their states, entries, registered
functions and cores. -/
structure SetupFits (sfc : Sfc) (n : Nat) (core : Nat → Int) : Prop where
  states : sfc.stateInstanceList.length * n ≤ STATE_NUM
  entries : ∀ s i action, sfc.actionInstanceList[s]? = some i → sfc.actionOf i = some action →
    action.name ∉ ["packet_in", "drop"] → (s + 1) * n ≤ ACTION_TABLE_SIZE
  functions : ∀ i ∈ sfc.actionInstanceList, ∀ action, sfc.actionOf i = some action →
    action.name ∉ ["packet_in", "packet_out", "drop"] → InTable 200 action.registrationId
  senders : ∀ s i action x, sfc.actionInstanceList[s]? = some i → sfc.actionOf i = some action →
    action.name = "packet_out" → x < n → InTable 48 (core (s * n + x))
  receivers : ∀ i, i < n → n ≤ RSS_I_TABLE_SIZE ∨ HasFirstAction sfc → InTable 48 (core i)

/-- Executions depend on one of the first instance if an instance does. -/
private theorem exists_dependent_iff (h : sfc.WellFormed)
    (hused : ∀ s ∈ sfc.stateInstanceList, s.actionInstanceList ≠ [])
    (hne : sfc.actionInstanceList ≠ []) {x : Nat} (hx : x < n) :
    (∃ k, k ∈ (uniformModel sfc n core).dependents x) ↔ HasFirstAction sfc := by
  obtain ⟨i, hi⟩ : ∃ i, sfc.actionInstanceList[0]? = some i :=
    ⟨_, List.getElem?_eq_getElem (List.length_pos_iff.mpr hne)⟩
  have hfirst : (executions sfc (uniformPlan sfc n))[x]? =
      some ⟨i, sfc.nfIdOf i, x, none, [], -1⟩ :=
    getElem?_executions_uniform.mpr ⟨0, x, i, hi, hx, by omega, rfl⟩
  constructor
  · rintro ⟨k, hk⟩
    obtain ⟨b, hb, hmem⟩ := mem_dependents_iff.mp hk
    obtain ⟨t, y, j, ht, hy, rfl, rfl⟩ := (getElem?_uniformModel h hused).mp hb
    obtain ⟨e, he, hlinked⟩ := mem_linkedTo_iff.mp hmem
    rw [hfirst, Option.some.injEq] at he
    subst he
    obtain ⟨hlt, hdep, -⟩ := (linked_uniformPlan_iff (List.mem_of_getElem? hi)
      (List.mem_of_getElem? ht)).mp hlinked
    exact ⟨i, j, hi, List.mem_of_getElem? ht, hlt, hdep⟩
  · rintro ⟨i', j, hi', hj, hlt, hdep⟩
    have heq : i = i' := Option.some.inj (hi.symm.trans hi')
    subst heq
    obtain ⟨t, ht⟩ := List.getElem?_of_mem hj
    refine ⟨t * n + x, mem_dependents_iff.mpr
      ⟨_, (getElem?_uniformModel h hused).mpr ⟨t, x, j, ht, hx, rfl, rfl⟩, ?_⟩⟩
    exact mem_linkedTo_iff.mpr ⟨_, hfirst,
      (linked_uniformPlan_iff (List.mem_of_getElem? hi) hj).mpr ⟨hlt, hdep, rfl⟩⟩

private theorem isInt_of_lt {k : Nat} (hk : k < 2 ^ 31) : IsInt (k : Int) :=
  isInt_of_range (Nat.le_refl (2 ^ 31)) (by omega) (by omega)

/-- The entry of an action that is created is in the table if all executions fit. -/
private theorem inTable_pos {s x m : Nat} (hx : x < n) (h : (s + 1) * n ≤ m) :
    InTable m ((s * n + x : Nat) : Int) := by
  rw [Nat.succ_mul] at h
  exact ⟨Int.natCast_nonneg _, by omega⟩

/-- All executions of an instance have an entry if the last one does. -/
private theorem fits_of_inTable {s m : Nat} (hn : 0 < n)
    (h : ∀ x, x < n → InTable m ((s * n + x : Nat) : Int)) : (s + 1) * n ≤ m := by
  obtain ⟨-, hlt⟩ := h (n - 1) (by omega)
  rw [Nat.succ_mul]
  omega

private theorem IsCChain.isInt_pos (hint : IsCChain sfc n core) {s x i : Nat}
    (hs : sfc.actionInstanceList[s]? = some i) (hx : x < n) : IsInt ((s * n + x : Nat) : Int) :=
  isInt_of_lt (Nat.lt_of_lt_of_le (pos_lt (List.getElem?_eq_some_iff.mp hs).1 hx) hint.positions)

private theorem IsCChain.isInt_core (hint : IsCChain sfc n core) {s x i : Nat}
    (hs : sfc.actionInstanceList[s]? = some i) (hx : x < n) : IsInt (core (s * n + x)) :=
  hint.cores _ (pos_lt (List.getElem?_eq_some_iff.mp hs).1 hx)

private theorem IsCChain.isInt_action (hint : IsCChain sfc n core) {i : Nat}
    {action : Chain.Action} (haction : sfc.actionOf i = some action) :
    IsInt action.registrationId := by
  obtain ⟨a, -, hact⟩ := Option.bind_eq_some_iff.mp haction
  exact hint.actionIds action (List.mem_of_getElem? hact)

private theorem IsCChain.isInt_dependent (hint : IsCChain sfc n core) {i k : Nat}
    (hk : k ∈ (uniformModel sfc n core).dependents i) : IsInt (k : Int) := by
  obtain ⟨t, ht, -⟩ := mem_dependents_iff.mp hk
  have hlt := (List.getElem?_eq_some_iff.mp ht).1
  rw [length_uniformModel] at hlt
  exact isInt_of_lt (Nat.lt_of_lt_of_le hlt hint.positions)

/-- An entry of an action is created if the tables hold it and the function of the action. -/
private theorem runs_createAction_iff (h : sfc.WellFormed) (hint : IsCChain sfc n core)
    (hstates : sfc.stateInstanceList.length * n ≤ STATE_NUM) {s x i m : Nat}
    {action : Chain.Action} (hs : sfc.actionInstanceList[s]? = some i) (hx : x < n)
    (haction : sfc.actionOf i = some action)
    (hm : (uniformEntry sfc n core s x i).stateInstanceExecution = some m) {H : Type}
    (c : Config H) :
    Runs (sendCommand c
      (createAction action.registrationId (s * n + x : Nat) m (core (s * n + x)))) ↔
      InTable ACTION_TABLE_SIZE ((s * n + x : Nat) : Int) ∧
        InTable 200 action.registrationId := by
  have hint_m : IsInt (m : Int) := by
    obtain ⟨q, hq, rfl⟩ := Option.map_eq_some_iff.mp hm
    obtain ⟨a, ha, hstate⟩ := Option.bind_eq_some_iff.mp hq
    have hlt := pos_lt (h.state_mem i (List.mem_of_getElem? hs) a ha q hstate) hx
    exact isInt_of_lt (Nat.lt_of_lt_of_le hlt (hstates.trans (by decide)))
  exact runs_createAction c (hint.isInt_action haction) (hint.isInt_pos hs hx) hint_m
    (hint.isInt_core hs hx)

/-- Every command runs if the tables hold the executions. -/
private theorem runs_setupCommand (h : sfc.WellFormed)
    (hused : ∀ s ∈ sfc.stateInstanceList, s.actionInstanceList ≠ []) (hn : 0 < n)
    (hne : sfc.actionInstanceList ≠ []) (hint : IsCChain sfc n core)
    (hfits : SetupFits sfc n core) {command : Command}
    (hcommand : SetupCommand sfc n core command) {H : Type} (c : Config H) :
    Runs (sendCommand c command) := by
  have hlarge : n ≤ sfc.actionInstanceList.length * n :=
    Nat.le_mul_of_pos_left n (List.length_pos_iff.mpr hne)
  have hbound := hlarge.trans hint.positions
  cases hcommand with
  | @createState q x s state hq hx hstate =>
    have hlt := pos_lt (List.getElem?_eq_some_iff.mp hq).1 hx
    have hpos := Nat.lt_of_lt_of_le hlt hfits.states
    exact (runs_createState c (hint.stateIds state (List.mem_of_getElem? hstate))
      (isInt_of_lt (Nat.lt_of_lt_of_le hpos (by decide)))).mpr
      ⟨Int.natCast_nonneg _, by exact_mod_cast hpos⟩
  | createAction hs hx haction hname hm =>
    have hentry := hfits.entries _ _ _ hs haction fun hmem ↦ hname (by
      rcases List.mem_pair.mp hmem with heq | heq <;> rw [heq] <;> decide)
    exact (runs_createAction_iff h hint hfits.states hs hx haction hm c).mpr
      ⟨inTable_pos hx hentry, hfits.functions _ (List.mem_of_getElem? hs) _ haction hname⟩
  | createPacketOutAction hs hx haction hname =>
    have hentry := hfits.entries _ _ _ hs haction (by rw [hname]; decide)
    exact (runs_createPacketOutAction c (hint.isInt_pos hs hx) (hint.isInt_core hs hx)).mpr
      ⟨inTable_pos hx hentry, hfits.senders _ _ _ _ hs haction hname hx⟩
  | configureRssReta hi =>
    obtain ⟨s, hreads, hrange⟩ := exists_reads_startingBucket hn hbound hi
    have hcore := hint.cores _ (Nat.lt_of_lt_of_le hi hlarge)
    exact (runs_configureRssReta c _ hreads (isInt_floor_numBuckets hn hbound) hcore
      (isInt_of_lt (Nat.lt_of_lt_of_le hi hbound)) hrange).mpr fun hpos ↦ hfits.receivers _ hi
        (.inl ((floor_numBuckets_pos_iff hn hbound).mp hpos))
  | workerFirstAction hi hk =>
    obtain ⟨s, hreads, hrange⟩ := exists_reads_startingBucket hn hbound hi
    have hcore := hint.cores _ (Nat.lt_of_lt_of_le hi hlarge)
    exact (runs_workerFirstAction c _ hreads (isInt_floor_numBuckets hn hbound) hcore
      (hint.isInt_dependent hk) hrange).mpr (hfits.receivers _ hi
        (.inr ((exists_dependent_iff h hused hne hi).mp ⟨_, hk⟩)))

/-- The tables hold the executions if every command runs in some configuration. -/
private theorem setupFits_of_runs {o : Objects} (ho : o.Created) {nfs : List Nat}
    (hsfc : Sfc.new o nfs = some sfc)
    (hused : ∀ s ∈ sfc.stateInstanceList, s.actionInstanceList ≠ []) (hn : 0 < n)
    (hne : sfc.actionInstanceList ≠ []) (hint : IsCChain sfc n core) {setup : List Command}
    (hsetup : (uniformModel sfc n core).setupCommands = some setup) {H : Type}
    (hruns : ∀ command, SetupCommand sfc n core command →
      ∃ c : Config H, Runs (sendCommand c command)) : SetupFits sfc n core := by
  have h := wellFormed_of_new ho hsfc
  have hlarge : n ≤ sfc.actionInstanceList.length * n :=
    Nat.le_mul_of_pos_left n (List.length_pos_iff.mpr hne)
  have hbound := hlarge.trans hint.positions
  have hstates : sfc.stateInstanceList.length * n ≤ STATE_NUM := by
    by_contra hmore
    -- the state behind the last one of the table would be created
    have hq : STATE_NUM / n < sfc.stateInstanceList.length :=
      Nat.div_lt_of_lt_mul (by rw [Nat.mul_comm]; omega)
    have hmem := List.getElem_mem hq
    obtain ⟨state, hstate⟩ := exists_state_of_new ho hsfc hmem (hused _ hmem)
    obtain ⟨c, hc⟩ := hruns _ (.createState (List.getElem?_eq_getElem hq) (Nat.mod_lt _ hn) hstate)
    rw [Nat.div_add_mod'] at hc
    have htable := (runs_createState c (hint.stateIds state (List.mem_of_getElem? hstate))
      (isInt_of_lt (by decide))).mp hc
    exact absurd htable.2 (lt_irrefl _)
  have hcreate {s x i : Nat} {action : Chain.Action} (hs : sfc.actionInstanceList[s]? = some i)
      (hx : x < n) (haction : sfc.actionOf i = some action)
      (hname : action.name ∉ ["packet_in", "packet_out", "drop"]) :
      InTable ACTION_TABLE_SIZE ((s * n + x : Nat) : Int) ∧
        InTable 200 action.registrationId := by
    obtain ⟨m, hm⟩ := exists_stateExecution h hused hsetup hs hx haction hname
    obtain ⟨c, hc⟩ := hruns _ (.createAction hs hx haction hname hm)
    exact (runs_createAction_iff h hint hstates hs hx haction hm c).mp hc
  have hsend {s x i : Nat} {action : Chain.Action} (hs : sfc.actionInstanceList[s]? = some i)
      (hx : x < n) (haction : sfc.actionOf i = some action) (hname : action.name = "packet_out") :
      InTable ACTION_TABLE_SIZE ((s * n + x : Nat) : Int) ∧ InTable 48 (core (s * n + x)) := by
    obtain ⟨c, hc⟩ := hruns _ (.createPacketOutAction hs hx haction hname)
    exact (runs_createPacketOutAction c (hint.isInt_pos hs hx) (hint.isInt_core hs hx)).mp hc
  refine ⟨hstates, ?_, ?_, fun s i action x hs haction hname hx ↦
    (hsend hs hx haction hname).2, ?_⟩
  · intro s i action hs haction hname
    apply fits_of_inTable hn
    intro x hx
    by_cases hout : action.name = "packet_out"
    · exact (hsend hs hx haction hout).1
    · refine (hcreate hs hx haction ?_).1
      simp only [List.mem_cons, List.not_mem_nil, or_false, not_or] at hname ⊢
      exact ⟨hname.1, hout, hname.2⟩
  · intro i hi action haction hname
    obtain ⟨s, hs⟩ := List.getElem?_of_mem hi
    exact (hcreate hs hn haction hname).2
  · intro i hi hdeal
    have hcore := hint.cores _ (Nat.lt_of_lt_of_le hi hlarge)
    obtain ⟨s, hreads, hrange⟩ := exists_reads_startingBucket hn hbound hi
    rcases hdeal with hfew | hfirst
    · obtain ⟨c, hc⟩ := hruns _ (.configureRssReta hi)
      exact (runs_configureRssReta c _ hreads (isInt_floor_numBuckets hn hbound) hcore
        (isInt_of_lt (Nat.lt_of_lt_of_le hi hbound)) hrange).mp hc
          ((floor_numBuckets_pos_iff hn hbound).mpr hfew)
    · obtain ⟨k, hk⟩ : ∃ k, k ∈ (uniformModel sfc n core).dependents _ :=
        (exists_dependent_iff h hused hne hi).mpr hfirst
      obtain ⟨c, hc⟩ := hruns _ (.workerFirstAction hi hk)
      exact (runs_workerFirstAction c _ hreads (isInt_floor_numBuckets hn hbound) hcore
        (hint.isInt_dependent hk) hrange).mp hc

/-- The commands before the paths run exactly when the tables hold the executions. -/
theorem runs_setup_iff {o : Objects} (ho : o.Created) {nfs : List Nat}
    (hsfc : Sfc.new o nfs = some sfc)
    (hused : ∀ s ∈ sfc.stateInstanceList, s.actionInstanceList ≠ []) (hn : 0 < n)
    (hne : sfc.actionInstanceList ≠ []) (hint : IsCChain sfc n core) {setup : List Command}
    (hsetup : (uniformModel sfc n core).setupCommands = some setup) {H : Type} (c : Config H) :
    Runs (sendCommands c setup) ↔ SetupFits sfc n core := by
  have h := wellFormed_of_new ho hsfc
  have hmem {command : Command} : command ∈ setup ↔ SetupCommand sfc n core command :=
    mem_setupCommands_iff h hused hn hne hsetup
  constructor
  · intro hrun
    exact setupFits_of_runs ho hsfc hused hn hne hint hsetup fun command hcommand ↦
      exists_runs_of_sendCommands hrun (hmem.mpr hcommand)
  · intro hfits
    exact runs_sendCommands (fun command hcommand d ↦
      runs_setupCommand h hused hn hne hint hfits (hmem.mp hcommand) d) c

end

end Nflambda.Deploy
