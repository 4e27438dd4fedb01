import Mathlib.Algebra.BigOperators.Ring.Finset
import Mathlib.Algebra.Order.Ring.Int
import Mathlib.Data.BitVec
import Nflambda.Base.Periodic
import Nflambda.Runtime.FlowTable

/-!
# The flow counters

Library `Runtime`. What the counters of a state hold after the messages that
`generic_decomposed_control_action` and `generic_decomposed_data_action`,
`src/runtime/nf/generic_decomposed.h:51–89`, have handled, between changes of the range of keys.
The key cursor of the state decides which counter a message adds to.
-/

namespace Nflambda.Runtime

open Nflambda.Base

/-- What `rte_hash` promises for the keys of a table: each has a position of its own that it keeps,
and a new one is added while there is room. -/
class RteHashPositions (H : Type) [RteHash H] extends RteHashContract H where
  keys : H → Finset Ipv4FiveTuple
  capacity : H → Nat
  lookup_eq_iff : ∀ (table : H) (key : Ipv4FiveTuple),
    RteHash.lookup table key = -ENOENT ↔ key ∉ keys table
  lookup_inj : ∀ (table : H) (key key' : Ipv4FiveTuple), key ∈ keys table → key' ∈ keys table →
    RteHash.lookup table key = RteHash.lookup table key' → key = key'
  keys_addKey : ∀ (table : H) (key : Ipv4FiveTuple), key ∉ keys table →
    (keys table).card < capacity table → keys (RteHash.addKey table key).1 = insert key (keys table)
  addKey_snd : ∀ (table : H) (key : Ipv4FiveTuple), key ∉ keys table →
    (keys table).card < capacity table →
    (RteHash.addKey table key).2 = RteHash.lookup (RteHash.addKey table key).1 key
  lookup_addKey : ∀ (table : H) (key key' : Ipv4FiveTuple), key ∉ keys table →
    (keys table).card < capacity table → key' ∈ keys table →
    RteHash.lookup (RteHash.addKey table key).1 key' = RteHash.lookup table key'
  capacity_addKey : ∀ (table : H) (key : Ipv4FiveTuple),
    capacity (RteHash.addKey table key).1 = capacity table
  count_eq : ∀ table : H, RteHash.count table = (keys table).card

/-- The event is a message for `generic_decomposed_parallel_data_action`. -/
def FlowEvent.IsParallel : FlowEvent → Prop
  | .parallel _ _ => True
  | _ => False

/-- The event does not change the range of keys to another one than `R`. -/
def FlowEvent.Keeps (R : Int) : FlowEvent → Prop
  | .create parameter _ => parameter.dataStateSize = R
  | .dataState val _ => val = R
  | _ => True

/-- The key with another `ip_src`. -/
def Ipv4FiveTuple.withIpSrc (key : Ipv4FiveTuple) (ipSrc : BitVec 32) : Ipv4FiveTuple :=
  { key with ipSrc }

/-- `key.ip_src = (key.ip_src + 1) % rand_range`, `generic_decomposed.h:56,76`. -/
def advance (key : Ipv4FiveTuple) (randRange : Int) : Ipv4FiveTuple :=
  key.withIpSrc ((key.ipSrc + 1) % BitVec.ofInt 32 randRange)

/-- The keys to which the messages among some events advance the cursor, in order. -/
def keysVisited (key : Ipv4FiveTuple) (randRange : Int) : List FlowEvent → List Ipv4FiveTuple
  | [] => []
  | .control _ :: es => advance key randRange :: keysVisited (advance key randRange) randRange es
  | .data _ :: es => advance key randRange :: keysVisited (advance key randRange) randRange es
  | .parallel _ _ :: es => keysVisited key randRange es
  | .create parameter _ :: es => keysVisited key parameter.dataStateSize es
  | .dataState val _ :: es => keysVisited key val es

variable {H : Type} [RteHash H]

/-- `value[rte_hash_lookup(hash_table, key)]`. -/
def counterOf (state : State H) (key : Ipv4FiveTuple) : Option (BitVec 32) :=
  (idx? VALUE_SIZE (RteHash.lookup state.hashTable key)).map state.value

variable [RteHashPositions H]

open RteHashPositions

/-- The counters of a state that had none and has handled messages for some keys since. Until the
first of them, `hash_table_size` is whatever it was. -/
structure FlowCounters (first state : State H) (visits : List Ipv4FiveTuple) : Prop where
  present : keys state.hashTable = visits.toFinset
  value : ∀ key ∈ keys state.hashTable,
    counterOf state key = some (BitVec.ofNat 32 (visits.count key))
  total : ∑ key ∈ keys state.hashTable, visits.count key = visits.length
  sum : ∑ key ∈ keys state.hashTable, (counterOf state key).getD 0 = BitVec.ofNat 32 visits.length
  /-- As long as no counter wraps, the sum is exact. -/
  sum_toNat : visits.length < 2 ^ 32 →
    ∑ key ∈ keys state.hashTable, ((counterOf state key).getD 0).toNat = visits.length
  size : state.hashTableSize =
    if visits = [] then first.hashTableSize else (visits.toFinset.card : Int)

/-- Two keys are present, and one has at most one message more than the other. -/
structure Balanced (state : State H) (visits : List Ipv4FiveTuple) (key key' : Ipv4FiveTuple) :
    Prop where
  mem : key ∈ keys state.hashTable ∧ key' ∈ keys state.hashTable
  visits : visits.count key ≤ visits.count key' + 1 ∧ visits.count key' ≤ visits.count key + 1
  value : ∃ v v', counterOf state key = some v ∧ counterOf state key' = some v' ∧
    (v = v' ∨ v = v' + 1 ∨ v' = v + 1)

/-! ### One message -/

/-- What a message does to a state: the cursor moves on, and the counter at its position is set to
one or goes up by one. -/
structure Advanced (state t : State H) (j : Fin VALUE_SIZE) : Prop where
  key : t.key = nextKey state
  randRange : t.randRange = state.randRange
  present : keys t.hashTable = insert (nextKey state) (keys state.hashTable)
  room : capacity t.hashTable = capacity state.hashTable
  lookup : ∀ key ∈ keys state.hashTable,
    RteHash.lookup t.hashTable key = RteHash.lookup state.hashTable key
  position : RteHash.lookup t.hashTable (nextKey state) = (j.val : Int)
  value : t.value = Function.update state.value j
    (if nextKey state ∈ keys state.hashTable then state.value j + 1 else 1)
  size : t.hashTableSize = ((keys t.hashTable).card : Int)

/-- A key that is present has a position inside `value`. -/
theorem lookup_of_mem {table : H} {key : Ipv4FiveTuple} (h : key ∈ keys table) :
    ∃ j : Fin VALUE_SIZE, RteHash.lookup table key = (j.val : Int) := by
  have hcases := RteHashContract.lookup_cases table key
  have habsent : RteHash.lookup table key ≠ -ENOENT := fun hn ↦ (lookup_eq_iff table key).mp hn h
  obtain ⟨hpos, hle⟩ := hcases.resolve_right habsent
  refine ⟨⟨(RteHash.lookup table key).toNat, ?_⟩, ?_⟩
  · simp only [VALUE_SIZE, HASH_ENTRIES] at hle ⊢
    omega
  · exact (Int.toNat_of_nonneg hpos).symm

omit [RteHash H] [RteHashPositions H] in
private theorem writeValue_natCast (state : State H) (j : Fin VALUE_SIZE)
    (f : BitVec 32 → BitVec 32) : writeValue state (j.val : Int) f =
      .ok { state with value := Function.update state.value j (f (state.value j)) } := by
  unfold writeValue
  rw [idx?_natCast _ j.isLt]

/-- The state after a message whose key is present. -/
private theorem advanced_of_mem {state : State H} (hmem : nextKey state ∈ keys state.hashTable)
    {j : Fin VALUE_SIZE} (hj : RteHash.lookup state.hashTable (nextKey state) = (j.val : Int)) :
    Advanced state { state with
      key := nextKey state
      value := Function.update state.value j (state.value j + 1)
      hashTableSize := (RteHash.count state.hashTable : Int)
      nMessage := state.nMessage + 1 } j where
  key := rfl
  randRange := rfl
  present := (Finset.insert_eq_of_mem hmem).symm
  room := rfl
  lookup _ _ := rfl
  position := hj
  value := by rw [if_pos hmem]
  size := congrArg Nat.cast (count_eq state.hashTable)

/-- The state after a message whose key is new. -/
private theorem advanced_of_notMem {state : State H}
    (habsent : nextKey state ∉ keys state.hashTable)
    (hroom : (keys state.hashTable).card < capacity state.hashTable) {j : Fin VALUE_SIZE}
    (hj : (RteHash.addKey state.hashTable (nextKey state)).2 = (j.val : Int)) :
    Advanced state { state with
      key := nextKey state
      hashTable := (RteHash.addKey state.hashTable (nextKey state)).1
      value := Function.update state.value j 1
      hashTableSize :=
        (RteHash.count (RteHash.addKey state.hashTable (nextKey state)).1 : Int)
      nMessage := state.nMessage + 1 } j where
  key := rfl
  randRange := rfl
  present := keys_addKey _ _ habsent hroom
  room := capacity_addKey _ _
  lookup key hkey := lookup_addKey _ _ key habsent hroom hkey
  position := (addKey_snd _ _ habsent hroom).symm.trans hj
  value := by rw [if_neg habsent]
  size := congrArg Nat.cast (count_eq _)

/-- The position of a key that has been added. -/
private theorem addKey_position {table : H} {key : Ipv4FiveTuple} (habsent : key ∉ keys table)
    (hroom : (keys table).card < capacity table) :
    ∃ j : Fin VALUE_SIZE, (RteHash.addKey table key).2 = (j.val : Int) := by
  have hmem : key ∈ keys (RteHash.addKey table key).1 := by
    rw [keys_addKey table key habsent hroom]
    exact Finset.mem_insert_self ..
  obtain ⟨j, hj⟩ := lookup_of_mem hmem
  exact ⟨j, (addKey_snd table key habsent hroom).trans hj⟩

/-- A message for `generic_decomposed_control_action` moves the cursor on. -/
theorem flowResult_control {state : State H} (h : BitVec.ofInt 32 state.randRange ≠ 0)
    (hroom : nextKey state ∉ keys state.hashTable →
      (keys state.hashTable).card < capacity state.hashTable) (m : Message) :
    ∃ t j, flowResult state (.control m) = .ok t ∧ Advanced state t j := by
  have hr : flowResult state (.control m) =
      (genericDecomposedControlAction state m).map Prod.fst := rfl
  rw [genericDecomposedControlAction, nextIpSrc_of_ne h] at hr
  change _ = Except.map Prod.fst (if RteHash.lookup state.hashTable (nextKey state) = -ENOENT
    then (if (RteHash.addKey state.hashTable (nextKey state)).2 ≥ 0
      then writeValue _ (RteHash.addKey state.hashTable (nextKey state)).2 _ >>= _ else _)
    else writeValue _ (RteHash.lookup state.hashTable (nextKey state)) _ >>= _) at hr
  by_cases hmem : nextKey state ∈ keys state.hashTable
  · obtain ⟨j, hj⟩ := lookup_of_mem hmem
    rw [if_neg fun hn ↦ (lookup_eq_iff _ _).mp hn hmem, hj, writeValue_natCast] at hr
    exact ⟨_, j, hr, advanced_of_mem hmem hj⟩
  · obtain ⟨j, hj⟩ := addKey_position hmem (hroom hmem)
    have hpos : (RteHash.addKey state.hashTable (nextKey state)).2 ≥ 0 := by
      rw [hj]
      exact Int.natCast_nonneg _
    rw [if_pos ((lookup_eq_iff _ _).mpr hmem), if_pos hpos, hj, writeValue_natCast] at hr
    exact ⟨_, j, hr, advanced_of_notMem hmem (hroom hmem) hj⟩

/-- A message for `generic_decomposed_data_action` moves the cursor on. -/
theorem flowResult_data {state : State H} (h : BitVec.ofInt 32 state.randRange ≠ 0)
    (hroom : nextKey state ∉ keys state.hashTable →
      (keys state.hashTable).card < capacity state.hashTable) (m : Message) :
    ∃ t j, flowResult state (.data m) = .ok t ∧ Advanced state t j := by
  have hr : flowResult state (.data m) =
      (genericDecomposedDataAction state m).map Prod.fst := rfl
  rw [genericDecomposedDataAction, nextIpSrc_of_ne h] at hr
  change _ = Except.map Prod.fst (if RteHash.lookup state.hashTable (nextKey state) = -ENOENT
    then writeValue _ (RteHash.addKey state.hashTable (nextKey state)).2 _ >>= _
    else writeValue _ (RteHash.lookup state.hashTable (nextKey state)) _ >>= _) at hr
  by_cases hmem : nextKey state ∈ keys state.hashTable
  · obtain ⟨j, hj⟩ := lookup_of_mem hmem
    rw [if_neg fun hn ↦ (lookup_eq_iff _ _).mp hn hmem, hj, writeValue_natCast] at hr
    exact ⟨_, j, hr, advanced_of_mem hmem hj⟩
  · obtain ⟨j, hj⟩ := addKey_position hmem (hroom hmem)
    rw [if_pos ((lookup_eq_iff _ _).mpr hmem), hj, writeValue_natCast] at hr
    exact ⟨_, j, hr, advanced_of_notMem hmem (hroom hmem) hj⟩

/-! ### Runs -/

/-- The counters of all keys add up to the number of messages. -/
theorem FlowCounters.of_value {first state : State H} {visits : List Ipv4FiveTuple}
    (hkeys : keys state.hashTable = visits.toFinset)
    (hvalue : ∀ key ∈ keys state.hashTable,
      counterOf state key = some (BitVec.ofNat 32 (visits.count key)))
    (hsize : state.hashTableSize =
      if visits = [] then first.hashTableSize else (visits.toFinset.card : Int)) :
    FlowCounters first state visits where
  present := hkeys
  value := hvalue
  total := by rw [hkeys, List.sum_toFinset_count_eq_length]
  sum := by
    have hcount : ∀ key ∈ keys state.hashTable,
        (counterOf state key).getD 0 = ((visits.count key : Nat) : BitVec 32) := by
      intro key hkey
      rw [hvalue key hkey, Option.getD_some]
      exact (BitVec.natCast_eq_ofNat ..).symm
    rw [Finset.sum_congr rfl hcount, ← Nat.cast_sum, hkeys, List.sum_toFinset_count_eq_length]
    exact BitVec.natCast_eq_ofNat ..
  sum_toNat hlt := by
    have hcount : ∀ key ∈ keys state.hashTable,
        ((counterOf state key).getD 0).toNat = visits.count key := by
      intro key hkey
      have hle : visits.count key ≤ visits.length := List.count_le_length
      rw [hvalue key hkey, Option.getD_some, BitVec.toNat_ofNat, Nat.mod_eq_of_lt (by omega)]
    rw [Finset.sum_congr rfl hcount, hkeys, List.sum_toFinset_count_eq_length]
  size := hsize

/-- A message adds to the counter of the key that it advances the cursor to. -/
theorem FlowCounters.message {first state t : State H} {visits : List Ipv4FiveTuple}
    {j : Fin VALUE_SIZE} (h : FlowCounters first state visits) (ha : Advanced state t j) :
    FlowCounters first t (visits ++ [nextKey state]) := by
  have hkeys : keys t.hashTable = (visits ++ [nextKey state]).toFinset := by
    rw [ha.present, h.present, List.toFinset_append]
    ext key
    simp [or_comm]
  refine .of_value hkeys (fun key hkey ↦ ?_) ?_
  · by_cases hnext : key = nextKey state
    · subst hnext
      have hcount : (visits ++ [nextKey state]).count (nextKey state) =
          visits.count (nextKey state) + 1 := by
        rw [List.count_append, List.count_singleton_self]
      rw [counterOf, ha.position, idx?_natCast _ j.isLt, Option.map_some, ha.value,
        Function.update_self, hcount, BitVec.ofNat_add]
      by_cases hmem : nextKey state ∈ keys state.hashTable
      · have hold := h.value _ hmem
        rw [counterOf, ← ha.lookup _ hmem, ha.position, idx?_natCast _ j.isLt, Option.map_some,
          Option.some.injEq] at hold
        rw [if_pos hmem, hold]
        rfl
      · have hzero : visits.count (nextKey state) = 0 := by
          rw [List.count_eq_zero, ← List.mem_toFinset, ← h.present]
          exact hmem
        rw [if_neg hmem, hzero]
        rfl
    · have hmem : key ∈ keys state.hashTable := by
        rw [ha.present] at hkey
        exact Finset.mem_of_mem_insert_of_ne hkey hnext
      obtain ⟨i, hi⟩ := lookup_of_mem hmem
      have hij : i ≠ j := by
        rintro rfl
        have hnextmem : nextKey state ∈ keys t.hashTable := by
          rw [ha.present]
          exact Finset.mem_insert_self ..
        have hsame := ((ha.lookup key hmem).trans hi).trans ha.position.symm
        exact hnext (lookup_inj _ _ _ hkey hnextmem hsame)
      have hcount : (visits ++ [nextKey state]).count key = visits.count key := by
        rw [List.count_append, List.count_singleton, if_neg, Nat.add_zero]
        simpa using Ne.symm hnext
      have hold := h.value key hmem
      rw [counterOf, hi, idx?_natCast _ i.isLt, Option.map_some] at hold
      rw [counterOf, ha.lookup key hmem, hi, idx?_natCast _ i.isLt, Option.map_some, ha.value,
        Function.update_of_ne hij, hcount]
      exact hold
  · rw [ha.size, hkeys, if_neg]
    exact List.append_ne_nil_of_right_ne_nil _ (List.cons_ne_nil _ _)

/-- A change of the range of keys leaves the counters as they are. -/
theorem FlowCounters.of_eq {first state t : State H} {visits : List Ipv4FiveTuple}
    (h : FlowCounters first state visits) (htable : t.hashTable = state.hashTable)
    (hvalue : t.value = state.value) (hsize : t.hashTableSize = state.hashTableSize) :
    FlowCounters first t visits := by
  have hcounter : counterOf t = counterOf state := by
    funext key
    rw [counterOf, counterOf, htable, hvalue]
  refine .of_value (htable ▸ h.present) (fun key hkey ↦ ?_) (hsize.trans h.size)
  rw [hcounter]
  exact h.value key (htable ▸ hkey)

omit [RteHashPositions H] in
private theorem run_flowStep_cons {state : State H} {e : FlowEvent} {t : State H}
    (h : flowResult state e = .ok t) (es : List FlowEvent) :
    run flowStep state (e :: es) = run flowStep t es := by
  rw [run, flowStep, h]
  rfl

/-- A message that the table has room for, in the course of a run. -/
private theorem room_of_visits {first state : State H} {visits rest : List Ipv4FiveTuple}
    (h : FlowCounters first state visits)
    (hcap : (visits ++ nextKey state :: rest).toFinset.card ≤ capacity state.hashTable) :
    nextKey state ∉ keys state.hashTable →
      (keys state.hashTable).card < capacity state.hashTable := by
  intro habsent
  refine Nat.lt_of_lt_of_le (Finset.card_lt_card ?_) hcap
  rw [h.present] at habsent ⊢
  refine Finset.ssubset_iff_of_subset ?_ |>.mpr ⟨nextKey state, ?_, habsent⟩
  · intro key hkey
    rw [List.mem_toFinset] at hkey ⊢
    exact List.mem_append_left _ hkey
  · rw [List.mem_toFinset]
    exact List.mem_append_right _ List.mem_cons_self

/-- The counters at the end of a run, and that the run comes to its end. -/
theorem FlowCounters.run {first : State H} (es : List FlowEvent)
    (hes : ∀ e ∈ es, ¬ e.IsParallel) : ∀ (state : State H) (visits : List Ipv4FiveTuple),
      FlowCounters first state visits →
      (visits ++ keysVisited state.key state.randRange es).toFinset.card ≤
        capacity state.hashTable →
      (∀ t, Base.run flowStep state es = some t →
        FlowCounters first t (visits ++ keysVisited state.key state.randRange es)) ∧
      (BitVec.ofInt 32 state.randRange ≠ 0 → ∃ t, Base.run flowStep state es = some t) := by
  induction es with
  | nil =>
    intro state visits h _
    rw [keysVisited, List.append_nil]
    refine ⟨fun t ht ↦ ?_, fun _ ↦ ⟨state, run_nil state⟩⟩
    rw [run_nil, Option.some.injEq] at ht
    exact ht ▸ h
  | cons e es ih =>
    intro state visits h hcap
    have ih := ih fun e' he' ↦ hes e' (List.mem_cons_of_mem e he')
    -- a message advances the cursor, or finds a range of zero
    have hmessage (hvisited : keysVisited state.key state.randRange (e :: es) =
          nextKey state :: keysVisited (nextKey state) state.randRange es)
        (hzero : BitVec.ofInt 32 state.randRange = 0 → flowStep state e = none)
        (hspec : BitVec.ofInt 32 state.randRange ≠ 0 → (nextKey state ∉ keys state.hashTable →
          (keys state.hashTable).card < capacity state.hashTable) →
          ∃ t j, flowResult state e = .ok t ∧ Advanced state t j) :
        (∀ t, Base.run flowStep state (e :: es) = some t →
          FlowCounters first t (visits ++ keysVisited state.key state.randRange (e :: es))) ∧
        (BitVec.ofInt 32 state.randRange ≠ 0 →
          ∃ t, Base.run flowStep state (e :: es) = some t) := by
      rw [hvisited] at hcap ⊢
      by_cases hrange : BitVec.ofInt 32 state.randRange = 0
      · refine ⟨fun t ht ↦ ?_, fun hne ↦ absurd hrange hne⟩
        rw [Base.run, hzero hrange] at ht
        cases ht
      · obtain ⟨t, j, ht, ha⟩ := hspec hrange (room_of_visits h hcap)
        rw [run_flowStep_cons ht]
        have hrest := ih t (visits ++ [nextKey state]) (h.message ha)
        rw [ha.key, ha.randRange, ha.room, List.append_assoc, List.singleton_append] at hrest
        exact ⟨(hrest hcap).1, fun _ ↦ (hrest hcap).2 hrange⟩
    cases e with
    | control m =>
      refine hmessage rfl (fun h0 ↦ ?_) fun hne hroom ↦ flowResult_control hne hroom m
      rw [flowStep, flowResult, genericDecomposedControlAction, nextIpSrc, if_pos h0]
      rfl
    | data m =>
      refine hmessage rfl (fun h0 ↦ ?_) fun hne hroom ↦ flowResult_data hne hroom m
      rw [flowStep, flowResult, genericDecomposedDataAction, nextIpSrc, if_pos h0]
      rfl
    | parallel rand m => exact absurd trivial (hes _ List.mem_cons_self)
    | create parameter hp =>
      have hrest := ih (stateUpdate state parameter) visits (h.of_eq rfl rfl rfl) hcap
      exact ⟨hrest.1, fun _ ↦ hrest.2 hp.ofInt_ne_zero⟩
    | dataState val hv =>
      have hrest := ih { state with randRange := val } visits (h.of_eq rfl rfl rfl) hcap
      exact ⟨hrest.1, fun _ ↦ hrest.2 hv.ofInt_ne_zero⟩

/-! ### A fixed range of keys -/

omit [RteHash H] [RteHashPositions H] in
/-- While the range stays fixed, the cursor passes through all residues in turn. -/
theorem keysVisited_fixed {R : Int} (hR : PositiveRange R) (es : List FlowEvent)
    (hes : ∀ e ∈ es, e.Keeps R) : ∀ key : Ipv4FiveTuple, keysVisited key R es =
      (List.range (keysVisited key R es).length).map fun i ↦
        key.withIpSrc (BitVec.ofNat 32 (((key.ipSrc + 1).toNat + i) % R.toNat)) := by
  have hmodulus : (BitVec.ofInt 32 R).toNat = R.toNat := by
    obtain ⟨hpos, hlt⟩ := hR
    rw [BitVec.toNat_ofInt]
    change (R % 2 ^ 32).toNat = _
    omega
  have hadvance (key : Ipv4FiveTuple) :
      (advance key R).ipSrc = BitVec.ofNat 32 ((key.ipSrc + 1).toNat % R.toNat) := by
    show (key.ipSrc + 1) % BitVec.ofInt 32 R = _
    rw [← hmodulus, ← BitVec.toNat_umod, BitVec.ofNat_toNat, BitVec.setWidth_eq]
  have hnext (key : Ipv4FiveTuple) (i : Nat) :
      ((advance key R).ipSrc + 1).toNat + i ≡ (key.ipSrc + 1).toNat + (i + 1) [MOD R.toNat] := by
    have hlt : (key.ipSrc + 1).toNat % R.toNat < R.toNat :=
      Nat.mod_lt _ (by obtain ⟨hpos, -⟩ := hR; omega)
    have hsucc : ((advance key R).ipSrc + 1).toNat = (key.ipSrc + 1).toNat % R.toNat + 1 := by
      obtain ⟨-, hlt31⟩ := hR
      rw [BitVec.toNat_add, hadvance, BitVec.toNat_ofNat]
      change (_ % 2 ^ 32 + 1) % 2 ^ 32 = _
      omega
    rw [hsucc, Nat.add_assoc, Nat.add_comm 1 i]
    exact Nat.ModEq.add_right _ (Nat.mod_modEq _ _)
  have hmessage (es : List FlowEvent) (ih : ∀ key : Ipv4FiveTuple, keysVisited key R es =
        (List.range (keysVisited key R es).length).map fun i ↦
          key.withIpSrc (BitVec.ofNat 32 (((key.ipSrc + 1).toNat + i) % R.toNat)))
      (key : Ipv4FiveTuple) : advance key R :: keysVisited (advance key R) R es =
        (List.range (keysVisited (advance key R) R es).length.succ).map fun i ↦
          key.withIpSrc (BitVec.ofNat 32 (((key.ipSrc + 1).toNat + i) % R.toNat)) := by
    rw [List.range_succ_eq_map, List.map_cons, List.map_map]
    refine congrArg₂ List.cons ?_ ((ih (advance key R)).trans (List.map_congr_left fun i _ ↦ ?_))
    · rw [Nat.add_zero, ← hadvance]
      rfl
    · have hmod : (((advance key R).ipSrc + 1).toNat + i) % R.toNat =
          ((key.ipSrc + 1).toNat + (i + 1)) % R.toNat := hnext key i
      rw [hmod]
      rfl
  induction es with
  | nil => exact fun _ ↦ rfl
  | cons e es ih =>
    have ih := ih fun e' he' ↦ hes e' (List.mem_cons_of_mem e he')
    intro key
    have he := hes e List.mem_cons_self
    cases e with
    | control m => exact hmessage es ih key
    | data m => exact hmessage es ih key
    | parallel rand m => exact ih key
    | create parameter hp =>
      have hsame : parameter.dataStateSize = R := he
      rw [keysVisited, hsame]
      exact ih key
    | dataState val hv =>
      have hsame : val = R := he
      rw [keysVisited, hsame]
      exact ih key

omit [RteHash H] [RteHashPositions H] in
/-- After any number of messages, each of the keys has had as many of them as complete rounds fit
in, or one more. -/
theorem count_keysVisited {R : Int} (hR : PositiveRange R) {es : List FlowEvent}
    (hes : ∀ e ∈ es, e.Keeps R) (key : Ipv4FiveTuple) {r : BitVec 32} (hr : (r.toNat : Int) < R) :
    (keysVisited key R es).length / R.toNat ≤
        (keysVisited key R es).count (key.withIpSrc r) ∧
      (keysVisited key R es).count (key.withIpSrc r) ≤
        (keysVisited key R es).length / R.toNat + 1 := by
  have hcount : (keysVisited key R es).count (key.withIpSrc r) =
      Nat.count (fun i ↦ ((key.ipSrc + 1).toNat + i) % R.toNat = r.toNat)
        (keysVisited key R es).length := by
    rw [keysVisited_fixed hR es hes key, List.length_map, List.length_range, List.count,
      List.countP_map, Nat.count]
    refine List.countP_congr fun i _ ↦ ?_
    have hlt : ((key.ipSrc + 1).toNat + i) % R.toNat < 2 ^ 32 := by
      obtain ⟨hpos, hlt31⟩ := hR
      have hmod := Nat.mod_lt ((key.ipSrc + 1).toNat + i) (y := R.toNat) (by omega)
      omega
    have hip : ∀ a : BitVec 32, key.withIpSrc a = key.withIpSrc r ↔ a = r := fun a ↦
      ⟨congrArg Ipv4FiveTuple.ipSrc, congrArg key.withIpSrc⟩
    rw [Function.comp, beq_iff_eq, decide_eq_true_eq, hip]
    rw [← BitVec.toNat_inj, BitVec.toNat_ofNat, Nat.mod_eq_of_lt hlt]
  rw [hcount]
  exact count_residue _ _ _ (by omega)

/-- For every sequence of messages for the control and the data action between changes of the range
of keys, no update is lost while the table has room for the keys: every counter holds the number of
messages that advanced the cursor to its key, and once there has been a message `hash_table_size`
is the number of those keys. If the range stays `R`, then after `R` messages there are `R` counters
that differ by at most one. -/
theorem flow_counters (state : State H) (hempty : keys state.hashTable = ∅) (es : List FlowEvent)
    (hes : ∀ e ∈ es, ¬ e.IsParallel)
    (hcap : (keysVisited state.key state.randRange es).toFinset.card ≤ capacity state.hashTable) :
    (∀ t, run flowStep state es = some t →
      FlowCounters state t (keysVisited state.key state.randRange es)) ∧
    (BitVec.ofInt 32 state.randRange ≠ 0 → ∃ t, run flowStep state es = some t) ∧
    ∀ R, PositiveRange R → state.randRange = R → (∀ e ∈ es, e.Keeps R) →
      R.toNat ≤ (keysVisited state.key R es).length → ∀ t, run flowStep state es = some t →
      ∀ r r' : BitVec 32, (r.toNat : Int) < R → (r'.toNat : Int) < R →
        Balanced t (keysVisited state.key R es) (state.key.withIpSrc r)
          (state.key.withIpSrc r') := by
  have h0 : FlowCounters state state [] :=
    .of_value hempty (fun key hkey ↦ absurd (hempty ▸ hkey) (Finset.notMem_empty key)) rfl
  obtain ⟨hcounters, hsome⟩ := FlowCounters.run es hes state [] h0 hcap
  refine ⟨hcounters, hsome, fun R hR hrange hkeeps hlen t ht r r' hr hr' ↦ ?_⟩
  subst hrange
  have h := hcounters t ht
  have hround : 1 ≤ (keysVisited state.key state.randRange es).length / state.randRange.toNat :=
    (Nat.one_le_div_iff (by obtain ⟨hpos, -⟩ := hR; omega)).mpr hlen
  obtain ⟨hle, hge⟩ := count_keysVisited hR hkeeps state.key hr
  obtain ⟨hle', hge'⟩ := count_keysVisited hR hkeeps state.key hr'
  have hmem (key : Ipv4FiveTuple)
      (hkey : 1 ≤ (keysVisited state.key state.randRange es).count key) :
      key ∈ keys t.hashTable := by
    rw [h.present, List.nil_append, List.mem_toFinset, ← List.count_pos_iff]
    exact hkey
  have hm := hmem _ (Nat.le_trans hround hle)
  have hm' := hmem _ (Nat.le_trans hround hle')
  refine ⟨⟨hm, hm'⟩, ⟨by omega, by omega⟩, _, _, h.value _ hm, h.value _ hm', ?_⟩
  rw [List.nil_append]
  have hcases : ∀ a b : Nat, a ≤ b + 1 → b ≤ a + 1 → BitVec.ofNat 32 a = BitVec.ofNat 32 b ∨
      BitVec.ofNat 32 a = BitVec.ofNat 32 b + 1 ∨ BitVec.ofNat 32 b = BitVec.ofNat 32 a + 1 := by
    intro a b hab hba
    obtain rfl | rfl | rfl : a = b ∨ a = b + 1 ∨ b = a + 1 := by omega
    · exact .inl rfl
    · exact .inr (.inl (BitVec.ofNat_add ..))
    · exact .inr (.inr (BitVec.ofNat_add ..))
  exact hcases _ _ (by omega) (by omega)

/-- A table whose keys are distinct. -/
def KeySet (entries : Nat) : Type := { table : KeyTable entries // table.keys.Nodup }

omit [RteHash H] [RteHashPositions H] in
private theorem nodup_add {entries : Nat} {table : KeyTable entries} (h : table.keys.Nodup)
    (key : Ipv4FiveTuple) : (table.add key).1.keys.Nodup := by
  unfold KeyTable.add
  split
  · exact h
  · next hmem =>
    split
    · exact List.nodup_append.mpr ⟨h, List.nodup_singleton key, fun a ha b hb hab ↦
        hmem (List.mem_singleton.mp hb ▸ hab ▸ ha)⟩
    · exact h

instance (entries : Nat) : RteHash (KeySet entries) where
  lookup table key := RteHash.lookup table.1 key
  addKey table key := (⟨(table.1.add key).1, nodup_add table.2 key⟩, (table.1.add key).2)
  count table := RteHash.count table.1

omit [RteHash H] [RteHashPositions H] in
private theorem add_of_notMem {entries : Nat} {table : KeyTable entries} {key : Ipv4FiveTuple}
    (habsent : key ∉ table.keys) (hroom : table.keys.length < entries) :
    (table.add key).1.keys = table.keys ++ [key] ∧
      (table.add key).2 = (table.keys.length : Int) := by
  unfold KeyTable.add
  rw [if_neg habsent, dif_pos hroom]
  exact ⟨rfl, rfl⟩

omit [RteHash H] [RteHashPositions H] in
private theorem lookup_keyTable {entries : Nat} {table : KeyTable entries} {key : Ipv4FiveTuple}
    (h : key ∈ table.keys) : RteHash.lookup table key = (table.keys.idxOf key : Int) := if_pos h

instance : RteHashPositions (KeySet HASH_ENTRIES) where
  lookup_cases table key := RteHashContract.lookup_cases table.1 key
  addKey_cases table key := RteHashContract.addKey_cases table.1 key
  keys table := table.1.keys.toFinset
  capacity _ := HASH_ENTRIES
  lookup_eq_iff table key := by
    show (if key ∈ table.1.keys then (table.1.keys.idxOf key : Int) else -ENOENT) = _ ↔ _
    rw [List.mem_toFinset]
    split
    · next hmem =>
      refine iff_of_false (fun hn ↦ ?_) (fun hn ↦ hn hmem)
      have hpos : (0 : Int) ≤ -ENOENT := hn ▸ Int.natCast_nonneg _
      exact absurd hpos (by decide)
    · next habsent => exact iff_of_true rfl habsent
  lookup_inj table key key' hkey hkey' h := by
    rw [List.mem_toFinset] at hkey hkey'
    change RteHash.lookup table.1 key = RteHash.lookup table.1 key' at h
    rw [lookup_keyTable hkey, lookup_keyTable hkey', Int.natCast_inj] at h
    exact (List.idxOf_inj hkey).mp h
  keys_addKey table key habsent hroom := by
    rw [List.mem_toFinset] at habsent
    rw [List.toFinset_card_of_nodup table.2] at hroom
    show (table.1.add key).1.keys.toFinset = _
    rw [(add_of_notMem habsent hroom).1]
    ext key'
    simp
  addKey_snd table key habsent hroom := by
    rw [List.mem_toFinset] at habsent
    rw [List.toFinset_card_of_nodup table.2] at hroom
    obtain ⟨hkeys, hposition⟩ := add_of_notMem habsent hroom
    show (table.1.add key).2 = RteHash.lookup (table.1.add key).1 key
    rw [lookup_keyTable (by rw [hkeys]; exact List.mem_append_right _ List.mem_cons_self),
      hposition, hkeys, List.idxOf_append_of_notMem habsent, List.idxOf_cons_self, Nat.add_zero]
  lookup_addKey table key key' habsent hroom hkey' := by
    rw [List.mem_toFinset] at habsent hkey'
    rw [List.toFinset_card_of_nodup table.2] at hroom
    obtain ⟨hkeys, -⟩ := add_of_notMem habsent hroom
    show RteHash.lookup (table.1.add key).1 key' = RteHash.lookup table.1 key'
    rw [lookup_keyTable (by rw [hkeys]; exact List.mem_append_left _ hkey'),
      lookup_keyTable hkey', hkeys, List.idxOf_append_of_mem hkey']
  capacity_addKey _ _ := rfl
  count_eq table := (List.toFinset_card_of_nodup table.2).symm

/-- Three messages for a state with an empty table and a range of two keys. -/
theorem flow_counters_two :
    ∃ t : State (KeySet HASH_ENTRIES),
      run flowStep { freshState with hashTable := ⟨.empty _, List.nodup_nil⟩, randRange := 2 }
        [.data ⟨0, 0, 0, 0, ⟨0, 0⟩, 0⟩, .control ⟨0, 0, 0, 0, ⟨0, 0⟩, 0⟩,
          .data ⟨0, 0, 0, 0, ⟨0, 0⟩, 0⟩] = some t ∧
      FlowCounters
        { freshState with hashTable := ⟨.empty _, List.nodup_nil⟩, randRange := 2 } t
        [⟨0, 1, 0, 0, 0⟩, ⟨0, 0, 0, 0, 0⟩, ⟨0, 1, 0, 0, 0⟩] ∧
      Balanced t [⟨0, 1, 0, 0, 0⟩, ⟨0, 0, 0, 0, 0⟩, ⟨0, 1, 0, 0, 0⟩] ⟨0, 0, 0, 0, 0⟩
        ⟨0, 1, 0, 0, 0⟩ := by
  obtain ⟨hcounters, hsome, hbalanced⟩ := flow_counters
    (H := KeySet HASH_ENTRIES)
    { freshState with hashTable := ⟨.empty _, List.nodup_nil⟩, randRange := 2 } rfl
    [.data ⟨0, 0, 0, 0, ⟨0, 0⟩, 0⟩, .control ⟨0, 0, 0, 0, ⟨0, 0⟩, 0⟩,
      .data ⟨0, 0, 0, 0, ⟨0, 0⟩, 0⟩] (by simp [FlowEvent.IsParallel])
    (Nat.le_trans (List.toFinset_card_le _) (by decide))
  obtain ⟨t, ht⟩ := hsome (by decide)
  refine ⟨t, ht, hcounters t ht, ?_⟩
  exact hbalanced 2 ⟨by decide, by decide⟩ rfl (by simp [FlowEvent.Keeps]) (by decide) t ht 0 1
    (by decide) (by decide)

/-- Before the first message, `hash_table_size` is whatever the memory of the state held. -/
theorem hashTableSize_before_message : ∃ t : State (KeySet HASH_ENTRIES),
    run flowStep
        { freshState with hashTable := ⟨.empty _, List.nodup_nil⟩, hashTableSize := 7 } [] =
      some t ∧
    t.hashTableSize ≠ ((keysVisited freshState.key freshState.randRange []).toFinset.card : Int) :=
  ⟨_, rfl, by decide⟩

end Nflambda.Runtime
