import Mathlib.Algebra.Order.Ring.Int
import Nflambda.Base.Transition
import Nflambda.Runtime.GenericDecomposed

/-!
# The positions of the flow counters

Library `Runtime`. Runs of the actions of `src/runtime/nf/generic_decomposed.h:51–112` on one
state, between changes of its range of keys by `state create` and `state data_state`,
`src/runtime/cli.c:114–120` and `170–178`. Each action writes to `value` at the position that
the flow table returns; `state_init`, `src/runtime/state/state.c:8–32`, creates the table with
200000 entries.
-/

namespace Nflambda.Runtime

open Nflambda.Base

/-- Entries of the tables that `state_init` creates, `state.c:20`. -/
abbrev HASH_ENTRIES : Nat := 200000

/-- The documented results of `rte_hash_lookup` and `rte_hash_add_key` on a table of
`HASH_ENTRIES` entries. -/
class RteHashContract (H : Type) [RteHash H] : Prop where
  lookup_cases : ∀ (table : H) (key : Ipv4FiveTuple),
    (0 ≤ RteHash.lookup table key ∧ RteHash.lookup table key ≤ (HASH_ENTRIES : Int)) ∨
      RteHash.lookup table key = -ENOENT
  addKey_cases : ∀ (table : H) (key : Ipv4FiveTuple),
    (0 ≤ (RteHash.addKey table key).2 ∧ (RteHash.addKey table key).2 ≤ (HASH_ENTRIES : Int)) ∨
      (RteHash.addKey table key).2 = -ENOSPC

/-- A table that keeps its keys in a list, each at its position, and has room for `entries` of
them. -/
structure KeyTable (entries : Nat) where
  keys : List Ipv4FiveTuple
  fits : keys.length ≤ entries

/-- An empty table. -/
def KeyTable.empty (entries : Nat) : KeyTable entries := ⟨[], Nat.zero_le _⟩

/-- A key that is absent is appended while there is room. -/
def KeyTable.add {entries : Nat} (table : KeyTable entries) (key : Ipv4FiveTuple) :
    KeyTable entries × Int :=
  if key ∈ table.keys then (table, (table.keys.idxOf key : Int))
  else if h : table.keys.length < entries then
    (⟨table.keys ++ [key], by rw [List.length_append]; exact h⟩, (table.keys.length : Int))
  else (table, -ENOSPC)

instance (entries : Nat) : RteHash (KeyTable entries) where
  lookup table key := if key ∈ table.keys then (table.keys.idxOf key : Int) else -ENOENT
  addKey := KeyTable.add
  count table := table.keys.length

instance : RteHashContract (KeyTable HASH_ENTRIES) where
  lookup_cases table key := by
    have hfits := table.fits
    show (0 ≤ (if key ∈ table.keys then (table.keys.idxOf key : Int) else -ENOENT) ∧ _) ∨
      (if key ∈ table.keys then (table.keys.idxOf key : Int) else -ENOENT) = _
    split
    · next hmem =>
      have hlt := List.idxOf_lt_length_of_mem hmem
      left
      show _ ∧ (if key ∈ table.keys then (table.keys.idxOf key : Int) else -ENOENT) ≤ _
      rw [if_pos hmem]
      omega
    · exact .inr rfl
  addKey_cases table key := by
    have hfits := table.fits
    show (0 ≤ (table.add key).2 ∧ (table.add key).2 ≤ _) ∨ (table.add key).2 = _
    unfold KeyTable.add
    split
    · next hmem =>
      have hlt := List.idxOf_lt_length_of_mem hmem
      left
      omega
    · split
      · next hlt =>
        left
        dsimp only
        omega
      · exact .inr rfl

/-- A range of keys that the CLI may set: a positive `int`. -/
def PositiveRange (r : Int) : Prop := 0 < r ∧ r < 2 ^ 31

/-- No such range is 0 as an unsigned number. -/
theorem PositiveRange.ofInt_ne_zero {r : Int} (h : PositiveRange r) : BitVec.ofInt 32 r ≠ 0 := by
  intro h0
  have hnat := congrArg BitVec.toNat h0
  obtain ⟨hpos, hlt⟩ := h
  rw [BitVec.toNat_ofInt] at hnat
  change (r % 2 ^ 32).toNat = 0 at hnat
  omega

/-- What happens to a state that takes part in the packet path. -/
inductive FlowEvent where
  /-- `generic_decomposed_control_action` handles a message. -/
  | control (m : Message)
  /-- `generic_decomposed_data_action` handles a message. -/
  | data (m : Message)
  /-- `generic_decomposed_parallel_data_action` handles a message, with a number from `rand`. -/
  | parallel (rand : Nat) (m : Message)
  /-- `state create` with a positive range in the parameters. -/
  | create (parameter : InitStateParameter) (h : PositiveRange parameter.dataStateSize)
  /-- `state data_state` with a positive range. -/
  | dataState (val : Int) (h : PositiveRange val)

variable {H : Type} [RteHash H]

/-- The state after an event, or the fault it ends in. -/
def flowResult (state : State H) : FlowEvent → Except Fault (State H)
  | .control m => (genericDecomposedControlAction state m).map Prod.fst
  | .data m => (genericDecomposedDataAction state m).map Prod.fst
  | .parallel rand m => (genericDecomposedParallelDataAction rand state m).map Prod.fst
  | .create parameter _ => .ok (stateUpdate state parameter)
  | .dataState val _ => .ok { state with randRange := val }

omit [RteHash H] in
/-- A state that an action leaves, with what else it returns. -/
theorem ok_of_map_fst {α : Type} {x : Except Fault (State H × α)} {t : State H}
    (h : x.map Prod.fst = .ok t) : ∃ r, x = .ok r ∧ r.1 = t := by
  cases x with
  | error e => cases h
  | ok r => exact ⟨r, rfl, Except.ok.inj h⟩

/-- One event of a run; a fault ends it. -/
def flowStep (state : State H) (e : FlowEvent) : Option (State H) :=
  (flowResult state e).toOption

/-- The event uses no position outside `value`. -/
def IndicesInRange (state : State H) (e : FlowEvent) : Prop :=
  flowResult state e ≠ .error .outOfBounds

omit [RteHash H] in
/-- The key with which the control and the data action continue. -/
def nextKey (state : State H) : Ipv4FiveTuple :=
  { state.key with ipSrc := (state.key.ipSrc + 1) % BitVec.ofInt 32 state.randRange }

omit [RteHash H] in
/-- The key that the parallel data action draws. -/
def randKey (state : State H) (rand : Nat) : Ipv4FiveTuple :=
  ⟨0, BitVec.ofInt 32 ((rand : Int).tmod state.randRange), 0, 0, 0⟩

/-- The flow table has what the action needs: the data action finds its key or has room for it,
the parallel data action finds its key and may add it. -/
def TableServes (state : State H) : FlowEvent → Prop
  | .data _ => RteHash.lookup state.hashTable (nextKey state) = -ENOENT →
      (RteHash.addKey state.hashTable (nextKey state)).2 ≠ -ENOSPC
  | .parallel rand _ => RteHash.lookup state.hashTable (randKey state rand) ≠ -ENOENT ∧
      (RteHash.addKey state.hashTable (randKey state rand)).2 ≠ -ENOSPC
  | .control _ | .create _ _ | .dataState _ _ => True

/-! ### The positions -/

omit [RteHash H] in
private theorem writeValue_eq (state : State H) (i : Int) (f : BitVec 32 → BitVec 32) :
    writeValue state i f = .error .outOfBounds ∨
      ∃ value, writeValue state i f = .ok { state with value } := by
  unfold writeValue
  split
  · exact .inl rfl
  · exact .inr ⟨_, rfl⟩

omit [RteHash H] in
/-- A position is outside `value` when it is negative or too large. -/
theorem writeValue_eq_error_iff (state : State H) (i : Int) (f : BitVec 32 → BitVec 32) :
    writeValue state i f = .error .outOfBounds ↔ i < 0 ∨ (VALUE_SIZE : Int) ≤ i := by
  rw [← idx?_eq_none_iff]
  unfold writeValue
  split
  · next h => simp [h]
  · next h => simp [h]

omit [RteHash H] in
/-- With a range other than 0, the cursor moves on. -/
theorem nextIpSrc_of_ne {state : State H} (h : BitVec.ofInt 32 state.randRange ≠ 0) :
    nextIpSrc state = .ok (nextKey state).ipSrc := by
  rw [nextIpSrc, if_neg h]
  rfl

omit [RteHash H] in
private theorem drawnKey_of_positive {state : State H} (h : PositiveRange state.randRange)
    (rand : Nat) : drawnKey state rand = .ok (randKey state rand) := by
  have hne : state.randRange ≠ 0 := by
    obtain ⟨hpos, -⟩ := h
    omega
  rw [drawnKey, if_neg hne]
  rfl

/-- What an event comes down to: it leaves `value` alone, or it writes at one position and then
updates other fields. -/
inductive FlowSpec (state : State H) (e : FlowEvent) : Prop
  | none (t : State H) (h : flowResult state e = .ok t) (hr : PositiveRange t.randRange)
    (hserves : TableServes state e)
  | write (st : State H) (i : Int) (f : BitVec 32 → BitVec 32) (g : State H → State H × Int)
    (h : flowResult state e = (writeValue st i f >>= fun s ↦ .ok (g s)).map Prod.fst)
    (hr : st.randRange = state.randRange) (hg : ∀ s, (g s).1.randRange = s.randRange)
    (hserves : (i < 0 ∨ (VALUE_SIZE : Int) ≤ i) ↔ ¬ TableServes state e)

variable [RteHashContract H]

private theorem lookup_outOfRange_iff (table : H) (key : Ipv4FiveTuple) :
    (RteHash.lookup table key < 0 ∨ (VALUE_SIZE : Int) ≤ RteHash.lookup table key) ↔
      RteHash.lookup table key = -ENOENT := by
  have h := RteHashContract.lookup_cases table key
  simp only [VALUE_SIZE, HASH_ENTRIES, ENOENT] at h ⊢
  omega

private theorem addKey_outOfRange_iff (table : H) (key : Ipv4FiveTuple) :
    ((RteHash.addKey table key).2 < 0 ∨ (VALUE_SIZE : Int) ≤ (RteHash.addKey table key).2) ↔
      (RteHash.addKey table key).2 = -ENOSPC := by
  have h := RteHashContract.addKey_cases table key
  simp only [VALUE_SIZE, HASH_ENTRIES, ENOSPC] at h ⊢
  omega

/-- The control action writes at the position of its key, or nothing when it cannot add the key. -/
theorem flowSpec_control {state : State H} (h : PositiveRange state.randRange) (m : Message) :
    FlowSpec state (.control m) := by
  have hr : flowResult state (.control m) =
      (genericDecomposedControlAction state m).map Prod.fst := rfl
  rw [genericDecomposedControlAction, nextIpSrc_of_ne h.ofInt_ne_zero] at hr
  change _ = Except.map Prod.fst (if RteHash.lookup state.hashTable (nextKey state) = -ENOENT
    then (if (RteHash.addKey state.hashTable (nextKey state)).2 ≥ 0 then _ else _) else _) at hr
  split at hr
  · split at hr
    · next hge =>
      refine .write _ _ _ _ hr rfl (fun _ ↦ rfl) ((addKey_outOfRange_iff ..).trans ?_)
      exact iff_of_false (fun hfull ↦ absurd (hfull ▸ hge) (by decide)) (fun hn ↦ hn trivial)
    · exact .none _ hr h trivial
  · next hsome =>
    refine .write _ _ _ _ hr rfl (fun _ ↦ rfl) ((lookup_outOfRange_iff ..).trans ?_)
    exact iff_of_false hsome (fun hn ↦ hn trivial)

/-- The data action writes at the position of its key, or at the result of adding it. -/
theorem flowSpec_data {state : State H} (h : PositiveRange state.randRange) (m : Message) :
    FlowSpec state (.data m) := by
  have hr : flowResult state (.data m) =
      (genericDecomposedDataAction state m).map Prod.fst := rfl
  rw [genericDecomposedDataAction, nextIpSrc_of_ne h.ofInt_ne_zero] at hr
  change _ = Except.map Prod.fst (if RteHash.lookup state.hashTable (nextKey state) = -ENOENT
    then _ else _) at hr
  split at hr
  · next hnone =>
    refine .write _ _ _ _ hr rfl (fun _ ↦ rfl) ((addKey_outOfRange_iff ..).trans ?_)
    exact ⟨fun hfull hn ↦ hn hnone hfull, fun hn ↦ Decidable.byContradiction fun hfull ↦
      hn fun _ ↦ hfull⟩
  · next hsome =>
    refine .write _ _ _ _ hr rfl (fun _ ↦ rfl) ((lookup_outOfRange_iff ..).trans ?_)
    exact iff_of_false hsome fun hn ↦ hn fun hnone ↦ absurd hnone hsome

/-- The parallel data action writes at the result of adding a key that it has found, or at the
error of a lookup. -/
theorem flowSpec_parallel {state : State H} (h : PositiveRange state.randRange) (rand : Nat)
    (m : Message) : FlowSpec state (.parallel rand m) := by
  have hr : flowResult state (.parallel rand m) =
      (genericDecomposedParallelDataAction rand state m).map Prod.fst := rfl
  rw [genericDecomposedParallelDataAction, drawnKey_of_positive h] at hr
  change _ = Except.map Prod.fst (if RteHash.lookup state.hashTable (randKey state rand) ≠ -ENOENT
    then _ else _) at hr
  split at hr
  · next hsome =>
    refine .write _ _ _ _ hr rfl (fun _ ↦ rfl) ((addKey_outOfRange_iff ..).trans ?_)
    exact ⟨fun hfull hn ↦ hn.2 hfull, fun hn ↦ Decidable.byContradiction fun hfull ↦
      hn ⟨hsome, hfull⟩⟩
  · next hnone =>
    refine .write _ _ _ _ hr rfl (fun _ ↦ rfl) ((lookup_outOfRange_iff ..).trans ?_)
    exact iff_of_true (Decidable.not_not.mp hnone) fun hn ↦ hnone hn.1

/-- Every event comes down to at most one write, which is inside `value` exactly when the flow
table serves the event. -/
theorem flowSpec {state : State H} (h : PositiveRange state.randRange) (e : FlowEvent) :
    FlowSpec state e := by
  cases e with
  | control m => exact flowSpec_control h m
  | data m => exact flowSpec_data h m
  | parallel rand m => exact flowSpec_parallel h rand m
  | create parameter hp => exact .none _ rfl hp trivial
  | dataState val hv => exact .none _ rfl hv trivial

/-- An event uses only positions inside `value` exactly when the flow table serves it. -/
theorem indicesInRange_iff {state : State H} (h : PositiveRange state.randRange)
    (e : FlowEvent) : IndicesInRange state e ↔ TableServes state e := by
  unfold IndicesInRange
  cases flowSpec h e with
  | none t ht _ hserves =>
    rw [ht]
    exact iff_of_true (fun hn ↦ nomatch hn) hserves
  | write st i f g hw _ _ hserves =>
    rw [hw, ← not_iff_not, not_not, ← hserves, ← writeValue_eq_error_iff st i f]
    obtain hf | ⟨value, hf⟩ := writeValue_eq st i f <;> rw [hf]
    · exact iff_of_true rfl rfl
    · exact iff_of_false (fun hn ↦ nomatch hn) (fun hn ↦ nomatch hn)

/-! ### Runs -/

/-- A state with an empty table of `HASH_ENTRIES` entries and keys below 100. -/
def freshState : State (KeyTable HASH_ENTRIES) :=
  ⟨KeyTable.empty HASH_ENTRIES, 0, 0, 0, 0, ⟨0, 0, 0, 0, 0⟩, 100, fun _ ↦ 0, fun _ _ ↦ 0,
    fun _ ↦ 0, fun _ ↦ 0, 0, 0⟩

end Nflambda.Runtime
