import Nflambda.Runtime.Common

/-!
# The actions of the generic decomposed network function

Library `Runtime`. Source `src/runtime/nf/generic_decomposed.h:20–112`. The busy
loop `operation` has no effect and is left out. Each action ends by copying one
slot of its state's `simple_path` to the message.
-/

namespace Nflambda.Runtime

open Nflambda.Base

variable {H : Type} [RteHash H]

omit [RteHash H] in
/-- `generic_decomposed_classifier`, `generic_decomposed.h:20–48`. -/
def genericDecomposedClassifier (state : State H) (_m : Message) :
    Except Fault (State H × Int) :=
  if state.controlFrequency = 0 then .ok (state, state.simplePath 0)
  else if state.controlFrequency > 0 then
    if state.controlFrequency = state.counter then
      .ok ({ state with counter := 0 }, state.simplePath 1)
    else .ok ({ state with counter := state.counter + 1 }, state.simplePath 0)
  else
    if state.controlFrequency = state.counter then
      .ok ({ state with counter := 0 }, state.simplePath 0)
    else .ok ({ state with counter := state.counter - 1 }, state.simplePath 1)

omit [RteHash H] in
/-- `(key.ip_src + 1) % rand_range` in 32-bit unsigned arithmetic. -/
def nextIpSrc (state : State H) : Except Fault (BitVec 32) :=
  if BitVec.ofInt 32 state.randRange = 0 then .error .divisionByZero
  else .ok ((state.key.ipSrc + 1) % BitVec.ofInt 32 state.randRange)

omit [RteHash H] in
/-- `value[i] = v` for the index a hash function returned. -/
def writeValue (state : State H) (i : Int) (f : BitVec 32 → BitVec 32) :
    Except Fault (State H) :=
  match idx? VALUE_SIZE i with
  | none => .error .outOfBounds
  | some j => .ok { state with value := Function.update state.value j (f (state.value j)) }

/-- `generic_decomposed_control_action`, `generic_decomposed.h:51–70`. -/
def genericDecomposedControlAction (state : State H) (_m : Message) :
    Except Fault (State H × Int) := do
  let ipSrc ← nextIpSrc state
  let state := { state with key := { state.key with ipSrc } }
  let ret := RteHash.lookup state.hashTable state.key
  let state ←
    if ret = -ENOENT then
      let (hashTable, ret) := RteHash.addKey state.hashTable state.key
      let state := { state with hashTable }
      if ret ≥ 0 then writeValue state ret (fun _ ↦ 1) else pure state
    else writeValue state ret (· + 1)
  return ({ state with
            hashTableSize := (RteHash.count state.hashTable : Int)
            nMessage := state.nMessage + 1 }, state.simplePath 0)

/-- `generic_decomposed_data_action`, `generic_decomposed.h:72–89`: the position returned by
`rte_hash_add_key` is used without a test for an error. -/
def genericDecomposedDataAction (state : State H) (_m : Message) :
    Except Fault (State H × Int) := do
  let ipSrc ← nextIpSrc state
  let state := { state with key := { state.key with ipSrc } }
  let ret := RteHash.lookup state.hashTable state.key
  let state ←
    if ret = -ENOENT then
      let (hashTable, ret) := RteHash.addKey state.hashTable state.key
      writeValue { state with hashTable } ret (fun _ ↦ 1)
    else writeValue state ret (· + 1)
  return ({ state with
            hashTableSize := (RteHash.count state.hashTable : Int)
            nMessage := state.nMessage + 1 }, state.simplePath 2)

omit [RteHash H] in
/-- The key of `generic_decomposed_parallel_data_action`, for the number that `rand` returns. -/
def drawnKey (state : State H) (rand : Nat) : Except Fault Ipv4FiveTuple :=
  if state.randRange = 0 then .error .divisionByZero
  else .ok { ipSrc := BitVec.ofInt 32 ((rand : Int).tmod state.randRange), ipDst := 0,
             portDst := 0, portSrc := 0, proto := 0 }

/-- `generic_decomposed_parallel_data_action`, `generic_decomposed.h:92–112`: a key is added when
it has been found, and the result of a lookup without success is used as a position. -/
def genericDecomposedParallelDataAction (rand : Nat) (state : State H) (_m : Message) :
    Except Fault (State H × Int) := do
  let temp5tuple ← drawnKey state rand
  let ret := RteHash.lookup state.hashTable temp5tuple
  let state ←
    if ret ≠ -ENOENT then
      let (hashTable, ret) := RteHash.addKey state.hashTable temp5tuple
      writeValue { state with hashTable } ret (fun _ ↦ 1)
    else writeValue state ret (· + 1)
  return (state, 0b01)

/-! ### The paths that the actions set -/

omit [RteHash H] in
/-- The classifier sets the path in slot 0 or in slot 1. -/
theorem genericDecomposedClassifier_path {state state' : State H} {m : Message} {path : Int}
    (h : genericDecomposedClassifier state m = .ok (state', path)) :
    state'.simplePath = state.simplePath ∧
      (path = state.simplePath 0 ∨ path = state.simplePath 1) := by
  unfold genericDecomposedClassifier at h
  split at h
  · cases h
    exact ⟨rfl, .inl rfl⟩
  · split at h
    · split at h <;> cases h
      · exact ⟨rfl, .inr rfl⟩
      · exact ⟨rfl, .inl rfl⟩
    · split at h <;> cases h
      · exact ⟨rfl, .inl rfl⟩
      · exact ⟨rfl, .inr rfl⟩

omit [RteHash H] in
/-- Whatever the paths are, the classifier can decide for the one in slot 0 and for the one in
slot 1. -/
theorem exists_genericDecomposedClassifier (state : State H) (m : Message) :
    (∃ σ st : State H, σ.simplePath = state.simplePath ∧
      genericDecomposedClassifier σ m = .ok (st, state.simplePath 0)) ∧
    ∃ σ st : State H, σ.simplePath = state.simplePath ∧
      genericDecomposedClassifier σ m = .ok (st, state.simplePath 1) :=
  ⟨⟨{ state with controlFrequency := 0 }, _, rfl, rfl⟩,
    { state with controlFrequency := 1, counter := 1 }, _, rfl, rfl⟩

omit [RteHash H] in
private theorem simplePath_writeValue {state state' : State H} {i : Int}
    {f : BitVec 32 → BitVec 32} (h : writeValue state i f = .ok state') :
    state'.simplePath = state.simplePath := by
  unfold writeValue at h
  split at h
  · cases h
  · cases h
    rfl

/-- The control action sets the path in slot 0. -/
theorem genericDecomposedControlAction_path {state state' : State H} {m : Message} {path : Int}
    (h : genericDecomposedControlAction state m = .ok (state', path)) :
    state'.simplePath = state.simplePath ∧ path = state.simplePath 0 := by
  unfold genericDecomposedControlAction at h
  obtain ⟨ipSrc, -, h⟩ := ok_of_bind h
  dsimp only at h
  split at h
  · split at h
    · obtain ⟨st, hst, h⟩ := ok_of_bind h
      cases h
      have hpath := simplePath_writeValue hst
      exact ⟨hpath, congrFun hpath 0⟩
    · cases h
      exact ⟨rfl, rfl⟩
  · obtain ⟨st, hst, h⟩ := ok_of_bind h
    cases h
    have hpath := simplePath_writeValue hst
    exact ⟨hpath, congrFun hpath 0⟩

/-- The data action sets the path in slot 2. -/
theorem genericDecomposedDataAction_path {state state' : State H} {m : Message} {path : Int}
    (h : genericDecomposedDataAction state m = .ok (state', path)) :
    state'.simplePath = state.simplePath ∧ path = state.simplePath 2 := by
  unfold genericDecomposedDataAction at h
  obtain ⟨ipSrc, -, h⟩ := ok_of_bind h
  dsimp only at h
  split at h <;>
  · obtain ⟨st, hst, h⟩ := ok_of_bind h
    cases h
    have hpath := simplePath_writeValue hst
    exact ⟨hpath, congrFun hpath 2⟩

/-- The control action has a result if its state's hash table holds no key and takes one. -/
theorem exists_genericDecomposedControlAction {state : State H} (m : Message)
    (hrange : BitVec.ofInt 32 state.randRange ≠ 0)
    (hempty : ∀ key, RteHash.lookup state.hashTable key = -ENOENT)
    (hadd : ∀ key, ∃ j : Fin VALUE_SIZE, (RteHash.addKey state.hashTable key).2 = (j.val : Int)) :
    ∃ st path, genericDecomposedControlAction state m = .ok (st, path) := by
  have hwrite (st : State H) (j : Fin VALUE_SIZE) :
      ∃ st', writeValue st j.val (fun _ ↦ 1) = .ok st' := by
    unfold writeValue
    rw [idx?_natCast _ j.isLt]
    exact ⟨_, rfl⟩
  obtain ⟨ipSrc, hip⟩ : ∃ ipSrc, nextIpSrc state = .ok ipSrc := by
    unfold nextIpSrc
    rw [if_neg hrange]
    exact ⟨_, rfl⟩
  obtain ⟨j, hj⟩ := hadd { state.key with ipSrc }
  have hpos : (j.val : Int) ≥ 0 := Int.natCast_nonneg _
  unfold genericDecomposedControlAction
  rw [hip]
  simp only [bind, Except.bind, hempty, if_true, hj, if_pos hpos]
  split
  · next fault hfault =>
    rw [(hwrite _ j).choose_spec] at hfault
    cases hfault
  · exact ⟨_, _, rfl⟩

/-- The two actions are different functions if some hash table holds no key and takes one: one sets
the path in slot 0, the other the path in slot 2. -/
theorem genericDecomposedControlAction_ne {h : H}
    (hempty : ∀ key, RteHash.lookup h key = -ENOENT)
    (hadd : ∀ key, ∃ j : Fin VALUE_SIZE, (RteHash.addKey h key).2 = (j.val : Int)) :
    (genericDecomposedControlAction : State H → Message → _) ≠ genericDecomposedDataAction := by
  intro heq
  let state : State H :=
    ⟨h, 0, 0, 0, 0, ⟨0, 0, 0, 0, 0⟩, 1, fun _ ↦ 0, fun _ _ ↦ 0, fun _ ↦ 0, fun p ↦ p.val, 0, 0⟩
  let m : Message := ⟨0, 0, 0, 0, ⟨0, 0⟩, 0⟩
  obtain ⟨st, path, hok⟩ : ∃ st path, genericDecomposedControlAction state m = .ok (st, path) :=
    exists_genericDecomposedControlAction m (by simp [state]) hempty hadd
  have h0 := (genericDecomposedControlAction_path hok).2
  rw [heq] at hok
  have h2 := (genericDecomposedDataAction_path hok).2
  rw [h0] at h2
  exact absurd h2 (by simp [state])

end Nflambda.Runtime
