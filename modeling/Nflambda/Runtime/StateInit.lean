import Nflambda.Runtime.FlowCounters

/-!
# The preparation of states

Library `Runtime`. `state_init` and `state_update`, `src/runtime/state/state.c:8–40`, which prepare
the states that `state create` hands to actions, against `generic_decomposed_data_init` and
`generic_decomposed_control_init`, `src/runtime/nf/generic_decomposed.c:6–74`. All of them start
from memory that `malloc` returns; the hash table that they create is given.
-/

namespace Nflambda.Runtime

open Nflambda.Base

variable {H : Type}

/-- `state_init`, `state.c:8–32`, on freshly allocated memory. -/
def stateInit (mem : State H) (hashTable : H) (parameter : InitStateParameter) : State H :=
  { mem with hashTable, path := parameter.path }

/-- A state after `state create`, `cli.c:114–120`. -/
def stateCreated (mem : State H) (hashTable : H) (parameter : InitStateParameter) : State H :=
  stateUpdate (stateInit mem hashTable parameter) parameter

/-- `state->key` as the dedicated initialisers set it, `generic_decomposed.c:30–34,64–68`. -/
def initKey (parameter : InitStateParameter) : Ipv4FiveTuple where
  ipSrc := 0
  ipDst := 0
  portDst := 0
  portSrc := BitVec.ofInt 16 parameter.executionId
  proto := 0

/-- `generic_decomposed_data_init`, `generic_decomposed.c:6–40`, on freshly allocated memory. -/
def genericDecomposedDataInit (mem : State H) (hashTable : H) (parameter : InitStateParameter) :
    State H :=
  { mem with
    dataComplexity := parameter.dataComplexity
    controlFrequency := parameter.controlFrequency
    counter := 0
    hashTable
    randRange := parameter.dataStateSize
    key := initKey parameter
    nMessage := 0
    path := parameter.path }

/-- `generic_decomposed_control_init`, `generic_decomposed.c:43–74`, on freshly allocated memory. -/
def genericDecomposedControlInit (mem : State H) (hashTable : H)
    (parameter : InitStateParameter) : State H :=
  { mem with
    controlComplexity := parameter.controlComplexity
    hashTable
    randRange := parameter.controlStateSize
    key := initKey parameter
    nMessage := 0
    path := parameter.path }

/-- A message for one of the three actions. -/
inductive ActionMessage where
  | classifier (m : Message)
  | data (m : Message)
  | control (m : Message)

/-- Messages for the data action and the classifier. -/
def ActionMessage.IsData : ActionMessage → Prop
  | .control _ => False
  | _ => True

/-- Messages for the control action. -/
def ActionMessage.IsControl : ActionMessage → Prop
  | .control _ => True
  | _ => False

/-- What an action does with a message: the classifier decides for a slot of the paths, the other
actions work for some time and then visit the entry of a flow key. -/
inductive Seen where
  | classifier (slot : Int)
  | data (complexity : Int) (key : Ipv4FiveTuple)
  | control (complexity : Int) (key : Ipv4FiveTuple)
  deriving DecidableEq, Repr

/-- The state with every slot of the paths holding its own number, so that the path that the
classifier sets tells the slot. -/
def State.withSlots (state : State H) : State H :=
  { state with simplePath := fun slot ↦ (slot.val : Int) }

/-- What the action that handles a message does, if its key can be computed. -/
def seen (state : State H) : ActionMessage → Option Seen
  | .classifier m =>
    (genericDecomposedClassifier state.withSlots m).toOption.map fun r ↦ .classifier r.2
  | .data _ => (nextIpSrc state).toOption.map fun ipSrc ↦
      .data state.dataComplexity { state.key with ipSrc }
  | .control _ => (nextIpSrc state).toOption.map fun ipSrc ↦
      .control state.controlComplexity { state.key with ipSrc }

variable [RteHash H]

/-- The state after a message, or the fault that the action ends in. -/
def handleAction (state : State H) : ActionMessage → Except Fault (State H)
  | .classifier m => (genericDecomposedClassifier state m).map Prod.fst
  | .data m => (genericDecomposedDataAction state m).map Prod.fst
  | .control m => (genericDecomposedControlAction state m).map Prod.fst

/-- What the actions do with some messages, up to the first fault. -/
def observe (state : State H) : List ActionMessage → List Seen
  | [] => []
  | m :: ms =>
    match seen state m with
    | none => []
    | some x => x :: ((handleAction state m).toOption.map fun state' ↦ observe state' ms).getD []

/-- Two states show the same for some messages, as far as both handle them. -/
def AgreeOn (state state' : State H) (ms : List ActionMessage) : Prop :=
  observe state ms <+: observe state' ms ∨ observe state' ms <+: observe state ms

/-- A state that `state create` prepares agrees with the one of `generic_decomposed_data_init` on
all messages for the data action and the classifier, and with the one of
`generic_decomposed_control_init` on all messages for the control action. -/
structure PreparedAlike (created data control : State H) : Prop where
  data : ∀ ms : List ActionMessage, (∀ m ∈ ms, m.IsData) → AgreeOn created data ms
  control : ∀ ms : List ActionMessage, (∀ m ∈ ms, m.IsControl) → AgreeOn created control ms

/-! ### One message -/

/-- The fields that the actions read and none of them changes. -/
structure SameSettings (state state' : State H) : Prop where
  randRange : state'.randRange = state.randRange
  dataComplexity : state'.dataComplexity = state.dataComplexity
  controlComplexity : state'.controlComplexity = state.controlComplexity
  controlFrequency : state'.controlFrequency = state.controlFrequency

omit [RteHash H] in
private theorem settings_writeValue {state state' : State H} {i : Int}
    {f : BitVec 32 → BitVec 32} (h : writeValue state i f = .ok state') :
    SameSettings state state' ∧ state'.key = state.key ∧ state'.counter = state.counter := by
  unfold writeValue at h
  split at h
  · cases h
  · cases h
    exact ⟨⟨rfl, rfl, rfl, rfl⟩, rfl, rfl⟩

omit [RteHash H] in
private theorem nextIpSrc_eq {state : State H} {ipSrc : BitVec 32}
    (h : nextIpSrc state = .ok ipSrc) : ipSrc = (nextKey state).ipSrc := by
  unfold nextIpSrc at h
  split at h
  · cases h
  · exact (Except.ok.inj h).symm

/-- The data action moves the key cursor on and leaves the settings alone. -/
theorem settings_data {state : State H} {m : Message} {r : State H × Int}
    (h : genericDecomposedDataAction state m = .ok r) :
    SameSettings state r.1 ∧ r.1.key = nextKey state ∧ r.1.counter = state.counter := by
  unfold genericDecomposedDataAction at h
  obtain ⟨ipSrc, hip, h⟩ := ok_of_bind h
  obtain rfl := nextIpSrc_eq hip
  dsimp only at h
  split at h <;>
  · obtain ⟨st, hst, h⟩ := ok_of_bind h
    cases h
    obtain ⟨⟨hr, hd, hc, hf⟩, hkey, hcounter⟩ := settings_writeValue hst
    exact ⟨⟨hr, hd, hc, hf⟩, hkey, hcounter⟩

/-- The control action moves the key cursor on and leaves the settings alone. -/
theorem settings_control {state : State H} {m : Message} {r : State H × Int}
    (h : genericDecomposedControlAction state m = .ok r) :
    SameSettings state r.1 ∧ r.1.key = nextKey state ∧ r.1.counter = state.counter := by
  unfold genericDecomposedControlAction at h
  obtain ⟨ipSrc, hip, h⟩ := ok_of_bind h
  obtain rfl := nextIpSrc_eq hip
  dsimp only at h
  split at h
  · split at h
    · obtain ⟨st, hst, h⟩ := ok_of_bind h
      cases h
      obtain ⟨⟨hr, hd, hc, hf⟩, hkey, hcounter⟩ := settings_writeValue hst
      exact ⟨⟨hr, hd, hc, hf⟩, hkey, hcounter⟩
    · cases h
      exact ⟨⟨rfl, rfl, rfl, rfl⟩, rfl, rfl⟩
  · obtain ⟨st, hst, h⟩ := ok_of_bind h
    cases h
    obtain ⟨⟨hr, hd, hc, hf⟩, hkey, hcounter⟩ := settings_writeValue hst
    exact ⟨⟨hr, hd, hc, hf⟩, hkey, hcounter⟩

omit [RteHash H] in
/-- The classifier's decision and the counter that it leaves depend on the frequency and the counter
alone. -/
theorem exists_classifier_slot (controlFrequency counter : Int) :
    ∃ (counter' : Int) (slot : Fin 10), ∀ (state : State H) (m : Message),
      state.controlFrequency = controlFrequency → state.counter = counter →
      genericDecomposedClassifier state m =
        .ok ({ state with counter := counter' }, state.simplePath slot) := by
  by_cases hzero : controlFrequency = 0
  · refine ⟨counter, 0, fun state m hf hc ↦ ?_⟩
    rw [genericDecomposedClassifier, if_pos (hf.trans hzero), ← hc]
  · by_cases hpos : controlFrequency > 0
    · by_cases hdue : controlFrequency = counter
      · refine ⟨0, 1, fun state m hf hc ↦ ?_⟩
        rw [genericDecomposedClassifier, hf, hc, if_neg hzero, if_pos hpos, if_pos hdue]
      · refine ⟨counter + 1, 0, fun state m hf hc ↦ ?_⟩
        rw [genericDecomposedClassifier, hf, hc, if_neg hzero, if_pos hpos, if_neg hdue]
    · by_cases hdue : controlFrequency = counter
      · refine ⟨0, 0, fun state m hf hc ↦ ?_⟩
        rw [genericDecomposedClassifier, hf, hc, if_neg hzero, if_neg hpos, if_pos hdue]
      · refine ⟨counter - 1, 1, fun state m hf hc ↦ ?_⟩
        rw [genericDecomposedClassifier, hf, hc, if_neg hzero, if_neg hpos, if_neg hdue]

omit [RteHash H] in
private theorem seen_data (state : State H) (m : Message) : seen state (.data m) =
    if BitVec.ofInt 32 state.randRange = 0 then none
    else some (.data state.dataComplexity (nextKey state)) := by
  rw [seen, nextIpSrc]
  split <;> rfl

omit [RteHash H] in
private theorem seen_control (state : State H) (m : Message) : seen state (.control m) =
    if BitVec.ofInt 32 state.randRange = 0 then none
    else some (.control state.controlComplexity (nextKey state)) := by
  rw [seen, nextIpSrc]
  split <;> rfl

/-! ### States that agree -/

/-- States between which a relation persists that makes actions do the same agree on all
messages. -/
theorem agreeOn_of_related {R : State H → State H → Prop} {P : ActionMessage → Prop}
    (hseen : ∀ s s' m, R s s' → P m → seen s m = seen s' m)
    (hstep : ∀ s s' t t' m, R s s' → P m → handleAction s m = .ok t →
      handleAction s' m = .ok t' → R t t')
    (ms : List ActionMessage) (hms : ∀ m ∈ ms, P m) :
    ∀ {s s' : State H}, R s s' → AgreeOn s s' ms := by
  induction ms with
  | nil => exact fun _ ↦ .inl (List.prefix_refl _)
  | cons m ms ih =>
    intro s s' h
    have hm := hms m List.mem_cons_self
    unfold AgreeOn observe
    rw [hseen s s' m h hm]
    cases seen s' m with
    | none => exact .inl (List.prefix_refl _)
    | some x =>
      dsimp only
      rw [List.cons_prefix_cons, List.cons_prefix_cons]
      cases ht : handleAction s m with
      | error fault => exact .inl ⟨rfl, List.nil_prefix⟩
      | ok t =>
        cases ht' : handleAction s' m with
        | error fault => exact .inr ⟨rfl, List.nil_prefix⟩
        | ok t' =>
          have hrest := ih (fun m' hm' ↦ hms m' (List.mem_cons_of_mem m hm'))
            (hstep s s' t t' m h hm ht ht')
          exact hrest.imp (fun hp ↦ ⟨rfl, hp⟩) fun hp ↦ ⟨rfl, hp⟩

/-- What the data action and the classifier depend on. -/
structure DataAlike (s s' : State H) : Prop where
  randRange : s.randRange = s'.randRange
  nextKey : nextKey s = nextKey s'
  dataComplexity : s.dataComplexity = s'.dataComplexity
  controlFrequency : s.controlFrequency = s'.controlFrequency
  counter : s.counter = s'.counter

/-- What the control action depends on. -/
structure ControlAlike (s s' : State H) : Prop where
  randRange : s.randRange = s'.randRange
  nextKey : nextKey s = nextKey s'
  controlComplexity : s.controlComplexity = s'.controlComplexity

omit [RteHash H] in
private theorem nextKey_congr {s s' : State H} (hkey : s.key = s'.key)
    (hrange : s.randRange = s'.randRange) : nextKey s = nextKey s' := by
  rw [nextKey, nextKey, hkey, hrange]

/-- Such states agree on all messages for the data action and the classifier. -/
theorem DataAlike.agreeOn {s s' : State H} (h : DataAlike s s') (ms : List ActionMessage)
    (hms : ∀ m ∈ ms, m.IsData) : AgreeOn s s' ms := by
  refine agreeOn_of_related (R := DataAlike) (fun s s' m h hm ↦ ?_)
    (fun s s' t t' m h hm ht ht' ↦ ?_) ms hms h
  · cases m with
    | classifier m =>
      obtain ⟨counter, slot, hslot⟩ :=
        exists_classifier_slot (H := H) s'.controlFrequency s'.counter
      rw [seen, seen, hslot s.withSlots m h.controlFrequency h.counter,
        hslot s'.withSlots m rfl rfl]
      rfl
    | data m => rw [seen_data, seen_data, h.randRange, h.nextKey, h.dataComplexity]
    | control m => exact hm.elim
  · cases m with
    | classifier m =>
      obtain ⟨counter, slot, hslot⟩ :=
        exists_classifier_slot (H := H) s'.controlFrequency s'.counter
      rw [handleAction, hslot s m h.controlFrequency h.counter] at ht
      rw [handleAction, hslot s' m rfl rfl] at ht'
      cases ht
      cases ht'
      exact ⟨h.randRange, h.nextKey, h.dataComplexity, h.controlFrequency, rfl⟩
    | data m =>
      obtain ⟨r, hr, rfl⟩ := ok_of_map_fst ht
      obtain ⟨r', hr', rfl⟩ := ok_of_map_fst ht'
      obtain ⟨hset, hkey, hcounter⟩ := settings_data hr
      obtain ⟨hset', hkey', hcounter'⟩ := settings_data hr'
      have hrange : r.1.randRange = r'.1.randRange := by
        rw [hset.randRange, hset'.randRange, h.randRange]
      refine ⟨hrange, nextKey_congr (by rw [hkey, hkey', h.nextKey]) hrange, ?_, ?_, ?_⟩
      · rw [hset.dataComplexity, hset'.dataComplexity, h.dataComplexity]
      · rw [hset.controlFrequency, hset'.controlFrequency, h.controlFrequency]
      · rw [hcounter, hcounter', h.counter]
    | control m => exact hm.elim

/-- Such states agree on all messages for the control action. -/
theorem ControlAlike.agreeOn {s s' : State H} (h : ControlAlike s s') (ms : List ActionMessage)
    (hms : ∀ m ∈ ms, m.IsControl) : AgreeOn s s' ms := by
  refine agreeOn_of_related (R := ControlAlike) (fun s s' m h hm ↦ ?_)
    (fun s s' t t' m h hm ht ht' ↦ ?_) ms hms h
  · cases m with
    | classifier m => exact hm.elim
    | data m => exact hm.elim
    | control m => rw [seen_control, seen_control, h.randRange, h.nextKey, h.controlComplexity]
  · cases m with
    | classifier m => exact hm.elim
    | data m => exact hm.elim
    | control m =>
      obtain ⟨r, hr, rfl⟩ := ok_of_map_fst ht
      obtain ⟨r', hr', rfl⟩ := ok_of_map_fst ht'
      obtain ⟨hset, hkey, -⟩ := settings_control hr
      obtain ⟨hset', hkey', -⟩ := settings_control hr'
      have hrange : r.1.randRange = r'.1.randRange := by
        rw [hset.randRange, hset'.randRange, h.randRange]
      refine ⟨hrange, nextKey_congr (by rw [hkey, hkey', h.nextKey]) hrange, ?_⟩
      rw [hset.controlComplexity, hset'.controlComplexity, h.controlComplexity]

/-- The first message for the data action shows which key comes next. -/
private theorem nextKey_of_agreeOn_data {s s' : State H} {m : Message}
    (hs : BitVec.ofInt 32 s.randRange ≠ 0) (hs' : BitVec.ofInt 32 s'.randRange ≠ 0)
    (h : AgreeOn s s' [.data m]) : nextKey s = nextKey s' := by
  unfold AgreeOn observe at h
  rw [seen_data, seen_data, if_neg hs, if_neg hs'] at h
  dsimp only at h
  rcases h with h | h
  · exact (Seen.data.inj (List.cons_prefix_cons.mp h).1).2
  · exact (Seen.data.inj (List.cons_prefix_cons.mp h).1).2.symm

variable [RteHashContract H]

/-- The control action always has a result: it does not use the position of a key that it could not
add. -/
theorem exists_handleAction_control {state : State H} (h : PositiveRange state.randRange)
    (m : Message) : ∃ t, handleAction state (.control m) = .ok t := by
  have hin : IndicesInRange state (.control m) := (indicesInRange_iff h _).mpr trivial
  cases flowSpec h (.control m) with
  | none t ht => exact ⟨t, ht⟩
  | write st i f g hw =>
    rw [IndicesInRange, hw] at hin
    change ∃ t, flowResult state (.control m) = .ok t
    rw [hw]
    cases hwrite : writeValue st i f with
    | ok st' => exact ⟨_, rfl⟩
    | error fault =>
      unfold writeValue at hwrite
      split at hwrite
      · next hnone =>
        refine absurd ?_ hin
        rw [writeValue, hnone]
        rfl
      · cases hwrite

/-- What the control action does with some messages: it visits the keys to which they advance the
cursor. -/
theorem observe_control (m : Message) (k : Nat) : ∀ {state : State H},
    PositiveRange state.randRange → observe state (List.replicate k (.control m)) =
      (keysVisited state.key state.randRange (List.replicate k (.control m))).map
        (.control state.controlComplexity) := by
  induction k with
  | zero => exact fun _ ↦ rfl
  | succ k ih =>
    intro state h
    obtain ⟨t, ht⟩ := exists_handleAction_control h m
    obtain ⟨r, hr, rfl⟩ := ok_of_map_fst ht
    obtain ⟨hset, hkey, -⟩ := settings_control hr
    have hrange : PositiveRange r.1.randRange := by
      rw [hset.randRange]
      exact h
    have hrest := ih hrange
    rw [hset.randRange, hset.controlComplexity, hkey] at hrest
    rw [List.replicate_succ, List.replicate_succ, observe, seen_control, if_neg h.ofInt_ne_zero, ht]
    dsimp only [Except.toOption, Option.map, Option.getD]
    rw [hrest]
    rfl

omit [RteHash H] [RteHashContract H] in
private theorem length_keysVisited (R : Int) (m : Message) (k : Nat) :
    ∀ key, (keysVisited key R (List.replicate k (.control m))).length = k := by
  induction k with
  | zero => exact fun _ ↦ rfl
  | succ k ih => exact fun key ↦ congrArg (· + 1) (ih (advance key R))

/-- States that agree on all messages for the control action have the same range of keys. -/
theorem randRange_eq_of_agreeOn {s s' : State H} (hs : PositiveRange s.randRange)
    (hs' : PositiveRange s'.randRange)
    (h : ∀ ms : List ActionMessage, (∀ m ∈ ms, m.IsControl) → AgreeOn s s' ms) :
    s.randRange = s'.randRange := by
  let m : Message := ⟨0, 0, 0, 0, ⟨0, 0⟩, 0⟩
  have hresidues : ∀ i, ((s.key.ipSrc + 1).toNat + i) % s.randRange.toNat =
      ((s'.key.ipSrc + 1).toNat + i) % s'.randRange.toNat := by
    intro i
    have hagree := h (List.replicate (i + 1) (.control m)) fun m' hm' ↦ by
      rw [List.eq_of_mem_replicate hm']
      exact trivial
    have hlen (s : State H) :
        ((keysVisited s.key s.randRange (List.replicate (i + 1) (.control m))).map
          (Seen.control s.controlComplexity)).length = i + 1 := by
      rw [List.length_map, length_keysVisited]
    have heq : observe s (List.replicate (i + 1) (.control m)) =
        observe s' (List.replicate (i + 1) (.control m)) := by
      rw [AgreeOn, observe_control m _ hs, observe_control m _ hs'] at hagree
      rw [observe_control m _ hs, observe_control m _ hs']
      rcases hagree with hp | hp
      · exact hp.eq_of_length (by rw [hlen, hlen])
      · exact (hp.eq_of_length (by rw [hlen, hlen])).symm
    have hkeeps (R : Int) : ∀ e ∈ List.replicate (i + 1) (FlowEvent.control m), e.Keeps R := by
      intro e he
      rw [List.eq_of_mem_replicate he]
      exact trivial
    have hget (s : State H) (hs : PositiveRange s.randRange) :
        (observe s (List.replicate (i + 1) (.control m)))[i]? =
          some (.control s.controlComplexity (s.key.withIpSrc (BitVec.ofNat 32
            (((s.key.ipSrc + 1).toNat + i) % s.randRange.toNat)))) := by
      rw [observe_control m _ hs, keysVisited_fixed hs _ (hkeeps s.randRange), length_keysVisited,
        List.map_map, List.getElem?_map, List.getElem?_range (Nat.lt_succ_self i)]
      rfl
    have hlt (s : State H) (hs : PositiveRange s.randRange) :
        ((s.key.ipSrc + 1).toNat + i) % s.randRange.toNat < 2 ^ 32 := by
      obtain ⟨hpos, hlt31⟩ := hs
      have hmod := Nat.mod_lt ((s.key.ipSrc + 1).toNat + i) (y := s.randRange.toNat) (by omega)
      omega
    have hsame := (hget s hs).symm.trans ((congrArg (·[i]?) heq).trans (hget s' hs'))
    have hip := congrArg Ipv4FiveTuple.ipSrc (Seen.control.inj (Option.some.inj hsame)).2
    have hnat : (BitVec.ofNat 32 (((s.key.ipSrc + 1).toNat + i) % s.randRange.toNat)).toNat =
        (BitVec.ofNat 32 (((s'.key.ipSrc + 1).toNat + i) % s'.randRange.toNat)).toNat :=
      congrArg BitVec.toNat hip
    rwa [BitVec.toNat_ofNat, BitVec.toNat_ofNat, Nat.mod_eq_of_lt (hlt s hs),
      Nat.mod_eq_of_lt (hlt s' hs')] at hnat
  obtain ⟨hpos, -⟩ := hs
  obtain ⟨hpos', -⟩ := hs'
  have hnat := eq_of_residues (show 0 < s.randRange.toNat by omega)
    (show 0 < s'.randRange.toNat by omega) hresidues
  omega

/-! ### The three initialisers -/

/-- The memory that `malloc` returned to `state_init` has a key that goes on like the one of the
dedicated initialisers. -/
structure KeyPrepared (mem : State H) (parameter : InitStateParameter) : Prop where
  proto : mem.key.proto = 0
  ipSrc : (mem.key.ipSrc + 1) % BitVec.ofInt 32 parameter.dataStateSize =
    1 % BitVec.ofInt 32 parameter.dataStateSize
  ipDst : mem.key.ipDst = 0
  portSrc : mem.key.portSrc = BitVec.ofInt 16 parameter.executionId
  portDst : mem.key.portDst = 0

omit [RteHash H] [RteHashContract H] in
/-- This is so exactly when the next keys are the same. -/
theorem keyPrepared_iff (mem : State H) (parameter : InitStateParameter) :
    KeyPrepared mem parameter ↔ advance mem.key parameter.dataStateSize =
      advance (initKey parameter) parameter.dataStateSize := by
  constructor
  · rintro ⟨hproto, hsrc, hdst, hportSrc, hportDst⟩
    unfold advance Ipv4FiveTuple.withIpSrc
    rw [hproto, hsrc, hdst, hportSrc, hportDst]
    rfl
  · intro h
    exact ⟨congrArg Ipv4FiveTuple.proto h, congrArg Ipv4FiveTuple.ipSrc h,
      congrArg Ipv4FiveTuple.ipDst h, congrArg Ipv4FiveTuple.portSrc h,
      congrArg Ipv4FiveTuple.portDst h⟩

/-- For all positive sizes and all messages, a state prepared by `state create` visits the same
keys, takes the same decisions and uses the same complexities as the ones that the dedicated
initialisers prepare, exactly when the memory that it was allocated in has such a key and the sizes
of the data and of the control state are the same. -/
theorem preparedAlike_iff (mem memData memControl : State H) (table tableData tableControl : H)
    (parameter : InitStateParameter) (hdata : PositiveRange parameter.dataStateSize)
    (hcontrol : PositiveRange parameter.controlStateSize) :
    PreparedAlike (stateCreated mem table parameter)
        (genericDecomposedDataInit memData tableData parameter)
        (genericDecomposedControlInit memControl tableControl parameter) ↔
      KeyPrepared mem parameter ∧ parameter.dataStateSize = parameter.controlStateSize := by
  rw [keyPrepared_iff]
  constructor
  · intro h
    have hkey := nextKey_of_agreeOn_data hdata.ofInt_ne_zero hdata.ofInt_ne_zero
      (h.data [.data ⟨0, 0, 0, 0, ⟨0, 0⟩, 0⟩] fun m hm ↦ List.mem_singleton.mp hm ▸ trivial)
    exact ⟨hkey, randRange_eq_of_agreeOn hdata hcontrol h.control⟩
  · rintro ⟨hkey, hsize⟩
    have hdataAlike : DataAlike (stateCreated mem table parameter)
        (genericDecomposedDataInit memData tableData parameter) := ⟨rfl, hkey, rfl, rfl, rfl⟩
    have hcontrolAlike : ControlAlike (stateCreated mem table parameter)
        (genericDecomposedControlInit memControl tableControl parameter) := by
      refine ⟨hsize, hkey.trans ?_, rfl⟩
      show advance (initKey parameter) parameter.dataStateSize =
        advance (initKey parameter) parameter.controlStateSize
      rw [hsize]
    exact ⟨hdataAlike.agreeOn, hcontrolAlike.agreeOn⟩

/-- Memory with the key that the dedicated initialisers write for the execution 99. -/
def preparedMemory : State (KeyTable HASH_ENTRIES) :=
  { freshState with key := ⟨0, 0, 0, 99, 0⟩ }

/-- Parameters of the execution 99 with a range of `dataStateSize` keys for data actions and one of
two keys for control actions. -/
def sizeParameter (dataStateSize : Int) : InitStateParameter :=
  ⟨99, 0, 0, 0, 2, 2, dataStateSize, 2, fun _ _ ↦ -1, fun _ ↦ 0⟩

/-- Memory with such a key, and equal sizes. -/
theorem preparedAlike_iff_equal_sizes :
    PreparedAlike (stateCreated preparedMemory (.empty _) (sizeParameter 2))
      (genericDecomposedDataInit freshState (.empty _) (sizeParameter 2))
      (genericDecomposedControlInit freshState (.empty _) (sizeParameter 2)) :=
  (preparedAlike_iff preparedMemory freshState freshState (.empty _) (.empty _) (.empty _)
    (sizeParameter 2) ⟨by decide, by decide⟩ ⟨by decide, by decide⟩).mpr
    ⟨⟨rfl, rfl, rfl, rfl, rfl⟩, rfl⟩

/-- Even in memory with such a key, `state create` gives a control action the range of the data
action: the first message already visits another key. -/
theorem created_not_preparedAlike :
    observe (stateCreated preparedMemory (.empty _) (sizeParameter 1))
        [.control ⟨0, 0, 0, 0, ⟨0, 0⟩, 0⟩] = [.control 0 ⟨0, 0, 0, 99, 0⟩] ∧
      observe (genericDecomposedControlInit preparedMemory (.empty _) (sizeParameter 1))
        [.control ⟨0, 0, 0, 0, ⟨0, 0⟩, 0⟩] = [.control 0 ⟨0, 1, 0, 99, 0⟩] ∧
      ¬ PreparedAlike (stateCreated preparedMemory (.empty _) (sizeParameter 1))
        (genericDecomposedDataInit preparedMemory (.empty _) (sizeParameter 1))
        (genericDecomposedControlInit preparedMemory (.empty _) (sizeParameter 1)) := by
  refine ⟨by decide, by decide, fun h ↦ ?_⟩
  have hagree := h.control [.control ⟨0, 0, 0, 0, ⟨0, 0⟩, 0⟩]
    fun m hm ↦ List.mem_singleton.mp hm ▸ trivial
  unfold AgreeOn at hagree
  revert hagree
  decide

end Nflambda.Runtime
