import Nflambda.Runtime.PacketOut
import Nflambda.Runtime.StateInit

/-!
# The modulus of the flow keys

Library `Runtime`. The data and the control action, `src/runtime/nf/generic_decomposed.h:51–89`,
advance the flow key modulo `state->rand_range`. Two commands write that field, `state create`
through `state_update`, `src/runtime/state/state.c:34–40`, and `state data_state`,
`src/runtime/cli.c:170–177`. `state_init` leaves it as `malloc` returns it.
-/

namespace Nflambda.Runtime

open Nflambda.Base

variable {H : Type}

/-- The sizes that decide the moduli: the one that the next `state create` takes, and the range of
every state. -/
structure Ranges where
  dataStateSize : Int
  range : Fin STATE_NUM → Int

namespace Ranges

/-- One state gets a range. -/
def set (r : Ranges) (index value : Int) : Ranges :=
  { r with range := fun s ↦ if index = (s.val : Int) then value else r.range s }

/-- What a line sets: `config parameter` the size, `state create` the range to that size, `state
data_state` the range to a number of its own. -/
def line (r : Ranges) (l : List Char) : Ranges :=
  match CliCommand.ofLine l with
  | .ok .configParameter => ⟨number (strtok l) 8, r.range⟩
  | .ok .stateCreate => r.set (number (strtok l) 3) r.dataStateSize
  | .ok .stateDataState => r.set (number (strtok l) 2) (number (strtok l) 3)
  | _ => r

/-- Only command lines set ranges. -/
def event (r : Ranges) : Event → Ranges
  | .command l => r.line l
  | _ => r

end Ranges

/-- The sizes in a configuration. -/
def Config.ranges (c : Config H) : Ranges :=
  ⟨c.initStateParameter.dataStateSize, fun s ↦ (c.states s).randRange⟩

/-! ### Commands -/

private theorem ranges_setState (c : Config H) (i : Fin STATE_NUM) (s : State H) :
    (c.setState i s).ranges = c.ranges.set i s.randRange := by
  unfold Config.ranges Ranges.set
  congr 1
  funext k
  split
  · next h =>
    obtain rfl : i = k := Fin.ext (Int.natCast_inj.mp h)
    rw [Config.setState_self]
  · next h => rw [Config.setState_of_ne c fun hk ↦ h (by rw [hk])]

private theorem ranges_setState_same (c : Config H) (i : Fin STATE_NUM) {s : State H}
    (h : s.randRange = (c.states i).randRange) : (c.setState i s).ranges = c.ranges := by
  rw [ranges_setState, Ranges.set, h]
  unfold Config.ranges
  congr 1
  funext k
  split
  · next hk => rw [show i = k from Fin.ext (Int.natCast_inj.mp hk)]
  · rfl

/-- An executed line sets the sizes as its tokens say. -/
theorem ranges_cliProcess {c c' : Config H} {l : List Char} {reply : Reply}
    (h : cliProcess c l = .ok (c', reply)) : c'.ranges = c.ranges.line l := by
  obtain ⟨command, hcommand, hexec⟩ := CliCommand.executed_of_cliProcess h
  rw [Ranges.line, hcommand]
  cases hexec with
  | nothing command hnone =>
    cases command with
    | silent | tooMany | actionInstall | coordinatorSend | dumpNf | dump | unknown => rfl
    | _ => cases hnone
  | configParameter p hsize =>
    exact congrArg (fun size ↦ Ranges.mk size c.ranges.range) (number_of_ok hsize).symm
  | stateCreate i hi =>
    rw [ranges_setState, ← number_of_ok hi]
    rfl
  | stateDataState i randRange hi hrange =>
    rw [ranges_setState, ← number_of_ok hi, ← number_of_ok hrange]
  | stateInstallSimplePath | stateControlFrequency | stateDataComplexity =>
    exact ranges_setState_same c _ rfl
  | configRssRetaConfig | configRss | stateInstallPath | stateMessageNum | actionCreate |
    actionCreatePacketOut | actionMigrate | portInit | workerFirstAction | workerRun | lastAction |
    firstAction => rfl

/-! ### Runs -/

variable [RteHash H]

/-- The registrations are those of `config_init`, and so are the actions of the entries. -/
structure Registered (c : Config H) : Prop where
  registration : c.actionRegistration = actionRegistration
  entries : ∀ i f, (c.actionTable i).action = some (.action f) →
    ∃ r, actionRegistration r = some (.action f)

/-- A registered action leaves the range of its state alone. -/
theorem randRange_of_registered {r : Fin 200}
    {f : State H → Message → Except Fault (State H × Int)}
    (h : actionRegistration r = some (.action f)) {state state' : State H} {m : Message}
    {path : Int} (hf : f state m = .ok (state', path)) : state'.randRange = state.randRange := by
  unfold actionRegistration at h
  split at h
  · cases h
    obtain ⟨counter, slot, hslot⟩ :=
      exists_classifier_slot (H := H) state.controlFrequency state.counter
    rw [hslot state m rfl rfl] at hf
    cases hf
    rfl
  · cases h
    exact (settings_data hf).1.randRange
  · cases h
    exact (settings_control hf).1.randRange
  · cases h

private theorem registered_setEntry {c : Config H} (h : Registered c) (i : Fin ACTION_TABLE_SIZE)
    {e : ActionTableEntry H}
    (he : ∀ f, e.action = some (.action f) → ∃ r, actionRegistration r = some (.action f)) :
    Registered (c.setEntry i e) := by
  refine ⟨h.registration, fun k f hf ↦ ?_⟩
  by_cases hk : k = i
  · subst hk
    rw [Config.setEntry_self] at hf
    exact he f hf
  · rw [Config.setEntry_of_ne _ hk] at hf
    exact h.entries k f hf

private theorem registered_cliProcess {c c' : Config H} {l : List Char} {reply : Reply}
    (h : Registered c) (hline : cliProcess c l = .ok (c', reply)) : Registered c' := by
  obtain ⟨command, -, hexec⟩ := CliCommand.executed_of_cliProcess hline
  cases hexec with
  | stateInstallPath i e haction =>
    exact registered_setEntry h i fun f hf ↦ h.entries i f (haction ▸ hf)
  | actionCreate i r e haction =>
    exact registered_setEntry h i fun f hf ↦ ⟨r, by rw [← h.registration, ← haction, hf]⟩
  | actionCreatePacketOut i w e haction =>
    have hentry := registered_setEntry h i (e := e) fun f hf ↦
      absurd (haction.symm.trans hf) (by simp)
    exact ⟨hentry.registration, hentry.entries⟩
  | actionMigrate i coreId e hi hcore he =>
    subst he
    exact registered_setEntry h i fun f hf ↦ h.entries i f hf
  | nothing | configParameter | configRssRetaConfig | configRss | stateCreate |
    stateInstallSimplePath | stateControlFrequency | stateMessageNum | stateDataComplexity |
    stateDataState | portInit | workerFirstAction | workerRun | lastAction | firstAction =>
    exact ⟨h.registration, h.entries⟩

/-- Every event keeps the registered functions. -/
theorem registered_step {n n' : Net H} {ev : Event} (h : Registered n.config)
    (hs : step n ev = some n') : Registered n'.config := by
  have hconfig := config_taken (step_taken hs)
  generalize n'.config = c' at hconfig
  cases hconfig with
  | command l c' r hline => exact registered_cliProcess h hline
  | same | state | quit => exact ⟨h.registration, h.entries⟩

/-- An action that a worker runs leaves the range of its state alone. -/
private theorem ranges_act {n : Net H} {s : Fin STATE_NUM} {e : ActionTableEntry H}
    {f : State H → Message → Except Fault (State H × Int)} {st : State H} {m : Message}
    {id path : Int} (h : Registered n.config) (he : n.config.entry id = some e)
    (ha : e.action = some (.action f)) (hf : f (n.config.states s) m = .ok (st, path)) :
    (n.config.setState s st).ranges = n.config.ranges := by
  obtain ⟨i, -, rfl⟩ := Option.map_eq_some_iff.mp he
  obtain ⟨r, hr⟩ := h.entries i f ha
  exact ranges_setState_same n.config s (randRange_of_registered hr hf)

/-- An event sets the sizes as its command line says. -/
theorem ranges_step {n n' : Net H} {ev : Event} (h : Registered n.config)
    (hs : step n ev = some n') : n'.config.ranges = n.config.ranges.event ev := by
  cases step_taken hs with
  | act w hd e f s st path hpc he hc ha hs hf =>
    rw [Net.store_config]
    exact ranges_act h he ha hf
  | actEnd w hd e f s st hpc he hc ha hs hf =>
    rw [complete_config, Net.store_config]
    exact ranges_act h he ha hf
  | transmit =>
    rw [complete_config, transmitPacket, Net.store_config]
    rfl
  | command line c r hline => exact ranges_cliProcess hline
  | move | pop | begin | relay | push | retry | rxBurst | drop | copy | quit => rfl

/-- Worker `w`'s step runs the data or the control action on a state. -/
def Advances (n : Net H) (ev : Event) (s : Fin STATE_NUM) : Prop :=
  ∃ w h e, ev = .work w ∧ n.pc w = .handle h ∧
    n.config.entry (n.message w h).actionId = some e ∧ e.coreId = (w.val : Int) ∧
    e.state = .state s ∧
    (e.action = some (.action genericDecomposedDataAction) ∨
      e.action = some (.action genericDecomposedControlAction))

/-- The modulus of every flow key that the event advances is not zero. -/
def ModulusNeZero (n : Net H) (ev : Event) : Prop :=
  ∀ s, Advances n ev s → BitVec.ofInt 32 (n.config.states s).randRange ≠ 0

private theorem registered_init (c : Config H) (create : Fin STATE_NUM → H) :
    Registered (configInit c create) := by
  refine ⟨rfl, fun i f hf ↦ ?_⟩
  have hnone : ((configInit c create).actionTable i).action = none := rfl
  exact absurd (hnone.symm.trans hf) (by simp)

/-- In every run from a network that `config_init` has set up, no flow key is advanced modulo zero
exactly when every state that a data or a control action runs on has last been given a range other
than zero: by `state data_state`, by `state create` with the size of the last `config parameter`, or
by the memory that it was allocated in. -/
theorem modulus_ne_zero_iff (c : Config H) (create : Fin STATE_NUM → H) (launched : Core → Bool)
    (size : Nat) (mem : Item → Message) (scratch : Core → Message) (es : List Event) :
    Along step ModulusNeZero (launch (configInit c create) launched size mem scratch) es ↔
      ∀ pre ev post n s, es = pre ++ ev :: post →
        run step (launch (configInit c create) launched size mem scratch) pre = some n →
        Advances n ev s → BitVec.ofInt 32 ((pre.foldl Ranges.event c.ranges).range s) ≠ 0 := by
  rw [along_iff_run]
  have hranges {pre : List Event} {n : Net H}
      (hrun : run step (launch (configInit c create) launched size mem scratch) pre = some n) :
      n.config.ranges = pre.foldl Ranges.event c.ranges :=
    run_foldl (g := fun n ↦ n.config.ranges) (I := fun n ↦ Registered n.config)
      (fun _ _ _ h hs ↦ registered_step h hs) (fun _ _ _ h hs ↦ ranges_step h hs)
      (registered_init c create) hrun
  have hrange {pre : List Event} {n : Net H} (s : Fin STATE_NUM)
      (hrun : run step (launch (configInit c create) launched size mem scratch) pre = some n) :
      (n.config.states s).randRange = (pre.foldl Ranges.event c.ranges).range s :=
    congrArg (fun r : Ranges ↦ r.range s) (hranges hrun)
  constructor
  · intro h pre ev post n s hes hrun hadv
    rw [← hrange s hrun]
    exact h pre ev post n hes hrun s hadv
  · intro h pre ev post n hes hrun s hadv
    rw [hrange s hrun]
    exact h pre ev post n s hes hrun hadv

/-- The director's parameters as they are created, a data action on a state that is prepared with
them, and a packet for it. -/
def defaultParameterRun : List Event :=
  [.command "config parameter 0 0 0 0 0 0 0 0".toList, .command "state create 0 0".toList,
    .command "action create 4 0 0 1".toList, .command "worker first_action 1 0 0 1".toList, .work 1,
    .work 1, .rxBurst 1 [⟨0, 0⟩], .work 1]

/-- The packet's flow key is advanced modulo zero. -/
theorem default_parameter_modulus_zero :
    ¬ Along step ModulusNeZero
      (launch (configInit (Config.zeroed ([] : List Ipv4FiveTuple)) fun _ ↦ []) workerRun 1
        (fun _ ↦ ⟨0, 0, 0, 0, ⟨0, 0⟩, 0⟩) fun _ ↦ ⟨0, 0, 0, 0, ⟨0, 0⟩, 0⟩)
      (defaultParameterRun ++ [.work 1]) := by
  intro h
  have haction : (run step (launch (configInit (Config.zeroed ([] : List Ipv4FiveTuple)) fun _ ↦ [])
      workerRun 1 (fun _ ↦ ⟨0, 0, 0, 0, ⟨0, 0⟩, 0⟩) fun _ ↦ ⟨0, 0, 0, 0, ⟨0, 0⟩, 0⟩)
      defaultParameterRun).map (fun n ↦ (n.config.entry 0).bind fun e ↦ e.action) =
        some (some (.action genericDecomposedDataAction)) := by rfl
  have hrest : (run step (launch (configInit (Config.zeroed ([] : List Ipv4FiveTuple)) fun _ ↦ [])
      workerRun 1 (fun _ ↦ ⟨0, 0, 0, 0, ⟨0, 0⟩, 0⟩) fun _ ↦ ⟨0, 0, 0, 0, ⟨0, 0⟩, 0⟩)
      defaultParameterRun).map (fun n ↦ (n.pc 1, (n.message 1 (.packet [])).actionId,
        (n.config.entry 0).map fun e ↦ (e.coreId, e.state), (n.config.states 0).randRange)) =
        some (.handle (.packet []), 0, some (1, .state 0), 0) := by decide
  obtain ⟨n, hn, haction⟩ := Option.map_eq_some_iff.mp haction
  rw [hn, Option.map_some, Option.some.injEq] at hrest
  simp only [Prod.mk.injEq] at hrest
  obtain ⟨hpc, hid, hentry, hrange⟩ := hrest
  obtain ⟨e, he, heq⟩ := Option.map_eq_some_iff.mp hentry
  rw [Prod.mk.injEq] at heq
  rw [he, Option.bind_some] at haction
  have hadv : Advances n (.work 1) 0 :=
    ⟨1, .packet [], e, rfl, hpc, hid ▸ he, heq.1, heq.2, .inl haction⟩
  exact along_iff_run.mp h defaultParameterRun (.work 1) [] n rfl hn 0 hadv (by rw [hrange]; rfl)

end Nflambda.Runtime
