import Nflambda.Runtime.Dispatch
import Nflambda.Runtime.Taken

/-!
# Transmit entries and the workers that they use

Library `Runtime`. `action create_packet_out`, `src/runtime/cli.c:205–220`, stores a worker object
in an entry of the action table together with the worker's core; `action migrate`,
`src/runtime/cli.c:248–255`, writes the core alone. `transmit_packet`, `src/runtime/worker.h:71–78`,
uses the tx buffer of the worker object, whichever worker runs it.
-/

namespace Nflambda.Runtime

open Nflambda.Base

variable {H : Type}

/-- The entry uses the worker of its own core, which has the last action and a tx buffer. -/
def OwnWorker (c : Config H) (e : ActionTableEntry H) : Prop :=
  ∃ w : Core, e.coreId = (w.val : Int) ∧ e.state = .worker w ∧
    (c.workerList w).lastAction = true ∧ (c.workerList w).txb = true

/-- Every transmit entry uses the worker of its own core. -/
def OwnEntries (c : Config H) : Prop :=
  ∀ i, (c.actionTable i).action = some .transmitPacket → OwnWorker c (c.actionTable i)

/-- Every transmit entry uses the worker of its own core, and no worker has used the tx buffer of
another one. -/
structure OwnTransmit (n : Net H) : Prop where
  entries : OwnEntries n.config
  calls : ∀ call ∈ n.hist.calls, ∀ w, call.state = .worker w → call.core = w

/-- The line migrates a transmit entry only to the core that it is on. -/
def KeepsCore (c : Config H) (line : List Char) : Prop :=
  CliCommand.ofLine line = .ok .actionMigrate →
    ∀ (i : Fin ACTION_TABLE_SIZE) (coreId : Int), num (strtok line) 2 = .ok (i.val : Int) →
      num (strtok line) 3 = .ok coreId →
      (c.actionTable i).action = some .transmitPacket → coreId = (c.actionTable i).coreId

/-- Every event that migrates a transmit entry names the core that it is on. -/
def MigratesInPlace (n : Net H) : Event → Prop
  | .command line => KeepsCore n.config line
  | _ => True

/-- No registered function is `transmit_packet`. -/
def NoTransmitRegistered (c : Config H) : Prop :=
  ∀ r, c.actionRegistration r ≠ some .transmitPacket

/-! ### Commands -/

/-- What the packet path reads of the entries stays the same, and no worker loses its last action or
its tx buffer. -/
structure KeepsEntries (c c' : Config H) : Prop where
  entries : ∀ i, entryFields c' i = entryFields c i
  lastAction : ∀ w, (c.workerList w).lastAction = true → (c'.workerList w).lastAction = true
  txb : ∀ w, (c.workerList w).txb = true → (c'.workerList w).txb = true

private theorem keepsEntries_of_eq {c c' : Config H} (htable : c'.actionTable = c.actionTable)
    (hworkers : c'.workerList = c.workerList) : KeepsEntries c c' := by
  refine ⟨fun i ↦ ?_, fun w ↦ ?_, fun w ↦ ?_⟩
  · rw [entryFields, htable, entryFields]
  · rw [hworkers]
    exact id
  · rw [hworkers]
    exact id

private theorem keepsEntries_setWorker {c : Config H} {w : Core} {x : Worker}
    (hlast : (c.workerList w).lastAction = true → x.lastAction = true)
    (htxb : (c.workerList w).txb = true → x.txb = true) : KeepsEntries c (c.setWorker w x) := by
  refine ⟨fun i ↦ rfl, fun v ↦ ?_, fun v ↦ ?_⟩
  · by_cases hv : v = w
    · subst hv
      rw [Config.setWorker_self]
      exact hlast
    · rw [Config.setWorker_of_ne _ hv]
      exact id
  · by_cases hv : v = w
    · subst hv
      rw [Config.setWorker_self]
      exact htxb
    · rw [Config.setWorker_of_ne _ hv]
      exact id

/-- Most commands keep what the packet path reads of the entries. -/
theorem keepsEntries_executed {c c' : Config H} {tokens : List String} {command : CliCommand}
    (h : command.Executed c tokens c') (hcreate : command ≠ .actionCreate)
    (hout : command ≠ .actionCreatePacketOut) (hmigrate : command ≠ .actionMigrate) :
    KeepsEntries c c' := by
  cases h with
  | actionCreate => exact absurd rfl hcreate
  | actionCreatePacketOut => exact absurd rfl hout
  | actionMigrate => exact absurd rfl hmigrate
  | stateInstallPath i e haction hstate hcore =>
    refine ⟨fun k ↦ ?_, fun _ h ↦ h, fun _ h ↦ h⟩
    by_cases hk : k = i
    · subst hk
      rw [entryFields, Config.setEntry_self, haction, hstate, hcore, entryFields]
    · rw [entryFields, Config.setEntry_of_ne _ hk, entryFields]
  | workerFirstAction | firstAction => exact keepsEntries_setWorker id id
  | lastAction => exact keepsEntries_setWorker (fun _ ↦ rfl) fun _ ↦ rfl
  | nothing | configParameter | configRssRetaConfig | configRss | stateCreate |
    stateInstallSimplePath | stateControlFrequency | stateMessageNum | stateDataComplexity |
    stateDataState | portInit | workerRun => exact keepsEntries_of_eq rfl rfl

/-- Where what the packet path reads of the entries and the workers' tx buffers are kept, transmit
entries keep their own worker. -/
theorem OwnEntries.of_keeps {c c' : Config H} (h : OwnEntries c) (hk : KeepsEntries c c') :
    OwnEntries c' := by
  intro i hi
  have hfields := hk.entries i
  have haction : (c'.actionTable i).action = (c.actionTable i).action := congrArg (·.1) hfields
  have hstate : (c'.actionTable i).state = (c.actionTable i).state := congrArg (·.2.1) hfields
  have hcore : (c'.actionTable i).coreId = (c.actionTable i).coreId := congrArg (·.2.2) hfields
  obtain ⟨w, hw, hs, hlast, htxb⟩ := h i (haction ▸ hi)
  exact ⟨w, hcore.trans hw, hstate.trans hs, hk.lastAction w hlast, hk.txb w htxb⟩

/-- `action create_packet_out` stores an entry that uses the worker of its own core. -/
theorem ownEntries_packetOut {c : Config H} {i : Fin ACTION_TABLE_SIZE} {w : Core}
    {e : ActionTableEntry H} (h : OwnEntries c) (hstate : e.state = .worker w)
    (hcore : e.coreId = (w.val : Int)) :
    OwnEntries
      ((c.setEntry i e).setWorker w { c.workerList w with txb := true, lastAction := true }) := by
  have hentry (k : Fin ACTION_TABLE_SIZE) (x : Worker) :
      ((c.setEntry i e).setWorker w x).actionTable k = (c.setEntry i e).actionTable k := rfl
  intro k hk
  rw [hentry] at hk ⊢
  by_cases hki : k = i
  · subst hki
    rw [Config.setEntry_self]
    refine ⟨w, hcore, hstate, ?_, ?_⟩
    · rw [Config.setWorker_self]
    · rw [Config.setWorker_self]
  · rw [Config.setEntry_of_ne _ hki] at hk ⊢
    obtain ⟨v, hv, hs, hlast, htxb⟩ := h k hk
    have hkeep := keepsEntries_setWorker (c := c) (w := w)
      (x := { c.workerList w with txb := true, lastAction := true }) (fun _ ↦ rfl) fun _ ↦ rfl
    exact ⟨v, hv, hs, hkeep.lastAction v hlast, hkeep.txb v htxb⟩

/-- `action migrate` keeps the workers of the transmit entries exactly when it names the core that
such an entry is on. -/
theorem ownEntries_actionMigrate {c : Config H} {line : List Char} {i : Fin ACTION_TABLE_SIZE}
    {coreId : Int} (h : OwnEntries c) (hcommand : CliCommand.ofLine line = .ok .actionMigrate)
    (hi : num (strtok line) 2 = .ok (i.val : Int)) (hcore : num (strtok line) 3 = .ok coreId) :
    OwnEntries (c.setEntry i { c.actionTable i with coreId }) ↔ KeepsCore c line := by
  constructor
  · intro hown _ k core hk hcore' haction
    rw [hi, Except.ok.injEq] at hk
    obtain rfl : i = k := Fin.ext (Int.natCast_inj.mp hk)
    obtain rfl : coreId = core := Except.ok.inj (hcore.symm.trans hcore')
    obtain ⟨w, hw, hs, -⟩ := hown i (by rw [Config.setEntry_self]; exact haction)
    rw [Config.setEntry_self] at hw hs
    obtain ⟨v, hv, hsv, -⟩ := h i haction
    obtain rfl : v = w := StateRef.worker.inj (hsv.symm.trans hs)
    exact hw.trans hv.symm
  · intro hkeeps k hk
    by_cases hki : k = i
    · subst hki
      rw [Config.setEntry_self] at hk
      obtain ⟨w, hw, hs, hlast, htxb⟩ := h k hk
      refine ⟨w, ?_, ?_, hlast, htxb⟩
      · rw [Config.setEntry_self]
        exact (hkeeps hcommand k coreId hi hcore hk).trans hw
      · rw [Config.setEntry_self]
        exact hs
    · rw [Config.setEntry_of_ne _ hki] at hk ⊢
      exact h k hk

/-- After a command, transmit entries use the worker of their own core exactly when the command does
not move one of them. -/
theorem ownEntries_cliProcess {c c' : Config H} {reply : Reply} {line : List Char}
    (hreg : NoTransmitRegistered c) (h : OwnEntries c)
    (hline : cliProcess c line = .ok (c', reply)) : OwnEntries c' ↔ KeepsCore c line := by
  obtain ⟨command, hcommand, hexec⟩ := CliCommand.executed_of_cliProcess hline
  by_cases hmigrate : command = .actionMigrate
  · subst hmigrate
    cases hexec with
    | nothing _ hnone => cases hnone
    | actionMigrate i coreId e hi hcore he =>
      subst he
      exact ownEntries_actionMigrate h hcommand hi hcore
  · refine iff_of_true ?_ fun hm ↦ absurd (Except.ok.inj (hcommand.symm.trans hm)) hmigrate
    by_cases hcreate : command = .actionCreate
    · subst hcreate
      cases hexec with
      | nothing _ hnone => cases hnone
      | actionCreate i r e haction =>
        -- no registered function is `transmit_packet`
        intro k hk
        by_cases hki : k = i
        · subst hki
          rw [Config.setEntry_self, haction] at hk
          exact absurd hk (hreg r)
        · rw [Config.setEntry_of_ne _ hki] at hk ⊢
          exact h k hk
    · by_cases hout : command = .actionCreatePacketOut
      · subst hout
        cases hexec with
        | nothing _ hnone => cases hnone
        | actionCreatePacketOut i w e haction hstate hcore =>
          exact ownEntries_packetOut h hstate hcore
      · exact h.of_keeps (keepsEntries_executed hexec hcreate hout hmigrate)

/-! ### Runs -/

/-- A step of the network other than a command keeps the transmit entries. -/
private theorem keepsEntries_taken {c c' : Config H} {ev : Event} (h : ConfigTaken c ev c')
    (hev : ∀ line, ev ≠ .command line) : KeepsEntries c c' := by
  cases h with
  | command line => exact absurd rfl (hev line)
  | same | state | quit => exact keepsEntries_of_eq rfl rfl

/-- The tx buffer that a call uses is the one of the worker that makes it. -/
private theorem core_of_runs {c : Config H} (h : OwnEntries c) {e : ActionTableEntry H} {id : Int}
    {w v : Core} (he : c.entry id = some e) (hc : e.coreId = (w.val : Int)) (hruns : e.Runs)
    (hs : e.state = .worker v) : w = v := by
  obtain ⟨i, -, rfl⟩ := Option.map_eq_some_iff.mp he
  rcases hruns with ⟨u, ha, -⟩ | ⟨f, s, -, hs'⟩
  · obtain ⟨x, hx, hsx, -⟩ := h i ha
    obtain rfl : x = v := StateRef.worker.inj (hsx.symm.trans hs)
    exact Fin.ext (Int.natCast_inj.mp (hc.symm.trans hx))
  · rw [hs] at hs'
    cases hs'

/-- One event keeps the property exactly when it does not move a transmit entry. -/
theorem ownTransmit_step {n n' : Net H} {ev : Event} (hreg : NoTransmitRegistered n.config)
    (h : OwnTransmit n) (hs : step n ev = some n') : OwnTransmit n' ↔ MigratesInPlace n ev := by
  have ht := step_taken hs
  have hcalls : OwnEntries n.config → ∀ call ∈ n'.hist.calls, ∀ w, call.state = .worker w →
      call.core = w := by
    intro hentries call hcall w hw
    rcases calls_taken ht with hsame | ⟨v, d, e, -, -, he, hc, hruns, hnew⟩
    · exact h.calls call (hsame ▸ hcall) w hw
    · rw [hnew, List.mem_append, List.mem_singleton] at hcall
      rcases hcall with hcall | rfl
      · exact h.calls call hcall w hw
      · exact core_of_runs hentries he hc hruns hw
  have hconfig := config_taken ht
  by_cases hev : ∃ line, ev = .command line
  · obtain ⟨line, rfl⟩ := hev
    cases ht with
    | command line c r hline =>
      have hiff := ownEntries_cliProcess hreg h.entries hline
      exact ⟨fun hown ↦ hiff.mp hown.entries, fun hk ↦ ⟨hiff.mpr hk, hcalls h.entries⟩⟩
  · have hkeep := keepsEntries_taken hconfig fun line hline ↦ hev ⟨line, hline⟩
    refine iff_of_true ⟨h.entries.of_keeps hkeep, hcalls h.entries⟩ ?_
    cases ev with
    | command line => exact absurd ⟨line, rfl⟩ hev
    | work | rxBurst | alloc | quit => exact trivial

/-- No event registers a function. -/
theorem noTransmitRegistered_step {n n' : Net H} {ev : Event}
    (h : NoTransmitRegistered n.config) (hs : step n ev = some n') :
    NoTransmitRegistered n'.config := by
  have hconfig := config_taken (step_taken hs)
  generalize n'.config = c' at hconfig
  cases hconfig with
  | command line c' r hline =>
    intro k
    rw [cliProcess_actionRegistration hline]
    exact h k
  | same | state | quit => exact h

/-- A line that migrates an entry is executed. -/
private theorem keepsCore_of_step_eq_none {n : Net H} {line : List Char}
    (h : step n (.command line) = none) : KeepsCore n.config line := by
  intro hcommand i coreId hi hcore _
  have hexec : cliProcess n.config line = actionMigrate n.config (strtok line) := by
    rw [CliCommand.cliProcess_eq, hcommand]
    rfl
  have hslot : slot ACTION_TABLE_SIZE (i.val : Int) = .ok i := slot_eq_ok_iff.mpr rfl
  rw [step, hexec, actionMigrate, hi, hcore] at h
  simp only [bind, Except.bind, hslot] at h
  cases h

variable [RteHash H]

private theorem noTransmitRegistered_init (c : Config H) (create : Fin STATE_NUM → H) :
    NoTransmitRegistered (configInit c create) := by
  intro r h
  change actionRegistration r = _ at h
  unfold actionRegistration at h
  split at h <;> cases h

/-- In every run from a network that `config_init` has set up, every transmit entry uses the worker
of its own core, with its last action and its tx buffer, and no worker uses the tx buffer of another
one, exactly when every `action migrate` of a transmit entry names the core that the entry is on. -/
theorem transmit_own_iff (c : Config H) (create : Fin STATE_NUM → H) (launched : Core → Bool)
    (size : Nat) (mem : Item → Message) (scratch : Core → Message) (es : List Event) :
    Visits step OwnTransmit (launch (configInit c create) launched size mem scratch) es ↔
      Along step MigratesInPlace (launch (configInit c create) launched size mem scratch) es := by
  refine visits_iff_along (I := fun n ↦ NoTransmitRegistered n.config)
    (fun n e n' hreg hs ↦ noTransmitRegistered_step hreg hs)
    (fun n e n' hreg h hs ↦ ownTransmit_step hreg h hs) (fun n e _ hs ↦ ?_)
    (noTransmitRegistered_init c create) ⟨fun i hi ↦ ?_, fun _ hcall ↦ ?_⟩ es
  · cases e with
    | command line => exact keepsCore_of_step_eq_none hs
    | work | rxBurst | alloc | quit => exact trivial
  · have hnone : ((configInit c create).actionTable i).action = none := rfl
    exact absurd (hnone.symm.trans hi) (by simp)
  · exact absurd hcall List.not_mem_nil

/-- A transmit entry of core 1 that is migrated to core 3, where a packet arrives for it. -/
def migratedEntryRun : List Event :=
  [.command "action create_packet_out 0 1".toList, .command "action migrate 0 3".toList,
    .command "worker first_action 3 0 0 1".toList, .work 3, .work 3, .rxBurst 3 [⟨0, 0⟩], .work 3,
    .work 3]

/-- Core 3 transmits the packet with the tx buffer of core 1. -/
theorem migrated_entry_not_own :
    ∃ n, run step (launch (configInit (Config.zeroed ([] : List Ipv4FiveTuple)) fun _ ↦ [])
        workerRun 1 (fun _ ↦ ⟨0, 0, 0, 0, ⟨0, 0⟩, 0⟩) fun _ ↦ ⟨0, 0, 0, 0, ⟨0, 0⟩, 0⟩)
        migratedEntryRun = some n ∧
      n.hist.calls = [⟨⟨0, 0⟩, 0, 3, .worker 1⟩] ∧ ¬ OwnTransmit n := by
  have hrun : (run step (launch (configInit (Config.zeroed ([] : List Ipv4FiveTuple)) fun _ ↦ [])
      workerRun 1 (fun _ ↦ ⟨0, 0, 0, 0, ⟨0, 0⟩, 0⟩) fun _ ↦ ⟨0, 0, 0, 0, ⟨0, 0⟩, 0⟩)
      migratedEntryRun).map (fun n ↦ n.hist.calls) = some [⟨⟨0, 0⟩, 0, 3, .worker 1⟩] := by
    decide
  obtain ⟨n, hn, hcalls⟩ := Option.map_eq_some_iff.mp hrun
  refine ⟨n, hn, hcalls, fun h ↦ ?_⟩
  have hcore := h.calls ⟨⟨0, 0⟩, 0, 3, .worker 1⟩ (hcalls ▸ List.mem_singleton_self _) 1 rfl
  exact absurd hcore (by decide)

end Nflambda.Runtime
