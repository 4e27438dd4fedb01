import Nflambda.Deploy.RoundTrip

/-!
# Commands that are sent again

Library `Deploy`. `send_command`, `src/director/nflambda/platform.py:58–93`, sends a command again
when its reply is lost. Below: which branches of `cli_process`, `src/runtime/cli.c:60–256` and
`368–384`, leave the configuration as they found it when the same line is executed a second time.
-/

namespace Nflambda.Deploy

open Nflambda.Base Nflambda.Runtime Nflambda.Director

variable {H : Type}

/-! ### Writing what is there -/

theorem setState_eq_self {c : Config H} {i : Fin STATE_NUM} {s : State H} (h : c.states i = s) :
    c.setState i s = c := by
  rw [Config.setState, ← h, Function.update_eq_self]

theorem setEntry_eq_self {c : Config H} {i : Fin ACTION_TABLE_SIZE} {e : ActionTableEntry H}
    (h : c.actionTable i = e) : c.setEntry i e = c := by
  rw [Config.setEntry, ← h, Function.update_eq_self]

theorem setWorker_eq_self {c : Config H} {i : Core} {w : Worker} (h : c.workerList i = w) :
    c.setWorker i w = c := by
  rw [Config.setWorker, ← h, Function.update_eq_self]

/-- A range that has been filled is filled with the same value again. -/
theorem fill_twice {α : Type} {n : Nat} {a b : Fin n → α} {v : α} {start : Int} {count : Nat}
    (h : fill a v start count = .ok b) : fill b v start count = .ok b := by
  have hfill : fill? a v start count = some b := by
    unfold fill at h
    split at h
    · next b' hb =>
      cases h
      exact hb
    · cases h
  suffices hagain : fill? b v start count = some b by rw [fill, hagain]
  rcases Nat.eq_zero_or_pos count with rfl | hpos
  · rfl
  -- a range that is not empty starts in the table
  have hrange := (fill?_isSome_iff a v start count).mp (by rw [hfill]; rfl) hpos
  obtain ⟨first, rfl⟩ := Int.eq_ofNat_of_zero_le hrange.1
  rw [fill?_eq a v first count (by omega), Option.some.injEq] at hfill
  rw [fill?_eq b v first count (by omega), Option.some.injEq]
  funext j
  by_cases hj : first ≤ j.val ∧ j.val < first + count
  · rw [if_pos hj, ← hfill]
    exact (if_pos hj).symm
  · exact if_neg hj

/-! ### Branches -/

/-- The branches of the configuration commands of `NFlambda`. -/
def configures : CliCommand → Bool
  | .configParameter | .configRssRetaConfig | .stateCreate | .stateInstallSimplePath
  | .stateControlFrequency | .stateDataComplexity | .stateDataState | .actionCreate
  | .actionCreatePacketOut | .actionMigrate | .workerFirstAction => true
  | _ => false

/-- A command that succeeds succeeds a second time, with the same reply, and changes nothing. -/
def Repeats (step : Config H → Except Fault (Config H × Reply)) : Prop :=
  ∀ (c c' : Config H) (reply : Reply), step c = .ok (c', reply) → step c' = .ok (c', reply)

/-- What is read from the tokens is the same the second time. -/
theorem repeats_bind {α : Type} {x : Except Fault α}
    {f : α → Config H → Except Fault (Config H × Reply)} (h : ∀ a, Repeats (f a)) :
    Repeats fun c ↦ x >>= fun a ↦ f a c := by
  intro c c' reply hstep
  obtain ⟨a, ha, hf⟩ := ok_of_bind hstep
  show x >>= (fun a ↦ f a c') = _
  rw [ha]
  exact h a c c' reply hf

/-- An update of the configuration that is its own repetition. -/
theorem repeats_pure {g : Config H → Config H} {text : Reply} (h : ∀ c, g (g c) = g c) :
    Repeats fun c ↦ pure (g c, text) := by
  intro c c' reply hstep
  cases hstep
  exact congrArg (fun c' ↦ Except.ok (c', text)) (h c)

theorem repeats_configParameter (tokens : List String) :
    Repeats fun c : Config H ↦ configParameter c tokens := by
  unfold configParameter
  iterate 8 apply repeats_bind; intro
  exact repeats_pure fun _ ↦ rfl

/-- The queues of the workers, which the command reads, are not written. -/
theorem repeats_configRssRetaConfig (tokens : List String) :
    Repeats fun c : Config H ↦ configRssRetaConfig c tokens := by
  unfold configRssRetaConfig
  apply repeats_bind; intro startingBucket
  apply repeats_bind; intro numBucket
  apply repeats_bind; intro workerId
  apply repeats_bind; intro actionId
  dsimp only
  split
  · apply repeats_bind; intro w c c' reply h
    obtain ⟨retaConf, hreta, h⟩ := ok_of_bind h
    obtain ⟨bucketToActionId, hbucket, h⟩ := ok_of_bind h
    cases h
    dsimp only
    rw [fill_twice hreta]
    dsimp only [bind, Except.bind]
    rw [fill_twice hbucket]
    rfl
  · exact repeats_pure fun _ ↦ rfl

theorem repeats_stateCreate (tokens : List String) :
    Repeats fun c : Config H ↦ stateCreate c tokens := by
  unfold stateCreate
  apply repeats_bind; intro index
  apply repeats_bind; intro i
  refine repeats_pure fun c ↦ setState_eq_self ?_
  rw [Config.setState_self]
  rfl

theorem repeats_stateInstallSimplePath (tokens : List String) :
    Repeats fun c : Config H ↦ stateInstallSimplePath c tokens := by
  unfold stateInstallSimplePath
  iterate 5 apply repeats_bind; intro
  refine repeats_pure fun c ↦ setState_eq_self ?_
  rw [Config.setState_self, Function.update_idem]

/-- A field that holds the number of the command is set to it again. -/
theorem repeats_stateSet {set : State H → Int → State H} (h : ∀ s v, set (set s v) v = set s v)
    (text : String) (tokens : List String) :
    Repeats fun c : Config H ↦ stateSet set text c tokens := by
  unfold stateSet
  iterate 3 apply repeats_bind; intro
  refine repeats_pure fun c ↦ setState_eq_self ?_
  rw [Config.setState_self, h]

theorem repeats_actionCreate (tokens : List String) :
    Repeats fun c : Config H ↦ actionCreate c tokens := by
  unfold actionCreate
  iterate 6 apply repeats_bind; intro
  exact repeats_pure fun c ↦ setEntry_eq_self (Config.setEntry_self ..)

/-- An entry and a worker are edited by functions that are their own repetition. -/
theorem editBoth_twice (i : Fin ACTION_TABLE_SIZE) (w : Core)
    {f : ActionTableEntry H → ActionTableEntry H} {g : Worker → Worker}
    (hf : ∀ e, f (f e) = f e) (hg : ∀ x, g (g x) = g x) (c : Config H) :
    let edit (c : Config H) :=
      (c.setEntry i (f (c.actionTable i))).setWorker w (g (c.workerList w))
    edit (edit c) = edit c := by
  intro edit
  have hentry : (edit c).setEntry i (f ((edit c).actionTable i)) = edit c := by
    have hset : (edit c).actionTable i = f (c.actionTable i) := Config.setEntry_self ..
    apply setEntry_eq_self
    rw [hset, hf]
  have hworker : (edit c).setWorker w (g ((edit c).workerList w)) = edit c := by
    have hset : (edit c).workerList w = g (c.workerList w) := Config.setWorker_self ..
    apply setWorker_eq_self
    rw [hset, hg]
  show ((edit c).setEntry i _).setWorker w _ = edit c
  rw [hentry, hworker]

theorem repeats_actionCreatePacketOut (tokens : List String) :
    Repeats fun c : Config H ↦ actionCreatePacketOut c tokens := by
  unfold actionCreatePacketOut
  apply repeats_bind; intro actionIndex
  apply repeats_bind; intro coreId
  apply repeats_bind; intro i
  apply repeats_bind; intro w
  exact repeats_pure (editBoth_twice i w
    (f := fun e : ActionTableEntry H ↦
      { e with action := some .transmitPacket, coreId, state := .worker w })
    (g := fun x : Worker ↦ { x with txb := true, lastAction := true })
    (fun _ ↦ rfl) fun _ ↦ rfl)

theorem repeats_actionMigrate (tokens : List String) :
    Repeats fun c : Config H ↦ actionMigrate c tokens := by
  unfold actionMigrate
  iterate 3 apply repeats_bind; intro
  refine repeats_pure fun c ↦ setEntry_eq_self ?_
  rw [Config.setEntry_self]

theorem repeats_workerFirstAction (tokens : List String) :
    Repeats fun c : Config H ↦ Runtime.workerFirstAction c tokens := by
  unfold Runtime.workerFirstAction
  iterate 5 apply repeats_bind; intro
  intro c c' reply h
  obtain ⟨buckets, hbuckets, h⟩ := ok_of_bind h
  cases h
  dsimp only
  rw [Config.setWorker_self, fill_twice hbuckets]
  refine congrArg (fun c' ↦ Except.ok (c', _)) (setWorker_eq_self ?_)
  rw [Config.setWorker_self]

/-- The branches of the configuration commands can be executed again. -/
theorem repeats_exec {command : CliCommand} (h : configures command = true) (tokens : List String) :
    Repeats fun c : Config H ↦ command.exec c tokens := by
  cases command with
  | configParameter => exact repeats_configParameter tokens
  | configRssRetaConfig => exact repeats_configRssRetaConfig tokens
  | stateCreate => exact repeats_stateCreate tokens
  | stateInstallSimplePath => exact repeats_stateInstallSimplePath tokens
  | stateControlFrequency =>
    unfold CliCommand.exec stateControlFrequency
    apply repeats_stateSet
    intro s v
    rfl
  | stateDataComplexity =>
    unfold CliCommand.exec stateDataComplexity
    apply repeats_stateSet
    intro s v
    rfl
  | stateDataState =>
    unfold CliCommand.exec stateDataState
    apply repeats_stateSet
    intro s v
    rfl
  | actionCreate => exact repeats_actionCreate tokens
  | actionCreatePacketOut => exact repeats_actionCreatePacketOut tokens
  | actionMigrate => exact repeats_actionMigrate tokens
  | workerFirstAction => exact repeats_workerFirstAction tokens
  | _ => exact absurd h (by decide)

/-! ### Lines -/

/-- A line of a configuration command, executed twice, has the effect and the reply of one
execution. -/
theorem cliProcess_twice {line : List Char} {command : CliCommand}
    (hline : CliCommand.ofLine line = .ok command) (h : configures command = true)
    (c : Config H) :
    (cliProcess c line >>= fun r ↦ cliProcess r.1 line) = cliProcess c line := by
  simp only [CliCommand.cliProcess_eq, hline]
  show (command.exec c (strtok line) >>= fun r ↦ command.exec r.1 (strtok line)) =
    command.exec c (strtok line)
  cases hexec : command.exec c (strtok line) with
  | error e => rfl
  | ok r => exact repeats_exec h (strtok line) c r.1 r.2 hexec

/-- What the director means by a request, meant twice. -/
theorem Request.meant_twice (r : Request) (c : Config H) : r.meant (r.meant c) = r.meant c := by
  have hrange {α : Type} (s n : Int) (v : α) (a : Fin RSS_I_TABLE_SIZE → α) :
      (fun b : Fin RSS_I_TABLE_SIZE ↦ if s ≤ b.val ∧ (b.val : Int) < s + n then v
        else if s ≤ b.val ∧ (b.val : Int) < s + n then v else a b) =
      fun b ↦ if s ≤ b.val ∧ (b.val : Int) < s + n then v else a b := by
    funext b
    split <;> rfl
  cases r with
  | configureParameter p => rfl
  | configureRssReta s n w a => simp only [Request.meant, hrange]
  | createState r i =>
    refine setState_eq_self ?_
    simp only [Request.meant, Config.setState_self]
    rfl
  | installSimplePath i a p =>
    refine setState_eq_self ?_
    simp only [Request.meant, Config.setState_self, Function.update_idem]
  | configureState k i v =>
    cases k <;>
    · refine setState_eq_self ?_
      simp only [Request.meant, Config.setState_self]
  | stateNumFlows i v =>
    refine setState_eq_self ?_
    simp only [Request.meant, Config.setState_self]
  | createAction r a s w => exact setEntry_eq_self (Config.setEntry_self ..)
  | createPacketOutAction a w =>
    exact editBoth_twice a w
      (f := fun e : ActionTableEntry H ↦
        { e with action := some .transmitPacket, coreId := (w.val : Int), state := .worker w })
      (g := fun x : Worker ↦ { x with txb := true, lastAction := true })
      (fun _ ↦ rfl) (fun _ ↦ rfl) c
  | migrateAction a w =>
    refine setEntry_eq_self ?_
    simp only [Request.meant, Config.setEntry_self]
  | workerFirstAction w a s n =>
    refine setWorker_eq_self ?_
    simp only [Request.meant, Config.setWorker_self, hrange]

/-- Commands may be sent again. Every line that selects one of the configuration commands of
`NFlambda`, whatever its other tokens are, leaves behind the same configuration and the same reply
whether it is executed once or twice in a row, and a request that is sent twice leaves the runtime
as the director means it to be after one. -/
theorem resent_commands_harmless :
    (∀ (c : Config H) (line : List Char) (command : CliCommand),
      CliCommand.ofLine line = .ok command → configures command = true →
        (cliProcess c line >>= fun r ↦ cliProcess r.1 line) = cliProcess c line) ∧
    (∀ (c : Config H) (r : Request), r.InRange →
      sendCommand c r.command = .ok (r.meant c) ∧
        sendCommands c [r.command, r.command] = .ok (r.meant c)) := by
  refine ⟨fun c line command hline h ↦ cliProcess_twice hline h c, fun c r h ↦ ?_⟩
  have hfirst := r.sendCommand c h
  have hsecond := r.sendCommand (r.meant c) h
  refine ⟨hfirst, ?_⟩
  rw [sendCommands_cons, hfirst]
  show sendCommands (r.meant c) [r.command] = _
  rw [sendCommands_cons, hsecond, r.meant_twice]
  rfl

end Nflambda.Deploy
