import Nflambda.Runtime.Cli

/-!
# Which command a line runs

Library `Runtime`. The choice that `cli_process`, `src/runtime/cli.c:42–431`, makes by the first two
tokens of a line, apart from what the chosen branch then does. The choice does not depend on the
configuration.
-/

namespace Nflambda.Runtime

open Nflambda.Base

/-- `atoi(tokens[i])`, where the tokenizer has produced that token. -/
def number (tokens : List String) (i : Nat) : Int := (num tokens i).toOption.getD 0

/-- A number that has been read. -/
theorem number_of_ok {tokens : List String} {i : Nat} {v : Int} (h : num tokens i = .ok v) :
    number tokens i = v := by
  rw [number, h]
  rfl

/-- The branches of `cli_process`, in the order of the source. -/
inductive CliCommand where
  /-- A comment, an empty line, or a second token that a group does not know. -/
  | silent
  | tooMany
  | configParameter
  | configRssRetaConfig
  | configRss
  | stateCreate
  | stateInstallPath
  | stateInstallSimplePath
  | stateControlFrequency
  | stateMessageNum
  | stateDataComplexity
  | stateDataState
  | actionCreate
  | actionCreatePacketOut
  | actionInstall
  | actionMigrate
  | coordinatorSend
  | portInit
  | dumpNf
  | dump
  | workerFirstAction
  | workerRun
  | lastAction
  | firstAction
  | unknown
  deriving DecidableEq, Repr

namespace CliCommand

variable {H : Type}

/-- What a branch does. -/
def exec (command : CliCommand) (c : Config H) (tokens : List String) :
    Except Fault (Config H × Reply) :=
  match command with
  | silent => return (c, .text "")
  | tooMany => return (c, .text MSG_ARG_TOO_MANY)
  | configParameter => Runtime.configParameter c tokens
  | configRssRetaConfig => Runtime.configRssRetaConfig c tokens
  | configRss => return ({ c with nicReta := some c.retaConf }, .text "config rss done!\n")
  | stateCreate => Runtime.stateCreate c tokens
  | stateInstallPath => Runtime.stateInstallPath c tokens
  | stateInstallSimplePath => Runtime.stateInstallSimplePath c tokens
  | stateControlFrequency => Runtime.stateControlFrequency c tokens
  | stateMessageNum => Runtime.stateMessageNum c tokens
  | stateDataComplexity => Runtime.stateDataComplexity c tokens
  | stateDataState => Runtime.stateDataState c tokens
  | actionCreate => Runtime.actionCreate c tokens
  | actionCreatePacketOut => Runtime.actionCreatePacketOut c tokens
  | actionInstall => return (c, .text "action install done\n")
  | actionMigrate => Runtime.actionMigrate c tokens
  | coordinatorSend => return (c, .text "coordinator send done\n")
  | portInit => return ({ c with nQueue := 24 }, .text "port init done!\n")
  | dumpNf => return (c, .text "nf 0\n")
  | dump => return (c, .statistics)
  | workerFirstAction => Runtime.workerFirstAction c tokens
  | workerRun => return ({ c with running := true }, .text "worker is running\n")
  | lastAction => Runtime.lastAction c tokens
  | firstAction => Runtime.firstAction c tokens
  -- the argument of the `%s` in the reply is missing
  | unknown => .error .missingArgument

/-- The choice at the end of `cli_process`, `cli.c:409–430`. -/
def ofTrailing (tokens : List String) : Except Fault CliCommand := do
  let t1 ← tok tokens 1
  if t1 = "last_action" then return lastAction
  else if t1 = "first_action" then return firstAction
  else return unknown

/-- The choice among the `config` commands, `cli.c:60–110`. -/
def ofConfig (tokens : List String) : Except Fault CliCommand := do
  let t1 ← tok tokens 1
  if t1 = "parameter" then return configParameter
  else if t1 = "rss_reta_config" then return configRssRetaConfig
  else if t1 = "rss" then return configRss
  else ofTrailing tokens

/-- The choice among the `state` commands, `cli.c:113–178`. -/
def ofState (tokens : List String) : Except Fault CliCommand := do
  let t1 ← tok tokens 1
  if t1 = "create" then return stateCreate
  else if t1 = "install_path" then return stateInstallPath
  else if t1 = "install_simple_path" then return stateInstallSimplePath
  else if t1 = "control_frequency" then return stateControlFrequency
  else if t1 = "message_num" then return stateMessageNum
  else if t1 = "data_complexity" then return stateDataComplexity
  else if t1 = "data_state" then return stateDataState
  else ofTrailing tokens

/-- The choice among the `action` commands, `cli.c:181–256`. -/
def ofAction (tokens : List String) : Except Fault CliCommand := do
  let t1 ← tok tokens 1
  if t1 = "create" then return actionCreate
  else if t1 = "create_packet_out" then return actionCreatePacketOut
  else if t1 = "install" then return actionInstall
  else if t1 = "migrate" then return actionMigrate
  else ofTrailing tokens

/-- The choice among the `coordinator` commands, `cli.c:259–269`. -/
def ofCoordinator (tokens : List String) : Except Fault CliCommand := do
  let t1 ← tok tokens 1
  if t1 = "send" then return coordinatorSend else return silent

/-- The choice among the `port` commands, `cli.c:271–279`. -/
def ofPort (tokens : List String) : Except Fault CliCommand := do
  let t1 ← tok tokens 1
  if t1 = "init" then return portInit else return silent

/-- The choice among the `dump` commands, `cli.c:280–364`. -/
def ofDump (tokens : List String) : Except Fault CliCommand :=
  if tokens.length = 1 then return dumpNf
  else do
    let t1 ← tok tokens 1
    if t1 ∈ ["stat", "worker_stat", "pm", "rss", "state"] then return dump
    else ofTrailing tokens

/-- The choice among the `worker` commands, `cli.c:367–406`. -/
def ofWorker (tokens : List String) : Except Fault CliCommand := do
  let t1 ← tok tokens 1
  if t1 = "first_action" then return workerFirstAction
  else if t1 = "run" then return workerRun
  else ofTrailing tokens

/-- The choice by the tokens of a line, `cli.c:60–430`. -/
def ofTokens (tokens : List String) : Except Fault CliCommand := do
  let t0 ← tok tokens 0
  if t0 = "config" then ofConfig tokens
  else if t0 = "state" then ofState tokens
  else if t0 = "action" then ofAction tokens
  else if t0 = "coordinator" then ofCoordinator tokens
  else if t0 = "port" then ofPort tokens
  else if t0 = "dump" then ofDump tokens
  else if t0 = "worker" then ofWorker tokens
  else ofTrailing tokens

/-- The choice by a line, `cli.c:42–430`. -/
def ofLine (line : List Char) : Except Fault CliCommand :=
  if isComment line then return silent
  else
    match parseTokenizeString line with
    | none => return tooMany
    | some [] => return silent
    | some tokens => ofTokens tokens

/-! ### Choosing and executing -/

/-- A group of commands is its choice followed by the branch. -/
private def Splits (c : Config H) (tokens : List String) (x : Except Fault (Config H × Reply))
    (choice : Except Fault CliCommand) : Prop :=
  x = choice >>= fun command ↦ command.exec c tokens

private theorem splits_ite {c : Config H} {tokens : List String} {p : Prop} [Decidable p]
    {x y : Except Fault (Config H × Reply)} {a b : Except Fault CliCommand}
    (hx : Splits c tokens x a) (hy : Splits c tokens y b) :
    Splits c tokens (if p then x else y) (if p then a else b) := by
  split
  · exact hx
  · exact hy

private theorem splits_bind {α : Type} {c : Config H} {tokens : List String}
    {t : Except Fault α} {f : α → Except Fault (Config H × Reply)}
    {g : α → Except Fault CliCommand} (h : ∀ a, Splits c tokens (f a) (g a)) :
    Splits c tokens (t >>= f) (t >>= g) := by
  cases t with
  | error e => rfl
  | ok a => exact h a

private theorem splits_trailing (c : Config H) (tokens : List String) :
    Splits c tokens (trailingCommands c tokens) (ofTrailing tokens) :=
  splits_bind fun _ ↦ splits_ite rfl (splits_ite rfl rfl)

private theorem splits_config (c : Config H) (tokens : List String) :
    Splits c tokens (configCommands c tokens) (ofConfig tokens) :=
  splits_bind fun _ ↦ splits_ite rfl (splits_ite rfl (splits_ite rfl (splits_trailing c tokens)))

private theorem splits_state (c : Config H) (tokens : List String) :
    Splits c tokens (stateCommands c tokens) (ofState tokens) :=
  splits_bind fun _ ↦ splits_ite rfl (splits_ite rfl (splits_ite rfl (splits_ite rfl
    (splits_ite rfl (splits_ite rfl (splits_ite rfl (splits_trailing c tokens)))))))

private theorem splits_action (c : Config H) (tokens : List String) :
    Splits c tokens (actionCommands c tokens) (ofAction tokens) :=
  splits_bind fun _ ↦ splits_ite rfl (splits_ite rfl (splits_ite rfl (splits_ite rfl
    (splits_trailing c tokens))))

private theorem splits_dump (c : Config H) (tokens : List String) :
    Splits c tokens (dumpCommands c tokens) (ofDump tokens) :=
  splits_ite rfl (splits_bind fun _ ↦ splits_ite rfl (splits_trailing c tokens))

private theorem splits_worker (c : Config H) (tokens : List String) :
    Splits c tokens (workerCommands c tokens) (ofWorker tokens) :=
  splits_bind fun _ ↦ splits_ite rfl (splits_ite rfl (splits_trailing c tokens))

/-- The dispatch chooses a branch and runs it. -/
theorem dispatch_eq (c : Config H) (tokens : List String) :
    dispatch c tokens = ofTokens tokens >>= fun command ↦ command.exec c tokens :=
  splits_bind fun _ ↦ splits_ite (splits_config c tokens) (splits_ite (splits_state c tokens)
    (splits_ite (splits_action c tokens) (splits_ite (splits_bind fun _ ↦ splits_ite rfl rfl)
      (splits_ite (splits_bind fun _ ↦ splits_ite rfl rfl) (splits_ite (splits_dump c tokens)
        (splits_ite (splits_worker c tokens) (splits_trailing c tokens)))))))

/-- Tokens that select a branch are dispatched to it. -/
theorem dispatch_of_choice {tokens : List String} {k : CliCommand} (h : ofTokens tokens = .ok k)
    (c : Config H) : dispatch c tokens = k.exec c tokens := by
  rw [dispatch_eq, h]
  rfl

/-- The tokens of a line that is not rejected. -/
private theorem eq_strtok_of_parse {line : List Char} {tokens : List String}
    (h : parseTokenizeString line = some tokens) : tokens = strtok line := by
  unfold parseTokenizeString at h
  dsimp only at h
  split at h
  · exact (Option.some.inj h).symm
  · cases h

/-- `cli_process` chooses a branch by the line and runs it on the tokens of the line. -/
theorem cliProcess_eq (c : Config H) (line : List Char) :
    cliProcess c line = ofLine line >>= fun command ↦ command.exec c (strtok line) := by
  unfold cliProcess ofLine
  split
  · rfl
  · cases hparse : parseTokenizeString line with
    | none => rfl
    | some tokens =>
      obtain rfl := eq_strtok_of_parse hparse
      cases htokens : strtok line with
      | nil => rfl
      | cons t rest => exact dispatch_eq c (t :: rest)

/-! ### Which lines edit entries -/

/-- The branches that write the function, the state or the core of an entry. -/
def editsEntries : CliCommand → Bool
  | actionCreate | actionCreatePacketOut | actionMigrate => true
  | _ => false

/-- The choice does not fall on such a branch. -/
private def Spares (x : Except Fault CliCommand) : Prop :=
  ∀ command, x = .ok command → command.editsEntries = false

private theorem spares_ok {command : CliCommand} (h : command.editsEntries = false) :
    Spares (.ok command) := by
  intro command' heq
  cases heq
  exact h

private theorem spares_bind {α : Type} {x : Except Fault α} {f : α → Except Fault CliCommand}
    (h : ∀ a, Spares (f a)) : Spares (x >>= f) := by
  intro command heq
  obtain ⟨a, -, hf⟩ := ok_of_bind heq
  exact h a command hf

private theorem spares_ite {p : Prop} [Decidable p] {x y : Except Fault CliCommand}
    (hx : Spares x) (hy : Spares y) : Spares (if p then x else y) := by
  split
  · exact hx
  · exact hy

private theorem spares_trailing (tokens : List String) : Spares (ofTrailing tokens) :=
  spares_bind fun _ ↦ spares_ite (spares_ok rfl) (spares_ite (spares_ok rfl) (spares_ok rfl))

private theorem spares_config (tokens : List String) : Spares (ofConfig tokens) :=
  spares_bind fun _ ↦ spares_ite (spares_ok rfl) (spares_ite (spares_ok rfl)
    (spares_ite (spares_ok rfl) (spares_trailing tokens)))

private theorem spares_state (tokens : List String) : Spares (ofState tokens) :=
  spares_bind fun _ ↦ spares_ite (spares_ok rfl) (spares_ite (spares_ok rfl)
    (spares_ite (spares_ok rfl) (spares_ite (spares_ok rfl) (spares_ite (spares_ok rfl)
      (spares_ite (spares_ok rfl) (spares_ite (spares_ok rfl) (spares_trailing tokens)))))))

private theorem spares_dump (tokens : List String) : Spares (ofDump tokens) :=
  spares_ite (spares_ok rfl) (spares_bind fun _ ↦ spares_ite (spares_ok rfl)
    (spares_trailing tokens))

private theorem spares_worker (tokens : List String) : Spares (ofWorker tokens) :=
  spares_bind fun _ ↦ spares_ite (spares_ok rfl) (spares_ite (spares_ok rfl)
    (spares_trailing tokens))

private theorem spares_ofTokens {t0 : String} {rest : List String} (h : t0 ≠ "action") :
    Spares (ofTokens (t0 :: rest)) := by
  change Spares (if t0 = "config" then _ else if t0 = "state" then _ else
    if t0 = "action" then _ else _)
  rw [if_neg h]
  exact spares_ite (spares_config _) (spares_ite (spares_state _)
    (spares_ite (spares_bind fun _ ↦ spares_ite (spares_ok rfl) (spares_ok rfl))
      (spares_ite (spares_bind fun _ ↦ spares_ite (spares_ok rfl) (spares_ok rfl))
        (spares_ite (spares_dump _) (spares_ite (spares_worker _) (spares_trailing _))))))

/-- Only `action` lines write the function, the state or the core of an entry. -/
theorem head?_of_editsEntries {line : List Char} {command : CliCommand}
    (h : ofLine line = .ok command) (hc : command.editsEntries = true) :
    (strtok line).head? = some "action" := by
  by_contra hne
  have hspares : Spares (ofLine line) := by
    unfold ofLine
    split
    · exact spares_ok rfl
    · split
      · exact spares_ok rfl
      · exact spares_ok rfl
      · next tokens hnil hparse =>
        obtain rfl := eq_strtok_of_parse hparse
        cases htokens : strtok line with
        | nil => exact absurd htokens hnil
        | cons t0 rest =>
          refine spares_ofTokens fun ht0 ↦ hne ?_
          rw [htokens, List.head?_cons, ht0]
  rw [hspares command h] at hc
  cases hc

/-! ### What a branch does -/

/-- The branches that leave the configuration alone and read no number. -/
def readsNothing : CliCommand → Bool
  | silent | tooMany | actionInstall | coordinatorSend | dumpNf | dump => true
  | _ => false

/-- What every branch reads of the tokens and what it makes of the configuration. -/
inductive Executed (c : Config H) (tokens : List String) : CliCommand → Config H → Prop
  | nothing (command : CliCommand) (h : command.readsNothing = true) : Executed c tokens command c
  | configParameter (p : InitStateParameter) (hsize : num tokens 8 = .ok p.dataStateSize) :
    Executed c tokens .configParameter { c with initStateParameter := p }
  | configRssRetaConfig (retaConf bucketToActionId : Fin RSS_I_TABLE_SIZE → Int) :
    Executed c tokens .configRssRetaConfig { c with retaConf, bucketToActionId }
  | configRss : Executed c tokens .configRss { c with nicReta := some c.retaConf }
  | stateCreate (i : Fin STATE_NUM) (hi : num tokens 3 = .ok (i.val : Int)) :
    Executed c tokens .stateCreate
      (c.setState i (stateUpdate (c.states i) c.initStateParameter))
  | stateInstallPath (i : Fin ACTION_TABLE_SIZE) (e : ActionTableEntry H)
    (haction : e.action = (c.actionTable i).action) (hstate : e.state = (c.actionTable i).state)
    (hcore : e.coreId = (c.actionTable i).coreId) :
    Executed c tokens .stateInstallPath (c.setEntry i e)
  | stateInstallSimplePath (i : Fin STATE_NUM) (p : Fin 10) (actionId : Int)
    (hi : num tokens 2 = .ok (i.val : Int)) (haction : num tokens 3 = .ok actionId)
    (hp : num tokens 4 = .ok (p.val : Int)) :
    Executed c tokens .stateInstallSimplePath (c.setState i
      { c.states i with simplePath := Function.update (c.states i).simplePath p actionId })
  | stateControlFrequency (i : Fin STATE_NUM) (controlFrequency : Int)
    (hi : num tokens 2 = .ok (i.val : Int)) (hfrequency : num tokens 3 = .ok controlFrequency) :
    Executed c tokens .stateControlFrequency (c.setState i { c.states i with controlFrequency })
  | stateMessageNum : Executed c tokens .stateMessageNum c
  | stateDataComplexity (i : Fin STATE_NUM) (dataComplexity : Int)
    (hi : num tokens 2 = .ok (i.val : Int)) (hcomplexity : num tokens 3 = .ok dataComplexity) :
    Executed c tokens .stateDataComplexity (c.setState i { c.states i with dataComplexity })
  | stateDataState (i : Fin STATE_NUM) (randRange : Int) (hi : num tokens 2 = .ok (i.val : Int))
    (hrange : num tokens 3 = .ok randRange) :
    Executed c tokens .stateDataState (c.setState i { c.states i with randRange })
  | actionCreate (i : Fin ACTION_TABLE_SIZE) (r : Fin 200) (e : ActionTableEntry H)
    (haction : e.action = c.actionRegistration r) :
    Executed c tokens .actionCreate (c.setEntry i e)
  | actionCreatePacketOut (i : Fin ACTION_TABLE_SIZE) (w : Core) (e : ActionTableEntry H)
    (haction : e.action = some .transmitPacket) (hstate : e.state = .worker w)
    (hcore : e.coreId = (w.val : Int)) :
    Executed c tokens .actionCreatePacketOut
      ((c.setEntry i e).setWorker w { c.workerList w with txb := true, lastAction := true })
  | actionMigrate (i : Fin ACTION_TABLE_SIZE) (coreId : Int) (e : ActionTableEntry H)
    (hi : num tokens 2 = .ok (i.val : Int)) (hcore : num tokens 3 = .ok coreId)
    (he : e = { c.actionTable i with coreId }) :
    Executed c tokens .actionMigrate (c.setEntry i e)
  | portInit : Executed c tokens .portInit { c with nQueue := 24 }
  | workerFirstAction (w : Core) (buckets : Fin RSS_I_TABLE_SIZE → Int) :
    Executed c tokens .workerFirstAction
      (c.setWorker w { c.workerList w with buckets, firstAction := true })
  | workerRun : Executed c tokens .workerRun { c with running := true }
  | lastAction (w : Core) :
    Executed c tokens .lastAction
      (c.setWorker w { c.workerList w with txb := true, lastAction := true })
  | firstAction (w : Core) :
    Executed c tokens .firstAction (c.setWorker w { c.workerList w with firstAction := true })

section Branches

variable {c c' : Config H} {tokens : List String} {reply : Reply}

private theorem executed_configParameter
    (h : Runtime.configParameter c tokens = .ok (c', reply)) :
    Executed c tokens .configParameter c' := by
  unfold Runtime.configParameter at h
  iterate 6 obtain ⟨_, -, h⟩ := ok_of_bind h
  obtain ⟨size, hsize, h⟩ := ok_of_bind h
  obtain ⟨_, -, h⟩ := ok_of_bind h
  cases h
  exact .configParameter _ hsize

private theorem executed_configRssRetaConfig
    (h : Runtime.configRssRetaConfig c tokens = .ok (c', reply)) :
    Executed c tokens .configRssRetaConfig c' := by
  unfold Runtime.configRssRetaConfig at h
  iterate 4 obtain ⟨_, -, h⟩ := ok_of_bind h
  dsimp only at h
  split at h
  · iterate 3 obtain ⟨_, -, h⟩ := ok_of_bind h
    cases h
    exact .configRssRetaConfig _ _
  · cases h
    exact .configRssRetaConfig c.retaConf c.bucketToActionId

private theorem executed_stateCreate (h : Runtime.stateCreate c tokens = .ok (c', reply)) :
    Executed c tokens .stateCreate c' := by
  obtain ⟨index, hindex, h⟩ := ok_of_bind h
  obtain ⟨i, hi, h⟩ := ok_of_bind h
  cases h
  exact .stateCreate i (slot_eq_ok_iff.mp hi ▸ hindex)

private theorem executed_stateInstallPath
    (h : Runtime.stateInstallPath c tokens = .ok (c', reply)) :
    Executed c tokens .stateInstallPath c' := by
  unfold Runtime.stateInstallPath at h
  iterate 3 obtain ⟨_, -, h⟩ := ok_of_bind h
  obtain ⟨i, -, h⟩ := ok_of_bind h
  obtain ⟨_, -, h⟩ := ok_of_bind h
  cases h
  exact .stateInstallPath i _ rfl rfl rfl

private theorem executed_stateInstallSimplePath
    (h : Runtime.stateInstallSimplePath c tokens = .ok (c', reply)) :
    Executed c tokens .stateInstallSimplePath c' := by
  obtain ⟨stateId, hstate, h⟩ := ok_of_bind h
  obtain ⟨actionId, haction, h⟩ := ok_of_bind h
  obtain ⟨localPath, hpath, h⟩ := ok_of_bind h
  obtain ⟨i, hi, h⟩ := ok_of_bind h
  obtain ⟨p, hp, h⟩ := ok_of_bind h
  cases h
  exact .stateInstallSimplePath i p actionId (slot_eq_ok_iff.mp hi ▸ hstate) haction
    (slot_eq_ok_iff.mp hp ▸ hpath)

private theorem executed_stateSet {set : State H → Int → State H} {text : String}
    (h : stateSet set text c tokens = .ok (c', reply)) :
    ∃ (i : Fin STATE_NUM) (v : Int), num tokens 2 = .ok (i.val : Int) ∧ num tokens 3 = .ok v ∧
      c' = c.setState i (set (c.states i) v) := by
  obtain ⟨index, hindex, h⟩ := ok_of_bind h
  obtain ⟨v, hv, h⟩ := ok_of_bind h
  obtain ⟨i, hi, h⟩ := ok_of_bind h
  cases h
  exact ⟨i, v, slot_eq_ok_iff.mp hi ▸ hindex, hv, rfl⟩

private theorem executed_stateMessageNum
    (h : Runtime.stateMessageNum c tokens = .ok (c', reply)) :
    Executed c tokens .stateMessageNum c' := by
  obtain ⟨_, -, h⟩ := ok_of_bind h
  obtain ⟨_, -, h⟩ := ok_of_bind h
  cases h
  exact .stateMessageNum

private theorem executed_actionCreate (h : Runtime.actionCreate c tokens = .ok (c', reply)) :
    Executed c tokens .actionCreate c' := by
  unfold Runtime.actionCreate at h
  iterate 4 obtain ⟨_, -, h⟩ := ok_of_bind h
  obtain ⟨i, -, h⟩ := ok_of_bind h
  obtain ⟨r, -, h⟩ := ok_of_bind h
  cases h
  exact .actionCreate i r _ rfl

private theorem executed_actionCreatePacketOut
    (h : Runtime.actionCreatePacketOut c tokens = .ok (c', reply)) :
    Executed c tokens .actionCreatePacketOut c' := by
  obtain ⟨_, -, h⟩ := ok_of_bind h
  obtain ⟨coreId, -, h⟩ := ok_of_bind h
  obtain ⟨i, -, h⟩ := ok_of_bind h
  obtain ⟨w, hw, h⟩ := ok_of_bind h
  cases h
  exact .actionCreatePacketOut i w _ rfl rfl (slot_eq_ok_iff.mp hw)

private theorem executed_actionMigrate (h : Runtime.actionMigrate c tokens = .ok (c', reply)) :
    Executed c tokens .actionMigrate c' := by
  obtain ⟨_, hid, h⟩ := ok_of_bind h
  obtain ⟨coreId, hcore, h⟩ := ok_of_bind h
  obtain ⟨i, hi, h⟩ := ok_of_bind h
  cases h
  exact .actionMigrate i coreId _ (slot_eq_ok_iff.mp hi ▸ hid) hcore rfl

private theorem executed_workerFirstAction
    (h : Runtime.workerFirstAction c tokens = .ok (c', reply)) :
    Executed c tokens .workerFirstAction c' := by
  unfold Runtime.workerFirstAction at h
  iterate 6 obtain ⟨_, -, h⟩ := ok_of_bind h
  cases h
  exact .workerFirstAction _ _

private theorem executed_lastAction (h : Runtime.lastAction c tokens = .ok (c', reply)) :
    Executed c tokens .lastAction c' := by
  obtain ⟨_, -, h⟩ := ok_of_bind h
  obtain ⟨w, -, h⟩ := ok_of_bind h
  cases h
  exact .lastAction w

private theorem executed_firstAction (h : Runtime.firstAction c tokens = .ok (c', reply)) :
    Executed c tokens .firstAction c' := by
  obtain ⟨_, -, h⟩ := ok_of_bind h
  obtain ⟨w, -, h⟩ := ok_of_bind h
  cases h
  exact .firstAction w

end Branches

/-- A branch that has a result has done what is listed. -/
theorem executed {c c' : Config H} {tokens : List String} {reply : Reply} {command : CliCommand}
    (h : command.exec c tokens = .ok (c', reply)) : Executed c tokens command c' := by
  cases command with
  | configParameter => exact executed_configParameter h
  | configRssRetaConfig => exact executed_configRssRetaConfig h
  | stateCreate => exact executed_stateCreate h
  | stateInstallPath => exact executed_stateInstallPath h
  | stateInstallSimplePath => exact executed_stateInstallSimplePath h
  | stateControlFrequency =>
    unfold exec Runtime.stateControlFrequency at h
    obtain ⟨i, v, hi, hv, rfl⟩ := executed_stateSet h
    exact .stateControlFrequency i v hi hv
  | stateMessageNum => exact executed_stateMessageNum h
  | stateDataComplexity =>
    unfold exec Runtime.stateDataComplexity at h
    obtain ⟨i, v, hi, hv, rfl⟩ := executed_stateSet h
    exact .stateDataComplexity i v hi hv
  | stateDataState =>
    unfold exec Runtime.stateDataState at h
    obtain ⟨i, v, hi, hv, rfl⟩ := executed_stateSet h
    exact .stateDataState i v hi hv
  | actionCreate => exact executed_actionCreate h
  | actionCreatePacketOut => exact executed_actionCreatePacketOut h
  | actionMigrate => exact executed_actionMigrate h
  | workerFirstAction => exact executed_workerFirstAction h
  | lastAction => exact executed_lastAction h
  | firstAction => exact executed_firstAction h
  | configRss =>
    cases h
    exact .configRss
  | portInit =>
    cases h
    exact .portInit
  | workerRun =>
    cases h
    exact .workerRun
  | silent | tooMany | actionInstall | coordinatorSend | dumpNf | dump =>
    cases h
    exact .nothing _ rfl
  | unknown => cases h

/-- What a line that is executed has done. -/
theorem executed_of_cliProcess {c c' : Config H} {line : List Char} {reply : Reply}
    (h : cliProcess c line = .ok (c', reply)) :
    ∃ command, ofLine line = .ok command ∧ Executed c (strtok line) command c' := by
  rw [cliProcess_eq] at h
  obtain ⟨command, hcommand, hexec⟩ := ok_of_bind h
  exact ⟨command, hcommand, executed hexec⟩

end CliCommand

end Nflambda.Runtime
