import Mathlib.Algebra.Order.Ring.Int
import Mathlib.Data.String.Defs
import Nflambda.Runtime.Config

/-!
# The command interface of the runtime

Library `Runtime`. Source `src/runtime/cli.c`, the tokenizer
`src/runtime/parser.c:254–275` and the line splitting of
`src/runtime/conn.c:201–252`. A command reads tokens by position without
checking how many there are; a read past the last one is a `Fault`. So is the
reply to an unknown command: `cli.c:430` prints `MSG_CMD_UNKNOWN`, which has a
`%s`, without an argument for it.
-/

namespace Nflambda.Runtime

open Nflambda.Base

/-- `PARSE_DELIMITER`, `parser.h:14`. -/
def isDelimiter (c : Char) : Bool :=
  c == ' ' || c == '\x0c' || c == '\n' || c == '\r' || c == '\t' || c == '\x0b'

/-- Largest number of tokens of a line, `cli.c:20`. -/
abbrev CMD_MAX_TOKENS : Nat := 256

/-- The tokens that repeated calls of `strtok_r` return. -/
def strtok (line : List Char) : List String :=
  ((line.splitOnP isDelimiter).filter (· ≠ [])).map String.ofList

/-- `parse_tokenize_string`, `parser.c:254–275`; `none` is `-E2BIG`. -/
def parseTokenizeString (line : List Char) : Option (List String) :=
  let tokens := strtok line
  if tokens.length ≤ CMD_MAX_TOKENS then some tokens else none

/-- Value of a run of decimal digits at the start of a text. -/
def digitsValue (s : List Char) : Nat := Nat.ofDigitChars 10 (s.takeWhile Char.isDigit) 0

/-- Conversion of a `long` to a 32-bit `int`. -/
def toInt32 (i : Int) : Int := Int.bmod i (2 ^ 32)

/-- `strtol` in base ten, limited to the range of `long`. -/
def strtol (s : List Char) : Int :=
  match s.dropWhile isDelimiter with
  | '-' :: rest => max (-(2 ^ 63)) (-(digitsValue rest : Int))
  | '+' :: rest => min (2 ^ 63 - 1) (digitsValue rest : Int)
  | rest => min (2 ^ 63 - 1) (digitsValue rest : Int)

/-- `atoi`. -/
def atoi (s : String) : Int := toInt32 (strtol s.toList)

/-- Token `i`, as a string. -/
def tok (tokens : List String) (i : Nat) : Except Fault String :=
  match tokens[i]? with
  | some t => .ok t
  | none => .error .missingToken

/-- `atoi(tokens[i])`. -/
def num (tokens : List String) (i : Nat) : Except Fault Int := (tok tokens i).map atoi

/-- A position of a table, from a number read from a token. -/
def slot (n : Nat) (i : Int) : Except Fault (Fin n) :=
  match idx? n i with
  | some j => .ok j
  | none => .error .outOfBounds

/-- Exactly the numbers in range name a position, each its own. -/
theorem slot_eq_ok_iff {n : Nat} {i : Int} {j : Fin n} :
    slot n i = .ok j ↔ i = (j.val : Int) := by
  unfold slot
  split
  · next k hk =>
    rw [idx?_eq_some_iff] at hk
    rw [hk, Except.ok.injEq, Fin.ext_iff]
    omega
  · next hk =>
    refine ⟨fun h ↦ (nomatch h), fun h ↦ ?_⟩
    rw [← idx?_eq_some_iff, hk] at h
    cases h

/-- The writes of a counting loop over consecutive positions. -/
def fill {α : Type} {n : Nat} (a : Fin n → α) (v : α) (start : Int) (count : Nat) :
    Except Fault (Fin n → α) :=
  match fill? a v start count with
  | some b => .ok b
  | none => .error .outOfBounds

/-- What a command leaves in `out`: a text, or the statistics that a `dump` prints. -/
inductive Reply where
  | text (s : String)
  | statistics
  deriving DecidableEq, Repr

/-- `MSG_ARG_TOO_MANY`, with the empty string as its argument. -/
def MSG_ARG_TOO_MANY : String := "Too many arguments for command \"\".\n"

variable {H : Type}

/-- The state object an index of the state table names, or a wild pointer. -/
def stateRefOf (i : Int) : StateRef :=
  match idx? STATE_NUM i with
  | some j => .state j
  | none => .wild

/-- Replace one entry of the action table. -/
def Config.setEntry (c : Config H) (i : Fin ACTION_TABLE_SIZE) (e : ActionTableEntry H) :
    Config H :=
  { c with actionTable := Function.update c.actionTable i e }

/-- Replace one state object. -/
def Config.setState (c : Config H) (i : Fin STATE_NUM) (s : State H) : Config H :=
  { c with states := Function.update c.states i s }

/-- The replaced state object. -/
@[simp] theorem Config.setState_self (c : Config H) (i : Fin STATE_NUM) (s : State H) :
    (c.setState i s).states i = s := Function.update_self ..

/-- The other state objects stay as they are. -/
theorem Config.setState_of_ne (c : Config H) {i j : Fin STATE_NUM} (h : j ≠ i) (s : State H) :
    (c.setState i s).states j = c.states j := Function.update_of_ne h ..

/-- The replaced entry. -/
@[simp] theorem Config.setEntry_self (c : Config H) (i : Fin ACTION_TABLE_SIZE)
    (e : ActionTableEntry H) : (c.setEntry i e).actionTable i = e := Function.update_self ..

/-- The other entries stay as they are. -/
theorem Config.setEntry_of_ne (c : Config H) {i j : Fin ACTION_TABLE_SIZE} (h : j ≠ i)
    (e : ActionTableEntry H) : (c.setEntry i e).actionTable j = c.actionTable j :=
  Function.update_of_ne h ..

/-- Replace one worker. -/
def Config.setWorker (c : Config H) (i : Core) (w : Worker) : Config H :=
  { c with workerList := Function.update c.workerList i w }

/-- The replaced worker. -/
@[simp] theorem Config.setWorker_self (c : Config H) (i : Core) (w : Worker) :
    (c.setWorker i w).workerList i = w := Function.update_self ..

/-- The other workers stay as they are. -/
theorem Config.setWorker_of_ne (c : Config H) {i j : Core} (h : j ≠ i) (w : Worker) :
    (c.setWorker i w).workerList j = c.workerList j := Function.update_of_ne h ..

/-- `config parameter`, `cli.c:61–74`. -/
def configParameter (c : Config H) (tokens : List String) :
    Except Fault (Config H × Reply) := do
  let randRange ← num tokens 2
  let dataComplexity ← num tokens 3
  let controlComplexity ← num tokens 4
  let controlFrequency ← num tokens 5
  let executionId ← num tokens 6
  let stateSize ← num tokens 7
  let dataStateSize ← num tokens 8
  let controlStateSize ← num tokens 9
  let p := { c.initStateParameter with
    randRange, dataComplexity, controlComplexity, controlFrequency, executionId, stateSize,
    dataStateSize, controlStateSize }
  return ({ c with initStateParameter := p }, .text "config parameter done!\n")

/-- `config rss_reta_config`, `cli.c:75–96`. The loop counter is unsigned. -/
def configRssRetaConfig (c : Config H) (tokens : List String) :
    Except Fault (Config H × Reply) := do
  let startingBucket ← num tokens 2
  let numBucket ← num tokens 3
  let workerId ← num tokens 4
  let actionId ← num tokens 5
  let first := (BitVec.ofInt 32 startingBucket).toNat
  let last := (BitVec.ofInt 32 (startingBucket + numBucket)).toNat
  -- the worker is looked up in the loop body only
  if first < last then
    let w ← slot 48 workerId
    let retaConf ← fill c.retaConf (c.workerList w).queueId first (last - first)
    let bucketToActionId ← fill c.bucketToActionId actionId first (last - first)
    return ({ c with retaConf, bucketToActionId }, .text "config rss done!\n")
  else return (c, .text "config rss done!\n")

/-- `state create`, `cli.c:114–120`. Token 2 is not read. -/
def stateCreate (c : Config H) (tokens : List String) : Except Fault (Config H × Reply) := do
  let index ← num tokens 3
  let i ← slot STATE_NUM index
  return (c.setState i (stateUpdate (c.states i) c.initStateParameter),
    .text "coordinator send done\n")

/-- The search loop of `state install_path`, `cli.c:125–130`: the first slot that holds `-1`
receives the new action. -/
def installInRow (row : Fin MAXIMUM_PATH_INSTANCE → Int) (path : Int) :
    Fin MAXIMUM_PATH_INSTANCE → Int :=
  match (List.finRange MAXIMUM_PATH_INSTANCE).find? (fun i ↦ row i = -1) with
  | some i => Function.update row i path
  | none => row

/-- `state install_path`, `cli.c:121–135`. -/
def stateInstallPath (c : Config H) (tokens : List String) :
    Except Fault (Config H × Reply) := do
  let actionIndex ← num tokens 2
  let pathIndex ← num tokens 3
  let path ← num tokens 4
  let i ← slot ACTION_TABLE_SIZE actionIndex
  let p ← slot MAXIMUM_PATH pathIndex
  let e := c.actionTable i
  let e := { e with
    path := Function.update e.path p (installInRow (e.path p) path)
    pathInstanceNumber :=
      Function.update e.pathInstanceNumber p (e.pathInstanceNumber p + 1) }
  return (c.setEntry i e, .text "action install_path done\n")

/-- `state install_simple_path`, `cli.c:136–145`. -/
def stateInstallSimplePath (c : Config H) (tokens : List String) :
    Except Fault (Config H × Reply) := do
  let stateId ← num tokens 2
  let actionId ← num tokens 3
  let localPath ← num tokens 4
  let i ← slot STATE_NUM stateId
  let p ← slot 10 localPath
  let s := c.states i
  return (c.setState i { s with simplePath := Function.update s.simplePath p actionId },
    .text "action install_path done\n")

/-- The commands `control_frequency`, `data_complexity` and `data_state`, `cli.c:147–178`: one
number is stored in one field of a state. -/
def stateSet (set : State H → Int → State H) (reply : String) (c : Config H)
    (tokens : List String) : Except Fault (Config H × Reply) := do
  let stateIndex ← num tokens 2
  let val ← num tokens 3
  let i ← slot STATE_NUM stateIndex
  return (c.setState i (set (c.states i) val), .text reply)

/-- `state control_frequency`, `cli.c:147–154`. -/
def stateControlFrequency : Config H → List String → Except Fault (Config H × Reply) :=
  stateSet (fun s v ↦ { s with controlFrequency := v }) "action control_frequency done\n"

/-- `state data_complexity`, `cli.c:162–169`. -/
def stateDataComplexity : Config H → List String → Except Fault (Config H × Reply) :=
  stateSet (fun s v ↦ { s with dataComplexity := v }) "action data_complexity done\n"

/-- `state data_state`, `cli.c:170–177`. -/
def stateDataState : Config H → List String → Except Fault (Config H × Reply) :=
  stateSet (fun s v ↦ { s with randRange := v }) "action data_state done\n"

/-- `state message_num`, `cli.c:156–161`. -/
def stateMessageNum (c : Config H) (tokens : List String) :
    Except Fault (Config H × Reply) := do
  let stateIndex ← num tokens 2
  let i ← slot STATE_NUM stateIndex
  return (c, .text (toString (c.states i).nMessage ++ "\n"))

/-- `action create`, `cli.c:182–203`. -/
def actionCreate (c : Config H) (tokens : List String) : Except Fault (Config H × Reply) := do
  let registrationId ← num tokens 2
  let actionIndex ← num tokens 3
  let stateIndex ← num tokens 4
  let coreId ← num tokens 5
  let i ← slot ACTION_TABLE_SIZE actionIndex
  let r ← slot 200 registrationId
  return (c.setEntry i
    { action := c.actionRegistration r
      state := stateRefOf stateIndex
      coreId
      pathInstanceNumber := fun _ ↦ 0
      path := fun _ _ ↦ -1 }, .text "action create done\n")

/-- `action create_packet_out`, `cli.c:205–220`. -/
def actionCreatePacketOut (c : Config H) (tokens : List String) :
    Except Fault (Config H × Reply) := do
  let actionIndex ← num tokens 2
  let coreId ← num tokens 3
  let i ← slot ACTION_TABLE_SIZE actionIndex
  let w ← slot 48 coreId
  let c := c.setEntry i
    { c.actionTable i with action := some .transmitPacket, coreId, state := .worker w }
  return (c.setWorker w { c.workerList w with txb := true, lastAction := true },
    .text "action create_packet_out done\n")

/-- `action migrate`, `cli.c:248–255`. -/
def actionMigrate (c : Config H) (tokens : List String) :
    Except Fault (Config H × Reply) := do
  let actionId ← num tokens 2
  let coreId ← num tokens 3
  let i ← slot ACTION_TABLE_SIZE actionId
  return (c.setEntry i { c.actionTable i with coreId }, .text "action migration done\n")

/-- `worker first_action`, `cli.c:371–384`. -/
def workerFirstAction (c : Config H) (tokens : List String) :
    Except Fault (Config H × Reply) := do
  let workerId ← num tokens 2
  let actionId ← num tokens 3
  let startingBucket ← num tokens 4
  let numBucket ← num tokens 5
  let w ← slot 48 workerId
  let buckets ← fill (c.workerList w).buckets actionId startingBucket numBucket.toNat
  return (c.setWorker w { c.workerList w with buckets, firstAction := true },
    .text "worker first_action done\n")

/-- `last_action`, `cli.c:409–418`. -/
def lastAction (c : Config H) (tokens : List String) : Except Fault (Config H × Reply) := do
  let w ← slot 48 (← num tokens 2)
  return (c.setWorker w { c.workerList w with txb := true, lastAction := true },
    .text "worker last_action done\n")

/-- `first_action` outside the `worker` commands, `cli.c:420–426`. -/
def firstAction (c : Config H) (tokens : List String) : Except Fault (Config H × Reply) := do
  let w ← slot 48 (← num tokens 2)
  return (c.setWorker w { c.workerList w with firstAction := true },
    .text "worker first_action done\n")

/-- The tests at the end of `cli_process`, `cli.c:409–430`, which every line reaches that no
earlier branch has answered. -/
def trailingCommands (c : Config H) (tokens : List String) :
    Except Fault (Config H × Reply) := do
  let t1 ← tok tokens 1
  if t1 = "last_action" then lastAction c tokens
  else if t1 = "first_action" then firstAction c tokens
  -- the reply reads the argument of a `%s` that is not there
  else .error .missingArgument

/-- The `config` commands, `cli.c:60–110`. -/
def configCommands (c : Config H) (tokens : List String) :
    Except Fault (Config H × Reply) := do
  let t1 ← tok tokens 1
  if t1 = "parameter" then configParameter c tokens
  else if t1 = "rss_reta_config" then configRssRetaConfig c tokens
  else if t1 = "rss" then
    return ({ c with nicReta := some c.retaConf }, .text "config rss done!\n")
  else trailingCommands c tokens

/-- The `state` commands, `cli.c:113–178`. -/
def stateCommands (c : Config H) (tokens : List String) : Except Fault (Config H × Reply) := do
  let t1 ← tok tokens 1
  if t1 = "create" then stateCreate c tokens
  else if t1 = "install_path" then stateInstallPath c tokens
  else if t1 = "install_simple_path" then stateInstallSimplePath c tokens
  else if t1 = "control_frequency" then stateControlFrequency c tokens
  else if t1 = "message_num" then stateMessageNum c tokens
  else if t1 = "data_complexity" then stateDataComplexity c tokens
  else if t1 = "data_state" then stateDataState c tokens
  else trailingCommands c tokens

/-- The `action` commands, `cli.c:181–256`. `install` loads a shared library and leaves the
configuration alone. -/
def actionCommands (c : Config H) (tokens : List String) :
    Except Fault (Config H × Reply) := do
  let t1 ← tok tokens 1
  if t1 = "create" then actionCreate c tokens
  else if t1 = "create_packet_out" then actionCreatePacketOut c tokens
  else if t1 = "install" then return (c, .text "action install done\n")
  else if t1 = "migrate" then actionMigrate c tokens
  else trailingCommands c tokens

/-- The `coordinator` commands, `cli.c:259–269`. `send` also puts a message that nothing has written
into the mailbox of worker 2. `worker run` does not launch that worker, so nothing reads the
message; the place that it takes there is left out. -/
def coordinatorCommands (c : Config H) (tokens : List String) :
    Except Fault (Config H × Reply) := do
  let t1 ← tok tokens 1
  if t1 = "send" then return (c, .text "coordinator send done\n")
  else return (c, .text "")

/-- The `port` commands, `cli.c:271–279`. -/
def portCommands (c : Config H) (tokens : List String) : Except Fault (Config H × Reply) := do
  let t1 ← tok tokens 1
  if t1 = "init" then return ({ c with nQueue := 24 }, .text "port init done!\n")
  else return (c, .text "")

/-- The `dump` commands, `cli.c:280–364`. -/
def dumpCommands (c : Config H) (tokens : List String) : Except Fault (Config H × Reply) :=
  if tokens.length = 1 then return (c, .text "nf 0\n")
  else do
    let t1 ← tok tokens 1
    if t1 ∈ ["stat", "worker_stat", "pm", "rss", "state"] then return (c, .statistics)
    else trailingCommands c tokens

/-- The `worker` commands, `cli.c:367–406`. -/
def workerCommands (c : Config H) (tokens : List String) :
    Except Fault (Config H × Reply) := do
  let t1 ← tok tokens 1
  if t1 = "first_action" then workerFirstAction c tokens
  else if t1 = "run" then return ({ c with running := true }, .text "worker is running\n")
  else trailingCommands c tokens

/-- `is_comment`, `cli.c:31–38`. -/
def isComment (line : List Char) : Bool :=
  match line with
  | [] => false
  | c :: rest =>
    c ∈ ['!', '#', '%', ';'] || (c :: rest).take 2 = ['/', '/'] ||
      (c :: rest).take 2 = ['-', '-']

/-- The dispatch of `cli_process` on the first token, `cli.c:60–430`. -/
def dispatch (c : Config H) (tokens : List String) : Except Fault (Config H × Reply) := do
  let t0 ← tok tokens 0
  if t0 = "config" then configCommands c tokens
  else if t0 = "state" then stateCommands c tokens
  else if t0 = "action" then actionCommands c tokens
  else if t0 = "coordinator" then coordinatorCommands c tokens
  else if t0 = "port" then portCommands c tokens
  else if t0 = "dump" then dumpCommands c tokens
  else if t0 = "worker" then workerCommands c tokens
  else trailingCommands c tokens

/-- `cli_process`, `cli.c:42–431`. -/
def cliProcess (c : Config H) (line : List Char) : Except Fault (Config H × Reply) :=
  if isComment line then return (c, .text "")
  else
    match parseTokenizeString line with
    | none => return (c, .text MSG_ARG_TOO_MANY)
    | some [] => return (c, .text "")
    | some tokens => dispatch c tokens

/-- The C string in a buffer: everything before the first NUL. -/
def cString (s : List Char) : List Char := s.takeWhile (· ≠ '\x00')

/-- `data_event_handle`, `conn.c:201–252`, on the bytes of one read: `msgIn` is the line read
so far. -/
def dataEventHandle (c : Config H) (msgIn : List Char) :
    List Char → Except Fault (Config H × List Char)
  | [] => .ok (c, msgIn)
  | b :: rest =>
    if b = '\n' then do
      let (c', _) ← cliProcess c (cString msgIn)
      dataEventHandle c' [] rest
    else if msgIn.length < 1024 then dataEventHandle c (msgIn ++ [b]) rest
    else dataEventHandle c [] rest

end Nflambda.Runtime
