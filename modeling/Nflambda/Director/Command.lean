import Nflambda.Base.Decimal
import Nflambda.Base.Tokens

/-!
# Commands of the director

Library `Director`. Source `src/director/nflambda/command.py`, the command
helpers of `src/director/nflambda/platform.py:95–169` and `Parameter`,
`src/director/em/nf_model.py:539–556`. A helper is modelled by the command it
sends; objects enter through the fields that are printed.
-/

namespace Nflambda.Director

open Nflambda.Base

/-- `Command`, `command.py:1–9`. -/
structure Command where
  command : String
  argumentList : List String
  deriving DecidableEq, Repr

/-- `Command.with_argument`, `command.py:8–9`. -/
def Command.withArgument (c : Command) (argumentList : List String) : Command :=
  { c with argumentList }

/-- `Command.apply`, `command.py:11–16`. -/
def Command.apply (c : Command) : String :=
  c.argumentList.foldl (fun result arg ↦ result ++ " " ++ arg) c.command ++ "\n"

def commandConfig : Command := ⟨"config", []⟩
def commandWorker : Command := ⟨"worker", []⟩
def commandPort : Command := ⟨"port", []⟩
def commandAction : Command := ⟨"action", []⟩
def commandState : Command := ⟨"state", []⟩

/-- The keys of `Parameter.d` in the order in which `__init__` inserts them. -/
def parameterKeys : List String :=
  ["rand_range", "data_complexity", "control_complexity", "control_frequency", "execution_id",
    "state_size", "data_state", "control_state"]

/-- `Parameter`, `nf_model.py:539–556`: the dictionary `d` as the list of its items. -/
structure Parameter where
  d : List (String × Int)
  keys : d.map Prod.fst = parameterKeys

/-- `Parameter()`. -/
def Parameter.new : Parameter := ⟨parameterKeys.map (fun k ↦ (k, 0)), by decide⟩

/-- `p.d[key]`. -/
def Parameter.get (p : Parameter) (key : String) : Int := (p.d.lookup key).getD 0

/-- `p.d[key] = v` for a key that is present. -/
def Parameter.set (p : Parameter) (key : String) (v : Int) : Parameter where
  d := p.d.map (fun e ↦ (e.1, if e.1 = key then v else e.2))
  keys := by rw [List.map_map, ← p.keys]; rfl

/-- `Parameter.to_string`: every value followed by a blank, without the last blank. -/
def Parameter.toString (p : Parameter) : String :=
  String.ofList
    (p.d.foldl (fun result e ↦ result ++ ToString.toString e.2 ++ " ") "").toList.dropLast

private theorem eq_map_lookup (d : List (String × Int)) (h : (d.map Prod.fst).Nodup) :
    d = (d.map Prod.fst).map (fun k ↦ (k, (d.lookup k).getD 0)) := by
  induction d with
  | nil => rfl
  | cons e d ih =>
    obtain ⟨k, v⟩ := e
    rw [List.map_cons, List.nodup_cons] at h
    have hrest : (d.map Prod.fst).map (fun k' ↦ (k', (((k, v) :: d).lookup k').getD 0)) =
        (d.map Prod.fst).map (fun k' ↦ (k', (d.lookup k').getD 0)) := by
      apply List.map_congr_left
      intro k' hk'
      have hne : k' ≠ k := by
        rintro rfl
        exact h.1 hk'
      have hb : (k' == k) = false := by simpa using hne
      simp [List.lookup_cons, hb]
    rw [List.map_cons, List.map_cons, hrest, ← ih h.2]
    simp

/-- A parameter is given by its eight values. -/
theorem Parameter.values (p : Parameter) :
    p.d.map Prod.snd = parameterKeys.map p.get := by
  have hd := eq_map_lookup p.d (by rw [p.keys]; decide)
  rw [p.keys] at hd
  have hs := congrArg (fun d ↦ d.map Prod.snd) hd
  rw [List.map_map] at hs
  exact hs

/-! ### The helpers of `NFlambda` -/

/-- `start_port`, `platform.py:95–96`. -/
def startPort : Command := commandPort.withArgument ["init"]

/-- `configure_rss`, `platform.py:156–157`. -/
def configureRss : Command := commandConfig.withArgument ["rss"]

/-- `worker run`, the last command of `run`, `platform.py:111–115`. -/
def workerRunCommand : Command := commandWorker.withArgument ["run"]

/-- `run`, `platform.py:111–115`. -/
def runCommands : List Command := [startPort, configureRss, workerRunCommand]

/-- `worker_first_action`, `platform.py:121–123`. -/
def workerFirstAction {α : Type} [ToString α] (workerId actionId : Int) (startingBucket : α)
    (numBucket : Int) : Command :=
  commandWorker.withArgument
    ["first_action", toString workerId, toString actionId, toString startingBucket,
      toString numBucket]

/-- `install_simple_path`, `platform.py:125–127`. -/
def installSimplePath (stateId1 actionId2 localPathId : Int) : Command :=
  commandState.withArgument
    ["install_simple_path", toString stateId1, toString actionId2, toString localPathId]

/-- `create_action`, `platform.py:129–134`. -/
def createAction (registrationId actionIndex stateIndex coreId : Int) : Command :=
  commandAction.withArgument
    ["create", toString registrationId, toString actionIndex, toString stateIndex,
      toString coreId]

/-- `create_packet_out_action`, `platform.py:136–138`. -/
def createPacketOutAction (actionIndex coreId : Int) : Command :=
  commandAction.withArgument ["create_packet_out", toString actionIndex, toString coreId]

/-- `migrate_action`, `platform.py:140–141`. -/
def migrateAction (actionIndex coreId : Int) : Command :=
  commandAction.withArgument ["migrate", toString actionIndex, toString coreId]

/-- `create_state`, `platform.py:143–145`. -/
def createState (registrationId index : Int) : Command :=
  commandState.withArgument ["create", toString registrationId, toString index]

/-- `state_num_flows`, `platform.py:147–149`. -/
def stateNumFlows (stateId numFlows : Int) : Command :=
  commandState.withArgument ["data_state", toString stateId, toString numFlows]

/-- `configure_rss_reta`, `platform.py:151–154`. -/
def configureRssReta {α : Type} [ToString α] (startingBucket : α)
    (numBucket coreId actionId : Int) : Command :=
  commandConfig.withArgument
    ["rss_reta_config", toString startingBucket, toString numBucket, toString coreId,
      toString actionId]

/-- `configure_parameter`, `platform.py:162–163`. -/
def configureParameter (parameter : Parameter) : Command :=
  commandConfig.withArgument ["parameter", parameter.toString]

/-- `configure_state`, `platform.py:165–166`. -/
def configureState (stateKey : String) (stateId val : Int) : Command :=
  commandState.withArgument [stateKey, toString stateId, toString val]

/-! ### The text of a command -/

private theorem toList_foldl (args : List String) (result : String) :
    (args.foldl (fun result arg ↦ result ++ " " ++ arg) result).toList =
      joinWords ' ' result.toList (args.map String.toList) := by
  induction args generalizing result with
  | nil => simp [joinWords]
  | cons a args ih =>
    have hsp : " ".toList = [' '] := rfl
    rw [List.foldl_cons, ih, List.map_cons, joinWords_cons]
    simp [joinWords, String.toList_append, hsp]

/-- A command is the line of its words. -/
theorem Command.toList_apply (c : Command) :
    c.apply.toList =
      joinWords ' ' c.command.toList (c.argumentList.map String.toList) ++ ['\n'] := by
  have hnl : "\n".toList = ['\n'] := rfl
  rw [Command.apply, String.toList_append, toList_foldl, hnl]

private theorem toList_foldl_values (d : List (String × Int)) (result : String) :
    (d.foldl (fun result e ↦ result ++ ToString.toString e.2 ++ " ") result).toList =
      result.toList ++ d.flatMap (fun e ↦ decimalChars e.2 ++ [' ']) := by
  induction d generalizing result with
  | nil => simp
  | cons e d ih =>
    have hsp : " ".toList = [' '] := rfl
    rw [List.foldl_cons, ih, List.flatMap_cons, String.toList_append, String.toList_append,
      toList_toString_int, hsp]
    simp

private theorem dropLast_values (v : Int) (vs : List Int) :
    ((v :: vs).flatMap (fun i ↦ decimalChars i ++ [' '])).dropLast =
      joinWords ' ' (decimalChars v) (vs.map decimalChars) := by
  induction vs generalizing v with
  | nil => simp [joinWords]
  | cons u vs ih =>
    have hne : (u :: vs).flatMap (fun i ↦ decimalChars i ++ [' ']) ≠ [] := by simp
    rw [List.flatMap_cons, List.dropLast_append_of_ne_nil hne, ih u, List.map_cons,
      joinWords_cons, List.append_assoc, List.singleton_append]

/-- The values of a parameter are printed in order, with blanks between them. -/
theorem Parameter.toList_toString (p : Parameter) (v : Int) (vs : List Int)
    (h : p.d.map Prod.snd = v :: vs) :
    p.toString.toList = joinWords ' ' (decimalChars v) (vs.map decimalChars) := by
  have hflat : p.d.flatMap (fun e ↦ decimalChars e.2 ++ [' ']) =
      (v :: vs).flatMap (fun i ↦ decimalChars i ++ [' ']) := by
    rw [← h, List.flatMap_map]
  have hnil : "".toList = [] := rfl
  rw [Parameter.toString, String.toList_ofList, toList_foldl_values, hflat, hnil,
    List.nil_append, dropLast_values]

end Nflambda.Director
