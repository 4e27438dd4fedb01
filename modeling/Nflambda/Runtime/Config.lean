import Nflambda.Runtime.GenericDecomposed

/-!
# The configuration of the runtime

Library `Runtime`. Source `src/runtime/Config.h:32–75` and `config_init`,
`src/runtime/Config.c:159–269`. The structure is allocated with `malloc`, so
`config_init` starts from arbitrary memory; function pointers it does not set
are `none`.
-/

namespace Nflambda.Runtime

open Nflambda.Base

/-- The fields of `struct worker`, `worker.h:23–55`, that the packet path and the commands
use. Mailboxes and message buffers belong to the running network. -/
structure Worker where
  coreId : Core
  queueId : Int
  buckets : Fin RSS_I_TABLE_SIZE → Int
  firstAction : Bool
  lastAction : Bool
  /-- A transmit buffer has been allocated. -/
  txb : Bool

/-- `struct Config`, `Config.h:33–75`. -/
structure Config (H : Type) where
  dpQuit : Bool
  ringSize : Nat
  initStateParameter : InitStateParameter
  /-- `reta_conf[i / 64].reta[i % 64]` is held at position `i`. -/
  retaConf : Fin RSS_I_TABLE_SIZE → Int
  /-- The table the NIC applies, once it has been sent to the NIC. -/
  nicReta : Option (Fin RSS_I_TABLE_SIZE → Int)
  workerList : Core → Worker
  actionRegistration : Fin 200 → Option (Handler H)
  actionTable : Fin ACTION_TABLE_SIZE → ActionTableEntry H
  /-- `stateTable.stateTableEntry[i].state`, for the entries that are filled. -/
  states : Fin STATE_NUM → State H
  bucketToActionId : Fin RSS_I_TABLE_SIZE → Int
  nQueue : Int
  running : Bool

variable {H : Type} [RteHash H]

/-- The action registrations of `config_init`, `Config.c:203–210`. -/
def actionRegistration (i : Fin 200) : Option (Handler H) :=
  match i.val with
  | 3 => some (.action genericDecomposedClassifier)
  | 4 => some (.action genericDecomposedDataAction)
  | 5 => some (.action genericDecomposedControlAction)
  | _ => none

/-- `config_init`, `Config.c:159–269`, on freshly allocated memory `c`; `create i` is the hash
table that `state_init` creates for state `i`. -/
def configInit (c : Config H) (create : Fin STATE_NUM → H) : Config H :=
  { c with
    dpQuit := false
    ringSize := 1024
    initStateParameter :=
      { c.initStateParameter with
        path := fun _ _ ↦ -1
        pathInstanceNumber := fun _ ↦ 0
        randRange := 100
        executionId := 99 }
    retaConf := fun _ ↦ 0
    nicReta := none
    workerList := fun i ↦
      { c.workerList i with
        coreId := i
        queueId := ((i.val / 2 : Nat) : Int)
        lastAction := false
        txb := false }
    actionRegistration := actionRegistration
    actionTable := fun i ↦ { c.actionTable i with action := none }
    states := fun i ↦
      { c.states i with
        hashTable := create i
        path := fun _ _ ↦ -1 }
    running := false }

omit [RteHash H] in
/-- A configuration in memory filled with zeros, where every state holds the hash table `h`. -/
def Config.zeroed (h : H) : Config H where
  dpQuit := false
  ringSize := 1024
  initStateParameter := ⟨0, 0, 0, 0, 0, 0, 0, 0, fun _ _ ↦ 0, fun _ ↦ 0⟩
  retaConf := fun _ ↦ 0
  nicReta := none
  workerList := fun i ↦ ⟨i, 0, fun _ ↦ 0, false, false, false⟩
  actionRegistration := fun _ ↦ none
  actionTable := fun _ ↦ ⟨none, fun _ _ ↦ 0, fun _ ↦ 0, .wild, 0⟩
  states := fun _ ↦ ⟨h, 0, 0, 0, 0, ⟨0, 0, 0, 0, 0⟩, 0, fun _ ↦ 0, fun _ _ ↦ 0, fun _ ↦ 0,
    fun _ ↦ 0, 0, 0⟩
  bucketToActionId := fun _ ↦ 0
  nQueue := 0
  running := false

/-- The queues of two workers with odd indices are different. -/
theorem queue_odd_inj (c : Config H) (create : Fin STATE_NUM → H) (i j : Core)
    (hi : i.val % 2 = 1) (hj : j.val % 2 = 1)
    (h : ((configInit c create).workerList i).queueId =
      ((configInit c create).workerList j).queueId) : i = j := by
  have hq : ((i.val / 2 : Nat) : Int) = ((j.val / 2 : Nat) : Int) := h
  apply Fin.ext
  omega

end Nflambda.Runtime
