import Nflambda.Runtime.Dispatch

/-!
# What a command can change

Library `Runtime`. `Edit` lists, once for all commands of `src/runtime/cli.c`,
the changes that an executed line makes to the configuration. What commands
leave alone is read off it by cases.
-/

namespace Nflambda.Runtime

open Nflambda.Base

variable {H : Type}

/-- The changes that a line with the given tokens can make. -/
inductive Edit (tokens : List String) (c : Config H) : Config H → Prop
  | same : Edit tokens c c
  | parameter (p : InitStateParameter) : Edit tokens c { c with initStateParameter := p }
  | reta (r b : Fin RSS_I_TABLE_SIZE → Int) :
    Edit tokens c { c with retaConf := r, bucketToActionId := b }
  | nic (t : Option (Fin RSS_I_TABLE_SIZE → Int)) : Edit tokens c { c with nicReta := t }
  | ports (q : Int) : Edit tokens c { c with nQueue := q }
  | run : Edit tokens c { c with running := true }
  | state (i : Fin STATE_NUM) (s : State H) : Edit tokens c (c.setState i s)
  | worker (w : Core) (x : Worker) : Edit tokens c (c.setWorker w x)
  /-- `state install_path` leaves function, state and core of the entry alone. -/
  | path (i : Fin ACTION_TABLE_SIZE) (e : ActionTableEntry H)
    (h : e.action = (c.actionTable i).action ∧ e.state = (c.actionTable i).state ∧
      e.coreId = (c.actionTable i).coreId) : Edit tokens c (c.setEntry i e)
  | entry (i : Fin ACTION_TABLE_SIZE) (e : ActionTableEntry H)
    (h : tokens.head? = some "action") : Edit tokens c (c.setEntry i e)
  | packetOut (i : Fin ACTION_TABLE_SIZE) (e : ActionTableEntry H) (w : Core) (x : Worker)
    (h : tokens.head? = some "action") : Edit tokens c ((c.setEntry i e).setWorker w x)

/-- An executed line makes one of these changes. -/
theorem edit_of_cliProcess {c c' : Config H} {line : List Char} {reply : Reply}
    (h : cliProcess c line = .ok (c', reply)) : Edit (strtok line) c c' := by
  obtain ⟨command, hcommand, hexec⟩ := CliCommand.executed_of_cliProcess h
  cases hexec with
  | nothing | stateMessageNum => exact .same
  | configParameter p => exact .parameter p
  | configRssRetaConfig retaConf bucketToActionId => exact .reta retaConf bucketToActionId
  | configRss => exact .nic _
  | stateCreate | stateInstallSimplePath | stateControlFrequency | stateDataComplexity |
    stateDataState => exact .state _ _
  | stateInstallPath i e haction hstate hcore => exact .path i e ⟨haction, hstate, hcore⟩
  | actionCreate i r e => exact .entry i e (CliCommand.head?_of_editsEntries hcommand rfl)
  | actionCreatePacketOut i w e =>
    exact .packetOut i e w _ (CliCommand.head?_of_editsEntries hcommand rfl)
  | actionMigrate i coreId e => exact .entry i e (CliCommand.head?_of_editsEntries hcommand rfl)
  | portInit => exact .ports 24
  | workerFirstAction | lastAction | firstAction => exact .worker _ _
  | workerRun => exact .run

/-- No command changes the size of the rings. -/
theorem cliProcess_ringSize {c c' : Config H} {line : List Char} {reply : Reply}
    (h : cliProcess c line = .ok (c', reply)) : c'.ringSize = c.ringSize := by
  cases edit_of_cliProcess h <;> rfl

/-- No command asks the workers to quit. -/
theorem cliProcess_dpQuit {c c' : Config H} {line : List Char} {reply : Reply}
    (h : cliProcess c line = .ok (c', reply)) : c'.dpQuit = c.dpQuit := by
  cases edit_of_cliProcess h <;> rfl

/-- No command changes the registered functions. -/
theorem cliProcess_actionRegistration {c c' : Config H} {line : List Char} {reply : Reply}
    (h : cliProcess c line = .ok (c', reply)) : c'.actionRegistration = c.actionRegistration := by
  cases edit_of_cliProcess h <;> rfl

/-- What the packet path reads of an action entry. -/
def entryFields (c : Config H) (i : Fin ACTION_TABLE_SIZE) :
    Option (Handler H) × StateRef × Int :=
  ((c.actionTable i).action, (c.actionTable i).state, (c.actionTable i).coreId)

/-- Only `action` commands change what the packet path reads of an action entry. -/
theorem cliProcess_entryFields {c c' : Config H} {line : List Char} {reply : Reply}
    (h : cliProcess c line = .ok (c', reply)) (hne : (strtok line).head? ≠ some "action")
    (i : Fin ACTION_TABLE_SIZE) : entryFields c' i = entryFields c i := by
  cases edit_of_cliProcess h with
  | entry j e ha => exact absurd ha hne
  | packetOut j e w x ha => exact absurd ha hne
  | path j e he =>
    by_cases hj : i = j
    · subst hj
      simp [entryFields, Config.setEntry, he]
    · simp [entryFields, Config.setEntry, hj]
  | same | parameter | reta | nic | ports | run | state | worker => rfl

end Nflambda.Runtime
