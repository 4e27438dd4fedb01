import Nflambda.Runtime.Dispatch

/-!
# Lines that the command interface can process

Library `Runtime`. `cli_process`, `src/runtime/cli.c:42–431`, reads tokens by position and uses the
numbers in them as table indices. The execution here also checks what the faithful one leaves open:
the state and the registration that `action create` uses, and the tables that `dump` walks through.
-/

namespace Nflambda.Runtime

open Nflambda.Base

variable {H : Type}

/-- The number is a position of a table. -/
def InTable (n : Nat) (i : Int) : Prop := 0 ≤ i ∧ i < n

instance decidableInTable (n : Nat) (i : Int) : Decidable (InTable n i) :=
  inferInstanceAs (Decidable (0 ≤ i ∧ i < n))

theorem InTable.mono {m n : Nat} {i : Int} (hmn : m ≤ n) (h : InTable m i) : InTable n i := by
  obtain ⟨h0, hm⟩ := h
  exact ⟨h0, by omega⟩

/-- The computation has a result. -/
def Runs {α : Type} (x : Except Fault α) : Prop := ∃ a, x = .ok a

/-- What `dump` reads and no command writes. -/
structure DumpMemory where
  /-- `stateTableEntry[i].state_registration_id`, `cli.c:356`. -/
  stateRegistrationId : Fin STATE_NUM → Int
  /-- `lcore_id` of the cores of `c->pm` that are in the state `CORE_RUNNING`, `cli.c:294–300`. -/
  runningLcores : List Int

/-- Actions that `config_init` registers, `Config.c:203–210`. -/
abbrev REGISTERED_NUM : Nat := 6

namespace CliCommand

end CliCommand

/-- What a branch needs of the tokens of a line. -/
def CliCommand.Fits (mem : DumpMemory) (tokens : List String) : CliCommand → Prop
  | .configParameter => 9 < tokens.length
  | .configRssRetaConfig =>
    let first := (BitVec.ofInt 32 (number tokens 2)).toNat
    let last := (BitVec.ofInt 32 (number tokens 2 + number tokens 3)).toNat
    5 < tokens.length ∧ (first < last → InTable 48 (number tokens 4) ∧ last ≤ RSS_I_TABLE_SIZE)
  | .stateCreate => 3 < tokens.length ∧ InTable STATE_NUM (number tokens 3)
  | .stateInstallPath =>
    4 < tokens.length ∧ InTable ACTION_TABLE_SIZE (number tokens 2) ∧
      InTable MAXIMUM_PATH (number tokens 3)
  | .stateInstallSimplePath =>
    4 < tokens.length ∧ InTable STATE_NUM (number tokens 2) ∧ InTable 10 (number tokens 4)
  | .stateControlFrequency | .stateDataComplexity | .stateDataState =>
    3 < tokens.length ∧ InTable STATE_NUM (number tokens 2)
  | .stateMessageNum => 2 < tokens.length ∧ InTable STATE_NUM (number tokens 2)
  | .actionCreate =>
    5 < tokens.length ∧ InTable REGISTERED_NUM (number tokens 2) ∧
      InTable ACTION_TABLE_SIZE (number tokens 3) ∧ InTable STATE_NUM (number tokens 4)
  | .actionCreatePacketOut =>
    3 < tokens.length ∧ InTable ACTION_TABLE_SIZE (number tokens 2) ∧ InTable 48 (number tokens 3)
  | .actionMigrate => 3 < tokens.length ∧ InTable ACTION_TABLE_SIZE (number tokens 2)
  | .dump =>
    1 < tokens.length ∧
      (tokens[1]? = some "stat" ∨ tokens[1]? = some "worker_stat" →
        ∀ i ∈ mem.runningLcores, InTable 48 i) ∧
      (tokens[1]? = some "state" → ∀ i, InTable 200 (mem.stateRegistrationId i))
  | .workerFirstAction =>
    5 < tokens.length ∧ InTable 48 (number tokens 2) ∧
      (0 < number tokens 5 →
        0 ≤ number tokens 4 ∧ number tokens 4 + number tokens 5 ≤ RSS_I_TABLE_SIZE)
  | .lastAction | .firstAction => 2 < tokens.length ∧ InTable 48 (number tokens 2)
  | .unknown => False
  | _ => True

instance decidableFits (mem : DumpMemory) (tokens : List String) (command : CliCommand) :
    Decidable (command.Fits mem tokens) := by
  cases command <;> unfold CliCommand.Fits <;> infer_instance

/-- What `cli_process` needs of a string: a second token, unless it is a comment, has too many
tokens, has none, or is `dump` alone, and what the branch needs that the tokens select. -/
def FitsString (mem : DumpMemory) (s : List Char) : Prop :=
  (isComment s = true ∨ CMD_MAX_TOKENS < (strtok s).length ∨ strtok s = [] ∨
    strtok s = ["dump"] ∨ 1 < (strtok s).length) ∧
    ∀ command, CliCommand.ofLine s = .ok command → command.Fits mem (strtok s)

/-- Whether a string has what it needs can be computed. -/
instance decidableFitsString (mem : DumpMemory) (s : List Char) : Decidable (FitsString mem s) :=
  match h : CliCommand.ofLine s with
  | .ok command =>
    decidable_of_iff
      ((isComment s = true ∨ CMD_MAX_TOKENS < (strtok s).length ∨ strtok s = [] ∨
        strtok s = ["dump"] ∨ 1 < (strtok s).length) ∧ command.Fits mem (strtok s))
      (by simp [FitsString, h])
  | .error _ =>
    decidable_of_iff
      (isComment s = true ∨ CMD_MAX_TOKENS < (strtok s).length ∨ strtok s = [] ∨
        strtok s = ["dump"] ∨ 1 < (strtok s).length)
      (by simp [FitsString, h])

/-- What `cli_process` needs of a line: what it needs of the string that the line is up to its first
NUL. -/
def FitsLine (mem : DumpMemory) (line : List Char) : Prop := FitsString mem (cString line)

instance decidableFitsLine (mem : DumpMemory) (line : List Char) : Decidable (FitsLine mem line) :=
  inferInstanceAs (Decidable (FitsString mem (cString line)))

/-! ### Computations that run -/

theorem runs_ok {α : Type} (a : α) : Runs (.ok a : Except Fault α) := ⟨a, rfl⟩

theorem runs_bind_iff {α β : Type} {x : Except Fault α} {f : α → Except Fault β} :
    Runs (x >>= f) ↔ ∃ a, x = .ok a ∧ Runs (f a) := by
  constructor
  · rintro ⟨b, h⟩
    obtain ⟨a, ha, hf⟩ := ok_of_bind h
    exact ⟨a, ha, b, hf⟩
  · rintro ⟨a, ha, b, hb⟩
    exact ⟨b, by rw [ha]; exact hb⟩

theorem runs_slot_iff {n : Nat} {i : Int} : Runs (slot n i) ↔ InTable n i := by
  constructor
  · rintro ⟨j, hj⟩
    rw [slot_eq_ok_iff.mp hj]
    exact ⟨by omega, by omega⟩
  · rintro ⟨h0, hn⟩
    exact ⟨⟨i.toNat, by omega⟩, slot_eq_ok_iff.mpr (by simp [h0])⟩

/-- A result is there. -/
theorem runs_pure {α : Type} (a : α) : Runs (pure a : Except Fault α) ↔ True :=
  iff_of_true ⟨a, rfl⟩ trivial

/-- A step that looks up a position. -/
theorem runs_slot_bind_iff {α : Type} {n : Nat} {i : Int} {f : Fin n → Except Fault α} :
    Runs (slot n i >>= f) ↔ ∃ j : Fin n, i = (j.val : Int) ∧ Runs (f j) := by
  rw [runs_bind_iff]
  exact exists_congr fun j ↦ and_congr_left fun _ ↦ slot_eq_ok_iff

/-- The positions of a table are the numbers in it. -/
theorem exists_eq_iff_inTable {n : Nat} {i : Int} :
    (∃ j : Fin n, i = (j.val : Int)) ↔ InTable n i := by
  rw [← runs_slot_iff]
  exact exists_congr fun j ↦ slot_eq_ok_iff.symm

namespace CliCommand

end CliCommand

example : FitsLine ⟨fun _ ↦ 0, []⟩ "action migrate 199 3".toList := by decide

example : ¬ FitsLine ⟨fun _ ↦ 0, []⟩ "foo bar".toList ∧
    ¬ FitsLine ⟨fun _ ↦ 0, []⟩ "config\x00 x".toList := by decide

end Nflambda.Runtime
