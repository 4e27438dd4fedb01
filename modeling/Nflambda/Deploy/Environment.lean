import Mathlib.Tactic.Linarith
import Mathlib.Tactic.NormNum
import Nflambda.Base.Binary64
import Nflambda.Base.Transition
import Nflambda.Deploy.Planned

/-!
# The environment of the orchestrator

Library `Deploy`. Source `src/RL_agent/rl_orchestrator.ipynb`: the number of control cores
(`216–233`), the measured throughput (`381–404`) and the environment `NFUpdateEnv_BIN`
(`573–777`), which an agent steps and resets. Floats are rationals that are rounded; the hardware
counters, which are only handed to the agent, are left out.
-/

namespace Nflambda.Deploy

open Nflambda.Base Nflambda.Director

/-- Why a call does not return. -/
inductive Stop where
  /-- An attribute that has not been set, or `append` on a number. -/
  | attributeError
  /-- A number of cores that was not swept. -/
  | keyError
  | zeroDivisionError
  /-- No throughput in the range has been measured yet. -/
  | waiting
  deriving DecidableEq, Repr

/-- `MAXIMUM_UPDATE_NUM`, `rl_orchestrator.ipynb:531`. -/
abbrev MAXIMUM_UPDATE_NUM : Nat := 12

/-- `UPDATE_LIMIT`, `rl_orchestrator.ipynb:536`. -/
def UPDATE_LIMIT : ℚ := toBinary64 (105 / 100)

/-- The literal `1.02`. -/
def goodGain : ℚ := toBinary64 (102 / 100)

/-- `update_current_execution_state`, `rl_orchestrator.ipynb:222–233`: what is returned, and the
number of cores. -/
def updateCurrentExecutionState (numExecutionCore op : Int) : Int × Int :=
  if op = 1 then
    if 20 ≤ numExecutionCore then (-1, numExecutionCore) else (0, numExecutionCore + 1)
  else if numExecutionCore ≤ 4 then (-1, numExecutionCore) else (0, numExecutionCore - 1)

/-- The keys of `performance_sweep` and `observation_sweep`, `rl_orchestrator.ipynb:451–465`. -/
def sweptCores : List Int := (List.range 17).map fun i : Nat ↦ 4 + (i : Int)

/-- `performance_sweep[core]` and `observation_sweep[core]`, `rl_orchestrator.ipynb:486–501`. The
value is replaced by a measured one. -/
def sweepLookup (core : Int) : Except Stop Unit :=
  if core ∈ sweptCores then .ok () else .error .keyError

/-- `get_throughput`, `rl_orchestrator.ipynb:381–404`, on the sums of the logs: the result, and the
sums that are not used. -/
def getThroughput : List ℚ → Except Stop (ℚ × List ℚ)
  | [] => .error .waiting
  | x :: sums => if x ≤ 8 ∨ 75 ≤ x then getThroughput sums else .ok (x, sums)

/-- The throughput after an action, `rl_orchestrator.ipynb:694–706`. -/
def getStableThroughput : List ℚ → Except Stop ℚ
  | [] => .error .waiting
  | x :: sums =>
    -- `get_throughput` measures again
    if x ≤ 8 ∨ 75 ≤ x then getStableThroughput sums
    -- the loop around it does
    else if 75 ≤ x ∨ x ≤ 10 then getStableThroughput sums
    else .ok x

/-- The fields of `NFUpdateEnv_BIN` and the number of control cores. An attribute that `__init__`
does not set is `none`, and so is `_gain_record` as long as it is the number that `__init__` sets
it to. -/
structure NfUpdateEnv where
  numExecutionCore : Int
  searchEnded : Bool
  numIte : Nat
  searchEndedAbn : Nat
  bestResult : ℚ
  iteOptimal : Nat
  iteBest : Nat
  stepCounter : Nat
  gainRecord : Option (List ℚ)
  goodSearch : Nat
  newRecord : ℚ
  throughputInitial : Option ℚ
  throughputOld : Option ℚ
  deriving DecidableEq, Repr

/-- What a reward is computed from. -/
inductive Reward where
  | const (r : Int)
  /-- `gain ** 2 * 16`. -/
  | enhanced (gain : ℚ)
  /-- `(gain ** 2 - 1) * 10`. -/
  | positive (gain : ℚ)
  /-- `-((1 / gain) ** 2 - 1) * 10`. -/
  | negative (gain : ℚ)
  deriving DecidableEq, Repr

/-- What a call returns to the agent. -/
inductive TimeStep where
  | restart
  | transition (reward : Reward) (discount : ℚ)
  | termination (reward : Reward)
  deriving DecidableEq, Repr

/-- The last time step of an episode. -/
def TimeStep.isLast : TimeStep → Bool
  | .termination _ => true
  | _ => false

/-- The first time step of an episode. -/
def TimeStep.isFirst : TimeStep → Bool
  | .restart => true
  | _ => false

/-- An attribute. -/
def getAttr {α : Type} : Option α → Except Stop α
  | some a => .ok a
  | none => .error .attributeError

/-- A division of floats. -/
def divide (x y : ℚ) : Except Stop ℚ :=
  if y = 0 then .error .zeroDivisionError else .ok (toBinary64 (x / y))

namespace NfUpdateEnv

/-- `__init__`, `rl_orchestrator.ipynb:575–603`. -/
def init : NfUpdateEnv where
  numExecutionCore := 6
  searchEnded := false
  numIte := 0
  searchEndedAbn := 0
  bestResult := 1
  iteOptimal := 0
  iteBest := 0
  stepCounter := 0
  gainRecord := none
  goodSearch := 0
  newRecord := 0
  throughputInitial := none
  throughputOld := none

/-- `_reset`, `rl_orchestrator.ipynb:615–632`. -/
def reset (e : NfUpdateEnv) : Except Stop (NfUpdateEnv × TimeStep) := do
  sweepLookup 6
  return ({ e with
    numExecutionCore := 6
    searchEnded := false
    numIte := 0
    iteBest := e.iteBest + 1
    iteOptimal := e.iteOptimal + 1
    searchEndedAbn := 0
    gainRecord := some []
    goodSearch := 0
    newRecord := 0 }, .restart)

/-- The end of the search after too many tries, `rl_orchestrator.ipynb:661–669`. -/
def checkTries (e : NfUpdateEnv) : Except Stop NfUpdateEnv :=
  if MAXIMUM_UPDATE_NUM ≤ e.numIte then do
    let initial ← getAttr e.throughputInitial
    if e.newRecord ≤ initial then return { e with searchEndedAbn := 2, searchEnded := true }
    else return { e with searchEndedAbn := 4, searchEnded := true }
  else return e

/-- The throughput before the first action, `rl_orchestrator.ipynb:673–679`. -/
def measureInitial (e : NfUpdateEnv) (sums : List ℚ) : Except Stop (NfUpdateEnv × List ℚ) :=
  if e.numIte = 0 then do
    sweepLookup e.numExecutionCore
    let (x, sums) ← getThroughput sums
    return ({ e with throughputInitial := some x, throughputOld := some x }, sums)
  else return (e, sums)

/-- The action and its gain, `rl_orchestrator.ipynb:681–721`; the last number is
`throughput_new`. -/
def takeAction (e : NfUpdateEnv) (action : Int) (sums : List ℚ) :
    Except Stop (NfUpdateEnv × ℚ × ℚ) :=
  let (updateFlag, numExecutionCore) := updateCurrentExecutionState e.numExecutionCore action
  if updateFlag ≠ -1 then do
    sweepLookup numExecutionCore
    let throughputNew ← getStableThroughput sums
    let initial ← getAttr e.throughputInitial
    let old ← getAttr e.throughputOld
    let gain ← divide throughputNew old
    return ({ e with
      numExecutionCore
      goodSearch := if toBinary64 (initial * goodGain) ≤ throughputNew then 1 else e.goodSearch
      throughputOld := some throughputNew
      newRecord := throughputNew }, gain, throughputNew)
  else do
    let old ← getAttr e.throughputOld
    return ({ e with numExecutionCore }, 1, old)

/-- The record of the gains and the best result, `rl_orchestrator.ipynb:726–740`. -/
def recordGain (e : NfUpdateEnv) (gain throughputNew : ℚ) : Except Stop NfUpdateEnv := do
  let record ← getAttr e.gainRecord
  let e := { e with gainRecord := some (record ++ [throughputNew]) }
  if goodGain ≤ gain ∧ toBinary64 (e.bestResult * UPDATE_LIMIT) < throughputNew then
    return { e with
      bestResult := throughputNew, iteBest := 0, iteOptimal := 0, searchEnded := true }
  else return e

/-- What is returned, `rl_orchestrator.ipynb:751–777`. -/
def stepResult (e : NfUpdateEnv) (gain throughputNew : ℚ) : Except Stop TimeStep :=
  if e.searchEnded then
    if e.searchEndedAbn = 1 ∨ e.searchEndedAbn = 2 then return .termination (.const (-1))
    else if e.searchEndedAbn = 4 then return .termination (.const 1)
    else do
      let initial ← getAttr e.throughputInitial
      let gain ← divide throughputNew initial
      return .termination (.enhanced gain)
  else if 1 < gain then return .transition (.positive gain) (toBinary64 (9 / 10))
  else if gain = 1 then return .transition (.const (-1)) 1
  else return .transition (.negative gain) (toBinary64 (9 / 10))

/-- `_step`, `rl_orchestrator.ipynb:645–777`. -/
def step (e : NfUpdateEnv) (action : Int) (sums : List ℚ) :
    Except Stop (NfUpdateEnv × TimeStep) :=
  let e := { e with stepCounter := e.stepCounter + 1 }
  if e.searchEnded then e.reset
  else do
    let e ← e.checkTries
    let (e, sums) ← e.measureInitial sums
    let (e, gain, throughputNew) ← e.takeAction action sums
    let e ← e.recordGain gain throughputNew
    let e := { e with numIte := e.numIte + 1 }
    let result ← e.stepResult gain throughputNew
    return (e, result)

/-- What the agent does. -/
inductive Call where
  | reset
  | step (action : Int) (sums : List ℚ)
  deriving DecidableEq, Repr

/-- A call of the agent. -/
def call (e : NfUpdateEnv) : Call → Except Stop (NfUpdateEnv × TimeStep)
  | .reset => e.reset
  | .step action sums => e.step action sums

/-- The environment after a call that returns. -/
def next (e : NfUpdateEnv) (c : Call) : Option NfUpdateEnv := (e.call c).toOption.map Prod.fst

end NfUpdateEnv

/-! ### Calls that do not raise -/

/-- A computation that raises no exception and returns only values with the property. -/
def Meets {α : Type} (x : Except Stop α) (P : α → Prop) : Prop :=
  match x with
  | .ok a => P a
  | .error s => s = .waiting

theorem meets_ok {α : Type} {a : α} {P : α → Prop} (h : P a) : Meets (.ok a) P := h

theorem meets_bind {α β : Type} {x : Except Stop α} {f : α → Except Stop β} {P : α → Prop}
    {Q : β → Prop} (hx : Meets x P) (hf : ∀ a, P a → Meets (f a) Q) : Meets (x >>= f) Q := by
  cases x with
  | error s => exact hx
  | ok a => exact hf a hx

theorem Meets.mono {α : Type} {x : Except Stop α} {P Q : α → Prop} (h : Meets x P)
    (hPQ : ∀ a, P a → Q a) : Meets x Q := by
  cases x with
  | error s => exact h
  | ok a => exact hPQ a h

theorem meets_getAttr {α : Type} {o : Option α} {a : α} (h : o = some a) :
    Meets (getAttr o) (· = a) := by
  rw [h]
  rfl

theorem meets_divide {x y : ℚ} (h : y ≠ 0) : Meets (divide x y) (· = toBinary64 (x / y)) := by
  rw [divide, if_neg h]
  rfl

/-- Every number of cores that can be reached was swept. -/
theorem meets_sweepLookup {core : Int} (h1 : 4 ≤ core) (h2 : core ≤ 20) :
    Meets (sweepLookup core) fun _ ↦ True := by
  have hmem : core ∈ sweptCores := by
    rw [sweptCores, List.mem_map]
    refine ⟨(core - 4).toNat, ?_, ?_⟩
    · rw [List.mem_range]
      omega
    · omega
  rw [sweepLookup, if_pos hmem]
  trivial

theorem meets_getThroughput (sums : List ℚ) :
    Meets (getThroughput sums) fun p ↦ 8 < p.1 ∧ p.1 < 75 := by
  induction sums with
  | nil => rfl
  | cons x sums ih =>
    rw [getThroughput]
    split
    · exact ih
    · next h =>
      rw [not_or, not_le, not_le] at h
      exact meets_ok h

theorem meets_getStableThroughput (sums : List ℚ) :
    Meets (getStableThroughput sums) fun x ↦ 10 < x ∧ x < 75 := by
  induction sums with
  | nil => rfl
  | cons x sums ih =>
    rw [getStableThroughput]
    split
    · exact ih
    · split
      · exact ih
      · next h =>
        rw [not_or, not_le, not_le] at h
        exact meets_ok ⟨h.2, h.1⟩

theorem updateCurrentExecutionState_range {n : Int} (h1 : 4 ≤ n) (h2 : n ≤ 20) (op : Int) :
    4 ≤ (updateCurrentExecutionState n op).2 ∧ (updateCurrentExecutionState n op).2 ≤ 20 := by
  unfold updateCurrentExecutionState
  split <;> split <;> constructor <;> dsimp only <;> omega

namespace NfUpdateEnv

/-- What holds after a reset and after every further call. -/
structure Valid (e : NfUpdateEnv) : Prop where
  coresLow : 4 ≤ e.numExecutionCore
  coresHigh : e.numExecutionCore ≤ 20
  record : ∃ l, e.gainRecord = some l
  measured : 0 < e.numIte → ∃ x y, e.throughputInitial = some x ∧ e.throughputOld = some y ∧
    8 < x ∧ 8 < y
  tries : e.numIte ≤ if e.searchEnded then 13 else 12
  abn : e.searchEnded = false → e.searchEndedAbn = 0

/-- A measured throughput has raised the best result by the limit. -/
structure Improved (e t : NfUpdateEnv) : Prop where
  limit : toBinary64 (e.bestResult * UPDATE_LIMIT) < t.bestResult
  low : 10 < t.bestResult
  high : t.bestResult < 75

/-- What a step does while the search goes on. -/
structure Moved (e t : NfUpdateEnv) (r : TimeStep) : Prop where
  valid : t.Valid
  tried : t.numIte = e.numIte + 1
  notFirst : r.isFirst = false
  last : r.isLast = t.searchEnded
  best : t.bestResult = e.bestResult ∨ e.Improved t ∧ t.searchEnded = true
  early : e.numIte < 12 → t.searchEnded = true → e.Improved t
  late : e.numIte = 12 → ∃ x, e.throughputInitial = some x ∧
    r = .termination (.const (if e.newRecord ≤ x then -1 else 1))

theorem valid_of_reset (e : NfUpdateEnv) :
    Meets e.reset fun p ↦ p.1.Valid ∧ p.1.numIte = 0 ∧ p.2 = .restart ∧
      p.1.bestResult = e.bestResult := by
  refine meets_bind (meets_sweepLookup (by decide) (by decide)) fun _ _ ↦ ?_
  refine meets_ok ⟨⟨?_, ?_, ⟨[], rfl⟩, fun h ↦ ?_, Nat.zero_le _, fun _ ↦ rfl⟩, rfl, rfl, rfl⟩
  · show (4 : Int) ≤ 6
    decide
  · show (6 : Int) ≤ 20
    decide
  · exact absurd h (Nat.lt_irrefl 0)

/-! ### The parts of a step -/

theorem meets_checkTries {e : NfUpdateEnv} (h : e.Valid) :
    Meets e.checkTries fun t ↦ ∃ a b, t = { e with searchEndedAbn := a, searchEnded := b } ∧
      ((e.numIte < 12 ∧ a = e.searchEndedAbn ∧ b = e.searchEnded) ∨
        12 ≤ e.numIte ∧ b = true ∧ ∃ x, e.throughputInitial = some x ∧
          a = if e.newRecord ≤ x then 2 else 4) := by
  unfold checkTries
  split
  · next hmax =>
    obtain ⟨x, y, hx, -⟩ := h.measured (Nat.lt_of_lt_of_le (by decide) hmax)
    refine meets_bind (meets_getAttr hx) ?_
    rintro _ rfl
    split
    · next hle => exact meets_ok ⟨_, _, rfl, .inr ⟨hmax, rfl, _, hx, (if_pos hle).symm⟩⟩
    · next hle => exact meets_ok ⟨_, _, rfl, .inr ⟨hmax, rfl, _, hx, (if_neg hle).symm⟩⟩
  · next hmax =>
    exact meets_ok ⟨e.searchEndedAbn, e.searchEnded, rfl, .inl ⟨Nat.lt_of_not_le hmax, rfl, rfl⟩⟩

theorem meets_measureInitial {e : NfUpdateEnv} (h1 : 4 ≤ e.numExecutionCore)
    (h2 : e.numExecutionCore ≤ 20)
    (hmeasured : 0 < e.numIte → ∃ x y, e.throughputInitial = some x ∧ e.throughputOld = some y ∧
      8 < x ∧ 8 < y) (sums : List ℚ) :
    Meets (e.measureInitial sums) fun p ↦ ∃ x y, 8 < x ∧ 8 < y ∧
      (0 < e.numIte → e.throughputInitial = some x) ∧
      p.1 = { e with throughputInitial := some x, throughputOld := some y } := by
  unfold measureInitial
  split
  · next hfirst =>
    refine meets_bind (meets_sweepLookup h1 h2) fun _ _ ↦ ?_
    refine meets_bind (meets_getThroughput sums) fun p hp ↦ ?_
    exact meets_ok ⟨p.1, p.1, hp.1, hp.1, fun hpos ↦ absurd hfirst hpos.ne', rfl⟩
  · next hfirst =>
    obtain ⟨x, y, hx, hy, hx8, hy8⟩ := hmeasured (Nat.pos_of_ne_zero hfirst)
    refine meets_ok ⟨x, y, hx8, hy8, fun _ ↦ hx, ?_⟩
    rw [← hx, ← hy]

theorem meets_takeAction {e : NfUpdateEnv} (h1 : 4 ≤ e.numExecutionCore)
    (h2 : e.numExecutionCore ≤ 20) {x y : ℚ} (hx : e.throughputInitial = some x)
    (hy : e.throughputOld = some y) (hy8 : 8 < y) (action : Int) (sums : List ℚ) :
    Meets (e.takeAction action sums) fun p ↦ ∃ n g r gain z,
      p = ({ e with
        numExecutionCore := n, goodSearch := g, throughputOld := some z, newRecord := r },
        gain, z) ∧
      4 ≤ n ∧ n ≤ 20 ∧ 8 < z ∧ (gain = 1 ∨ 10 < z ∧ z < 75) := by
  have hrange := updateCurrentExecutionState_range h1 h2 action
  unfold takeAction
  dsimp only
  split
  · refine meets_bind (meets_sweepLookup hrange.1 hrange.2) fun _ _ ↦ ?_
    refine meets_bind (meets_getStableThroughput sums) fun z hz ↦ ?_
    refine meets_bind (meets_getAttr hx) ?_
    rintro _ rfl
    refine meets_bind (meets_getAttr hy) ?_
    rintro _ rfl
    refine meets_bind (meets_divide (ne_of_gt (lt_trans (by norm_num) hy8))) fun gain _ ↦ ?_
    exact meets_ok ⟨_, _, _, _, _, rfl, hrange.1, hrange.2, lt_trans (by norm_num) hz.1, .inr hz⟩
  · refine meets_bind (meets_getAttr hy) ?_
    rintro _ rfl
    refine meets_ok ⟨_, e.goodSearch, e.newRecord, _, _, ?_, hrange.1, hrange.2, hy8, .inl rfl⟩
    rw [← hy]

theorem meets_recordGain {e : NfUpdateEnv} (h : ∃ l, e.gainRecord = some l) (gain z : ℚ) :
    Meets (e.recordGain gain z) fun t ↦ ∃ l b i j f,
      t = { e with
        gainRecord := some l, bestResult := b, iteBest := i, iteOptimal := j, searchEnded := f } ∧
      ((b = e.bestResult ∧ f = e.searchEnded) ∨
        goodGain ≤ gain ∧ toBinary64 (e.bestResult * UPDATE_LIMIT) < z ∧ b = z ∧ f = true) := by
  obtain ⟨l, hl⟩ := h
  refine meets_bind (meets_getAttr hl) ?_
  rintro _ rfl
  dsimp only
  split
  · next hgood =>
    exact meets_ok ⟨_, _, _, _, _, rfl, .inr ⟨hgood.1, hgood.2, rfl, rfl⟩⟩
  · exact meets_ok ⟨_, e.bestResult, e.iteBest, e.iteOptimal, e.searchEnded, rfl,
      .inl ⟨rfl, rfl⟩⟩

theorem meets_stepResult {e : NfUpdateEnv} {x : ℚ} (hx : e.throughputInitial = some x)
    (hx8 : 8 < x) (gain z : ℚ) :
    Meets (e.stepResult gain z) fun r ↦ r.isFirst = false ∧ r.isLast = e.searchEnded ∧
      (e.searchEnded = true → e.searchEndedAbn = 2 → r = .termination (.const (-1))) ∧
      (e.searchEnded = true → e.searchEndedAbn = 4 → r = .termination (.const 1)) := by
  unfold stepResult
  split
  · next hended =>
    split
    · next habn =>
      refine meets_ok ⟨rfl, hended.symm, fun _ _ ↦ rfl, fun _ h4 ↦ ?_⟩
      omega
    · next h12 =>
      split
      · next h4 =>
        refine meets_ok ⟨rfl, hended.symm, fun _ h2 ↦ ?_, fun _ _ ↦ rfl⟩
        omega
      · next h4 =>
        refine meets_bind (meets_getAttr hx) ?_
        rintro _ rfl
        refine meets_bind (meets_divide (ne_of_gt (lt_trans (by norm_num) hx8))) fun g _ ↦ ?_
        refine meets_ok ⟨rfl, hended.symm, fun _ h2 ↦ absurd (.inr h2) h12, fun _ h ↦ absurd h h4⟩
  · next hgoing =>
    have hended : e.searchEnded = false := Bool.eq_false_of_not_eq_true hgoing
    split
    · exact meets_ok ⟨rfl, hended.symm, fun h ↦ absurd h hgoing, fun h ↦ absurd h hgoing⟩
    · split
      · exact meets_ok ⟨rfl, hended.symm, fun h ↦ absurd h hgoing, fun h ↦ absurd h hgoing⟩
      · exact meets_ok ⟨rfl, hended.symm, fun h ↦ absurd h hgoing, fun h ↦ absurd h hgoing⟩

theorem one_lt_goodGain : 1 < goodGain := by
  have herr := abs_toBinary64_sub_le (102 / 100)
  have hspacing := spacing_le (x := 102 / 100) (k := 0) (by norm_num) (by norm_num)
  rw [abs_le] at herr
  have hsmall : (2 : ℚ) ^ (((0 : Nat) : Int) - 52) / 2 < 1 / 100 := by norm_num
  rw [goodGain]
  linarith [herr.1]

/-- A step while the search goes on. -/
theorem meets_step {e : NfUpdateEnv} (h : e.Valid) (hs : e.searchEnded = false) (action : Int)
    (sums : List ℚ) : Meets (e.step action sums) fun p ↦ e.Moved p.1 p.2 := by
  have htries : e.numIte ≤ 12 := by
    have htries := h.tries
    rwa [hs] at htries
  unfold step
  dsimp only
  rw [hs, if_neg (by decide)]
  have hcounted : Valid { e with searchEnded := false, stepCounter := e.stepCounter + 1 } :=
    ⟨h.coresLow, h.coresHigh, h.record, h.measured, htries, fun _ ↦ h.abn hs⟩
  refine meets_bind (meets_checkTries hcounted) ?_
  rintro _ ⟨abn, stopped, rfl, hcheck⟩
  refine meets_bind (meets_measureInitial ?_ ?_ ?_ sums) ?_
  · exact h.coresLow
  · exact h.coresHigh
  · exact h.measured
  rintro ⟨_, sums'⟩ ⟨x, y, hx8, hy8, hx, rfl⟩
  refine meets_bind (meets_takeAction ?_ ?_ rfl rfl hy8 action sums') ?_
  · exact h.coresLow
  · exact h.coresHigh
  rintro _ ⟨n, g, r, gain, z, rfl, hn4, hn20, hz8, hz⟩
  refine meets_bind (meets_recordGain ?_ gain z) ?_
  · exact h.record
  rintro _ ⟨l, best, i, j, ended, rfl, hbest⟩
  refine meets_bind (meets_stepResult rfl hx8 gain z) ?_
  rintro result ⟨hfirst, hlast, hbad, hgood⟩
  refine meets_ok ?_
  dsimp only at hcheck hx hz8 hz hbest hlast hbad hgood ⊢
  have himproved (hnew : goodGain ≤ gain ∧ toBinary64 (e.bestResult * UPDATE_LIMIT) < z ∧
      best = z ∧ ended = true) : 10 < best ∧ best < 75 := by
    obtain ⟨hgain, -, rfl, -⟩ := hnew
    rcases hz with rfl | hz
    · exact absurd hgain (not_le.mpr one_lt_goodGain)
    · exact hz
  have hended : ended = true → e.numIte < 12 → goodGain ≤ gain ∧
      toBinary64 (e.bestResult * UPDATE_LIMIT) < z ∧ best = z ∧ ended = true := by
    intro hdone hlt
    rcases hbest with ⟨-, hgoing⟩ | hnew
    · rcases hcheck with ⟨-, -, hfalse⟩ | ⟨hge, -⟩
      · rw [hgoing, hfalse] at hdone
        cases hdone
      · omega
    · exact hnew
  have hlate : 12 ≤ e.numIte → ended = true := by
    intro hge
    rcases hcheck with ⟨hlt, -⟩ | ⟨-, hstopped, -⟩
    · omega
    · rcases hbest with ⟨-, hgoing⟩ | ⟨-, -, -, hdone⟩
      · exact hgoing.trans hstopped
      · exact hdone
  refine ⟨⟨hn4, hn20, ⟨l, rfl⟩, fun _ ↦ ⟨x, z, rfl, rfl, hx8, hz8⟩, ?_, ?_⟩, rfl, hfirst, hlast, ?_,
    ?_, ?_⟩
  · show e.numIte + 1 ≤ if ended = true then 13 else 12
    by_cases hge : 12 ≤ e.numIte
    · rw [if_pos (hlate hge)]
      omega
    · split <;> omega
  · intro hgoing
    have hlt : e.numIte < 12 := by
      by_contra hge
      rw [hlate (Nat.le_of_not_lt hge)] at hgoing
      cases hgoing
    rcases hcheck with ⟨-, habn, -⟩ | ⟨hge, -⟩
    · exact habn.trans (h.abn hs)
    · omega
  · rcases hbest with ⟨hsame, -⟩ | hnew
    · exact .inl hsame
    · have hrange := himproved hnew
      exact .inr ⟨⟨hnew.2.2.1 ▸ hnew.2.1, hrange.1, hrange.2⟩, hnew.2.2.2⟩
  · intro hlt hdone
    have hnew := hended hdone hlt
    have hrange := himproved hnew
    exact ⟨hnew.2.2.1 ▸ hnew.2.1, hrange.1, hrange.2⟩
  · intro htwelve
    rcases hcheck with ⟨hlt, -⟩ | ⟨hge, -, x', hx', habn⟩
    · omega
    · refine ⟨x', hx', ?_⟩
      split at habn
      · next hle =>
        rw [if_pos hle]
        exact hbad (hlate hge) habn
      · next hle =>
        rw [if_neg hle]
        exact hgood (hlate hge) habn

/-- The best result grows by almost five percent. -/
theorem limit_lt {b : ℚ} (h1 : 10 < b) (h2 : b < 75) :
    10499 / 10000 * b < toBinary64 (b * UPDATE_LIMIT) := by
  have hlimit := abs_toBinary64_sub_le (105 / 100)
  have hs := spacing_le (x := 105 / 100) (k := 0) (by norm_num) (by norm_num)
  have hsmall : (2 : ℚ) ^ (((0 : Nat) : Int) - 52) / 2 < 1 / 1000000 := by norm_num
  rw [abs_le] at hlimit
  have hlow : 1049999 / 1000000 < UPDATE_LIMIT := by
    rw [UPDATE_LIMIT]
    linarith [hlimit.1]
  have hhigh : UPDATE_LIMIT < 11 / 10 := by
    rw [UPDATE_LIMIT]
    linarith [hlimit.2]
  have hprod : 1049999 / 1000000 * b < b * UPDATE_LIMIT := by
    rw [mul_comm b]
    exact mul_lt_mul_of_pos_right hlow (by linarith)
  have hprod' : b * UPDATE_LIMIT < 75 * (11 / 10) :=
    mul_lt_mul'' h2 hhigh (by linarith) (by linarith)
  have herr := abs_toBinary64_sub_le (b * UPDATE_LIMIT)
  have hs' := spacing_le (x := b * UPDATE_LIMIT) (k := 6) (by linarith) (by
    refine lt_trans hprod' ?_
    norm_num)
  have hsmall' : (2 : ℚ) ^ (((6 : Nat) : Int) - 52) / 2 < 1 / 1000000 := by norm_num
  rw [abs_le] at herr
  have hround : b * UPDATE_LIMIT - 1 / 1000000 < toBinary64 (b * UPDATE_LIMIT) := by
    have hhalf := div_le_div_of_nonneg_right hs' (by norm_num : (0 : ℚ) ≤ 2)
    linarith [herr.1]
  linarith

/-! ### Runs -/

/-- A call returns, or waits for a throughput in the range. -/
theorem meets_call {e : NfUpdateEnv} (h : e.Valid) (c : Call) :
    Meets (e.call c) fun p ↦ p.1.Valid ∧
      ((p.1.numIte = 0 ∧ p.2 = .restart ∧ p.1.bestResult = e.bestResult) ∨
        e.searchEnded = false ∧ e.Moved p.1 p.2) := by
  have hreset (e : NfUpdateEnv) : Meets e.reset fun p ↦ p.1.Valid ∧
      ((p.1.numIte = 0 ∧ p.2 = .restart ∧ p.1.bestResult = e.bestResult) ∨
        e.searchEnded = false ∧ e.Moved p.1 p.2) :=
    (valid_of_reset e).mono fun _ hp ↦ ⟨hp.1, .inl ⟨hp.2.1, hp.2.2.1, hp.2.2.2⟩⟩
  cases c with
  | reset => exact hreset e
  | step action sums =>
    cases hs : e.searchEnded with
    | false => exact (meets_step h hs action sums).mono fun _ hm ↦ ⟨hm.valid, .inr ⟨rfl, hm⟩⟩
    | true =>
      show Meets (e.step action sums) _
      unfold step
      dsimp only
      rw [hs, if_pos rfl]
      exact (valid_of_reset _).mono fun _ hp ↦ ⟨hp.1, .inl ⟨hp.2.1, hp.2.2.1, hp.2.2.2⟩⟩

/-- What a call has done that returned. -/
theorem of_next {e t : NfUpdateEnv} (h : e.Valid) {c : Call} (hnext : e.next c = some t) :
    ∃ r, e.call c = .ok (t, r) ∧ t.Valid ∧
      ((t.numIte = 0 ∧ r = .restart ∧ t.bestResult = e.bestResult) ∨
        e.searchEnded = false ∧ e.Moved t r) := by
  have hcall := meets_call h c
  unfold next at hnext
  cases hc : e.call c with
  | error s =>
    rw [hc] at hnext
    cases hnext
  | ok p =>
    rw [hc] at hnext hcall
    cases hnext
    exact ⟨p.2, rfl, hcall.1, hcall.2⟩

/-- A step that returned, while the search goes on. -/
theorem moved_of_next {e t : NfUpdateEnv} (h : e.Valid) (hs : e.searchEnded = false)
    {action : Int} {sums : List ℚ} (hnext : e.next (.step action sums) = some t) :
    ∃ r, e.call (.step action sums) = .ok (t, r) ∧ e.Moved t r := by
  obtain ⟨r, hcall, -⟩ := of_next h hnext
  have hstep := meets_step h hs action sums
  change e.step action sums = _ at hcall
  rw [hcall] at hstep
  exact ⟨r, hcall, hstep⟩

/-- The episode ends with this call, before its thirteenth step. -/
def EndsEarly (e : NfUpdateEnv) (c : Call) : Prop :=
  ∃ p, e.call c = .ok p ∧ p.2.isLast = true ∧ e.numIte < 12

instance decidableEndsEarly (e : NfUpdateEnv) (c : Call) : Decidable (e.EndsEarly c) :=
  match h : e.call c with
  | .ok p => decidable_of_iff (p.2.isLast = true ∧ e.numIte < 12) (by simp [EndsEarly, h])
  | .error s => isFalse (by simp [EndsEarly, h])

/-- The first reset. -/
theorem of_next_init {e : NfUpdateEnv} (h : next init .reset = some e) :
    e.Valid ∧ e.bestResult = 1 ∧ ¬ init.EndsEarly .reset := by
  have hreset := valid_of_reset init
  unfold next at h
  change (Except.toOption init.reset).map Prod.fst = some e at h
  cases hc : init.reset with
  | error s =>
    rw [hc] at h
    cases h
  | ok p =>
    rw [hc] at h hreset
    cases h
    refine ⟨hreset.1, hreset.2.2.2, ?_⟩
    rintro ⟨q, hq, hlast, -⟩
    change init.reset = _ at hq
    rw [hc] at hq
    cases hq
    rw [hreset.2.2.1] at hlast
    cases hlast

/-- Every state after the first reset. -/
theorem valid_of_run {es : List Call} {e : NfUpdateEnv}
    (h : run next init (.reset :: es) = some e) : e.Valid := by
  obtain ⟨e₀, h₀, hrun⟩ := run_cons_iff.mp h
  refine run_invariant (P := Valid) (fun e c t hv hnext ↦ ?_) (of_next_init h₀).1 hrun
  obtain ⟨r, -, ht, -⟩ := of_next hv hnext
  exact ht

/-- What the calls return, one after the other. -/
def results : NfUpdateEnv → List Call → List TimeStep
  | _, [] => []
  | e, c :: cs =>
    match e.call c with
    | .ok (t, r) => r :: results t cs
    | .error _ => []

/-- The best result after `n` episodes that ended early. -/
def BestAfter (n : Nat) (e : NfUpdateEnv) : Prop :=
  e.Valid ∧ ((n = 0 ∧ e.bestResult = 1) ∨
    10 * (10499 / 10000) ^ (n - 1) < e.bestResult ∧ e.bestResult < 75)

/-- A call that improves the best result makes room for one more early end. -/
theorem BestAfter.improved {n m : Nat} {e t : NfUpdateEnv} (h : e.BestAfter n) (ht : t.Valid)
    (him : e.Improved t) (hm : m ≤ n + 1) : t.BestAfter m := by
  refine ⟨ht, .inr ⟨?_, him.high⟩⟩
  rcases h.2 with ⟨rfl, -⟩ | ⟨hlow, hhigh⟩
  · have hzero : m - 1 = 0 := by omega
    rw [hzero, pow_zero, mul_one]
    exact him.low
  · have hone : (1 : ℚ) ≤ 10499 / 10000 := by norm_num
    have hten : 10 < e.bestResult := by
      have hpow := one_le_pow₀ hone (n := n - 1)
      linarith
    rcases Nat.lt_or_ge 1 m with hm1 | hm1
    · have hle : m - 1 ≤ n - 1 + 1 := by omega
      calc 10 * (10499 / 10000 : ℚ) ^ (m - 1)
          ≤ 10 * (10499 / 10000) ^ (n - 1 + 1) :=
            mul_le_mul_of_nonneg_left (pow_le_pow_right₀ hone hle) (by norm_num)
        _ = 10499 / 10000 * (10 * (10499 / 10000) ^ (n - 1)) := by ring
        _ < 10499 / 10000 * e.bestResult := mul_lt_mul_of_pos_left hlow (by norm_num)
        _ < toBinary64 (e.bestResult * UPDATE_LIMIT) := limit_lt hten hhigh
        _ < t.bestResult := him.limit
    · have hzero : m - 1 = 0 := by omega
      rw [hzero, pow_zero, mul_one]
      exact him.low

/-- One call, and the number of early ends. -/
theorem BestAfter.next {n : Nat} {e t : NfUpdateEnv} {c : Call} (h : e.BestAfter n)
    (hnext : e.next c = some t) : t.BestAfter (n + if e.EndsEarly c then 1 else 0) := by
  obtain ⟨r, hcall, ht, hreset | ⟨hs, hm⟩⟩ := of_next h.1 hnext
  · have hnot : ¬ e.EndsEarly c := by
      rintro ⟨p, hp, hlast, -⟩
      rw [hcall] at hp
      cases hp
      rw [hreset.2.1] at hlast
      cases hlast
    rw [if_neg hnot, Nat.add_zero]
    refine ⟨ht, ?_⟩
    rw [hreset.2.2]
    exact h.2
  · by_cases hearly : e.EndsEarly c
    · obtain ⟨p, hp, hlast, hlt⟩ := hearly
      rw [hcall] at hp
      cases hp
      rw [hm.last] at hlast
      rw [if_pos ⟨_, hcall, hm.last.trans hlast, hlt⟩]
      exact h.improved ht (hm.early hlt hlast) (Nat.le_refl _)
    · rw [if_neg hearly, Nat.add_zero]
      rcases hm.best with hsame | ⟨him, -⟩
      · refine ⟨ht, ?_⟩
        rw [hsame]
        exact h.2
      · exact h.improved ht him (Nat.le_succ n)

end NfUpdateEnv

open NfUpdateEnv

/-- The environment never raises an exception once it has been reset: a call returns, or it waits
for a throughput in the range. The number of control cores stays in the range that was swept, and
with it every graph can be deployed. -/
theorem environment_safe {es : List Call} {e : NfUpdateEnv}
    (h : run next init (.reset :: es) = some e) :
    4 ≤ e.numExecutionCore ∧ e.numExecutionCore ≤ 20 ∧
      (∀ c stop, e.call c = .error stop → stop = .waiting) ∧
      ∀ g, ∃ commands, updateDeployment e.numExecutionCore g = some commands := by
  have hv := valid_of_run h
  refine ⟨hv.coresLow, hv.coresHigh, fun c stop hstop ↦ ?_, fun g ↦ ?_⟩
  · have hcall := meets_call hv c
    rwa [hstop] at hcall
  · have hlow := hv.coresLow
    have hhigh := hv.coresHigh
    have hsome : 1 ≤ e.numExecutionCore := by omega
    have hnotall : e.numExecutionCore ≤ 23 := by omega
    obtain ⟨placed, hplaced⟩ := exists_place hsome hnotall g.actions
    exact ⟨_, by rw [updateDeployment, hplaced]; rfl⟩

/-- A first step that is the best so far. -/
theorem environment_safe_improved :
    ∃ e, run next init [.reset, .step 1 [9, 12, 30]] = some e ∧ e.searchEnded = true ∧
      e.numExecutionCore = 7 ∧ ∀ c stop, e.call c = .error stop → stop = .waiting := by
  have hrun := (Option.some_get (x := run next init [.reset, .step 1 [9, 12, 30]])
    (by decide +kernel)).symm
  exact ⟨_, hrun, by decide +kernel, by decide +kernel, (environment_safe hrun).2.2.1⟩

/-- Every episode ends by its thirteenth step: of the next steps in an episode that has had
`numIte` of them, one of the first `13 - numIte` is the last of the episode. If it is the
thirteenth, the reward is one or minus one. -/
theorem episode_ends {es : List Call} {e : NfUpdateEnv}
    (h : run next init (.reset :: es) = some e) (hgoing : e.searchEnded = false) {cs : List Call}
    (hsteps : ∀ c ∈ cs, c ≠ .reset) (hlen : 13 - e.numIte ≤ cs.length) {t : NfUpdateEnv}
    (hrun : run next e cs = some t) :
    ∃ k r, k < 13 - e.numIte ∧ (e.results cs)[k]? = some r ∧ r.isLast = true ∧
      (k + e.numIte = 12 →
        r = .termination (.const 1) ∨ r = .termination (.const (-1))) := by
  have hv := valid_of_run h
  clear h
  induction cs generalizing e with
  | nil =>
    have htries := hv.tries
    rw [hgoing] at htries
    rw [List.length_nil] at hlen
    change e.numIte ≤ 12 at htries
    omega
  | cons c cs ih =>
    have htries := hv.tries
    rw [hgoing] at htries
    change e.numIte ≤ 12 at htries
    obtain ⟨e', hnext, hrest⟩ := run_cons_iff.mp hrun
    cases c with
    | reset => exact absurd rfl (hsteps _ List.mem_cons_self)
    | step action sums =>
      obtain ⟨r, hcall, hm⟩ := moved_of_next hv hgoing hnext
      have hresults : e.results (.step action sums :: cs) = r :: e'.results cs := by
        rw [results, hcall]
      rw [hresults]
      cases hended : e'.searchEnded with
      | true =>
        refine ⟨0, r, by omega, rfl, hm.last.trans hended, fun htwelve ↦ ?_⟩
        obtain ⟨x, -, hr⟩ := hm.late (by omega)
        split at hr
        · exact .inr hr
        · exact .inl hr
      | false =>
        have hlt : e.numIte ≠ 12 := by
          intro htwelve
          obtain ⟨x, -, rfl⟩ := hm.late htwelve
          have hlast := hm.last
          rw [hended] at hlast
          cases hlast
        have htried := hm.tried
        obtain ⟨k, r', hk, hget, hlast, hreward⟩ := ih hended
          (fun d hd ↦ hsteps d (List.mem_cons_of_mem _ hd))
          (by rw [List.length_cons] at hlen; omega) hrest hm.valid
        refine ⟨k + 1, r', by omega, ?_, hlast, fun htwelve ↦ hreward (by omega)⟩
        rw [List.getElem?_cons_succ]
        exact hget

/-- Twelve steps that change nothing, and the one that ends the episode. -/
theorem episode_ends_constant :
    ∃ e k r, run next init [.reset] = some e ∧ k < 13 ∧
      (e.results (List.replicate 13 (.step 0 [12, 12])))[k]? = some r ∧ r.isLast = true := by
  have hreset := (Option.some_get (x := run next init [.reset]) (by decide +kernel)).symm
  have hrun := (Option.some_get (x := run next ((run next init [.reset]).get (by decide +kernel))
    (List.replicate 13 (.step 0 [12, 12]))) (by decide +kernel)).symm
  obtain ⟨k, r, hk, hget, hlast, -⟩ := episode_ends hreset (by decide +kernel)
    (fun c hc ↦ by
      rw [List.eq_of_mem_replicate hc]
      exact Call.noConfusion) (by decide +kernel) hrun
  exact ⟨_, k, r, hreset, hk, hget, hlast⟩

/-- However long the training is and whatever is measured: at most 42 episodes end before their
thirteenth step. The best result that an episode has to exceed is kept for ever, and grows by
almost five percent every time. -/
theorem few_early_ends {es : List Call} {e : NfUpdateEnv}
    (h : run next init (.reset :: es) = some e) :
    countAlong next EndsEarly init (.reset :: es) ≤ 42 := by
  obtain ⟨e₀, h₀, hrun⟩ := run_cons_iff.mp h
  obtain ⟨hv, hbest, hnot⟩ := of_next_init h₀
  have hcount : countAlong next EndsEarly init (.reset :: es) =
      0 + countAlong next EndsEarly e₀ es := by
    rw [countAlong, if_neg hnot, h₀]
  have hinv := run_invariant_count (P := BestAfter) (fun _ _ _ _ hP hnext ↦ hP.next hnext)
    ⟨hv, .inl ⟨rfl, hbest⟩⟩ hrun
  rw [hcount]
  generalize 0 + countAlong next EndsEarly e₀ es = n at hinv ⊢
  by_contra hmany
  rcases hinv.2 with ⟨hzero, -⟩ | ⟨hlow, hhigh⟩
  · omega
  · have hone : (1 : ℚ) ≤ 10499 / 10000 := by norm_num
    have hpow : (10499 / 10000 : ℚ) ^ 42 ≤ (10499 / 10000) ^ (n - 1) :=
      pow_le_pow_right₀ hone (by omega)
    have hlarge : (75 : ℚ) < 10 * (10499 / 10000) ^ 42 := by norm_num
    linarith

/-- Two episodes, the first of which ends early. -/
theorem few_early_ends_two :
    countAlong next EndsEarly init
      [.reset, .step 1 [9, 12, 30], .reset, .step 0 [12, 30]] ≤ 42 := by
  have hrun := (Option.some_get (x := run next init
    [.reset, .step 1 [9, 12, 30], .reset, .step 0 [12, 30]]) (by decide +kernel)).symm
  exact few_early_ends hrun

end Nflambda.Deploy
