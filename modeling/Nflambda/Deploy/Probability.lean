import Nflambda.Base.Binary64
import Nflambda.Base.Periodic
import Nflambda.Runtime.Config
import Nflambda.Runtime.GenericMono

/-!
# The director's probability of control work

Library `Deploy`. `freq_to_prob`, `src/director/helper/__init__.py:3–7`, against the packets that
`generic_decomposed_classifier`, `src/runtime/nf/generic_decomposed.h:20–48`, sends to the control
path. The formula has no case for the frequency 0, at which the classifier sends none.
-/

namespace Nflambda.Deploy

open Nflambda.Base Nflambda.Runtime

/-- Python's `round` of a binary64 number to some decimal places. -/
def pyRound (x : ℚ) (digits : Nat) : ℚ := toBinary64 (roundEven (x * 10 ^ digits) / 10 ^ digits)

/-- The quotient that `freq_to_prob` rounds, `helper/__init__.py:5,7`. -/
def freqRatio (freq : Int) : ℚ :=
  if freq < 0 then ((-freq : Int) : ℚ) / ((1 - freq : Int) : ℚ)
  else 1 / ((1 + freq : Int) : ℚ)

/-- `freq_to_prob`, `helper/__init__.py:3–7`. -/
def freqToProb (freq : Int) : ℚ := pyRound (toBinary64 (freqRatio freq)) 5

variable {H : Type}

/-- How many of some messages the classifier sends to the control path. Every slot of the paths
holds its own number here, so that the path it sets tells the slot. -/
def controlPackets (state : State H) (messages : List Message) : Nat :=
  match classifierRun { state with simplePath := fun slot ↦ (slot.val : Int) } messages with
  | .ok (_, paths) => paths.count 1
  | .error _ => 0

private theorem count_paths {f : Int} (simplePath : Fin 10 → Int)
    (hne : simplePath 0 ≠ simplePath 1) (n : Nat) :
    ((List.range' 0 n).map fun k ↦ simplePath (if ControlDue f k then 1 else 0)).count
      (simplePath 1) = Nat.count (ControlDue f) n := by
  rw [List.count, List.countP_map, Nat.count, List.range_eq_range']
  refine List.countP_congr fun k _ ↦ ?_
  by_cases hk : ControlDue f k <;> simp [hk, hne]

/-- Where the two installed paths differ, the packets whose number says so take the control
path. -/
theorem count_classifierRun (state : State H) (hcounter : state.counter = 0)
    (hne : state.simplePath 0 ≠ state.simplePath 1) (messages : List Message) :
    ∃ state' paths, classifierRun state messages = .ok (state', paths) ∧
      paths.count (state.simplePath 1) =
        Nat.count (ControlDue state.controlFrequency) messages.length := by
  have hphase : InPhase state.controlFrequency state.counter
      (0 % (state.controlFrequency.natAbs + 1)) := by
    rw [hcounter, Nat.zero_mod]
    exact inPhase_zero _
  obtain ⟨state', hrun⟩ := classifierRun_of_inPhase messages rfl rfl hphase
  exact ⟨state', _, hrun, count_paths state.simplePath hne messages.length⟩

/-- The packets whose number says so are sent to the control path. -/
theorem controlPackets_eq (state : State H) (hcounter : state.counter = 0)
    (messages : List Message) : controlPackets state messages =
      Nat.count (ControlDue state.controlFrequency) messages.length := by
  obtain ⟨state', paths, hrun, hcount⟩ := count_classifierRun
    { state with simplePath := fun slot ↦ (slot.val : Int) } hcounter (by simp) messages
  rw [controlPackets, hrun]
  exact hcount

/-- A round of a control frequency has one packet on the control path, or all but one, or none. -/
theorem count_controlsAt (f : Int) : Nat.count (ControlsAt f) (f.natAbs + 1) =
    if 0 < f then 1 else f.natAbs := by
  have hlast : f.natAbs < f.natAbs + 1 := Nat.lt_succ_self _
  rcases Int.lt_trichotomy f 0 with hf | hf | hf
  · have hcongr : Nat.count (ControlsAt f) (f.natAbs + 1) =
        Nat.count (· ≠ f.natAbs) (f.natAbs + 1) := by
      refine count_congr fun r _ ↦ ?_
      simp only [ControlsAt]
      omega
    rw [if_neg (by omega), hcongr, count_ne_of_lt hlast, Nat.add_sub_cancel]
  · subst hf
    simp [Nat.count, not_controlsAt_zero]
  · have hcongr : Nat.count (ControlsAt f) (f.natAbs + 1) =
        Nat.count (· = f.natAbs) (f.natAbs + 1) := by
      refine count_congr fun r _ ↦ ?_
      simp only [ControlsAt]
      omega
    rw [if_pos hf, hcongr, count_eq_of_lt hlast]

/-- Over complete rounds, the packets on the control path are the share that the director's formula
gives exactly when the frequency is not 0. -/
theorem controlPackets_eq_freqRatio_iff (state : State H) (hcounter : state.counter = 0)
    {m : Nat} (hm : 1 ≤ m) (messages : List Message)
    (hlen : messages.length = m * (state.controlFrequency.natAbs + 1)) :
    (controlPackets state messages : ℚ) =
        (m * (|state.controlFrequency| + 1) : Int) * freqRatio state.controlFrequency ↔
      state.controlFrequency ≠ 0 := by
  have hcount : controlPackets state messages =
      m * (if 0 < state.controlFrequency then 1 else state.controlFrequency.natAbs) := by
    rw [controlPackets_eq state hcounter, hlen, ← count_controlsAt, ← count_mod_mul]
    exact count_congr fun k _ ↦ controlDue_iff _ k
  rw [hcount, freqRatio]
  generalize state.controlFrequency = f
  have hm0 : (m : ℚ) ≠ 0 := by
    have hpos : 0 < m := hm
    exact_mod_cast hpos.ne'
  rcases Int.lt_trichotomy f 0 with hf | hf | hf
  · refine iff_of_true ?_ hf.ne
    obtain ⟨n, rfl⟩ : ∃ n : Nat, f = -((n + 1 : Nat) : Int) := ⟨f.natAbs - 1, by omega⟩
    rw [if_neg (by omega), if_pos hf, Int.natAbs_neg, Int.natAbs_natCast, abs_neg, Nat.abs_cast]
    push_cast
    have hne : (1 : ℚ) - -(n + 1) ≠ 0 := by
      have hn : (0 : ℚ) ≤ n := Nat.cast_nonneg n
      linarith
    field_simp
    ring
  · subst hf
    simpa using hm0.symm
  · refine iff_of_true ?_ hf.ne'
    obtain ⟨n, rfl⟩ : ∃ n : Nat, f = (n : Int) := ⟨f.toNat, by omega⟩
    rw [if_pos hf, if_neg (by omega), Nat.abs_cast]
    push_cast
    have hne : (1 : ℚ) + n ≠ 0 := by
      have hn : (0 : ℚ) ≤ n := Nat.cast_nonneg n
      linarith
    field_simp
    ring

/-- Two rounds of the frequency 2. -/
theorem controlPackets_eq_freqRatio_two :
    (controlPackets { (Config.zeroed ()).states 0 with controlFrequency := 2 }
      (List.replicate 6 ⟨0, 0, 0, 0, ⟨0, 0⟩, 0⟩) : ℚ) = (2 * (|2| + 1) : Int) * freqRatio 2 :=
  (controlPackets_eq_freqRatio_iff (m := 2) _ rfl (by decide) _ rfl).mpr (by decide)

/-- At the frequency 0, the formula gives every packet, and the classifier sends none. -/
theorem controlPackets_ne_freqRatio_zero :
    ¬ (controlPackets ((Config.zeroed ()).states 0) [⟨0, 0, 0, 0, ⟨0, 0⟩, 0⟩] : ℚ) =
      (1 * (|0| + 1) : Int) * freqRatio 0 := by
  have hcount : controlPackets ((Config.zeroed ()).states 0) [⟨0, 0, 0, 0, ⟨0, 0⟩, 0⟩] = 0 := by
    decide
  rw [hcount]
  norm_num [freqRatio]

end Nflambda.Deploy
