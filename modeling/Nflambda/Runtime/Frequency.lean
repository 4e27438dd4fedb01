import Nflambda.Runtime.GenericDecomposed
import Mathlib.Data.Int.Order.Basic

/-!
# Phases of a control frequency

Library `Runtime`. A control frequency `f` divides the packets into rounds of `|f| + 1`. The
counter of `generic_decomposed_classifier`, `src/runtime/nf/generic_decomposed.h:20–48`, is the
phase in the round, with the sign of `f`.
-/

namespace Nflambda.Runtime

open Nflambda.Base

/-- The phase that follows a phase of a round of `n + 1` packets. -/
def nextPhase (n r : Nat) : Nat := (r + 1) % (n + 1)

/-- The last packet of a round ends it. -/
@[simp] theorem nextPhase_self (n : Nat) : nextPhase n n = 0 := Nat.mod_self (n + 1)

/-- Before the end of the round, the phase grows by one. -/
theorem nextPhase_of_lt {n r : Nat} (h : r < n) : nextPhase n r = r + 1 :=
  Nat.mod_eq_of_lt (Nat.succ_lt_succ h)

/-- A phase stays within its round. -/
theorem nextPhase_le (n r : Nat) : nextPhase n r ≤ n :=
  Nat.lt_succ_iff.mp (Nat.mod_lt _ (Nat.succ_pos n))

/-- The packets of a stream pass through the phases in turn. -/
theorem nextPhase_mod (n k : Nat) : nextPhase n (k % (n + 1)) = (k + 1) % (n + 1) :=
  Nat.mod_add_mod k (n + 1) 1

/-- The counter stands at phase `r` of a round of the control frequency `f`. -/
structure InPhase (f counter : Int) (r : Nat) : Prop where
  le : r ≤ f.natAbs
  eq : counter = f.sign * r

/-- Whether the packet of phase `r` takes the control path: the last one of a round for a positive
frequency, all but the last one for a negative frequency. -/
def ControlsAt (f : Int) (r : Nat) : Prop :=
  (0 < f ∧ r = f.natAbs) ∨ (f < 0 ∧ r ≠ f.natAbs)

instance (f : Int) (r : Nat) : Decidable (ControlsAt f r) :=
  inferInstanceAs (Decidable (_ ∨ _))

/-- A counter of zero starts a round. -/
theorem inPhase_zero (f : Int) : InPhase f 0 0 :=
  ⟨Nat.zero_le _, by simp⟩

/-- For the frequency zero, no packet takes the control path. -/
theorem not_controlsAt_zero (r : Nat) : ¬ ControlsAt 0 r := by
  simp [ControlsAt]

/-- For a positive frequency, the counter is the phase. -/
theorem InPhase.of_pos {f counter : Int} {r : Nat} (h : InPhase f counter r) (hf : 0 < f) :
    counter = r ∧ (r : Int) ≤ f := by
  have hle := h.le
  have heq := h.eq
  rw [Int.sign_eq_one_of_pos hf, Int.one_mul] at heq
  exact ⟨heq, by omega⟩

/-- For a negative frequency, the counter is the negated phase. -/
theorem InPhase.of_neg {f counter : Int} {r : Nat} (h : InPhase f counter r) (hf : f < 0) :
    counter = -r ∧ f ≤ -r := by
  have hle := h.le
  have heq := h.eq
  rw [Int.sign_eq_neg_one_of_neg hf, Int.neg_one_mul] at heq
  exact ⟨heq, by omega⟩

/-- The counter of the next phase. -/
def nextCounter (f : Int) (r : Nat) : Int := f.sign * (nextPhase f.natAbs r : Nat)

/-- The next counter stands at the next phase. -/
theorem inPhase_nextCounter (f : Int) (r : Nat) :
    InPhase f (nextCounter f r) (nextPhase f.natAbs r) :=
  ⟨nextPhase_le f.natAbs r, rfl⟩

/-- At the end of a round, the counter is reset. -/
theorem nextCounter_natAbs (f : Int) : nextCounter f f.natAbs = 0 := by
  simp [nextCounter]

/-- For the frequency zero, the counter stays at zero. -/
@[simp] theorem nextCounter_zero (r : Nat) : nextCounter 0 r = 0 := by
  simp [nextCounter]

/-- Within a round of a positive frequency, the counter grows by one. -/
theorem nextCounter_of_pos {f : Int} {r : Nat} (hf : 0 < f) (hr : r < f.natAbs) :
    nextCounter f r = r + 1 := by
  rw [nextCounter, nextPhase_of_lt hr, Int.sign_eq_one_of_pos hf, Int.one_mul, Int.natCast_succ]

/-- Within a round of a negative frequency, the counter falls by one. -/
theorem nextCounter_of_neg {f : Int} {r : Nat} (hf : f < 0) (hr : r < f.natAbs) :
    nextCounter f r = -r - 1 := by
  rw [nextCounter, nextPhase_of_lt hr, Int.sign_eq_neg_one_of_neg hf, Int.natCast_succ]
  omega

variable {H : Type}

/-- In phase `r`, the classifier moves the counter to the next phase and sets the path of the
slot that the phase selects. -/
theorem genericDecomposedClassifier_of_inPhase {state : State H} {r : Nat}
    (h : InPhase state.controlFrequency state.counter r) (m : Message) :
    genericDecomposedClassifier state m =
      .ok ({ state with counter := nextCounter state.controlFrequency r },
        state.simplePath (if ControlsAt state.controlFrequency r then 1 else 0)) := by
  obtain ⟨hle, -⟩ := id h
  unfold genericDecomposedClassifier
  rcases lt_trichotomy state.controlFrequency 0 with hf | hf | hf
  · obtain ⟨hc, -⟩ := h.of_neg hf
    rw [if_neg (by omega), if_neg (by omega)]
    by_cases hr : r = state.controlFrequency.natAbs
    · have heq : state.controlFrequency = state.counter := by omega
      rw [if_pos heq, hr, nextCounter_natAbs, if_neg (by simp only [ControlsAt]; omega)]
    · have hne : state.controlFrequency ≠ state.counter := by omega
      rw [if_neg hne, nextCounter_of_neg hf (by omega), if_pos (.inr ⟨hf, hr⟩), ← hc]
  · have hc : state.counter = 0 := by simpa [hf] using h.eq
    rw [if_pos hf, hf, nextCounter_zero, if_neg (not_controlsAt_zero r), ← hf]
    exact congrArg (fun c ↦ Except.ok ({ state with counter := c }, _)) (hc.trans hf.symm)
  · obtain ⟨hc, -⟩ := h.of_pos hf
    rw [if_neg (by omega), if_pos hf]
    by_cases hr : r = state.controlFrequency.natAbs
    · have heq : state.controlFrequency = state.counter := by omega
      rw [if_pos heq, hr, nextCounter_natAbs, if_pos (.inl ⟨hf, rfl⟩)]
    · have hne : state.controlFrequency ≠ state.counter := by omega
      rw [if_neg hne, nextCounter_of_pos hf (by omega),
        if_neg (by simp only [ControlsAt]; omega), ← hc]

end Nflambda.Runtime
