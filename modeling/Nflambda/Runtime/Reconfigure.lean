import Nflambda.Base.Transition
import Nflambda.Runtime.Frequency
import Nflambda.Runtime.Dispatch

/-!
# The control frequency under reconfiguration

Library `Runtime`. Packets that the classifier handles, `src/runtime/nf/generic_decomposed.h:20–48`,
between the commands `state create`, `state control_frequency` and `config parameter`,
`src/runtime/cli.c:61–74`, `114–120` and `147–154`. The counter stays within the frequency as long
as `state control_frequency` sets frequencies that the counter fits.
-/

namespace Nflambda.Runtime

open Nflambda.Base

variable {H : Type}

/-- What happens to the states while their control frequencies are tuned. -/
inductive Tuning where
  /-- The classifier handles a message on state `i`. -/
  | packet (i : Fin STATE_NUM) (m : Message)
  /-- A command with these tokens is executed. -/
  | command (tokens : List String)

/-- The first two tokens of the commands that tune control frequencies. -/
def tuningCommands : List (List String) :=
  [["state", "create"], ["state", "control_frequency"], ["config", "parameter"]]

/-- One event of a tuning run. -/
def tune (c : Config H) : Tuning → Option (Config H)
  | .packet i m =>
    match genericDecomposedClassifier (c.states i) m with
    | .ok (s, _) => some (c.setState i s)
    | .error _ => none
  | .command tokens =>
    if tokens.take 2 ∈ tuningCommands then
      match dispatch c tokens with
      | .ok (c', _) => some c'
      | .error _ => none
    else none

/-- The counter of a state has a frequency's sign and does not exceed it. -/
def Fits (f counter : Int) : Prop :=
  (0 < f → 0 ≤ counter ∧ counter ≤ f) ∧ (f < 0 → f ≤ counter ∧ counter ≤ 0)

/-- The classifier sets the path in this slot, whatever paths are installed. -/
def SendsTo (s : State H) (slot : Fin 10) : Prop :=
  ∀ (simplePath : Fin 10 → Int) (m : Message), ∃ s',
    genericDecomposedClassifier { s with simplePath } m = .ok (s', simplePath slot)

/-- The states in which the packets on state `i` are classified in a run. -/
def classified (i : Fin STATE_NUM) : Config H → List Tuning → List (State H)
  | _, [] => []
  | c, e :: es =>
    let rest :=
      match tune c e with
      | some c' => classified i c' es
      | none => []
    match e with
    | .packet j _ => if j = i then c.states i :: rest else rest
    | .command _ => rest

/-- The event does not change the frequency of state `i`: it does not create the state anew and
sets no other frequency. -/
def KeepsFrequency (i : Fin STATE_NUM) (c : Config H) : Tuning → Prop
  | .packet _ _ => True
  | .command tokens =>
    (tokens.take 2 = ["state", "create"] → num tokens 3 ≠ .ok (i : Int)) ∧
    (tokens.take 2 = ["state", "control_frequency"] → num tokens 2 = .ok (i : Int) →
      num tokens 3 = .ok (c.states i).controlFrequency)

/-- As long as the frequency `f` of state `i` is not changed, any `|f| + 1` consecutive packets
contain one that takes the control path and one that takes the data path. -/
def Effective (i : Fin STATE_NUM) (c : Config H) : Prop :=
  (c.states i).controlFrequency ≠ 0 → ∀ es, Along tune (KeepsFrequency i) c es →
    (classified i c es).length = (c.states i).controlFrequency.natAbs + 1 →
    (∃ s ∈ classified i c es, SendsTo s 1) ∧ ∃ s ∈ classified i c es, SendsTo s 0

/-- A `state control_frequency` command on state `i` sets a frequency that the counter fits. -/
def SetsFitting (i : Fin STATE_NUM) (c : Config H) : Tuning → Prop
  | .packet _ _ => True
  | .command tokens =>
    tokens.take 2 = ["state", "control_frequency"] → num tokens 2 = .ok (i : Int) →
      ∀ f, num tokens 3 = .ok f → Fits f (c.states i).counter

/-! ### The commands -/

private theorem tokens_of_take_two {tokens : List String} {a b : String}
    (h : tokens.take 2 = [a, b]) : ∃ rest, tokens = a :: b :: rest := by
  match tokens, h with
  | a' :: b' :: rest, h =>
    simp only [List.take_succ_cons, List.take_zero, List.cons.injEq, and_true] at h
    exact ⟨rest, by rw [h.1, h.2]⟩

/-- What an event of a tuning run does. -/
inductive Tuned (c : Config H) : Tuning → Config H → Prop
  | packet (i : Fin STATE_NUM) (m : Message) (s : State H) (path : Int)
    (h : genericDecomposedClassifier (c.states i) m = .ok (s, path)) :
    Tuned c (.packet i m) (c.setState i s)
  | create (rest : List String) (j : Fin STATE_NUM)
    (h : num ("state" :: "create" :: rest) 3 = .ok (j.val : Int)) :
    Tuned c (.command ("state" :: "create" :: rest))
      (c.setState j (stateUpdate (c.states j) c.initStateParameter))
  | frequency (rest : List String) (j : Fin STATE_NUM) (f : Int)
    (h : num ("state" :: "control_frequency" :: rest) 2 = .ok (j.val : Int))
    (hf : num ("state" :: "control_frequency" :: rest) 3 = .ok f) :
    Tuned c (.command ("state" :: "control_frequency" :: rest))
      (c.setState j { c.states j with controlFrequency := f })
  | parameter (rest : List String) (p : InitStateParameter) :
    Tuned c (.command ("config" :: "parameter" :: rest)) { c with initStateParameter := p }

/-- Every enabled event of a tuning run is one of these. -/
theorem tuned_of_tune {c c' : Config H} {e : Tuning} (h : tune c e = some c') :
    Tuned c e c' := by
  cases e with
  | packet i m =>
    simp only [tune] at h
    split at h
    · next s path hs =>
      cases h
      exact .packet i m s path hs
    · cases h
  | command tokens =>
    simp only [tune] at h
    split at h
    case isFalse => cases h
    case isTrue hmem =>
    split at h
    case h_2 => cases h
    case h_1 reply hd =>
    cases h
    simp only [tuningCommands, List.mem_cons, List.not_mem_nil, or_false] at hmem
    rcases hmem with ht | ht | ht
    · obtain ⟨rest, rfl⟩ := tokens_of_take_two ht
      rw [CliCommand.dispatch_of_choice (k := .stateCreate) rfl] at hd
      cases CliCommand.executed hd with
      | nothing _ hnone => cases hnone
      | stateCreate j hj => exact .create rest j hj
    · obtain ⟨rest, rfl⟩ := tokens_of_take_two ht
      rw [CliCommand.dispatch_of_choice (k := .stateControlFrequency) rfl] at hd
      cases CliCommand.executed hd with
      | nothing _ hnone => cases hnone
      | stateControlFrequency j f hj hf => exact .frequency rest j f hj hf
    · obtain ⟨rest, rfl⟩ := tokens_of_take_two ht
      rw [CliCommand.dispatch_of_choice (k := .configParameter) rfl] at hd
      cases CliCommand.executed hd with
      | nothing _ hnone => cases hnone
      | configParameter p => exact .parameter rest p

/-- A `state control_frequency` command with a state in range is executed. -/
theorem tune_frequency (c : Config H) {rest : List String} {i : Fin STATE_NUM} {f : Int}
    (h : num ("state" :: "control_frequency" :: rest) 2 = .ok (i : Int))
    (hf : num ("state" :: "control_frequency" :: rest) 3 = .ok f) :
    tune c (.command ("state" :: "control_frequency" :: rest)) =
      some (c.setState i { c.states i with controlFrequency := f }) := by
  have hd : dispatch c ("state" :: "control_frequency" :: rest) =
      .ok (c.setState i { c.states i with controlFrequency := f },
        .text "action control_frequency done\n") := by
    rw [CliCommand.dispatch_of_choice (k := .stateControlFrequency) rfl, CliCommand.exec,
      stateControlFrequency, stateSet, h, hf]
    show (slot STATE_NUM (i : Int) >>= _) = _
    rw [slot_eq_ok_iff.mpr rfl]
    rfl
  have hmem : List.take 2 ("state" :: "control_frequency" :: rest) ∈ tuningCommands := by
    simp [tuningCommands]
  simp only [tune]
  rw [if_pos hmem, hd]

/-! ### The counter -/

/-- A counter that fits a frequency other than zero stands at a phase of its rounds. -/
theorem exists_inPhase_of_fits {f counter : Int} (h : Fits f counter) (hf : f ≠ 0) :
    ∃ r, InPhase f counter r := by
  refine ⟨counter.natAbs, ?_, ?_⟩
  · have hp := h.1
    have hn := h.2
    omega
  · rcases Int.lt_or_gt_of_ne hf with hneg | hpos
    · have hn := h.2 hneg
      rw [Int.sign_eq_neg_one_of_neg hneg]
      omega
    · have hp := h.1 hpos
      rw [Int.sign_eq_one_of_pos hpos]
      omega

/-- A phase of the rounds fits. -/
theorem fits_of_inPhase {f counter : Int} {r : Nat} (h : InPhase f counter r) :
    Fits f counter := by
  constructor
  · intro hf
    have hp := h.of_pos hf
    omega
  · intro hf
    have hn := h.of_neg hf
    omega

/-- The classifier keeps the frequency, and a counter that fits. -/
theorem genericDecomposedClassifier_fits {s s' : State H} {m : Message} {path : Int}
    (h : genericDecomposedClassifier s m = .ok (s', path))
    (hfits : Fits s.controlFrequency s.counter) :
    s'.controlFrequency = s.controlFrequency ∧ Fits s'.controlFrequency s'.counter := by
  by_cases hf : s.controlFrequency = 0
  · unfold genericDecomposedClassifier at h
    rw [if_pos hf] at h
    cases h
    exact ⟨rfl, hfits⟩
  · obtain ⟨r, hr⟩ := exists_inPhase_of_fits hfits hf
    rw [genericDecomposedClassifier_of_inPhase hr] at h
    cases h
    exact ⟨rfl, fits_of_inPhase (inPhase_nextCounter _ r)⟩

/-- The counter of a state still fits after an event exactly when the event does not set a
frequency that it does not fit. -/
theorem fits_iff_setsFitting {i : Fin STATE_NUM} {c c' : Config H} {e : Tuning}
    (h : Fits (c.states i).controlFrequency (c.states i).counter) (he : tune c e = some c') :
    Fits (c'.states i).controlFrequency (c'.states i).counter ↔ SetsFitting i c e := by
  cases tuned_of_tune he with
  | packet j m s path hs =>
    refine ⟨fun _ ↦ trivial, fun _ ↦ ?_⟩
    by_cases hj : i = j
    · subst hj
      rw [Config.setState_self]
      exact (genericDecomposedClassifier_fits hs h).2
    · rw [Config.setState_of_ne c hj]
      exact h
  | create rest j hj =>
    refine ⟨fun _ ht ↦ by simp at ht, fun _ ↦ ?_⟩
    by_cases hij : i = j
    · subst hij
      rw [Config.setState_self]
      exact fits_of_inPhase (inPhase_zero _)
    · rw [Config.setState_of_ne c hij]
      exact h
  | frequency rest j f hj hf =>
    by_cases hij : i = j
    · subst hij
      rw [Config.setState_self]
      constructor
      · intro hfits _ _ g hg
        rw [hf, Except.ok.injEq] at hg
        subst hg
        exact hfits
      · exact fun hset ↦ hset rfl hj f hf
    · rw [Config.setState_of_ne c hij]
      refine ⟨fun _ _ hi ↦ ?_, fun _ ↦ h⟩
      rw [hj, Except.ok.injEq] at hi
      exact absurd (Fin.ext (Int.ofNat_inj.mp hi)) (Ne.symm hij)
  | parameter rest p =>
    exact ⟨fun _ ht ↦ by simp at ht, fun _ ↦ h⟩

/-- A command that is not executed sets no frequency. -/
theorem setsFitting_of_tune_eq_none {i : Fin STATE_NUM} {c : Config H} {e : Tuning}
    (h : tune c e = none) : SetsFitting i c e := by
  cases e with
  | packet => trivial
  | command tokens =>
    intro ht hi f hf
    obtain ⟨rest, rfl⟩ := tokens_of_take_two ht
    rw [tune_frequency c hi hf] at h
    cases h

/-! ### The packets of a round -/

/-- In phase `r`, the classifier sends the packet where the phase says. -/
theorem sendsTo_of_inPhase {s : State H} {r : Nat}
    (h : InPhase s.controlFrequency s.counter r) :
    SendsTo s (if ControlsAt s.controlFrequency r then 1 else 0) := by
  intro simplePath m
  have hphase : InPhase { s with simplePath }.controlFrequency { s with simplePath }.counter r := h
  exact ⟨_, genericDecomposedClassifier_of_inPhase hphase m⟩

/-- State `i` has the frequency `f` and its counter is at the phase of packet `k`. -/
def AtPacket (i : Fin STATE_NUM) (f : Int) (k : Nat) (c : Config H) : Prop :=
  (c.states i).controlFrequency = f ∧ InPhase f (c.states i).counter (k % (f.natAbs + 1))

/-- A packet on the state moves it on by one phase. -/
private theorem atPacket_packet {i : Fin STATE_NUM} {f : Int} {k : Nat} {c : Config H}
    {m : Message} {s : State H} {path : Int} (h : AtPacket i f k c)
    (hs : genericDecomposedClassifier (c.states i) m = .ok (s, path)) :
    AtPacket i f (k + 1) (c.setState i s) := by
  obtain ⟨rfl, hphase⟩ := h
  rw [genericDecomposedClassifier_of_inPhase hphase] at hs
  cases hs
  rw [AtPacket, Config.setState_self]
  refine ⟨rfl, ?_⟩
  rw [← nextPhase_mod]
  exact inPhase_nextCounter _ _

/-- Other events that keep the frequency leave the phase of the state alone. -/
private theorem atPacket_other {i : Fin STATE_NUM} {f : Int} {k : Nat} {c c' : Config H}
    {e : Tuning} (h : AtPacket i f k c) (he : tune c e = some c') (hkeep : KeepsFrequency i c e)
    (hother : ∀ m, e ≠ .packet i m) : AtPacket i f k c' := by
  cases tuned_of_tune he with
  | packet j m s path hs =>
    have hij : i ≠ j := fun hij ↦ hother m (hij ▸ rfl)
    rwa [AtPacket, Config.setState_of_ne c hij]
  | create rest j hj =>
    have hij : i ≠ j := fun hij ↦ hkeep.1 rfl (hij ▸ hj)
    rwa [AtPacket, Config.setState_of_ne c hij]
  | frequency rest j g hj hg =>
    by_cases hij : i = j
    · subst hij
      have hsame := hkeep.2 rfl hj
      rw [hg, Except.ok.injEq] at hsame
      rwa [AtPacket, Config.setState_self, hsame]
    · rwa [AtPacket, Config.setState_of_ne c hij]
  | parameter rest p => exact h

/-- The packets that are classified while the frequency is kept pass through the phases in
turn. -/
theorem classified_phase {i : Fin STATE_NUM} {f : Int} (es : List Tuning) :
    ∀ {k : Nat} {c : Config H}, AtPacket i f k c → Along tune (KeepsFrequency i) c es →
      ∀ j s, (classified i c es)[j]? = some s →
        s.controlFrequency = f ∧ InPhase f s.counter ((k + j) % (f.natAbs + 1)) := by
  induction es with
  | nil =>
    intro k c _ _ j s hj
    simp [classified] at hj
  | cons e es ih =>
    intro k c h hkeep j s hj
    -- the packets after this event, which is number `k` or leaves the phase alone
    have hrest : ∀ {q : Nat} {j : Nat}, (∀ c', tune c e = some c' → AtPacket i f q c') →
        (match tune c e with
          | some c' => classified i c' es
          | none => [])[j]? = some s →
        s.controlFrequency = f ∧ InPhase f s.counter ((q + j) % (f.natAbs + 1)) := by
      intro q j hat hj
      split at hj
      · next c' hc' => exact ih (hat c' hc') (hkeep.2 c' hc') j s hj
      · simp at hj
    cases e with
    | command tokens =>
      refine hrest (fun c' hc' ↦ ?_) hj
      exact atPacket_other h hc' hkeep.1 fun m hm ↦ by cases hm
    | packet l m =>
      simp only [classified] at hj
      split at hj
      · next hl =>
        subst hl
        cases j with
        | zero =>
          cases hj
          exact h
        | succ j =>
          rw [List.getElem?_cons_succ] at hj
          have hnext := hrest (q := k + 1) (fun c' hc' ↦ ?_) hj
          · rw [show k + (j + 1) = k + 1 + j by omega]
            exact hnext
          · cases tuned_of_tune hc' with
            | packet _ _ s path hs => exact atPacket_packet h hs
      · next hl =>
        refine hrest (fun c' hc' ↦ ?_) hj
        exact atPacket_other h hc' hkeep.1 fun m' hm ↦ hl (by cases hm; rfl)

/-- Every phase comes up among as many consecutive packets as a round has. -/
private theorem exists_packet_of_phase {n r t : Nat} (hr : r ≤ n) (ht : t ≤ n) :
    ∃ j, j < n + 1 ∧ (r + j) % (n + 1) = t := by
  by_cases hle : r ≤ t
  · refine ⟨t - r, by omega, ?_⟩
    rw [show r + (t - r) = t by omega]
    exact Nat.mod_eq_of_lt (by omega)
  · refine ⟨n + 1 + t - r, by omega, ?_⟩
    rw [show r + (n + 1 + t - r) = t + (n + 1) by omega, Nat.add_mod_right]
    exact Nat.mod_eq_of_lt (by omega)

/-- A frequency is effective as long as the counter fits it. -/
theorem effective_of_fits {i : Fin STATE_NUM} {c : Config H}
    (h : Fits (c.states i).controlFrequency (c.states i).counter) : Effective i c := by
  intro hf es hkeep hlen
  obtain ⟨r, hr⟩ := exists_inPhase_of_fits h hf
  have hat : AtPacket i (c.states i).controlFrequency r c := by
    refine ⟨rfl, ?_⟩
    rwa [Nat.mod_eq_of_lt (Nat.lt_succ_of_le hr.le)]
  have hsends : ∀ t ≤ (c.states i).controlFrequency.natAbs, ∃ s ∈ classified i c es,
      SendsTo s (if ControlsAt (c.states i).controlFrequency t then 1 else 0) := by
    intro t ht
    obtain ⟨j, hj, hjt⟩ := exists_packet_of_phase hr.le ht
    rw [← hlen] at hj
    obtain ⟨hfreq, hphase⟩ := classified_phase es hat hkeep j _ (List.getElem?_eq_getElem hj)
    rw [hjt, ← hfreq] at hphase
    refine ⟨_, List.getElem_mem hj, ?_⟩
    rw [← hfreq]
    exact sendsTo_of_inPhase hphase
  have hlast := hsends _ (Nat.le_refl _)
  have hfirst := hsends 0 (Nat.zero_le _)
  rcases Int.lt_or_gt_of_ne hf with hneg | hpos
  · rw [if_neg (by simp only [ControlsAt]; omega)] at hlast
    rw [if_pos (.inr ⟨hneg, by omega⟩)] at hfirst
    exact ⟨hfirst, hlast⟩
  · rw [if_pos (.inl ⟨hpos, rfl⟩)] at hlast
    rw [if_neg (by simp only [ControlsAt]; omega)] at hfirst
    exact ⟨hlast, hfirst⟩

/-- In every state of a tuning run the counter fits the frequency and the frequency is effective,
exactly when the counter fits at first and `state control_frequency` only ever sets a frequency
that the counter fits at that moment. -/
theorem frequency_effective_iff (i : Fin STATE_NUM) (c : Config H) (es : List Tuning) :
    Visits tune (fun c ↦ Fits (c.states i).controlFrequency (c.states i).counter ∧ Effective i c)
        c es ↔
      Fits (c.states i).controlFrequency (c.states i).counter ∧
        Along tune (SetsFitting i) c es := by
  have hboth : ∀ c : Config H, (Fits (c.states i).controlFrequency (c.states i).counter ∧
      Effective i c) ↔ Fits (c.states i).controlFrequency (c.states i).counter :=
    fun c ↦ and_iff_left_of_imp effective_of_fits
  simp only [hboth]
  by_cases h0 : Fits (c.states i).controlFrequency (c.states i).counter
  · rw [and_iff_right h0]
    exact visits_iff_along (I := fun _ ↦ True) (fun _ _ _ _ _ ↦ trivial)
      (fun _ _ _ _ h he ↦ fits_iff_setsFitting h he)
      (fun _ _ _ he ↦ setsFitting_of_tune_eq_none he) trivial h0 es
  · refine ⟨fun hv ↦ absurd ?_ h0, fun h ↦ absurd h.1 h0⟩
    cases es with
    | nil => exact hv
    | cons e es => exact hv.1

/-- A state that is created with the frequency 10, handles five packets and is then set to the
frequency 3. -/
def loweredFrequency : List Tuning :=
  [.command ["config", "parameter", "1", "0", "0", "10", "0", "0", "1", "1"],
    .command ["state", "create", "0", "0"]] ++
    List.replicate 5 (.packet 0 ⟨0, 0, 0, 0, ⟨0, 0⟩, 0⟩) ++
    [.command ["state", "control_frequency", "0", "3"]]

/-- The counter has passed the lowered frequency. -/
theorem loweredFrequency_not_fits :
    ¬ Visits tune
      (fun c ↦ Fits (c.states 0).controlFrequency (c.states 0).counter ∧ Effective 0 c)
      (Config.zeroed ([] : List Ipv4FiveTuple)) loweredFrequency := by
  intro h
  have hlast : (run tune (Config.zeroed ([] : List Ipv4FiveTuple)) loweredFrequency).map
      (fun c ↦ ((c.states 0).controlFrequency, (c.states 0).counter)) = some (3, 5) := by
    decide
  obtain ⟨c, hc, hstate⟩ := Option.map_eq_some_iff.mp hlast
  have hfits := (h.last hc).1
  rw [Prod.mk.injEq] at hstate
  rw [hstate.1, hstate.2] at hfits
  have hle := (hfits.1 (by decide)).2
  omega

end Nflambda.Runtime
