import Nflambda.Runtime.Frequency
import Mathlib.Algebra.Order.Group.Unbundled.Int

/-!
# The monolithic generic network function

Library `Runtime`. Source `src/runtime/nf/generic_mono.c:65–152`, `generic_mono.h:5–42` and
`ipv4_5tuple_next`, `src/runtime/common/defined.h:39–52`. The busy loop `operation` and the
transmission of the packets are left out. The values that are stored with the keys are never
read, so that the two tables hold keys only. The main result compares the packets that take
control work with those that `generic_decomposed_classifier` sends to the control path.
-/

namespace Nflambda.Runtime

open Nflambda.Base

/-- `ipv4_5tuple_next`, `defined.h:39–52`. -/
def ipv45TupleNext (ipv45Tuple : Ipv4FiveTuple) : Ipv4FiveTuple :=
  let t := { ipv45Tuple with portSrc := ipv45Tuple.portSrc + 1 }
  if t.portSrc = 0 then
    let t := { t with portDst := t.portDst + 1 }
    if t.portDst = 0 then
      let t := { t with ipSrc := t.ipSrc + 1 }
      if t.ipSrc = 0 then { t with ipDst := t.ipDst + 1 } else t
    else t
  else t

/-- The fields of `struct generic_mono`, `generic_mono.h:5–42`, that `generic_mono_action` reads
or writes while it handles packets. -/
structure GenericMono (H : Type) where
  rxn : Int
  rxs : Int
  frequencyControl : Int
  dataPacket : Int
  dataState : H
  bufferPointerD : Int
  controlState : H
  bufferPointerC : Int

/-- The kinds of work that a packet can cause. -/
inductive Work where
  /-- The access to `control_state` and the operation of the control complexity. -/
  | control
  /-- The access to `data_state` and the operation of the data complexity. -/
  | data
  deriving DecidableEq, Repr

/-- The main loop of `generic_mono_action` between two packets: the NF, the local variables
`current` and `ipv45Tuple`, the work that the packet in hand has caused so far, and the work of
each packet before it. -/
structure MonoLoop (H : Type) where
  pGm : GenericMono H
  current : Int
  ipv45Tuple : Ipv4FiveTuple
  work : List Work
  done : List (List Work)

variable {H : Type}

/-- The value of the local variable `control`, `generic_mono.c:89–97`. -/
def MonoLoop.control (l : MonoLoop H) : Bool :=
  if l.pGm.frequencyControl > 0 ∧ l.current < l.pGm.frequencyControl then false
  else if l.pGm.frequencyControl < 0 ∧ l.current = l.pGm.frequencyControl then false
  else if l.pGm.frequencyControl ≠ 0 then true
  else false

variable [RteHash H]

/-- An access to a table, `generic_mono.c:102–110` and `139–147`: an absent key is added, with the
next of the 100 values of a buffer. -/
def accessState (table : H) (bufferPointer : Int) (ipv45Tuple : Ipv4FiveTuple) : H × Int :=
  if RteHash.lookup table ipv45Tuple = -ENOENT then
    ((RteHash.addKey table ipv45Tuple).1, (bufferPointer + 1) % 100)
  else (table, bufferPointer)

/-- Control work, `generic_mono.c:101–116`. -/
def MonoLoop.controlWork (l : MonoLoop H) : MonoLoop H :=
  let ipv45Tuple := ipv45TupleNext l.ipv45Tuple
  let (controlState, bufferPointerC) :=
    accessState l.pGm.controlState l.pGm.bufferPointerC ipv45Tuple
  { l with
    pGm := { l.pGm with controlState, bufferPointerC }
    ipv45Tuple
    work := l.work ++ [.control]
    current := if l.pGm.frequencyControl < 0 then l.current - 1 else 0 }

omit [RteHash H] in
/-- What a packet without control work does in its place, `generic_mono.c:118–123`. -/
def MonoLoop.skipControl (l : MonoLoop H) (m : RxPacket) : MonoLoop H :=
  { l with
    pGm := { l.pGm with dataPacket := l.pGm.dataPacket + m.pktLen * 8 }
    current :=
      if l.pGm.frequencyControl > 0 then l.current + 1
      else if l.pGm.frequencyControl < 0 then 0
      else l.current }

/-- Data work, `generic_mono.c:138–149`. -/
def MonoLoop.dataWork (l : MonoLoop H) : MonoLoop H :=
  let ipv45Tuple := ipv45TupleNext l.ipv45Tuple
  let (dataState, bufferPointerD) :=
    accessState l.pGm.dataState l.pGm.bufferPointerD ipv45Tuple
  { l with
    pGm := { l.pGm with dataState, bufferPointerD }
    ipv45Tuple
    work := l.work ++ [.data] }

omit [RteHash H] in
/-- The next packet is taken from the burst, `generic_mono.c:85–87`. -/
def MonoLoop.receive (l : MonoLoop H) (m : RxPacket) : MonoLoop H :=
  { l with pGm := { l.pGm with rxs := l.pGm.rxs + m.pktLen * 8 }, work := [] }

omit [RteHash H] in
/-- The packet in hand is done. -/
def MonoLoop.finish (l : MonoLoop H) : MonoLoop H :=
  { l with done := l.done ++ [l.work] }

/-- The body of the loop over a burst, `generic_mono.c:85–152`. -/
def MonoLoop.packet (l : MonoLoop H) (m : RxPacket) : MonoLoop H :=
  (if (l.receive m).control then (l.receive m).controlWork.dataWork
    else ((l.receive m).skipControl m).dataWork).finish

/-- One turn of the main loop, `generic_mono.c:69–154`. -/
def MonoLoop.burst (l : MonoLoop H) (pktsBurst : List RxPacket) : MonoLoop H :=
  pktsBurst.foldl MonoLoop.packet
    { l with pGm := { l.pGm with rxn := l.pGm.rxn + pktsBurst.length } }

/-- `generic_mono_action`, `generic_mono.c:14–152`, on the bursts that arrive before `dp_quit` is
set. The 5-tuple starts with whatever its memory holds. -/
def genericMonoAction (pGm : GenericMono H) (ipv45Tuple : Ipv4FiveTuple)
    (bursts : List (List RxPacket)) : MonoLoop H :=
  bursts.foldl MonoLoop.burst
    { pGm := { pGm with rxn := 0, rxs := 0 }, current := 0, ipv45Tuple, work := [], done := [] }

omit [RteHash H] in
/-- `generic_decomposed_classifier` on one message after another: the state it leaves and the
paths it has set. -/
def classifierRun (state : State H) : List Message → Except Fault (State H × List Int)
  | [] => .ok (state, [])
  | m :: messages => do
    let (state, path) ← genericDecomposedClassifier state m
    let (state, paths) ← classifierRun state messages
    return (state, path :: paths)

/-! ### The decisions of both -/

/-- The packets that take control work, for a control frequency: with the last of `f + 1` packets
for `f > 0`, with all but the last of `|f| + 1` packets for `f < 0`. -/
def ControlDue (f : Int) (k : Nat) : Prop :=
  (f > 0 ∧ (k : Int) % (f + 1) = f) ∨ (f < 0 ∧ (k : Int) % (|f| + 1) ≠ |f|)

/-- A packet takes control work when its phase in the round says so. -/
theorem controlDue_iff (f : Int) (k : Nat) :
    ControlDue f k ↔ ControlsAt f (k % (f.natAbs + 1)) := by
  have habs : |f| = (f.natAbs : Int) := Int.abs_eq_natAbs f
  have hmod : ((k % (f.natAbs + 1) : Nat) : Int) = (k : Int) % (|f| + 1) := by
    rw [habs]
    push_cast
    rfl
  unfold ControlDue ControlsAt
  constructor
  · rintro (⟨hf, hk⟩ | ⟨hf, hk⟩)
    · rw [abs_of_pos hf] at hmod
      exact .inl ⟨hf, by omega⟩
    · exact .inr ⟨hf, by omega⟩
  · rintro (⟨hf, hk⟩ | ⟨hf, hk⟩)
    · rw [abs_of_pos hf] at hmod
      exact .inl ⟨hf, by omega⟩
    · exact .inr ⟨hf, by omega⟩

instance (f : Int) (k : Nat) : Decidable (ControlDue f k) :=
  decidable_of_iff _ (controlDue_iff f k).symm

/-- The work that packet `k` causes. -/
def workAt (f : Int) (k : Nat) : List Work :=
  if ControlDue f k then [.control, .data] else [.data]

omit [RteHash H] in
/-- In phase `r`, `generic_mono_action` does control work when the phase asks for it. -/
theorem control_iff_of_inPhase {l : MonoLoop H} {r : Nat}
    (h : InPhase l.pGm.frequencyControl l.current r) :
    l.control = true ↔ ControlsAt l.pGm.frequencyControl r := by
  have hle := h.le
  unfold MonoLoop.control ControlsAt
  rcases Int.lt_trichotomy l.pGm.frequencyControl 0 with hf | hf | hf
  · obtain ⟨hc, -⟩ := h.of_neg hf
    grind
  · grind
  · obtain ⟨hc, -⟩ := h.of_pos hf
    grind

/-- What one packet does to the frequency, to `current` and to the record of the work. -/
theorem packet_of_inPhase {l : MonoLoop H} {r : Nat}
    (h : InPhase l.pGm.frequencyControl l.current r) (m : RxPacket) :
    (l.packet m).pGm.frequencyControl = l.pGm.frequencyControl ∧
      (l.packet m).current = nextCounter l.pGm.frequencyControl r ∧
      (l.packet m).done = l.done ++
        [if ControlsAt l.pGm.frequencyControl r then [.control, .data] else [.data]] := by
  have h' : InPhase (l.receive m).pGm.frequencyControl (l.receive m).current r := h
  have hle := h.le
  unfold MonoLoop.packet
  by_cases hdue : ControlsAt l.pGm.frequencyControl r
  · have hcontrol : (l.receive m).control = true := (control_iff_of_inPhase h').mpr hdue
    rw [if_pos hcontrol, if_pos hdue]
    refine ⟨rfl, ?_, rfl⟩
    show (if l.pGm.frequencyControl < 0 then l.current - 1 else 0) = _
    rcases hdue with ⟨hf, hr⟩ | ⟨hf, hr⟩
    · rw [if_neg (by omega), hr, nextCounter_natAbs]
    · rw [if_pos hf, nextCounter_of_neg hf (by omega), (h.of_neg hf).1]
  · have hcontrol : ¬ (l.receive m).control = true :=
      fun hc ↦ hdue ((control_iff_of_inPhase h').mp hc)
    rw [if_neg hcontrol, if_neg hdue]
    refine ⟨rfl, ?_, rfl⟩
    show (if l.pGm.frequencyControl > 0 then l.current + 1
      else if l.pGm.frequencyControl < 0 then 0 else l.current) = _
    rcases Int.lt_trichotomy l.pGm.frequencyControl 0 with hf | hf | hf
    · have hr : r = l.pGm.frequencyControl.natAbs := by
        by_contra hr
        exact hdue (.inr ⟨hf, hr⟩)
      rw [if_neg (by omega), if_pos hf, hr, nextCounter_natAbs]
    · rw [if_neg (by omega), if_neg (by omega), hf, nextCounter_zero]
      simpa [hf] using h.eq
    · have hr : r ≠ l.pGm.frequencyControl.natAbs := fun hr ↦ hdue (.inl ⟨hf, hr⟩)
      rw [if_pos hf, nextCounter_of_pos hf (by omega), (h.of_pos hf).1]

/-- The loop after some packets under the control frequency `f`: `current` is at their phase and
each of them has caused the work of its number. -/
structure MonoAt (f : Int) (l : MonoLoop H) : Prop where
  frequency : l.pGm.frequencyControl = f
  phase : InPhase f l.current (l.done.length % (f.natAbs + 1))
  work : l.done = (List.range l.done.length).map (workAt f)

/-- One packet keeps the invariant of the loop. -/
theorem MonoAt.packet {f : Int} {l : MonoLoop H} (h : MonoAt f l) (m : RxPacket) :
    MonoAt f (l.packet m) ∧ (l.packet m).done.length = l.done.length + 1 := by
  obtain ⟨hfreq, hphase, hwork⟩ := h
  subst hfreq
  obtain ⟨hf, hcurrent, hdone⟩ := packet_of_inPhase hphase m
  have hlen : (l.packet m).done.length = l.done.length + 1 := by
    rw [hdone, List.length_append, List.length_singleton]
  refine ⟨⟨hf, ?_, ?_⟩, hlen⟩
  · rw [hcurrent, hlen, ← nextPhase_mod]
    exact inPhase_nextCounter _ _
  · rw [hlen, List.range_succ, List.map_append, ← hwork, hdone, List.map_singleton, workAt]
    simp only [controlDue_iff]

/-- A burst keeps the invariant of the loop. -/
theorem MonoAt.burst {f : Int} {l : MonoLoop H} (h : MonoAt f l) (pktsBurst : List RxPacket) :
    MonoAt f (l.burst pktsBurst) ∧
      (l.burst pktsBurst).done.length = l.done.length + pktsBurst.length := by
  have hfold : ∀ (ms : List RxPacket) (l : MonoLoop H), MonoAt f l →
      MonoAt f (ms.foldl MonoLoop.packet l) ∧
        (ms.foldl MonoLoop.packet l).done.length = l.done.length + ms.length := by
    intro ms
    induction ms with
    | nil => exact fun l h ↦ ⟨h, rfl⟩
    | cons m ms ih =>
      intro l h
      obtain ⟨hat, hlen⟩ := h.packet m
      obtain ⟨hat', hlen'⟩ := ih _ hat
      refine ⟨hat', hlen'.trans ?_⟩
      rw [hlen, List.length_cons]
      omega
  exact hfold pktsBurst _ ⟨h.frequency, h.phase, h.work⟩

/-- The main loop keeps its invariant over all bursts. -/
theorem MonoAt.bursts {f : Int} (bursts : List (List RxPacket)) :
    ∀ {l : MonoLoop H}, MonoAt f l → MonoAt f (bursts.foldl MonoLoop.burst l) ∧
      (bursts.foldl MonoLoop.burst l).done.length = l.done.length + bursts.flatten.length := by
  induction bursts with
  | nil => exact fun h ↦ ⟨h, rfl⟩
  | cons b bursts ih =>
    intro l h
    obtain ⟨hat, hlen⟩ := h.burst b
    obtain ⟨hat', hlen'⟩ := ih hat
    refine ⟨hat', hlen'.trans ?_⟩
    rw [hlen, List.flatten_cons, List.length_append]
    omega

/-- The work of all packets of a run of `generic_mono_action`. -/
theorem done_genericMonoAction (pGm : GenericMono H) (ipv45Tuple : Ipv4FiveTuple)
    (bursts : List (List RxPacket)) :
    (genericMonoAction pGm ipv45Tuple bursts).done =
      (List.range bursts.flatten.length).map (workAt pGm.frequencyControl) := by
  have hstart : MonoAt pGm.frequencyControl
      ({ pGm := { pGm with rxn := 0, rxs := 0 }, current := 0, ipv45Tuple, work := [],
         done := [] } : MonoLoop H) :=
    ⟨rfl, inPhase_zero _, rfl⟩
  obtain ⟨hat, hlen⟩ := MonoAt.bursts bursts hstart
  rw [List.length_nil, Nat.zero_add] at hlen
  rw [genericMonoAction, hat.work, hlen]

omit [RteHash H] in
/-- The paths that the classifier sets from packet `n` of a stream on. -/
theorem classifierRun_of_inPhase {f : Int} {simplePath : Fin 10 → Int} (messages : List Message) :
    ∀ {state : State H} {n : Nat}, state.controlFrequency = f → state.simplePath = simplePath →
      InPhase f state.counter (n % (f.natAbs + 1)) →
      ∃ state', classifierRun state messages = .ok (state',
        (List.range' n messages.length).map fun k ↦
          simplePath (if ControlDue f k then 1 else 0)) := by
  induction messages with
  | nil => exact fun _ _ _ ↦ ⟨_, rfl⟩
  | cons m messages ih =>
    intro state n hf hpath hphase
    subst hf
    have hstep := genericDecomposedClassifier_of_inPhase hphase m
    have hnext := inPhase_nextCounter state.controlFrequency
      (n % (state.controlFrequency.natAbs + 1))
    rw [nextPhase_mod] at hnext
    obtain ⟨state', hrun⟩ := @ih { state with counter := nextCounter _ _ } _ rfl hpath hnext
    refine ⟨state', ?_⟩
    rw [classifierRun, hstep]
    show (classifierRun { state with counter := nextCounter _ _ } messages >>=
      fun q ↦ pure (q.1, _ :: q.2)) = _
    rw [hrun, List.length_cons, List.range'_succ, List.map_cons, ← hpath]
    simp only [controlDue_iff]
    rfl

/-- Packet `k` of a stream takes control work in `generic_mono_action` exactly when
`generic_decomposed_classifier` sends packet `k` to the control path, for every control
frequency. -/
theorem generic_mono_decides_as_classifier (pGm : GenericMono H) (ipv45Tuple : Ipv4FiveTuple)
    (bursts : List (List RxPacket)) (state : State H) (messages : List Message)
    (hf : state.controlFrequency = pGm.frequencyControl) (hcounter : state.counter = 0) :
    ∃ state' paths, classifierRun state messages = .ok (state', paths) ∧
      paths.length = messages.length ∧
      (genericMonoAction pGm ipv45Tuple bursts).done.length = bursts.flatten.length ∧
      ∀ k work path, (genericMonoAction pGm ipv45Tuple bursts).done[k]? = some work →
        paths[k]? = some path →
        (work = [.control, .data] ↔ ControlDue pGm.frequencyControl k) ∧
        (work = [.data] ↔ ¬ ControlDue pGm.frequencyControl k) ∧
        path = state.simplePath (if ControlDue pGm.frequencyControl k then 1 else 0) ∧
        (state.simplePath 0 ≠ state.simplePath 1 →
          (work = [.control, .data] ↔ path = state.simplePath 1)) := by
  have hphase : InPhase pGm.frequencyControl state.counter
      (0 % (pGm.frequencyControl.natAbs + 1)) := by
    rw [hcounter, Nat.zero_mod]
    exact inPhase_zero _
  obtain ⟨state', hrun⟩ := classifierRun_of_inPhase messages hf rfl hphase
  have hdone := done_genericMonoAction pGm ipv45Tuple bursts
  refine ⟨state', _, hrun, by simp, by simp [hdone], fun k work path hwork hpath ↦ ?_⟩
  have hwork' : work = workAt pGm.frequencyControl k := by
    rw [hdone, List.getElem?_map, Option.map_eq_some_iff] at hwork
    obtain ⟨j, hj, rfl⟩ := hwork
    rw [(List.getElem?_eq_some_iff.mp hj).2.symm, List.getElem_range]
  have hpath' : path =
      state.simplePath (if ControlDue pGm.frequencyControl k then 1 else 0) := by
    rw [List.getElem?_map, Option.map_eq_some_iff] at hpath
    obtain ⟨j, hj, rfl⟩ := hpath
    rw [(List.getElem?_eq_some_iff.mp hj).2.symm, List.getElem_range', Nat.zero_add, Nat.one_mul]
  rw [hwork', hpath']
  by_cases hdue : ControlDue pGm.frequencyControl k <;> simp [workAt, hdue, eq_comm]

/-- Both implementations at the frequency −2, over two bursts. -/
theorem generic_mono_decides_as_classifier_two :
    let pGm : GenericMono (List Ipv4FiveTuple) := ⟨0, 0, -2, 0, [], 0, [], 0⟩
    let state : State (List Ipv4FiveTuple) :=
      ⟨[], 0, 0, -2, 0, ⟨0, 0, 0, 0, 0⟩, 1, fun _ ↦ 0, fun _ _ ↦ 0, fun _ ↦ 0, fun i ↦ i, 0, 0⟩
    let m : Message := ⟨0, 0, 0, 0, ⟨0, 0⟩, 0⟩
    ∃ state' paths, classifierRun state [m, m] = .ok (state', paths) ∧
      ∀ (k : Nat) work path,
        (genericMonoAction pGm ⟨0, 0, 0, 0, 0⟩
          [[⟨⟨0, 0⟩, 64⟩], [⟨⟨1, 0⟩, 64⟩]]).done[k]? = some work →
        paths[k]? = some path →
        (work = [Work.control, Work.data] ↔ path = 1) := by
  intro pGm state m
  obtain ⟨state', paths, hrun, -, -, h⟩ := generic_mono_decides_as_classifier pGm
    ⟨0, 0, 0, 0, 0⟩ [[⟨⟨0, 0⟩, 64⟩], [⟨⟨1, 0⟩, 64⟩]] state [m, m] rfl rfl
  exact ⟨state', paths, hrun, fun k work path hw hp ↦ (h k work path hw hp).2.2.2 (by decide)⟩

end Nflambda.Runtime
