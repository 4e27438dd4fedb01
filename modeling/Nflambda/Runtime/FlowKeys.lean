import Nflambda.Runtime.GenericMono
import Mathlib.Data.Set.Function

/-!
# The flow keys of the monolithic generic network function

Library `Runtime`. Source `src/runtime/common/defined.h:39–52` and
`src/runtime/nf/generic_mono.c:99–147`. The fields of a 5-tuple apart from `proto` are the digits
of one number, which `ipv4_5tuple_next` increases by one. The tables of `generic_mono_action` are
accessed at consecutive tuples.
-/

namespace Nflambda.Runtime

open Nflambda.Base

/-- The number whose digits are the fields that `ipv4_5tuple_next` counts through. -/
def Ipv4FiveTuple.number (t : Ipv4FiveTuple) : Nat :=
  t.portSrc.toNat + 2 ^ 16 * t.portDst.toNat + 2 ^ 32 * t.ipSrc.toNat + 2 ^ 64 * t.ipDst.toNat

theorem Ipv4FiveTuple.number_lt (t : Ipv4FiveTuple) : t.number < 2 ^ 96 := by
  have h1 := t.portSrc.isLt
  have h2 := t.portDst.isLt
  have h3 := t.ipSrc.isLt
  have h4 := t.ipDst.isLt
  unfold Ipv4FiveTuple.number
  omega

/-- A digit that is increased is zero exactly when it held the largest value. -/
theorem toNat_add_one {w : Nat} (x : BitVec w) :
    (x + 1 = 0 ∧ (x + 1).toNat = 0 ∧ x.toNat + 1 = 2 ^ w) ∨
      (x + 1 ≠ 0 ∧ (x + 1).toNat = x.toNat + 1) := by
  have hlt := x.isLt
  have hsum : (x + 1).toNat = (x.toNat + 1) % 2 ^ w := by simp [BitVec.toNat_add]
  have hiff : x + 1 = 0 ↔ (x + 1).toNat = 0 := by simp [← BitVec.toNat_inj]
  by_cases hmax : x.toNat + 1 = 2 ^ w
  · have hzero : (x + 1).toNat = 0 := by rw [hsum, hmax, Nat.mod_self]
    exact .inl ⟨hiff.mpr hzero, hzero, hmax⟩
  · have hnext : (x + 1).toNat = x.toNat + 1 := by rw [hsum, Nat.mod_eq_of_lt (by omega)]
    exact .inr ⟨fun h ↦ by have hzero := hiff.mp h; omega, hnext⟩

theorem proto_ipv45TupleNext (t : Ipv4FiveTuple) : (ipv45TupleNext t).proto = t.proto := by
  unfold ipv45TupleNext
  dsimp only
  split_ifs <;> rfl

/-- One step adds one, whatever the depth of the carry. -/
theorem number_ipv45TupleNext (t : Ipv4FiveTuple) :
    (ipv45TupleNext t).number = (t.number + 1) % 2 ^ 96 := by
  have hlt := t.number_lt
  unfold ipv45TupleNext Ipv4FiveTuple.number at *
  dsimp only
  rcases toNat_add_one t.portSrc with ⟨h1, hn1, hmax1⟩ | ⟨h1, hn1⟩
  · rw [if_pos h1]
    rcases toNat_add_one t.portDst with ⟨h2, hn2, hmax2⟩ | ⟨h2, hn2⟩
    · rw [if_pos h2]
      rcases toNat_add_one t.ipSrc with ⟨h3, hn3, hmax3⟩ | ⟨h3, hn3⟩
      · rw [if_pos h3]
        rcases toNat_add_one t.ipDst with ⟨-, hn4, hmax4⟩ | ⟨-, hn4⟩ <;>
          simp only [hn1, hn2, hn3, hn4] <;> omega
      · rw [if_neg h3]
        simp only [hn1, hn2, hn3]
        omega
    · rw [if_neg h2]
      simp only [hn1, hn2]
      omega
  · rw [if_neg h1]
    simp only [hn1]
    omega

theorem proto_iterate (t : Ipv4FiveTuple) (n : Nat) : (ipv45TupleNext^[n] t).proto = t.proto := by
  induction n with
  | zero => rfl
  | succ n ih => rw [Function.iterate_succ_apply', proto_ipv45TupleNext, ih]

/-- `n` steps add `n`. -/
theorem number_iterate (t : Ipv4FiveTuple) (n : Nat) :
    (ipv45TupleNext^[n] t).number = (t.number + n) % 2 ^ 96 := by
  induction n with
  | zero => exact (Nat.mod_eq_of_lt t.number_lt).symm
  | succ n ih =>
    rw [Function.iterate_succ_apply', number_ipv45TupleNext, ih, Nat.mod_add_mod, Nat.add_assoc]

/-- Among `2 ^ 96` consecutive tuples no one occurs twice. -/
theorem injOn_iterate (t : Ipv4FiveTuple) (m : Nat) :
    (Set.Ico m (m + 2 ^ 96)).InjOn fun n ↦ ipv45TupleNext^[n] t := by
  rintro i ⟨hi, hi'⟩ j ⟨hj, hj'⟩ heq
  have hnumber := congrArg Ipv4FiveTuple.number heq
  rw [number_iterate, number_iterate] at hnumber
  omega

/-! ### The keys that a run draws -/

variable {H : Type} [RteHash H]

/-- The accesses to the tables that a packet causes, each with its key: the cursor as it is after
the work, `generic_mono.c:99–110` and `138–147`. -/
def MonoLoop.drawn (l : MonoLoop H) (m : RxPacket) : List (Work × Ipv4FiveTuple) :=
  if (l.receive m).control then
    [(.control, (l.receive m).controlWork.ipv45Tuple),
      (.data, (l.receive m).controlWork.dataWork.ipv45Tuple)]
  else [(.data, ((l.receive m).skipControl m).dataWork.ipv45Tuple)]

/-- The accesses that the packets of a burst cause. -/
def MonoLoop.drawnOfPackets (l : MonoLoop H) : List RxPacket → List (Work × Ipv4FiveTuple)
  | [] => []
  | m :: ms => l.drawn m ++ (l.packet m).drawnOfPackets ms

/-- The accesses that the packets of all bursts cause. -/
def MonoLoop.drawnOfBursts (l : MonoLoop H) : List (List RxPacket) → List (Work × Ipv4FiveTuple)
  | [] => []
  | b :: bs =>
    { l with pGm := { l.pGm with rxn := l.pGm.rxn + b.length } }.drawnOfPackets b ++
      (l.burst b).drawnOfBursts bs

/-- The accesses of a run of `generic_mono_action`. -/
def drawnKeys (pGm : GenericMono H) (ipv45Tuple : Ipv4FiveTuple)
    (bursts : List (List RxPacket)) : List (Work × Ipv4FiveTuple) :=
  ({ pGm := { pGm with rxn := 0, rxs := 0 }, current := 0, ipv45Tuple, work := [],
     done := [] } : MonoLoop H).drawnOfBursts bursts

omit [RteHash H] in
/-- The keys of one kind of work among some accesses. -/
def keysFor (w : Work) (accesses : List (Work × Ipv4FiveTuple)) : List Ipv4FiveTuple :=
  (accesses.filter fun a ↦ a.1 = w).map Prod.snd

/-- A table and its buffer pointer after accesses to some keys. -/
def accessAll (table : H × Int) (keys : List Ipv4FiveTuple) : H × Int :=
  keys.foldl (fun table key ↦ accessState table.1 table.2 key) table

/-- A stretch of the loop makes these accesses: the cursor counts them, each key is the next one,
and the tables see the keys of their kind in this order and no others. -/
structure Draws (l l' : MonoLoop H) (accesses : List (Work × Ipv4FiveTuple)) : Prop where
  cursor : l'.ipv45Tuple = ipv45TupleNext^[accesses.length] l.ipv45Tuple
  keys : ∀ i a, accesses[i]? = some a → a.2 = ipv45TupleNext^[i + 1] l.ipv45Tuple
  work : l'.done.flatten = l.done.flatten ++ accesses.map Prod.fst
  control : (l'.pGm.controlState, l'.pGm.bufferPointerC) =
    accessAll (l.pGm.controlState, l.pGm.bufferPointerC) (keysFor .control accesses)
  data : (l'.pGm.dataState, l'.pGm.bufferPointerD) =
    accessAll (l.pGm.dataState, l.pGm.bufferPointerD) (keysFor .data accesses)

theorem Draws.nil (l : MonoLoop H) : Draws l l [] :=
  ⟨rfl, fun i a h ↦ by simp at h, by simp, rfl, rfl⟩

omit [RteHash H] in
theorem keysFor_append (w : Work) (a b : List (Work × Ipv4FiveTuple)) :
    keysFor w (a ++ b) = keysFor w a ++ keysFor w b := by
  rw [keysFor, List.filter_append, List.map_append, keysFor, keysFor]

/-- Two stretches after one another. -/
theorem Draws.append {l l' l'' : MonoLoop H} {a b : List (Work × Ipv4FiveTuple)}
    (h : Draws l l' a) (h' : Draws l' l'' b) : Draws l l'' (a ++ b) where
  cursor := by
    rw [h'.cursor, h.cursor, ← Function.iterate_add_apply, List.length_append, Nat.add_comm]
  keys i x hx := by
    rcases lt_or_ge i a.length with hi | hi
    · rw [List.getElem?_append_left hi] at hx
      exact h.keys i x hx
    · rw [List.getElem?_append_right hi] at hx
      have hsum : i - a.length + 1 + a.length = i + 1 := by omega
      rw [h'.keys _ x hx, h.cursor, ← Function.iterate_add_apply, hsum]
  work := by rw [h'.work, h.work, List.map_append, List.append_assoc]
  control := by rw [h'.control, h.control, keysFor_append, accessAll, accessAll, accessAll,
    List.foldl_append]
  data := by rw [h'.data, h.data, keysFor_append, accessAll, accessAll, accessAll,
    List.foldl_append]

/-- A packet makes its accesses. -/
theorem draws_packet (l : MonoLoop H) (m : RxPacket) : Draws l (l.packet m) (l.drawn m) := by
  unfold MonoLoop.packet MonoLoop.drawn
  by_cases hcontrol : (l.receive m).control = true
  · rw [if_pos hcontrol, if_pos hcontrol]
    refine ⟨rfl, ?_, by simp [MonoLoop.finish, MonoLoop.dataWork, MonoLoop.controlWork,
      MonoLoop.receive], rfl, rfl⟩
    rintro (_ | _ | i) a h
    · obtain rfl := Option.some.inj h
      rfl
    · obtain rfl := Option.some.inj h
      rfl
    · simp at h
  · rw [if_neg hcontrol, if_neg hcontrol]
    refine ⟨rfl, ?_, by simp [MonoLoop.finish, MonoLoop.dataWork, MonoLoop.skipControl,
      MonoLoop.receive], rfl, rfl⟩
    rintro (_ | i) a h
    · obtain rfl := Option.some.inj h
      rfl
    · simp at h

theorem draws_packets (ms : List RxPacket) :
    ∀ l : MonoLoop H, Draws l (ms.foldl MonoLoop.packet l) (l.drawnOfPackets ms) := by
  induction ms with
  | nil => exact Draws.nil
  | cons m ms ih => exact fun l ↦ (draws_packet l m).append (ih _)

theorem draws_bursts (bursts : List (List RxPacket)) :
    ∀ l : MonoLoop H, Draws l (bursts.foldl MonoLoop.burst l) (l.drawnOfBursts bursts) := by
  induction bursts with
  | nil => exact Draws.nil
  | cons b bursts ih =>
    intro l
    have hburst := draws_packets b { l with pGm := { l.pGm with rxn := l.pGm.rxn + b.length } }
    -- `rxn` is no part of what the accesses are about
    have hburst' : Draws l (l.burst b)
        ({ l with pGm := { l.pGm with rxn := l.pGm.rxn + b.length } }.drawnOfPackets b) :=
      ⟨hburst.cursor, hburst.keys, hburst.work, hburst.control, hburst.data⟩
    exact hburst'.append (ih _)

/-- `ipv4_5tuple_next` counts: `n` steps keep the protocol and add `n` to the number of the other
fields, so that `2 ^ 96` consecutive tuples differ. A run of `generic_mono_action` accesses its
two tables at consecutive tuples, one for each piece of work, and two of them that are less than
`2 ^ 96` accesses apart differ, whichever tables they belong to. -/
theorem flow_keys_enumerate :
    (∀ (t : Ipv4FiveTuple) (n : Nat), (ipv45TupleNext^[n] t).proto = t.proto ∧
      (ipv45TupleNext^[n] t).number = (t.number + n) % 2 ^ 96) ∧
    (∀ (t : Ipv4FiveTuple) (m : Nat),
      (Set.Ico m (m + 2 ^ 96)).InjOn fun n ↦ ipv45TupleNext^[n] t) ∧
    ∀ (H : Type) [RteHash H] (pGm : GenericMono H) (t : Ipv4FiveTuple)
      (bursts : List (List RxPacket)),
      let l := genericMonoAction pGm t bursts
      let accesses := drawnKeys pGm t bursts
      accesses.map Prod.fst = l.done.flatten ∧
      accesses.map Prod.snd = (List.range accesses.length).map (fun i ↦ ipv45TupleNext^[i + 1] t) ∧
      (l.pGm.controlState, l.pGm.bufferPointerC) =
        accessAll (pGm.controlState, pGm.bufferPointerC) (keysFor .control accesses) ∧
      (l.pGm.dataState, l.pGm.bufferPointerD) =
        accessAll (pGm.dataState, pGm.bufferPointerD) (keysFor .data accesses) ∧
      ∀ i j a b, accesses[i]? = some a → accesses[j]? = some b → i < j → j < i + 2 ^ 96 →
        a.2 ≠ b.2 := by
  refine ⟨fun t n ↦ ⟨proto_iterate t n, number_iterate t n⟩, injOn_iterate, ?_⟩
  intro H _ pGm t bursts l accesses
  have hdraws : Draws _ l accesses := draws_bursts bursts
    { pGm := { pGm with rxn := 0, rxs := 0 }, current := 0, ipv45Tuple := t, work := [],
      done := [] }
  refine ⟨hdraws.work.symm, ?_, hdraws.control, hdraws.data, ?_⟩
  · refine List.ext_getElem? fun i ↦ ?_
    rw [List.getElem?_map, List.getElem?_map]
    rcases lt_or_ge i accesses.length with hi | hi
    · have hget := hdraws.keys i _ (List.getElem?_eq_getElem hi)
      rw [List.getElem?_eq_getElem hi, List.getElem?_range hi, Option.map_some, Option.map_some,
        hget]
    · simp [hi]
  · intro i j a b ha hb hij hj heq
    rw [hdraws.keys i a ha, hdraws.keys j b hb] at heq
    have hi : i + 1 ∈ Set.Ico (i + 1) (i + 1 + 2 ^ 96) := ⟨by omega, by omega⟩
    have hj' : j + 1 ∈ Set.Ico (i + 1) (i + 1 + 2 ^ 96) := ⟨by omega, by omega⟩
    have hsame := injOn_iterate t (i + 1) hi hj' heq
    omega

end Nflambda.Runtime
