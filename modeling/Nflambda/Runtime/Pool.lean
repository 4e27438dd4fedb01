import Nflambda.Runtime.Conservation

/-!
# The message pools

Library `Runtime`. Source `src/runtime/worker.h:86–108,151–162`. An item goes
back to a pool only if the worker that finishes the packet is its producer
(`worker.h:157–159`). The pools therefore stay balanced exactly as long as no
worker finishes an item of another one.
-/

namespace Nflambda.Runtime

open Nflambda.Base Finset

variable {H : Type}

/-- Whether `producer_id` of an item is worker `w`. -/
def Net.produces (n : Net H) (w : Core) (i : Item) : Bool :=
  (n.mem i).producerId == (w.val : Int)

/-- The free items of every worker and the items with its `producer_id` that are in mailboxes or
held by workers make up its pool; the pools are full once no item is on its way. -/
structure PoolsBalanced (size : Nat) (n : Net H) : Prop where
  balance : ∀ w,
    (n.buffer w).length + mailItems (n.produces w) n + heldItems (n.produces w) n = size
  full : (∀ i, ¬ Live n i) → ∀ w, (n.buffer w).length = size

/-- The entry that a message of worker `w` selects is on this worker and ends the handling: it is
`transmit_packet`, or an action that sets `m->path` to `-1`. -/
def Net.Finishes (n : Net H) (w : Core) (h : Held) : Prop :=
  ∃ e, n.config.entry (n.message w h).actionId = some e ∧ e.coreId = (w.val : Int) ∧
    ((e.action = some .transmitPacket ∧ ∃ v, e.state = .worker v) ∨
      ∃ f s st, e.action = some (.action f) ∧ e.state = .state s ∧
        f (n.config.states s) (n.message w h) = .ok (st, -1))

/-- If the event finishes a dequeued item, then on the worker that produced it. -/
def FinishedByProducer (n : Net H) : Event → Prop
  | .work w =>
    ∀ i, n.pc w = .handle (.item i) → n.Finishes w (.item i) → n.produces w i = true
  | _ => True

/-! ### Balance and forgotten items -/

private theorem heldItems_congr (q q' : Item → Bool) (n : Net H)
    (h : ∀ i, Live n i → q i = q' i) : heldItems q n = heldItems q' n := by
  apply sum_congr rfl
  intro w _
  apply List.countP_congr
  intro i hi
  rw [h i (.inl ⟨w, hi⟩)]

private theorem mailItems_congr (q q' : Item → Bool) (n : Net H)
    (h : ∀ i, Live n i → q i = q' i) : mailItems q n = mailItems q' n := by
  apply sum_congr rfl
  intro w _
  apply List.countP_congr
  intro i hi
  rw [h i (.inr ⟨w, hi⟩)]

private theorem heldItems_eq_zero (q : Item → Bool) (n : Net H) (h : ∀ i, ¬ Live n i) :
    heldItems q n = 0 := by
  apply sum_eq_zero
  intro w _
  rw [List.countP_eq_zero]
  intro i hi
  exact absurd (.inl ⟨w, hi⟩) (h i)

private theorem mailItems_eq_zero (q : Item → Bool) (n : Net H) (h : ∀ i, ¬ Live n i) :
    mailItems q n = 0 := by
  apply sum_eq_zero
  intro w _
  rw [List.countP_eq_zero]
  intro i hi
  exact absurd (.inr ⟨w, hi⟩) (h i)

/-- The free items that a worker owns are those of its pool. -/
theorem freeItems_owner {n : Net H} (hn : Produced n) (w : Core) :
    freeItems (·.owner == w) n = (n.buffer w).length := by
  unfold freeItems
  rw [sum_eq_single w]
  · rw [List.countP_eq_length]
    intro i hi
    simp [hn.free w i hi]
  · intro v _ hv
    rw [List.countP_eq_zero]
    intro i hi
    simp [hn.free v i hi, hv]
  · simp

/-- What every event keeps: items know their producer, and each worker's items are somewhere. -/
structure PoolInvariant (size : Nat) (n : Net H) : Prop where
  produced : Produced n
  total : ∀ w, itemTotal (·.owner == w) n = size

/-- Items that are neither free nor in a mailbox nor held are the forgotten ones. -/
theorem PoolInvariant.balance {size : Nat} {n : Net H} (hn : PoolInvariant size n) (w : Core) :
    (n.buffer w).length + mailItems (n.produces w) n + heldItems (n.produces w) n +
      n.hist.forgotten.countP (·.owner == w) = size := by
  have hq : ∀ i, Live n i → n.produces w i = (i.owner == w) := by
    intro i hi
    have hp := hn.produced.live i hi
    unfold Net.produces
    rw [hp, Bool.eq_iff_iff, beq_iff_eq, beq_iff_eq, Fin.ext_iff]
    omega
  have ht := hn.total w
  unfold itemTotal at ht
  rw [freeItems_owner hn.produced] at ht
  rw [mailItems_congr _ _ n hq, heldItems_congr _ _ n hq]
  omega

/-- The pools are balanced exactly when no item has been forgotten. -/
theorem PoolInvariant.balanced_iff {size : Nat} {n : Net H} (hn : PoolInvariant size n) :
    PoolsBalanced size n ↔ n.hist.forgotten = [] := by
  constructor
  · intro h
    rw [List.eq_nil_iff_forall_not_mem]
    intro i hi
    have hb := h.balance i.owner
    have hf := hn.balance i.owner
    have hc : 0 < n.hist.forgotten.countP (·.owner == i.owner) :=
      List.countP_pos_iff.mpr ⟨i, hi, by simp⟩
    omega
  · intro h
    have hb : ∀ w, (n.buffer w).length + mailItems (n.produces w) n +
        heldItems (n.produces w) n = size := by
      intro w
      have hw := hn.balance w
      rw [h, List.countP_nil, Nat.add_zero] at hw
      exact hw
    refine ⟨hb, fun hl w ↦ ?_⟩
    have hw := hb w
    rw [mailItems_eq_zero _ n hl, heldItems_eq_zero _ n hl, Nat.add_zero] at hw
    exact hw

/-! ### One event -/

private theorem forgotten_complete (n : Net H) (w : Core) (h : Held) :
    (complete n w h).hist.forgotten = n.hist.forgotten ∧
        (∀ i, h = .item i → n.produces w i = true) ∨
      ∃ i, h = .item i ∧ n.produces w i = false ∧
        (complete n w h).hist.forgotten = i :: n.hist.forgotten := by
  cases h with
  | packet rest => exact .inl ⟨rfl, by simp⟩
  | item i =>
    by_cases hp : (n.mem i).producerId = (w.val : Int)
    · left
      constructor
      · simp only [complete, if_pos hp]
        rfl
      · rintro j hj
        rw [Held.item.injEq] at hj
        subst hj
        simpa [Net.produces] using hp
    · right
      refine ⟨i, rfl, by simpa [Net.produces] using hp, ?_⟩
      simp only [complete, if_neg hp]

private theorem notFinishes_of_entry {n : Net H} {w : Core} {h : Held} {e : ActionTableEntry H}
    (he : n.config.entry (n.message w h).actionId = some e)
    (hne : ¬ (e.coreId = (w.val : Int) ∧
      ((e.action = some .transmitPacket ∧ ∃ v, e.state = .worker v) ∨
        ∃ f s st, e.action = some (.action f) ∧ e.state = .state s ∧
          f (n.config.states s) (n.message w h) = .ok (st, -1)))) : ¬ n.Finishes w h := by
  rintro ⟨e', he', hf⟩
  rw [he, Option.some.injEq] at he'
  subst he'
  exact hne hf

private theorem finishedByProducer_of_pc {n : Net H} {w : Core}
    (h : ∀ i, n.pc w ≠ .handle (.item i)) : FinishedByProducer n (.work w) :=
  fun i hi _ ↦ absurd hi (h i)

/-- Only an event that finishes an item away from its producer forgets one. -/
theorem forgotten_taken {n n' : Net H} {ev : Event} (ht : Taken n ev n') :
    (n'.hist.forgotten = n.hist.forgotten ∧ FinishedByProducer n ev) ∨
      (n'.hist.forgotten ≠ [] ∧ ¬ FinishedByProducer n ev) := by
  -- the two events that end with `complete` agree on everything `complete` reads
  have hend (w : Core) (h : Held) (k : Net H) (hpc : n.pc w = .handle h)
      (hfin : n.Finishes w h) (hf : k.hist.forgotten = n.hist.forgotten)
      (hp : ∀ i, k.produces w i = n.produces w i) :
      ((complete k w h).hist.forgotten = n.hist.forgotten ∧ FinishedByProducer n (.work w)) ∨
        ((complete k w h).hist.forgotten ≠ [] ∧ ¬ FinishedByProducer n (.work w)) := by
    rcases forgotten_complete k w h with ⟨hc, hi⟩ | ⟨i, rfl, hi, hc⟩
    · refine .inl ⟨hc.trans hf, fun i hpi _ ↦ ?_⟩
      rw [hpc, Pc.handle.injEq] at hpi
      rw [← hp i]
      exact hi i hpi
    · refine .inr ⟨by simp [hc], fun hq ↦ ?_⟩
      have hq' := hq i hpc hfin
      rw [← hp i, hi] at hq'
      exact absurd hq' (by decide)
  have hstore (k : Net H) (w : Core) (h : Held) (m : Message) (hk : k.mem = n.mem)
      (hm : m.producerId = (n.message w h).producerId) (i : Item) :
      (k.store w h m).produces w i = n.produces w i := by
    cases h with
    | packet rest => simp [Net.produces, Net.store, hk]
    | item j =>
      by_cases hij : i = j
      · subst hij
        simp [Net.produces, Net.store, hm, Net.message]
      · simp [Net.produces, Net.store, hk, hij]
  cases ht with
  | move w pc h =>
    refine .inl ⟨rfl, finishedByProducer_of_pc fun i hi ↦ ?_⟩
    simp [hi] at h
  | pop w i q hpc hm => exact .inl ⟨rfl, finishedByProducer_of_pc (by simp [hpc])⟩
  | begin w p rest hpc => exact .inl ⟨rfl, finishedByProducer_of_pc (by simp [hpc])⟩
  | transmit w h e v hpc he hc ha hs =>
    apply hend w h _ hpc ⟨e, he, hc, .inl ⟨ha, v, hs⟩⟩
    · simp only [transmitPacket, Net.store_hist]
      rfl
    · exact hstore _ w h _ rfl (by simp)
  | act w h e f s st path hpc he hc ha hs hf hp =>
    refine .inl ⟨?_, fun i hi hfin ↦ ?_⟩
    · rw [Net.store_hist]
      rfl
    · rw [hpc, Pc.handle.injEq] at hi
      subst hi
      apply absurd hfin (notFinishes_of_entry he _)
      rintro ⟨-, ⟨ha', -⟩ | ⟨f', s', st', ha', hs', hf'⟩⟩
      · simp [ha] at ha'
      · rw [ha, Option.some.injEq, Handler.action.injEq] at ha'
        rw [hs, StateRef.state.injEq] at hs'
        subst ha' hs'
        rw [hf, Except.ok.injEq, Prod.mk.injEq] at hf'
        exact hp hf'.2
  | actEnd w h e f s st hpc he hc ha hs hf =>
    apply hend w h _ hpc ⟨e, he, hc, .inr ⟨f, s, st, ha, hs, hf⟩⟩
    · rw [Net.store_hist]
      rfl
    · exact hstore _ w h _ rfl rfl
  | relay w i e dest hpc he hc hl hd =>
    refine .inl ⟨rfl, fun j hj hfin ↦ ?_⟩
    rw [hpc, Pc.handle.injEq, Held.item.injEq] at hj
    subst hj
    exact absurd hfin (notFinishes_of_entry he fun hx ↦ hc hx.1)
  | push w dest i h hpc hr => exact .inl ⟨rfl, finishedByProducer_of_pc (by simp [hpc])⟩
  | retry w dest i h hpc hr => exact .inl ⟨rfl, finishedByProducer_of_pc (by simp [hpc])⟩
  | rxBurst | drop | copy | command | quit => exact .inl ⟨rfl, trivial⟩

/-- An event that is not enabled finishes nothing. -/
theorem finishedByProducer_of_none {n : Net H} {ev : Event} (h : step n ev = none) :
    FinishedByProducer n ev := by
  cases ev with
  | rxBurst | alloc | command | quit => trivial
  | work w =>
    intro i hpc hfin
    obtain ⟨e, he, hc, hcase⟩ := hfin
    have hs : selectAction n w (.item i) e = none := by
      have hw := h
      simp only [step, workerAction, hpc, eventHandler, he, if_pos hc] at hw
      exact hw
    rcases hcase with ⟨ha, v, hv⟩ | ⟨f, s, st, ha, hv, hf⟩
    · simp [selectAction, ha, hv] at hs
    · simp only [selectAction, ha, hv] at hs
      have hcfg : (n.called ⟨(n.message w (.item i)).m, (n.message w (.item i)).actionId, w,
          e.state⟩).config.states s = n.config.states s := rfl
      simp [hf] at hs

/-! ### Whole runs -/

/-- Every event keeps the invariant of the pools. -/
theorem PoolInvariant.next {size : Nat} {n n' : Net H} {ev : Event}
    (hn : PoolInvariant size n) (h : step n ev = some n') : PoolInvariant size n' := by
  have ht := step_taken h
  refine ⟨hn.produced.taken ht, fun w ↦ ?_⟩
  rw [itemTotal_taken _ hn.produced ht]
  exact hn.total w

/-- The invariant of the pools holds when workers are launched. -/
theorem poolInvariant_launch (c : Config H) (launched : Core → Bool) (size : Nat)
    (mem : Item → Message) (scratch : Core → Message) :
    PoolInvariant size (launch c launched size mem scratch) := by
  have hp := (packetInvariant_launch c launched size mem scratch).produced
  refine ⟨hp, fun w ↦ ?_⟩
  have hitems (v : Core) : ((launch c launched size mem scratch).pc v).items = [] := by
    simp only [launch]
    split <;> rfl
  have hf : (launch c launched size mem scratch).hist.forgotten = [] := rfl
  have hm (v : Core) : (launch c launched size mem scratch).mailbox v = [] := rfl
  unfold itemTotal
  rw [freeItems_owner hp, hf]
  simp only [heldItems, mailItems, hitems, hm, List.countP_nil, sum_const_zero]
  simp [launch]

/-- The pools are balanced in all states of a run exactly when every dequeued item is finished by
the worker that produced it. -/
theorem pools_balanced_iff (c : Config H) (launched : Core → Bool) (size : Nat)
    (mem : Item → Message) (scratch : Core → Message) (es : List Event) :
    Visits step (PoolsBalanced size) (launch c launched size mem scratch) es ↔
      Along step FinishedByProducer (launch c launched size mem scratch) es := by
  have h0 := poolInvariant_launch c launched size mem scratch
  apply visits_iff_along (fun _ _ _ (hn : PoolInvariant size _) hs ↦ hn.next hs) _ _ h0
  · rw [h0.balanced_iff]
    rfl
  · intro n ev n' hn hb hs
    rw [(hn.next hs).balanced_iff]
    rw [hn.balanced_iff] at hb
    rcases forgotten_taken (step_taken hs) with ⟨hf, hq⟩ | ⟨hf, hq⟩
    · exact ⟨fun _ ↦ hq, fun _ ↦ hf.trans hb⟩
    · exact ⟨fun h ↦ absurd h hf, fun h ↦ absurd h hq⟩
  · exact fun n ev _ hs ↦ finishedByProducer_of_none hs

/-- Worker 3 transmits the only packet, and the item of worker 1 that carried it is gone: it is
neither free nor in a mailbox nor held by a worker. -/
theorem pools_not_balanced :
    ∃ n, run step relayNet relayRun = some n ∧ n.hist.transmitted = [⟨7, 0⟩] ∧
      ¬ PoolsBalanced 1 n := by
  have hrun : (run step relayNet relayRun).isSome := by decide
  obtain ⟨n, hn⟩ := Option.isSome_iff_exists.mp hrun
  have hsent : (run step relayNet relayRun).map (fun n ↦ n.hist.transmitted) =
      some [⟨7, 0⟩] := by decide
  have hfree : (run step relayNet relayRun).map (fun n ↦ (n.buffer 1).length) = some 0 := by
    decide
  have hitems : (run step relayNet relayRun).map (fun n ↦
      mailItems (n.produces 1) n + heldItems (n.produces 1) n) = some 0 := by decide
  rw [hn, Option.map_some, Option.some.injEq] at hsent hfree hitems
  refine ⟨n, hn, hsent, fun hb ↦ ?_⟩
  have h1 := hb.balance 1
  omega

end Nflambda.Runtime
