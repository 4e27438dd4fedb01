import Nflambda.Base.Waiting
import Nflambda.Runtime.Conservation

/-!
# Workers that block each other

Library `Runtime`. Source `src/runtime/worker.h:86–108`. A worker that sends
retries until there is room in the ring, and does not look at its own mailbox
meanwhile. Workers that send to each other over full rings therefore never
continue. Below: what such a set of workers needs, and that every ring size
admits one.
-/

namespace Nflambda.Runtime

open Nflambda.Base Finset

variable {H : Type}

/-- Worker `w` is in the retry loop towards worker `dest`, whose ring is full. -/
def Net.Blocked (n : Net H) (w dest : Core) : Prop :=
  (∃ i h, n.pc w = .enqueue dest i h) ∧ ¬ (n.mailbox dest).length < n.config.ringSize - 1

/-- A non-empty set of workers, each blocked by a full ring whose owner is in the set. -/
def Deadlocked (n : Net H) (S : Finset Core) : Prop := WaitsWithin n.Blocked S

/-- Message items on their way: in mailboxes, and held by workers. -/
def inFlight (n : Net H) : Nat := mailItems (fun _ ↦ true) n + heldItems (fun _ ↦ true) n

/-- The worker to which the message that worker `w` handles has to be sent. -/
def Net.destination (n : Net H) (w : Core) : Option Core :=
  match n.pc w with
  | .handle h =>
    match n.config.entry (n.message w h).actionId with
    | some e => if e.coreId = (w.val : Int) then none else idx? 48 e.coreId
    | none => none
  | _ => none

/-- If the event takes a message to another worker, it is one of higher rank. -/
def SendsUpward (rank : Core → Nat) (n : Net H) : Event → Prop
  | .work w | .alloc w _ => ∀ dest, n.destination w = some dest → rank w < rank dest
  | _ => True

/-! ### One event -/

/-- The worker that an event belongs to. -/
def Event.actor : Event → Option Core
  | .work w | .rxBurst w _ | .alloc w _ => some w
  | .command _ | .quit => none

/-- The end of handling takes the worker to where it resumes. -/
theorem complete_pc (n : Net H) (w : Core) (h : Held) :
    (complete n w h).pc = Function.update n.pc w h.resume := by
  unfold complete
  cases h with
  | packet rest => rfl
  | item i =>
    dsimp only
    split <;> rfl

/-- The end of handling leaves the mailboxes alone. -/
theorem complete_mailbox (n : Net H) (w : Core) (h : Held) :
    (complete n w h).mailbox = n.mailbox := by
  unfold complete
  cases h with
  | packet rest => rfl
  | item i =>
    dsimp only
    split <;> rfl

/-- An event leaves the program points of other workers alone, and takes nothing out of their
mailboxes. -/
theorem taken_other {n n' : Net H} {ev : Event} (ht : Taken n ev n') (v : Core)
    (hv : ev.actor ≠ some v) :
    n'.pc v = n.pc v ∧ n.mailbox v <+: n'.mailbox v := by
  have hne (w : Core) (h : Event.actor ev = some w) : v ≠ w := by
    rintro rfl
    exact hv h
  cases ht with
  | move w | begin w | relay w | rxBurst w | drop w | copy w =>
    exact ⟨Function.update_of_ne (hne w rfl) .., List.prefix_rfl⟩
  | pop w i q hpc hm =>
    have hvw := hne w rfl
    refine ⟨Function.update_of_ne hvw .., ?_⟩
    simp [popItem, hvw]
  | transmit w | actEnd w =>
    have hvw := hne w rfl
    rw [complete_pc, complete_mailbox]
    refine ⟨?_, ?_⟩
    · rw [Function.update_of_ne hvw]
      simp [transmitPacket, ranAction]
    · simp [transmitPacket, ranAction]
  | act w =>
    refine ⟨?_, ?_⟩ <;> simp [ranAction]
  | push w dest i h hpc hr =>
    refine ⟨Function.update_of_ne (hne w rfl) .., ?_⟩
    by_cases hd : v = dest
    · subst hd
      simp [pushItem]
    · simp [pushItem, hd]
  | retry | command | quit => exact ⟨rfl, List.prefix_rfl⟩

/-- A worker enters the retry loop only with a message that has to be sent there. -/
theorem enqueue_taken {n n' : Net H} {ev : Event} (ht : Taken n ev n') {w dest : Core} {i : Item}
    {h : Held} (hpc : n'.pc w = .enqueue dest i h) :
    n.pc w = .enqueue dest i h ∨
      n.destination w = some dest ∧ (ev = .work w ∨ ∃ r, ev = .alloc w r) := by
  by_cases hv : ev.actor = some w
  · have hresume (k : Held) : k.resume ≠ .enqueue dest i h := by cases k <;> simp [Held.resume]
    cases ht with
    | move v pc hm =>
      have hvw : v = w := Option.some.inj hv
      subst hvw
      simp only [Net.setPc, Function.update_self] at hpc
      subst hpc
      simp at hm
    | pop v | begin v | rxBurst v =>
      have hvw : v = w := Option.some.inj hv
      subst hvw
      simp [popItem, beginPacket, receive, Net.setPc] at hpc
    | transmit v | actEnd v =>
      have hvw : v = w := Option.some.inj hv
      subst hvw
      rw [complete_pc, Function.update_self] at hpc
      exact absurd hpc (hresume _)
    | act v =>
      left
      rw [Net.store_pc] at hpc
      exact hpc
    | relay v j e d hp he hc hl hd =>
      have hvw : v = w := Option.some.inj hv
      subst hvw
      simp only [Net.setPc, Function.update_self, Pc.enqueue.injEq] at hpc
      rw [← hpc.1]
      refine .inr ⟨?_, .inl rfl⟩
      simp only [Net.destination, hp, Net.message, he, if_neg hc]
      exact idx?_eq_some_iff.mpr hd
    | push v d j k hp hr =>
      have hvw : v = w := Option.some.inj hv
      subst hvw
      simp only [pushItem, Net.setPc, Function.update_self] at hpc
      exact absurd hpc (hresume _)
    | retry => exact .inl hpc
    | drop v =>
      have hvw : v = w := Option.some.inj hv
      subst hvw
      simp only [dropPacket, Net.setPc, Function.update_self] at hpc
      exact absurd hpc (hresume _)
    | copy v k e d j hp he hc hl hd hj =>
      have hvw : v = w := Option.some.inj hv
      subst hvw
      simp only [copyPacket, Net.setPc, Function.update_self, Pc.enqueue.injEq] at hpc
      rw [← hpc.1]
      refine .inr ⟨?_, .inr ⟨_, rfl⟩⟩
      simp only [Net.destination, hp, he, if_neg hc]
      exact idx?_eq_some_iff.mpr hd
    | command | quit => simp [Event.actor] at hv
  · rw [(taken_other ht w hv).1] at hpc
    exact .inl hpc

/-- A message that has to be sent goes to another worker. -/
theorem destination_ne {n : Net H} {w dest : Core} (h : n.destination w = some dest) :
    w ≠ dest := by
  rintro rfl
  unfold Net.destination at h
  split at h
  · split at h
    · next e he =>
      split at h
      · simp at h
      · next hc => exact hc (idx?_eq_some_iff.mp h)
    · simp at h
  · simp at h

/-- A blocked worker only retries. -/
theorem blocked_stutters {n n' : Net H} {ev : Event} {w dest : Core} (hb : n.Blocked w dest)
    (ht : Taken n ev n') (hv : ev.actor = some w) : n' = n := by
  obtain ⟨⟨i, h, hpc⟩, hfull⟩ := hb
  cases ht with
  | move v pc hm =>
    have hvw : v = w := Option.some.inj hv
    subst hvw
    simp [hpc] at hm
  | push v d j k hp hr =>
    have hvw : v = w := Option.some.inj hv
    subst hvw
    rw [hpc, Pc.enqueue.injEq] at hp
    rw [← hp.1] at hr
    exact absurd hr hfull
  | retry => rfl
  | pop v _ _ hp | begin v _ _ hp | transmit v _ _ _ hp | act v _ _ _ _ _ _ hp
  | actEnd v _ _ _ _ _ hp | relay v _ _ _ hp | rxBurst v _ hp | drop v _ _ hp
  | copy v _ _ _ _ hp =>
    have hvw : v = w := Option.some.inj hv
    subst hvw
    rw [hpc] at hp
    cases hp
  | command | quit => simp [Event.actor] at hv

/-- No event frees workers that block each other. -/
theorem Deadlocked.taken {n n' : Net H} {ev : Event} {S : Finset Core} (hd : Deadlocked n S)
    (ht : Taken n ev n') : Deadlocked n' S := by
  by_cases hv : ∃ w ∈ S, ev.actor = some w
  · obtain ⟨w, hw, hv⟩ := hv
    obtain ⟨dest, -, hb⟩ := hd.next w hw
    rwa [blocked_stutters hb ht hv]
  · have hother : ∀ w ∈ S, ev.actor ≠ some w := fun w hw h ↦ hv ⟨w, hw, h⟩
    apply hd.mono
    rintro w hw dest hdest ⟨⟨i, h, hpc⟩, hfull⟩
    have hr := ringSize_taken ht
    have hm := (taken_other ht dest (hother dest hdest)).2.length_le
    refine ⟨⟨i, h, ?_⟩, by omega⟩
    rw [(taken_other ht w (hother w hw)).1]
    exact hpc

/-- Workers that block each other do so for ever. -/
theorem Deadlocked.run {n n' : Net H} {es : List Event} {S : Finset Core} (hd : Deadlocked n S)
    (h : run step n es = some n') : Deadlocked n' S :=
  run_invariant (P := fun m : Net H ↦ Deadlocked m S)
    (fun _ _ _ hp hs ↦ hp.taken (step_taken hs)) hd h

/-! ### What a deadlock needs -/

/-- Two full rings and two held items are on their way. -/
theorem Deadlocked.inFlight {n : Net H} {S : Finset Core} (hd : Deadlocked n S)
    (hne : ∀ w ∈ S, ¬ n.Blocked w w) : 2 ≤ S.card ∧ 2 * n.config.ringSize ≤ inFlight n := by
  obtain ⟨a, ha, b, hb, hab, ⟨w, -, -, hfa⟩, ⟨i, h, hpa⟩, hfb⟩ := hd.exists_pair hne
  obtain ⟨c, -, ⟨j, k, hpb⟩, -⟩ := hd.next b hb
  refine ⟨Finset.one_lt_card.mpr ⟨a, ha, b, hb, hab⟩, ?_⟩
  have hm := add_le_total (fun v ↦ (n.mailbox v).countP (fun _ ↦ true)) hab
  have hh := add_le_total (fun v ↦ ((n.pc v).items).countP (fun _ ↦ true)) hab
  simp only [List.countP_true, hpa, hpb, items_enqueue, List.length_singleton] at hm hh
  simp only [Runtime.inFlight, mailItems, heldItems, List.countP_true]
  omega

/-- In every run, workers can only block each other if there are at least two of them, if at
least two rings' worth of messages are on their way, and if no ranking of the workers is
respected by all sends of the run. -/
theorem deadlock_needs (c : Config H) (launched : Core → Bool) (size : Nat)
    (mem : Item → Message) (scratch : Core → Message) (es : List Event) (n : Net H)
    (h : run step (launch c launched size mem scratch) es = some n) (S : Finset Core)
    (hd : Deadlocked n S) :
    2 ≤ S.card ∧ 2 * c.ringSize ≤ inFlight n ∧
      ∀ rank, ¬ Along step (SendsUpward rank) (launch c launched size mem scratch) es := by
  have hlaunch (w dest : Core) (i : Item) (k : Held) :
      (launch c launched size mem scratch).pc w ≠ .enqueue dest i k := by
    simp only [launch]
    split <;> simp
  have hring : n.config.ringSize = c.ringSize :=
    run_invariant (P := fun m : Net H ↦ m.config.ringSize = c.ringSize)
      (fun _ _ _ hp hs ↦ (ringSize_taken (step_taken hs)).trans hp) rfl h
  have hself : ∀ w dest i k, n.pc w = .enqueue dest i k → w ≠ dest := by
    refine run_invariant (P := fun m : Net H ↦ ∀ w dest i k, m.pc w = .enqueue dest i k → w ≠ dest)
      (fun m ev m' hp hs w dest i k hpc ↦ ?_)
      (fun w dest i k hpc ↦ absurd hpc (hlaunch w dest i k)) h
    rcases enqueue_taken (step_taken hs) hpc with hpc' | ⟨hdest, -⟩
    · exact hp w dest i k hpc'
    · exact destination_ne hdest
  obtain ⟨hcard, hflight⟩ : 2 ≤ S.card ∧ 2 * n.config.ringSize ≤ inFlight n := by
    refine hd.inFlight fun w _ hw ↦ ?_
    obtain ⟨⟨i, k, hpc⟩, -⟩ := hw
    exact hself w w i k hpc rfl
  refine ⟨hcard, by rwa [hring] at hflight, fun rank hup ↦ ?_⟩
  have hrank : ∀ w dest i k, n.pc w = .enqueue dest i k → rank w < rank dest := by
    refine run_invariant_along
      (P := fun m : Net H ↦ ∀ w dest i k, m.pc w = .enqueue dest i k → rank w < rank dest)
      (fun m ev m' hp hq hs w dest i k hpc ↦ ?_)
      (fun w dest i k hpc ↦ absurd hpc (hlaunch w dest i k)) hup h
    rcases enqueue_taken (step_taken hs) hpc with hpc' | ⟨hdest, rfl | ⟨r, rfl⟩⟩
    · exact hp w dest i k hpc'
    · exact hq dest hdest
    · exact hq dest hdest
  refine not_waitsWithin_of_rank rank (fun w _ d hw ↦ ?_) hd
  obtain ⟨⟨i, k, hpc⟩, -⟩ := hw
  exact hrank w d i k hpc

/-! ### Every ring size admits a deadlock -/

/-- What sending from `w` to `dest` leaves alone. -/
private structure Untouched (w dest : Core) (n n' : Net H) : Prop where
  config : n'.config = n.config
  hist : n'.hist = n.hist
  pc : ∀ v, v ≠ w → n'.pc v = n.pc v
  mailbox : ∀ v, v ≠ dest → n'.mailbox v = n.mailbox v
  buffer : ∀ v, v ≠ w → n'.buffer v = n.buffer v

private theorem Untouched.trans {w dest : Core} {n n' n'' : Net H} (h : Untouched w dest n n')
    (h' : Untouched w dest n' n'') : Untouched w dest n n'' where
  config := h'.config.trans h.config
  hist := h'.hist.trans h.hist
  pc v hv := (h'.pc v hv).trans (h.pc v hv)
  mailbox v hv := (h'.mailbox v hv).trans (h.mailbox v hv)
  buffer v hv := (h'.buffer v hv).trans (h.buffer v hv)

/-- The entry that a packet arriving at a worker selects. -/
def Net.firstEntry (n : Net H) (w : Core) (p : Mbuf) : Option (ActionTableEntry H) :=
  n.config.entry (startPacket n w p).actionId

/-- The next packet of a burst is copied to a free item and waits for room in the ring. -/
private theorem copy_next (n : Net H) (w dest : Core) (p : Mbuf) (rest : List Mbuf) (i : Item)
    (e : ActionTableEntry H) (hpc : n.pc w = .burst (p :: rest))
    (he : n.firstEntry w p = some e) (hd : e.coreId = (dest.val : Int)) (hne : dest ≠ w)
    (hi : i ∈ n.buffer w) :
    ∃ n', Reachable step n n' ∧ Untouched w dest n n' ∧ n'.pc w = .enqueue dest i (.packet rest) ∧
      n'.mailbox dest = n.mailbox dest ∧ n'.buffer w = (n.buffer w).erase i := by
  have hm : (beginPacket n w p rest).message w (.packet rest) = startPacket n w p := by
    simp [beginPacket, Net.message]
  have hpc1 : (beginPacket n w p rest).pc w = .handle (.packet rest) := by
    simp [beginPacket, Net.setPc]
  have hcore : e.coreId ≠ (w.val : Int) := by
    rw [hd]
    intro h
    exact hne (Fin.ext (by omega))
  have h1 := enabled_begin hpc
  have h2 := enabled_copy (i := i) hpc1 (by rw [hm]; exact he) hcore (by rw [hm]; rfl) hd hi
  have hr := ((Reachable.refl n).tail h1).tail h2
  have hu : Untouched w dest n (copyPacket (beginPacket n w p rest) w dest i (.packet rest)) := by
    refine ⟨rfl, rfl, fun v hv ↦ ?_, fun v _ ↦ rfl, fun v hv ↦ ?_⟩
    · simp [copyPacket, beginPacket, Net.setPc, hv]
    · simp [copyPacket, beginPacket, Net.setPc, hv]
  refine ⟨_, hr, hu, ?_, rfl, ?_⟩
  · simp [copyPacket, Net.setPc]
  · simp [copyPacket, beginPacket, Net.setPc]

/-- A worker with a burst of as many packets for one other worker as the ring has slots, one of
which stays empty, ends up blocked. The induction is on the room that is left in the ring. -/
private theorem burst_blocks (k : Nat) (n : Net H) (w dest : Core) (pkts : List Mbuf)
    (hpc : n.pc w = .burst pkts) (hlen : k < pkts.length)
    (he : ∀ p ∈ pkts, ∃ e, n.firstEntry w p = some e ∧ e.coreId = (dest.val : Int))
    (hne : dest ≠ w) (hfree : k < (n.buffer w).length)
    (hroom : (n.mailbox dest).length + k = n.config.ringSize - 1) :
    ∃ n', Reachable step n n' ∧ Untouched w dest n n' ∧ n'.Blocked w dest := by
  induction k generalizing n pkts with
  | zero =>
    cases pkts with
    | nil => simp at hlen
    | cons p rest =>
      obtain ⟨e, he, hd⟩ := he p List.mem_cons_self
      obtain ⟨i, hi⟩ := List.exists_mem_of_length_pos hfree
      obtain ⟨n', hr, hu, hp, hm, -⟩ := copy_next n w dest p rest i e hpc he hd hne hi
      refine ⟨n', hr, hu, ⟨i, _, hp⟩, ?_⟩
      rw [hm, hu.config]
      omega
  | succ k ih =>
    cases pkts with
    | nil => simp at hlen
    | cons p rest =>
      obtain ⟨e, hep, hd⟩ := he p List.mem_cons_self
      obtain ⟨i, hi⟩ := List.exists_mem_of_length_pos (by omega : 0 < (n.buffer w).length)
      obtain ⟨n', hr, hu, hp, hm, hb⟩ := copy_next n w dest p rest i e hpc hep hd hne hi
      have hpush := enabled_push hp (by rw [hm, hu.config]; omega)
      have hu' : Untouched w dest n' (pushItem n' w dest i (.packet rest)) := by
        refine ⟨rfl, rfl, fun v hv ↦ ?_, fun v hv ↦ ?_, fun v _ ↦ rfl⟩
        · simp [pushItem, Net.setPc, hv]
        · simp [pushItem, Net.setPc, hv]
      have herase : ((n.buffer w).erase i).length = (n.buffer w).length - 1 :=
        List.length_erase_of_mem hi
      obtain ⟨n'', hr'', hu'', hblock⟩ := ih (pushItem n' w dest i (.packet rest)) rest
        (by simp [pushItem, Net.setPc, Held.resume])
        (by simpa using hlen)
        (fun q hq ↦ by
          obtain ⟨e', he', hd'⟩ := he q (List.mem_cons_of_mem p hq)
          refine ⟨e', ?_, hd'⟩
          rw [← he']
          simp only [Net.firstEntry, startPacket, (hu.trans hu').config])
        (by
          have hbuf : (pushItem n' w dest i (.packet rest)).buffer w = n'.buffer w := rfl
          rw [hbuf, hb, herase]
          omega)
        (by
          rw [(hu.trans hu').config]
          simp only [pushItem, Net.setPc, Function.update_self, List.length_append, hm,
            List.length_singleton]
          omega)
      exact ⟨n'', (hr.tail hpush).trans hr'', (hu.trans hu').trans hu'', hblock⟩

/-- A launched worker that polls a queue receives a burst. -/
private theorem arrive (n : Net H) (w : Core) (pkts : List Mbuf) (hpc : n.pc w = .top)
    (hq : n.config.dpQuit = false) (hf : (n.config.workerList w).firstAction = true)
    (hm : n.mailbox w = []) (hp : n.CanReceive pkts) :
    ∃ n', Reachable step n n' ∧ n'.config = n.config ∧ n'.mailbox = n.mailbox ∧
      n'.buffer = n.buffer ∧ n'.pc = Function.update n.pc w (.burst pkts) ∧
      n'.received = n.received ++ pkts := by
  have h1 : step n (.work w) = some (n.setPc w .dequeue) := by
    simp [step, workerAction, hpc, hq]
  have h2 : step (n.setPc w .dequeue) (.work w) = some ((n.setPc w .dequeue).setPc w .rx) := by
    have hm1 : (n.setPc w .dequeue).mailbox w = [] := hm
    have hf1 : ((n.setPc w .dequeue).config.workerList w).firstAction = true := hf
    have hp1 : (n.setPc w .dequeue).pc w = .dequeue := by simp [Net.setPc]
    simp [step, workerAction, hp1, hm1, hf1]
  have h3 : step ((n.setPc w .dequeue).setPc w .rx) (.rxBurst w pkts) =
      some (receive ((n.setPc w .dequeue).setPc w .rx) w pkts) :=
    enabled_rxBurst (by simp [Net.setPc]) hp
  refine ⟨_, (((Reachable.refl n).tail h1).tail h2).tail h3, rfl, rfl, rfl, ?_, ?_⟩
  · simp [receive, Net.setPc]
  · simp [receive, Net.received, Net.setPc, Function.comp_def]

/-- Worker 1 sends everything it receives to worker 3, and worker 3 to worker 1; rings of `size`
slots. -/
def crossConfig (size : Nat) : Config Unit :=
  let c := { Config.zeroed () with ringSize := size }
  let e := c.actionTable 0
  let c := c.setEntry 0 { e with action := some .transmitPacket, state := .worker 3, coreId := 3 }
  let c := c.setEntry 1 { e with action := some .transmitPacket, state := .worker 1, coreId := 1 }
  let c := c.setWorker 1 { c.workerList 1 with firstAction := true }
  c.setWorker 3 { c.workerList 3 with firstAction := true, buckets := fun _ ↦ 1 }

/-- The workers with odd indices over `crossConfig`. -/
def crossNet (size : Nat) : Net Unit :=
  launch (crossConfig size) workerRun size (fun _ ↦ ⟨0, 0, 0, 0, ⟨0, 0⟩, 0⟩)
    (fun _ ↦ ⟨0, 0, 0, 0, ⟨0, 0⟩, 0⟩)

/-- Rings of any size up to that of a burst fill up in both directions. -/
theorem deadlock_reachable (size : Nat) (h1 : 1 ≤ size) (h2 : size ≤ 1024) :
    ∃ n, Reachable step (crossNet size) n ∧ Deadlocked n {1, 3} := by
  have hnodup (k : Nat) : ((List.range' k size).map (fun i ↦ Mbuf.mk i 0)).Nodup :=
    (List.nodup_range' (s := k) (n := size)).map fun a b h ↦ by simpa using h
  obtain ⟨n1, hr1, hc1, hm1, hb1, hp1, hv1⟩ := arrive (crossNet size) 1
    ((List.range' 0 size).map (fun i ↦ Mbuf.mk i 0)) rfl rfl rfl rfl
    ⟨by simpa using h2, hnodup 0, by simp [crossNet, launch]⟩
  obtain ⟨n2, hr2, hc2, hm2, hb2, hp2, -⟩ := arrive n1 3
    ((List.range' size size).map (fun i ↦ Mbuf.mk i 0))
    (by rw [hp1]; rfl) (by rw [hc1]; rfl) (by rw [hc1]; rfl) (by rw [hm1]; rfl)
    ⟨by simpa using h2, hnodup size, fun p hp hmem ↦ by
      have hmem' : p ∈ n1.received := hmem
      rw [hv1] at hmem'
      simp only [crossNet, launch, Net.received, List.map_nil, List.nil_append, List.mem_map,
        List.mem_range'_1] at hmem' hp
      obtain ⟨i, hi, rfl⟩ := hmem'
      obtain ⟨j, hj, hji⟩ := hp
      rw [Mbuf.mk.injEq] at hji
      omega⟩
  have hcfg2 : n2.config = crossConfig size := hc2.trans hc1
  obtain ⟨n3, hr3, hu3, hbl3⟩ := burst_blocks (size - 1) n2 1 3
    ((List.range' 0 size).map (fun i ↦ Mbuf.mk i 0))
    (by rw [hp2, Function.update_of_ne (by decide), hp1, Function.update_self])
    (by simp; omega)
    (fun p _ ↦ ⟨(crossConfig size).actionTable 0, by
      simp only [Net.firstEntry, startPacket, hcfg2]
      rfl, rfl⟩)
    (by decide)
    (by rw [hb2, hb1]; simp [crossNet, launch]; omega)
    (by rw [hm2, hm1, hcfg2]; simp [crossNet, launch, crossConfig, Config.setWorker,
      Config.setEntry])
  have hcfg3 : n3.config = crossConfig size := hu3.config.trans hcfg2
  obtain ⟨n4, hr4, hu4, hbl4⟩ := burst_blocks (size - 1) n3 3 1
    ((List.range' size size).map (fun i ↦ Mbuf.mk i 0))
    (by rw [hu3.pc 3 (by decide), hp2, Function.update_self])
    (by simp; omega)
    (fun p _ ↦ ⟨(crossConfig size).actionTable 1, by
      simp only [Net.firstEntry, startPacket, hcfg3]
      rfl, rfl⟩)
    (by decide)
    (by rw [hu3.buffer 3 (by decide), hb2, hb1]; simp [crossNet, launch]; omega)
    (by rw [hu3.mailbox 1 (by decide), hm2, hm1, hcfg3]; simp [crossNet, launch, crossConfig,
      Config.setWorker, Config.setEntry])
  refine ⟨n4, ((hr1.trans hr2).trans hr3).trans hr4, ⟨by simp, fun w hw ↦ ?_⟩⟩
  rw [Finset.mem_insert, Finset.mem_singleton] at hw
  rcases hw with rfl | rfl
  · refine ⟨3, by simp, ?_⟩
    obtain ⟨⟨i, h, hpc⟩, hfull⟩ := hbl3
    refine ⟨⟨i, h, (hu4.pc 1 (by decide)).trans hpc⟩, ?_⟩
    rwa [hu4.mailbox 3 (by decide), hu4.config]
  · exact ⟨1, by simp, hbl4⟩

/-- With the rings of `config_init`, two workers that receive 1024 packets for each other at once
hang. -/
theorem deadlock_of_two_bursts :
    ¬ ∀ n, Reachable step (crossNet 1024) n → ∀ S, ¬ Deadlocked n S := by
  intro h
  obtain ⟨n, hr, hd⟩ := deadlock_reachable 1024 (by decide) (by decide)
  exact h n hr {1, 3} hd

/-- The deadlock of the two bursts has what every deadlock needs. -/
theorem deadlock_needs_two_bursts : ∃ n : Net Unit, Deadlocked n {1, 3} ∧
    2 ≤ ({1, 3} : Finset Core).card ∧ 2 * 1024 ≤ inFlight n := by
  obtain ⟨n, ⟨es, hes⟩, hd⟩ := deadlock_reachable 1024 (by decide) (by decide)
  have h := deadlock_needs (crossConfig 1024) workerRun 1024 _ _ es n hes {1, 3} hd
  exact ⟨n, hd, h.1, h.2.1⟩

end Nflambda.Runtime
