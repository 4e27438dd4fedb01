import Nflambda.Base.Overtaking
import Nflambda.Runtime.Deadlock
import Nflambda.Runtime.Routes

/-!
# Packets are not reordered

Library `Runtime`. Source `src/runtime/worker.h:80–185`. A burst is worked off in order, a ring is
first in first out, and a worker that sends waits until its message is in the ring. So of the
packets that one worker receives, those that take the same actions are served by each of them, and
transmitted, in the order of their reception, whatever the interleaving of the workers and of the
commands that leave the action table alone.
-/

namespace Nflambda.Runtime

open Nflambda.Base

variable {H : Type}

/-! ### The network as stations -/

/-- The worker that serves entry `a` of the action table. -/
def Config.servesAt (c : Config H) (a : Int) : Option Core :=
  (c.entry a).bind (fun e ↦ idx? 48 e.coreId)

/-- The packets a worker has received, in order. -/
def Net.receivedBy (n : Net H) (w : Core) : List Mbuf :=
  (n.hist.received.filter (fun x ↦ x.1 = w)).map Prod.snd

/-- For each call, its packet with the actions that had been called for it by then. -/
def servedTrails (calls : List Call) : List (Mbuf × List Int) :=
  calls.zipIdx.map fun x ↦
    (x.1.m, ((calls.take (x.2 + 1)).filter (fun y ↦ y.m = x.1.m)).map Call.actionId)

/-- The packets for which the actions `l` have been called, in the order of the last of these
calls. -/
def Net.servedUnder (n : Net H) (l : List Int) : List Mbuf :=
  ((servedTrails n.hist.calls).filter (fun e ↦ e.2 = l)).map Prod.fst

/-- A message as a job: its packet, the actions called for it, and the action to call next. -/
def Net.jobOf (n : Net H) (m : Message) : Job Mbuf Int := ⟨m.m, n.actionsOf m.m, m.actionId⟩

/-- The message a worker has in hand at a program point, as a job. -/
def Net.jobAt (n : Net H) (w : Core) : Pc → Option (Job Mbuf Int)
  | .handle h => some (n.jobOf (n.message w h))
  | .enqueue _ i _ => some (n.jobOf (n.mem i))
  | _ => none

/-- The workers as stations, whose queues are the mailboxes. -/
def Net.stations (n : Net H) : Stations Core Mbuf Int where
  arrived := n.receivedBy
  waiting := fun w ↦ (n.pc w).pending
  hand := fun w ↦ n.jobAt w (n.pc w)
  queue := fun w ↦ (n.mailbox w).map (fun i ↦ n.jobOf (n.mem i))
  served := servedTrails n.hist.calls

/-- One more call. -/
theorem servedTrails_snoc (calls : List Call) (x : Call) :
    servedTrails (calls ++ [x]) = servedTrails calls ++
      [(x.m, (calls.filter (fun y ↦ y.m = x.m)).map Call.actionId ++ [x.actionId])] := by
  have htake : ∀ y ∈ calls.zipIdx, (calls ++ [x]).take (y.2 + 1) = calls.take (y.2 + 1) := by
    intro y hy
    have hlt := (List.mem_zipIdx' hy).1
    exact List.take_append_of_le_length (by omega)
  unfold servedTrails
  rw [List.zipIdx_append, List.map_append]
  congr 1
  · apply List.map_congr_left
    intro y hy
    rw [htake y hy]
  · have hall : (calls ++ [x]).take (calls.length + 1) = calls ++ [x] :=
      List.take_of_length_le (by simp)
    simp [hall]

/-- The actions called for a packet are on record. -/
theorem mem_servedTrails {calls : List Call} {p : Mbuf}
    (h : (calls.filter (fun y ↦ y.m = p)).map Call.actionId ≠ []) :
    (p, (calls.filter (fun y ↦ y.m = p)).map Call.actionId) ∈ servedTrails calls := by
  induction calls using List.reverseRecOn with
  | nil => exact absurd rfl h
  | append_singleton calls x ih =>
    rw [servedTrails_snoc, List.mem_append]
    by_cases hp : x.m = p
    · subst hp
      right
      simp [List.filter_append]
    · left
      simp only [List.filter_append, List.filter_singleton, hp, decide_false, cond_false,
        List.append_nil] at h ⊢
      exact ih h

/-! ### One event -/

/-- An item is in one place: that in a worker's hands is in nobody else's, and in no mailbox. -/
theorem held_alone {n : Net H} {i : Item} (hone : itemTotal (· == i) n ≤ 1) {w : Core}
    (hi : i ∈ (n.pc w).items) :
    (∀ v, v ≠ w → i ∉ (n.pc v).items) ∧ (∀ v, i ∉ n.mailbox v) ∧ ∀ v, i ∉ n.buffer v := by
  have hw : 1 ≤ (n.pc w).items.countP (· == i) := List.countP_pos_iff.mpr ⟨i, hi, by simp⟩
  have hle := le_total (fun v ↦ (n.pc v).items.countP (· == i)) w
  unfold itemTotal heldItems mailItems freeItems at hone
  refine ⟨fun v hv hm ↦ ?_, fun v hm ↦ ?_, fun v hm ↦ ?_⟩
  · have hpos : 1 ≤ (n.pc v).items.countP (· == i) := List.countP_pos_iff.mpr ⟨i, hm, by simp⟩
    have hpair := add_le_total (fun v ↦ (n.pc v).items.countP (· == i)) hv
    omega
  · have hpos : 1 ≤ (n.mailbox v).countP (· == i) := List.countP_pos_iff.mpr ⟨i, hm, by simp⟩
    have hbox := le_total (fun v ↦ (n.mailbox v).countP (· == i)) v
    omega
  · have hpos : 1 ≤ (n.buffer v).countP (· == i) := List.countP_pos_iff.mpr ⟨i, hm, by simp⟩
    have hbuf := le_total (fun v ↦ (n.buffer v).countP (· == i)) v
    omega

/-- What the order rests on: items are in one place and know their producer, the action table is
that of `c`, and a worker that sends has looked up the destination there. -/
structure Sending (c : Config H) (n : Net H) : Prop where
  produced : Produced n
  once : ∀ i, itemTotal (· == i) n ≤ 1
  table : ∀ i, entryFields n.config i = entryFields c i
  dest : ∀ w dest i h, n.pc w = .enqueue dest i h →
    c.servesAt (n.mem i).actionId = some dest ∧ dest ≠ w

/-- The entry that the running network reads is that of `c`. -/
theorem Sending.servesAt {c : Config H} {n : Net H} (hn : Sending c n) {a : Int}
    {e : ActionTableEntry H} (he : n.config.entry a = some e) :
    c.servesAt a = idx? 48 e.coreId := by
  obtain ⟨e', he', -, -, hc⟩ := exists_entry_of_fields (fun i ↦ (hn.table i).symm) he
  rw [Config.servesAt, he', Option.bind_some, hc]

/-- A job in a worker's hands depends on the message and on the calls for its packet only. -/
private theorem jobAt_congr {n n' : Net H} {v : Core} {pc : Pc}
    (hmem : ∀ i ∈ pc.items, n'.mem i = n.mem i) (hs : n'.scratch v = n.scratch v)
    (hcalls : ∀ j, n.jobAt v pc = some j → n'.actionsOf j.id = n.actionsOf j.id) :
    n'.jobAt v pc = n.jobAt v pc := by
  have hjob (m : Message) (h : n.jobAt v pc = some (n.jobOf m)) : n'.jobOf m = n.jobOf m := by
    have ha : n'.actionsOf m.m = n.actionsOf m.m := hcalls (n.jobOf m) h
    rw [Net.jobOf, ha, Net.jobOf]
  cases pc with
  | handle d =>
    have hm : n'.message v d = n.message v d := by
      cases d with
      | item i => exact hmem i (by simp)
      | packet r => exact hs
    simp only [Net.jobAt, hm, hjob _ rfl]
  | enqueue dest i d =>
    have hm := hmem i (by simp)
    simp only [Net.jobAt, hm, hjob _ rfl]
  | idle | top | dequeue | rx | burst => rfl

/-- The stations after a worker has moved on, where the messages of the others and the mailboxes
stay as they are. -/
private theorem stations_update {n n' : Net H} {w : Core} {pc : Pc}
    (hpc : n'.pc = Function.update n.pc w pc) (hr : n'.hist.received = n.hist.received)
    (hmail : n'.mailbox = n.mailbox) (hs : ∀ v, v ≠ w → n'.scratch v = n.scratch v)
    (hheld : ∀ v, v ≠ w → ∀ i ∈ (n.pc v).items, n'.mem i = n.mem i)
    (hbox : ∀ v, ∀ i ∈ n.mailbox v, n'.mem i = n.mem i)
    (hhand : ∀ v j, v ≠ w → n.stations.hand v = some j → n'.actionsOf j.id = n.actionsOf j.id)
    (hqueue : ∀ v, ∀ j ∈ n.stations.queue v, n'.actionsOf j.id = n.actionsOf j.id) :
    n'.stations = { (n.stations.setWaiting w pc.pending).setHand w (n'.jobAt w pc) with
      served := servedTrails n'.hist.calls } := by
  apply Stations.ext
  · funext v
    simp only [Net.stations, Net.receivedBy, hr, Stations.setHand, Stations.setWaiting]
  · funext v
    by_cases hv : v = w
    · subst hv
      simp [Net.stations, Stations.setHand, Stations.setWaiting, hpc]
    · simp [Net.stations, Stations.setHand, Stations.setWaiting, hpc, hv]
  · funext v
    by_cases hv : v = w
    · subst hv
      simp [Net.stations, Stations.setHand, hpc]
    · simp only [Net.stations, Stations.setHand, Stations.setWaiting, hpc,
        Function.update_of_ne hv]
      exact jobAt_congr (hheld v hv) (hs v hv) fun j hj ↦ hhand v j hv hj
  · funext v
    simp only [Net.stations, Stations.setHand, Stations.setWaiting, hmail]
    apply List.map_congr_left
    intro i hi
    have ha : n'.actionsOf (n.mem i).m = n.actionsOf (n.mem i).m :=
      hqueue v (n.jobOf (n.mem i)) (List.mem_map_of_mem hi)
    rw [hbox v i hi, Net.jobOf, ha, Net.jobOf]
  · rfl

/-- Networks with the same calls have called the same actions for each packet. -/
private theorem actionsOf_congr {n n' : Net H} (h : n'.hist.calls = n.hist.calls) (p : Mbuf) :
    n'.actionsOf p = n.actionsOf p := by
  rw [Net.actionsOf, h, Net.actionsOf]

/-- A worker that moves on without a call, and changes no message but its own. -/
private theorem stations_moved (n n' : Net H) (w : Core) (pc : Pc)
    (hpc : n'.pc = Function.update n.pc w pc) (hr : n'.hist.received = n.hist.received)
    (hc : n'.hist.calls = n.hist.calls) (hmail : n'.mailbox = n.mailbox)
    (hs : ∀ v, v ≠ w → n'.scratch v = n.scratch v)
    (hheld : ∀ v, v ≠ w → ∀ i ∈ (n.pc v).items, n'.mem i = n.mem i)
    (hbox : ∀ v, ∀ i ∈ n.mailbox v, n'.mem i = n.mem i) :
    n'.stations = (n.stations.setWaiting w pc.pending).setHand w (n'.jobAt w pc) := by
  rw [stations_update hpc hr hmail hs hheld hbox (fun _ _ _ _ ↦ actionsOf_congr hc _)
    (fun _ _ _ ↦ actionsOf_congr hc _), hc]
  rfl

/-- A worker that moves on with the same packets is the same station. -/
private theorem stations_still {n n' : Net H} {w : Core} {pc : Pc}
    (h : n'.stations = (n.stations.setWaiting w pc.pending).setHand w (n'.jobAt w pc))
    (hp : pc.pending = (n.pc w).pending) (hj : n'.jobAt w pc = n.jobAt w (n.pc w)) :
    n'.stations = n.stations := by
  rw [h, hp, hj]
  have hw : Function.update n.stations.waiting w (n.pc w).pending = n.stations.waiting :=
    Function.update_eq_self w _
  have hh : Function.update n.stations.hand w (n.jobAt w (n.pc w)) = n.stations.hand :=
    Function.update_eq_self w _
  rw [Stations.setHand, Stations.setWaiting, hw, hh]

/-- The event after which an action has run: the worker has called it for its packet. -/
private theorem stations_called {n : Net H} (n' : Net H) {w : Core} {d : Held} (pc : Pc)
    (x : Call) (hone : ∀ i, itemTotal (· == i) n ≤ 1) (hsound : n.stations.Sound)
    (hd : n.pc w = .handle d) (hx : x.m = (n.message w d).m)
    (hxa : x.actionId = (n.message w d).actionId)
    (hpc : n'.pc = Function.update n.pc w pc) (hr : n'.hist.received = n.hist.received)
    (hc : n'.hist.calls = n.hist.calls ++ [x]) (hmail : n'.mailbox = n.mailbox)
    (hs : ∀ v, v ≠ w → n'.scratch v = n.scratch v)
    (hmem : ∀ i, d ≠ .item i → n'.mem i = n.mem i) (hp : pc.pending = (n.pc w).pending) :
    n'.stations = (n.stations.log (n.jobOf (n.message w d))).setHand w (n'.jobAt w pc) := by
  have hhand : n.stations.hand w = some (n.jobOf (n.message w d)) := by
    simp [Net.stations, hd, Net.jobAt]
  have hother {p : Mbuf} (hne : p ≠ (n.message w d).m) : n'.actionsOf p = n.actionsOf p := by
    rw [actionsOf_snoc hc, hx, if_neg hne.symm, List.append_nil]
  have hnot {i : Item} (hi : d = .item i) :
      (∀ v, v ≠ w → i ∉ (n.pc v).items) ∧ ∀ v, i ∉ n.mailbox v := by
    have ha := held_alone (hone i) (w := w) (by rw [hd, hi]; simp)
    exact ⟨ha.1, ha.2.1⟩
  have hu := stations_update hpc hr hmail hs
    (fun v hv i hi ↦ hmem i fun he ↦ (hnot he).1 v hv hi)
    (fun v i hi ↦ hmem i fun he ↦ (hnot he).2 v hi)
    (fun v j hv hj ↦ hother (hsound.ne_of_setHand hhand (Stations.mem_inbox.mpr (.inl hj))
      fun he ↦ absurd he hv))
    (fun v j hj ↦ hother (hsound.ne_of_setHand hhand (Stations.mem_inbox.mpr (.inr hj))
      fun he ↦ he ▸ hj))
  rw [hu, hc, servedTrails_snoc, hp]
  apply Stations.ext
  · rfl
  · funext v
    simp [Net.stations, Stations.setHand, Stations.setWaiting, Stations.log]
  · rfl
  · rfl
  · simp [Net.stations, Stations.setHand, Stations.log, Net.jobOf, Job.trail, Net.actionsOf, hx,
      hxa]

/-- The end of handling leaves the messages alone. -/
private theorem complete_mem (n : Net H) (w : Core) (d : Held) :
    (complete n w d).mem = n.mem ∧ (complete n w d).scratch = n.scratch := by
  unfold complete
  cases d with
  | packet rest => exact ⟨rfl, rfl⟩
  | item i =>
    dsimp only
    split <;> exact ⟨rfl, rfl⟩

private theorem jobAt_resume (n : Net H) (w : Core) (d : Held) : n.jobAt w d.resume = none := by
  cases d <;> rfl

/-- Writing through a held pointer leaves the other messages alone. -/
private theorem store_other (n : Net H) (w : Core) (d : Held) (m : Message) :
    (∀ v, v ≠ w → (n.store w d m).scratch v = n.scratch v) ∧
      ∀ i, d ≠ .item i → (n.store w d m).mem i = n.mem i := by
  cases d with
  | item j =>
    refine ⟨fun _ _ ↦ rfl, fun i hi ↦ ?_⟩
    have hij : i ≠ j := by
      rintro rfl
      exact hi rfl
    simp [Net.store, hij]
  | packet rest =>
    refine ⟨fun v hv ↦ ?_, fun _ _ ↦ rfl⟩
    simp [Net.store, hv]

/-- Replacing a mailbox replaces a queue. -/
private theorem stations_setMailbox (n : Net H) (w : Core) (l : List Item) :
    (n.setMailbox w l).stations =
      n.stations.setQueue w (l.map (fun i ↦ n.jobOf (n.mem i))) := by
  have hjob (v : Core) (pc : Pc) : (n.setMailbox w l).jobAt v pc = n.jobAt v pc :=
    jobAt_congr (fun _ _ ↦ rfl) rfl fun _ _ ↦ rfl
  apply Stations.ext
  · rfl
  · rfl
  · funext v
    exact hjob v _
  · funext v
    by_cases hv : v = w
    · subst hv
      simp only [Net.stations, Stations.setQueue, Net.setMailbox, Function.update_self]
      rfl
    · simp only [Net.stations, Stations.setQueue, Net.setMailbox, Function.update_of_ne hv]
      rfl
  · rfl

/-- Moving a worker on. -/
private theorem stations_setPc (n : Net H) (w : Core) (pc : Pc) :
    (n.setPc w pc).stations =
      (n.stations.setWaiting w pc.pending).setHand w (n.jobAt w pc) := by
  have hj : (n.setPc w pc).jobAt w pc = n.jobAt w pc :=
    jobAt_congr (fun _ _ ↦ rfl) rfl fun _ _ ↦ rfl
  have hm := stations_moved n (n.setPc w pc) w pc rfl rfl rfl rfl
    (fun _ _ ↦ rfl) (fun _ _ _ _ ↦ rfl) (fun _ _ _ ↦ rfl)
  rw [hm, hj]

/-- Keeping what waits. -/
private theorem setWaiting_pending {n : Net H} {w : Core} {l : List Mbuf}
    (h : l = (n.pc w).pending) : n.stations.setWaiting w l = n.stations := by
  have hw : Function.update n.stations.waiting w (n.pc w).pending = n.stations.waiting :=
    Function.update_eq_self w _
  rw [h, Stations.setWaiting, hw]

section Ran

variable (n : Net H) (w : Core) (h : Held) (e : ActionTableEntry H) (s : Fin STATE_NUM)
  (st : State H) (m : Message)

/-- Where a worker is after it has transmitted. -/
theorem pc_transmit (x : Call) : (complete (transmitPacket (n.called x) w h) w h).pc =
    Function.update n.pc w h.resume := by
  rw [complete_pc]
  simp [transmitPacket]

/-- Where a worker is after an action has set a path. -/
theorem pc_act {h : Held} (hpc : n.pc w = .handle h) :
    ((ranAction n w h e s st).store w h m).pc = Function.update n.pc w (.handle h) := by
  rw [Net.store_pc, ← hpc]
  exact (Function.update_eq_self w n.pc).symm

/-- Where a worker is after an action has ended the handling. -/
theorem pc_actEnd : (complete ((ranAction n w h e s st).store w h m) w h).pc =
    Function.update n.pc w h.resume := by
  rw [complete_pc]
  simp [ranAction]

/-- Transmitting receives nothing. -/
theorem received_transmit (x : Call) :
    (complete (transmitPacket (n.called x) w h) w h).hist.received = n.hist.received := by
  rw [complete_received, transmitPacket, Net.store_hist]
  rfl

/-- An action that sets a path receives nothing. -/
theorem received_act : ((ranAction n w h e s st).store w h m).hist.received = n.hist.received := by
  rw [Net.store_hist]
  rfl

/-- An action that ends the handling receives nothing. -/
theorem received_actEnd :
    (complete ((ranAction n w h e s st).store w h m) w h).hist.received = n.hist.received := by
  rw [complete_received, received_act]

end Ran

/-- What a worker has in hand while it handles a message. -/
private theorem hand_handle {n : Net H} {w : Core} {h : Held} (hpc : n.pc w = .handle h) :
    n.stations.hand w = some (n.jobOf (n.message w h)) := by
  simp [Net.stations, hpc, Net.jobAt]

section Steps

variable {c : Config H} {follows : Int → Int → Prop} {n n' : Net H} {w : Core}

/-- A worker that takes an item from its mailbox. -/
theorem step_pop {i : Item} {q : List Item} (hpc : n.pc w = .dequeue)
    (hm : n.mailbox w = i :: q) :
    Stations.Step c.servesAt follows n.stations (popItem n w i q).stations := by
  have he : popItem n w i q = (n.setMailbox w q).setPc w (.handle (.item i)) := rfl
  have hpend : (Pc.handle (.item i)).pending = ((n.setMailbox w q).pc w).pending := by
    change [] = (n.pc w).pending
    rw [hpc]
    rfl
  rw [he, stations_setPc, setWaiting_pending hpend, stations_setMailbox]
  refine .take w (n.jobOf (n.mem i)) _ ?_ ?_
  · simp [Net.stations, hpc, Net.jobAt]
  · simp [Net.stations, hm]

/-- A worker that puts its item into the mailbox of the worker that serves it next. -/
theorem step_push (hn : Sending c n) {dest : Core} {i : Item} {h : Held}
    (hpc : n.pc w = .enqueue dest i h) :
    Stations.Step c.servesAt follows n.stations (pushItem n w dest i h).stations := by
  have he : pushItem n w dest i h =
      (n.setPc w h.resume).setMailbox dest (n.mailbox dest ++ [i]) := rfl
  have hpend : h.resume.pending = (n.pc w).pending := by
    rw [hpc]
    cases h <;> rfl
  obtain ⟨hsite, hne⟩ := hn.dest w dest i h hpc
  rw [he, stations_setMailbox, stations_setPc, setWaiting_pending hpend, jobAt_resume,
    List.map_append]
  refine .send w dest (n.jobOf (n.mem i)) ?_ hsite hne
  simp [Net.stations, hpc, Net.jobAt]

/-- A worker that starts with the next packet of its burst. -/
theorem step_begin (ho : n.stations.Orderly c.servesAt) {p : Mbuf} {rest : List Mbuf}
    (hpc : n.pc w = .burst (p :: rest)) :
    Stations.Step c.servesAt follows n.stations (beginPacket n w p rest).stations := by
  have hw : n.stations.waiting w = p :: rest := by simp [Net.stations, hpc, Pc.pending]
  have hnone : n.actionsOf p = [] := by
    by_contra hne
    refine ho.recorded.started _ (mem_servedTrails hne) w ?_
    rw [hw]
    exact List.mem_cons_self
  have hm := stations_moved n (beginPacket n w p rest) w (.handle (.packet rest)) rfl rfl rfl rfl
    (fun v hv ↦ by simp [beginPacket, hv]) (fun _ _ _ _ ↦ rfl) (fun _ _ _ ↦ rfl)
  have hjob : (beginPacket n w p rest).jobAt w (.handle (.packet rest)) =
      some ⟨p, [], (startPacket n w p).actionId⟩ := by
    have hs : (beginPacket n w p rest).message w (.packet rest) = startPacket n w p := by
      simp [beginPacket, Net.message]
    have ha : (beginPacket n w p rest).actionsOf p = [] := hnone
    simp only [Net.jobAt, hs, Net.jobOf]
    rw [show (startPacket n w p).m = p from rfl, ha]
  rw [hm, hjob]
  refine .start w p rest _ hw ?_
  simp [Net.stations, hpc, Net.jobAt]

/-- A worker that receives a burst. -/
theorem stations_receive {pkts : List Mbuf} (hpc : n.pc w = .rx) :
    (receive n w pkts).stations = (n.stations.arrive w pkts).setWaiting w pkts := by
  apply Stations.ext
  · funext v
    by_cases hv : v = w
    · subst hv
      simp [Net.stations, Net.receivedBy, receive, Stations.arrive, Stations.setWaiting,
        List.filter_map, Function.comp_def]
    · have hw : w ≠ v := Ne.symm hv
      simp [Net.stations, Net.receivedBy, receive, Stations.arrive, Stations.setWaiting,
        List.filter_map, Function.comp_def, hv, hw]
  · have hset := congrArg Stations.waiting (stations_setPc n w (.burst pkts))
    exact hset
  · have hset := congrArg Stations.hand (stations_setPc n w (.burst pkts))
    have hj : n.jobAt w (.burst pkts) = n.stations.hand w := by
      simp [Net.stations, hpc, Net.jobAt]
    rw [hj] at hset
    exact hset.trans (Function.update_eq_self w _)
  · rfl
  · rfl

/-- A worker that receives an empty burst is the same station. -/
private theorem stations_receive_nil (hpc : n.pc w = .rx) :
    (receive n w []).stations = n.stations := by
  have hw : Function.update n.stations.waiting w [] = n.stations.waiting := by
    have hz : n.stations.waiting w = [] := by simp [Net.stations, hpc, Pc.pending]
    rw [← hz, Function.update_eq_self]
  have ha : Function.update n.stations.arrived w (n.stations.arrived w) = n.stations.arrived :=
    Function.update_eq_self w _
  rw [stations_receive hpc, Stations.arrive, Stations.setWaiting, List.append_nil, hw, ha]

/-- A worker that receives packets. -/
theorem step_receive {pkts : List Mbuf} (hpc : n.pc w = .rx) (hp : n.CanReceive pkts) :
    (receive n w pkts).stations = n.stations ∨
      Stations.Step c.servesAt follows n.stations (receive n w pkts).stations := by
  by_cases hne : pkts = []
  · subst hne
    exact .inl (stations_receive_nil hpc)
  right
  rw [stations_receive hpc]
  refine .arrive w pkts hne ?_ hp.2.1 fun p hm u hu ↦ hp.2.2 p hm ?_
  · simp [Net.stations, hpc, Pc.pending]
  · obtain ⟨x, hx, rfl⟩ := List.mem_map.mp hu
    exact List.mem_map_of_mem (List.mem_filter.mp hx).1

/-- The station after a worker has transmitted the packet in its hands. -/
theorem stations_transmit {h : Held} {e : ActionTableEntry H}
    (hone : ∀ i, itemTotal (· == i) n ≤ 1) (hs : n.stations.Sound) (hpc : n.pc w = .handle h) :
    (complete (transmitPacket (n.called (callOf n w h e)) w h) w h).stations =
      (n.stations.log (n.jobOf (n.message w h))).setHand w none := by
  rw [stations_called (complete (transmitPacket (n.called (callOf n w h e)) w h) w h) h.resume
      (callOf n w h e) hone hs hpc rfl rfl
      (pc_transmit ..) (received_transmit ..)
      (by rw [complete_calls]; simp [transmitPacket, Net.transmitted, Net.called])
      (by rw [complete_mailbox]; simp [transmitPacket])
      (fun v hv ↦ by rw [(complete_mem _ w h).2]; exact (store_other _ w h _).1 v hv)
      (fun i hi ↦ by rw [(complete_mem _ w h).1]; exact (store_other _ w h _).2 i hi)
      (by rw [hpc]; exact pending_resume h), jobAt_resume]

/-- The worker that finds entry `e` for its message, on its own core, serves it. -/
private theorem Sending.serves_self (hn : Sending c n) {a : Int} {e : ActionTableEntry H}
    (he : n.config.entry a = some e) (hc : e.coreId = (w.val : Int)) : c.servesAt a = some w := by
  rw [hn.servesAt he, idx?_eq_some_iff]
  exact hc

/-- A worker that transmits a packet. -/
theorem step_transmit (hn : Sending c n) (hs : n.stations.Sound) {h : Held}
    {e : ActionTableEntry H} (hpc : n.pc w = .handle h)
    (he : n.config.entry (n.message w h).actionId = some e) (hc : e.coreId = (w.val : Int)) :
    Stations.Step c.servesAt follows n.stations
      (complete (transmitPacket (n.called (callOf n w h e)) w h) w h).stations := by
  rw [stations_transmit hn.once hs hpc]
  exact .finish w _ (hand_handle hpc) (hn.serves_self he hc)

/-- A worker whose action sets a path. -/
theorem step_act (hn : Sending c n) (hso : n.stations.Sound) {h : Held}
    {e : ActionTableEntry H} {s : Fin STATE_NUM} {st : State H} {path : Int}
    (hpc : n.pc w = .handle h) (he : n.config.entry (n.message w h).actionId = some e)
    (hc : e.coreId = (w.val : Int)) (hf : follows (n.message w h).actionId path) :
    Stations.Step c.servesAt follows n.stations ((ranAction n w h e s st).store w h
      { n.message w h with path, actionId := path }).stations := by
  have hst := stations_called
    ((ranAction n w h e s st).store w h { n.message w h with path, actionId := path })
    (.handle h) (callOf n w h e) hn.once hso hpc rfl rfl (pc_act n w e s st _ hpc)
    (received_act ..) (by simp [ranAction, Net.called])
    (by simp [ranAction]) (fun v hv ↦ (store_other _ w h _).1 v hv)
    (fun i hi ↦ (store_other _ w h _).2 i hi) (by rw [hpc])
  have hjob : ((ranAction n w h e s st).store w h
      { n.message w h with path, actionId := path }).jobAt w (.handle h) =
      some ⟨(n.message w h).m, (n.jobOf (n.message w h)).trail, path⟩ := by
    have ha : ((ranAction n w h e s st).store w h
        { n.message w h with path, actionId := path }).actionsOf (n.message w h).m =
        n.actionsOf (n.message w h).m ++ [(n.message w h).actionId] := by
      rw [actionsOf_snoc (n := n) (x := callOf n w h e) (by simp [ranAction, Net.called])]
      simp [callOf]
    simp [Net.jobAt, Net.jobOf, Job.trail, ha]
  rw [hst, hjob]
  exact .serve w _ path (hand_handle hpc) (hn.serves_self he hc) hf

/-- A worker whose action ends the handling. -/
theorem step_actEnd (hn : Sending c n) (hso : n.stations.Sound) {h : Held}
    {e : ActionTableEntry H} {s : Fin STATE_NUM} {st : State H} (hpc : n.pc w = .handle h)
    (he : n.config.entry (n.message w h).actionId = some e) (hc : e.coreId = (w.val : Int)) :
    Stations.Step c.servesAt follows n.stations (complete ((ranAction n w h e s st).store w h
      { n.message w h with path := -1 }) w h).stations := by
  have hst := stations_called
    (complete ((ranAction n w h e s st).store w h { n.message w h with path := -1 }) w h)
    h.resume (callOf n w h e) hn.once hso hpc rfl rfl (pc_actEnd ..) (received_actEnd ..)
    (by rw [complete_calls]; simp [ranAction, Net.called])
    (by rw [complete_mailbox]; simp [ranAction])
    (fun v hv ↦ by rw [(complete_mem _ w h).2]; exact (store_other _ w h _).1 v hv)
    (fun i hi ↦ by rw [(complete_mem _ w h).1]; exact (store_other _ w h _).2 i hi)
    (by rw [hpc]; exact pending_resume h)
  rw [hst, jobAt_resume]
  exact .finish w _ (hand_handle hpc) (hn.serves_self he hc)

/-- A worker that finds no free item. -/
theorem step_drop {h : Held} (hpc : n.pc w = .handle h) :
    Stations.Step c.servesAt follows n.stations (dropPacket n w h).stations := by
  have hm := stations_moved n (dropPacket n w h) w h.resume rfl rfl rfl rfl
    (fun _ _ ↦ rfl) (fun _ _ _ _ ↦ rfl) (fun _ _ _ ↦ rfl)
  have hpend : h.resume.pending = (n.pc w).pending := by rw [hpc, pending_resume]
  rw [hm, jobAt_resume, setWaiting_pending hpend]
  exact .lose w _ (hand_handle hpc)

/-- A worker that goes on without a message is the same station. -/
theorem stations_move {pc : Pc} (h : n.pc w = .top ∧ (pc = .idle ∨ pc = .dequeue) ∨
    n.pc w = .dequeue ∧ n.mailbox w = [] ∧ (pc = .rx ∨ pc = .top) ∨
    n.pc w = .burst [] ∧ pc = .top) : (n.setPc w pc).stations = n.stations := by
  refine stations_still (stations_setPc n w pc) ?_ ?_ <;>
    rcases h with ⟨hpc, rfl | rfl⟩ | ⟨hpc, -, rfl | rfl⟩ | ⟨hpc, rfl⟩ <;> rw [hpc] <;> rfl

/-- A worker that is about to send a dequeued item is the same station. -/
theorem stations_relay {i : Item} {dest : Core} (hpc : n.pc w = .handle (.item i)) :
    (n.setPc w (.enqueue dest i (.item i))).stations = n.stations :=
  stations_still (stations_setPc n w _) (by rw [hpc]; rfl) (by rw [hpc]; rfl)

/-- A worker that has copied its message to a free item is the same station. -/
theorem stations_copy (hone : ∀ i, itemTotal (· == i) n ≤ 1) {h : Held} {dest : Core} {i : Item}
    (hpc : n.pc w = .handle h) (hi : i ∈ n.buffer w) :
    (copyPacket n w dest i h).stations = n.stations := by
  have hfree (j : Item) (hj : Live n j) : j ≠ i := by
    rintro rfl
    exact absurd (hj.not_free hi) (by have := hone j; omega)
  have hm := stations_moved n (copyPacket n w dest i h) w (.enqueue dest i h) rfl rfl rfl rfl
    (fun _ _ ↦ rfl) (fun v _ j hj ↦ by simp [copyPacket, hfree j (.inl ⟨v, hj⟩)])
    (fun v j hj ↦ by simp [copyPacket, hfree j (.inr ⟨v, hj⟩)])
  refine stations_still hm ?_ ?_
  · rw [hpc]
    cases h <;> rfl
  · have hmem : (copyPacket n w dest i h).mem i =
        { n.message w h with producerId := (w.val : Int) } := by
      simp [copyPacket]
    rw [hpc]
    change some ((copyPacket n w dest i h).jobOf ((copyPacket n w dest i h).mem i)) = _
    rw [hmem]
    rfl

/-- What one event does to the stations: they take a step or stay as they are. -/
theorem stations_taken {ev : Event} (hn : Sending c n) (ho : n.stations.Orderly c.servesAt)
    (hf : ∀ a b, n.config.Next a b → follows a b) (ht : Taken n ev n') :
    n'.stations = n.stations ∨ Stations.Step c.servesAt follows n.stations n'.stations := by
  cases ht with
  | move w pc h => exact .inl (stations_move h)
  | pop w i q hpc hm => exact .inr (step_pop hpc hm)
  | begin w p rest hpc => exact .inr (step_begin ho hpc)
  | transmit w h e v hpc he hc => exact .inr (step_transmit hn ho.sound hpc he hc)
  | act w h e f s st path hpc he hc ha hs hfn hp =>
    right
    exact step_act hn ho.sound hpc he hc (hf _ _ ⟨e, f, s, _, _, st, he, ha, hs, rfl, hfn⟩)
  | actEnd w h e f s st hpc he hc => exact .inr (step_actEnd hn ho.sound hpc he hc)
  | relay w i e dest hpc => exact .inl (stations_relay hpc)
  | push w dest i h hpc hr => exact .inr (step_push hn hpc)
  | retry => exact .inl rfl
  | rxBurst w pkts hpc hp => exact step_receive hpc hp
  | drop w h e hpc => exact .inr (step_drop hpc)
  | copy w h e dest i hpc he hc hl hd hi => exact .inl (stations_copy hn.once hpc hi)
  | command line c r h => exact .inl rfl
  | quit => exact .inl rfl

end Steps

/-! ### Whole runs -/

/-- Every event but an `action` command keeps what the order rests on. -/
theorem Sending.next {c : Config H} {n n' : Net H} {ev : Event} (hn : Sending c n)
    (hev : ev.KeepsActions) (ht : Taken n ev n') : Sending c n' := by
  refine ⟨hn.produced.taken ht, fun i ↦ ?_, fun i ↦ ?_, ?_⟩
  · rw [itemTotal_taken _ hn.produced ht]
    exact hn.once i
  · rw [entryFields_taken ht hev]
    exact hn.table i
  -- only `relay` and `copy` bring a worker to the retry loop, with the destination they looked up
  have hkeep {w : Core} {pc : Pc} (hpc : n'.pc = Function.update n.pc w pc)
      (hmem : ∀ v, v ≠ w → ∀ i ∈ (n.pc v).items, n'.mem i = n.mem i)
      (hw : ∀ dest i h, pc = .enqueue dest i h →
        c.servesAt (n'.mem i).actionId = some dest ∧ dest ≠ w) (v dest : Core) (i : Item) (h : Held)
      (hv : n'.pc v = .enqueue dest i h) :
      c.servesAt (n'.mem i).actionId = some dest ∧ dest ≠ v := by
    rw [hpc] at hv
    by_cases hvw : v = w
    · subst hvw
      rw [Function.update_self] at hv
      exact hw dest i h hv
    · rw [Function.update_of_ne hvw] at hv
      rw [hmem v hvw i (by rw [hv]; simp)]
      exact hn.dest v dest i h hv
  have hresume {w : Core} {d : Held} (dest : Core) (i : Item) (h : Held)
      (he : d.resume = .enqueue dest i h) :
      c.servesAt (n'.mem i).actionId = some dest ∧ dest ≠ w := by
    cases d <;> simp [Held.resume] at he
  have hheld {w : Core} {d : Held} {m : Message} (k : Net H) (hk : k.mem = n.mem)
      (hpc : n.pc w = .handle d) (v : Core) (hv : v ≠ w) (i : Item) (hi : i ∈ (n.pc v).items) :
      (k.store w d m).mem i = n.mem i := by
    rw [← hk]
    refine (store_other k w d m).2 i ?_
    rintro rfl
    exact (held_alone (hn.once i) (w := w) (by rw [hpc]; simp)).1 v hv hi
  have hlookup {w dest : Core} {a : Int} {e : ActionTableEntry H}
      (he : n.config.entry a = some e) (hc : e.coreId ≠ (w.val : Int))
      (hd : e.coreId = (dest.val : Int)) : c.servesAt a = some dest ∧ dest ≠ w := by
    refine ⟨(hn.servesAt he).trans (idx?_eq_some_iff.mpr hd), ?_⟩
    rintro rfl
    exact hc hd
  cases ht with
  | move w pc h =>
    refine hkeep rfl (fun _ _ _ _ ↦ rfl) fun dest i d hd ↦ ?_
    rcases h with ⟨-, rfl | rfl⟩ | ⟨-, -, rfl | rfl⟩ | ⟨-, rfl⟩ <;> simp at hd
  | pop w i q hpc hm => exact hkeep rfl (fun _ _ _ _ ↦ rfl) (by simp)
  | begin w p rest hpc => exact hkeep rfl (fun _ _ _ _ ↦ rfl) (by simp)
  | transmit w h e v hpc he hc ha hs =>
    refine hkeep (pc_transmit ..) ?_ hresume
    rw [(complete_mem _ w h).1]
    exact hheld _ rfl hpc
  | act w h e f s st path hpc he hc ha hs hf hp =>
    exact hkeep (pc_act n w e s st _ hpc) (hheld _ rfl hpc) (by simp)
  | actEnd w h e f s st hpc he hc ha hs hf =>
    refine hkeep (pc_actEnd ..) ?_ hresume
    rw [(complete_mem _ w h).1]
    exact hheld _ rfl hpc
  | relay w i e dest hpc he hc hl hd =>
    refine hkeep rfl (fun _ _ _ _ ↦ rfl) fun dest' i' h' hpc' ↦ ?_
    rw [Pc.enqueue.injEq] at hpc'
    obtain ⟨rfl, rfl, -⟩ := hpc'
    exact hlookup he hc hd
  | push w dest i h hpc hr => exact hkeep rfl (fun _ _ _ _ ↦ rfl) hresume
  | retry => exact hn.dest
  | rxBurst w pkts hpc hp => exact hkeep rfl (fun _ _ _ _ ↦ rfl) (by simp)
  | drop w h e hpc he hc hl => exact hkeep rfl (fun _ _ _ _ ↦ rfl) hresume
  | copy w h e dest i hpc he hc hl hd hi =>
    refine hkeep rfl (fun v hv j hj ↦ ?_) fun dest' i' h' hpc' ↦ ?_
    · have hji : j ≠ i := by
        rintro rfl
        exact (held_alone (hn.once j) hj).2.2 w hi
      simp [copyPacket, hji]
    · rw [Pc.enqueue.injEq] at hpc'
      obtain ⟨rfl, rfl, -⟩ := hpc'
      simpa [copyPacket] using hlookup he hc hd
  | command line c' r h => exact hn.dest
  | quit => exact hn.dest

/-- What an event adds to the calls and to the transmitted packets: nothing, or the call for the
packet in some worker's hands, which leaves the network when it is transmitted. -/
private theorem record_taken {n n' : Net H} {ev : Event}
    (hone : ∀ i, itemTotal (· == i) n ≤ 1) (hs : n.stations.Sound) (ht : Taken n ev n') :
    n'.hist.calls = n.hist.calls ∧ n'.hist.transmitted = n.hist.transmitted ∨
      ∃ w j x, n.stations.hand w = some j ∧ x.m = j.id ∧
        n'.hist.calls = n.hist.calls ++ [x] ∧
        (n'.hist.transmitted = n.hist.transmitted ∨
          n'.hist.transmitted = n.hist.transmitted ++ [x.m] ∧
            n'.stations = (n.stations.log j).setHand w none) := by
  cases ht with
  | transmit w h e v hpc he hc ha =>
    refine .inr ⟨w, _, callOf n w h e, hand_handle hpc, rfl, ?_,
      .inr ⟨?_, stations_transmit hone hs hpc⟩⟩
    · rw [complete_calls, transmitPacket, Net.store_hist]
      rfl
    · rw [complete_transmitted, transmitPacket, Net.store_hist, Net.called_message]
      rfl
  | act w h e f s st path hpc =>
    refine .inr ⟨w, _, callOf n w h e, hand_handle hpc, rfl, ?_, .inl ?_⟩
    · rw [Net.store_hist]
      rfl
    · rw [Net.store_hist]
      rfl
  | actEnd w h e f s st hpc =>
    refine .inr ⟨w, _, callOf n w h e, hand_handle hpc, rfl, ?_, .inl ?_⟩
    · rw [complete_calls, Net.store_hist]
      rfl
    · rw [complete_transmitted, Net.store_hist]
      rfl
  | move | pop | begin | relay | push | retry | rxBurst | drop | copy | command | quit =>
    exact .inl ⟨rfl, rfl⟩

/-- The transmitted packets have left the network, and were transmitted in the order of their last
calls. -/
structure TransmittedLast (n : Net H) : Prop where
  gone : ∀ p ∈ n.hist.transmitted, n.stations.Gone p
  last : (n.hist.transmitted.map (fun p ↦ (p, n.actionsOf p))).Sublist (servedTrails n.hist.calls)

/-- Every event keeps the transmitted packets in the order of their last calls. -/
theorem TransmittedLast.next {c : Config H} {n n' : Net H} {ev : Event} (hl : TransmittedLast n)
    (hn : Sending c n) (ho : n.stations.Orderly c.servesAt) (ht : Taken n ev n') :
    TransmittedLast n' := by
  have hgone (p : Mbuf) (hp : n.stations.Gone p) : n'.stations.Gone p := by
    have hstep : n'.stations = n.stations ∨
        Stations.Step c.servesAt (fun _ _ ↦ True) n.stations n'.stations :=
      stations_taken hn ho (fun _ _ _ ↦ trivial) ht
    rcases hstep with hs | hs
    · rwa [hs]
    · exact hp.next hs
  rcases record_taken hn.once ho.sound ht with ⟨hc, htr⟩ | ⟨w, j, x, hhand, hx, hc, htr⟩
  · refine ⟨fun p hp ↦ hgone p (hl.gone p (htr ▸ hp)), ?_⟩
    have ha : (fun p ↦ (p, n'.actionsOf p)) = fun p ↦ (p, n.actionsOf p) :=
      funext fun p ↦ by rw [actionsOf_congr hc]
    rw [htr, hc, ha]
    exact hl.last
  · have hnot : x.m ∉ n.hist.transmitted := fun hm ↦
      (hl.gone _ hm).2 (.hand w) (by simp) ⟨j, hhand, hx.symm⟩
    have hold : n.hist.transmitted.map (fun p ↦ (p, n'.actionsOf p)) =
        n.hist.transmitted.map (fun p ↦ (p, n.actionsOf p)) := by
      apply List.map_congr_left
      intro p hp
      have hne : x.m ≠ p := by
        rintro rfl
        exact hnot hp
      rw [actionsOf_snoc hc, if_neg hne, List.append_nil]
    have hserved : servedTrails n'.hist.calls =
        servedTrails n.hist.calls ++ [(x.m, n'.actionsOf x.m)] := by
      rw [hc, servedTrails_snoc, actionsOf_snoc hc, if_pos rfl, Net.actionsOf]
    rcases htr with htr | ⟨htr, hst⟩
    · refine ⟨fun p hp ↦ hgone p (hl.gone p (htr ▸ hp)), ?_⟩
      rw [htr, hold, hserved]
      exact hl.last.trans (List.sublist_append_left _ _)
    · refine ⟨fun p hp ↦ ?_, ?_⟩
      · rw [htr, List.mem_append, List.mem_singleton] at hp
        rcases hp with hp | rfl
        · exact hgone p (hl.gone p hp)
        · rw [hst, hx]
          exact ho.sound.gone hhand
      · rw [htr, List.map_append, hold, hserved]
        exact hl.last.append (List.Sublist.refl _)

/-- What every event but an `action` command keeps. -/
structure Ordered (c : Config H) (n : Net H) : Prop where
  sending : Sending c n
  orderly : n.stations.Orderly c.servesAt
  served : n.stations.ServedInOrder
  transmitted : TransmittedLast n

/-- Every event but an `action` command keeps the packets in order. -/
theorem Ordered.next {c : Config H} {n n' : Net H} {ev : Event} (hn : Ordered c n)
    (hev : ev.KeepsActions) (h : step n ev = some n') : Ordered c n' := by
  have ht := step_taken h
  have hstep : n'.stations = n.stations ∨
      Stations.Step c.servesAt (fun _ _ ↦ True) n.stations n'.stations :=
    stations_taken hn.sending hn.orderly (fun _ _ _ ↦ trivial) ht
  refine ⟨hn.sending.next hev ht, ?_, ?_, hn.transmitted.next hn.sending hn.orderly ht⟩
  · rcases hstep with hs | hs
    · rw [hs]
      exact hn.orderly
    · exact hn.orderly.next hs
  · rcases hstep with hs | hs
    · rw [hs]
      exact hn.served
    · exact hn.served.next hn.orderly hs

/-- Workers that have just been launched are stations with nothing to do. -/
theorem stations_launch (c : Config H) (launched : Core → Bool) (size : Nat)
    (mem : Item → Message) (scratch : Core → Message) (w : Core) :
    (launch c launched size mem scratch).stations.waiting w = [] ∧
      (launch c launched size mem scratch).stations.hand w = none ∧
      (launch c launched size mem scratch).stations.queue w = [] := by
  have hpc : (launch c launched size mem scratch).pc w = .top ∨
      (launch c launched size mem scratch).pc w = .idle := by
    unfold launch
    dsimp only
    split <;> simp
  refine ⟨?_, ?_, rfl⟩
  · rcases hpc with hp | hp <;> simp [Net.stations, hp, Pc.pending]
  · rcases hpc with hp | hp <;> simp [Net.stations, hp, Net.jobAt]

/-- Workers that have just been launched are in order. -/
theorem ordered_launch (c : Config H) (launched : Core → Bool) (size : Nat)
    (mem : Item → Message) (scratch : Core → Message) :
    Ordered c (launch c launched size mem scratch) := by
  have hi := packetInvariant_launch c launched size mem scratch
  have hs := stations_launch c launched size mem scratch
  refine ⟨⟨hi.produced, hi.once, fun _ ↦ rfl, fun w dest i h hw ↦ ?_⟩, ?_, ?_, ?_, ?_⟩
  · simp only [launch] at hw
    split at hw <;> simp at hw
  · exact Stations.orderly_of_empty (fun _ ↦ rfl) (fun w ↦ (hs w).1) (fun w ↦ (hs w).2.1)
      (fun w ↦ (hs w).2.2) rfl
  · intro w l
    exact List.nil_sublist _
  · intro p hp
    simp [launch] at hp
  · exact List.nil_sublist _

/-- In every run over any action table, with any commands but `action` commands in between: of the
packets that one worker receives, those for which the actions `l` are called are served by the last
of these actions in the order of their reception, and those that are transmitted after the actions
`l` are transmitted in that order. -/
theorem packets_in_order (c : Config H) (launched : Core → Bool) (size : Nat)
    (mem : Item → Message) (scratch : Core → Message) (es : List Event) (n : Net H)
    (hes : ∀ ev ∈ es, ev.KeepsActions)
    (h : run step (launch c launched size mem scratch) es = some n) (w : Core) (l : List Int) :
    ((n.servedUnder l).filter (fun p ↦ p ∈ n.receivedBy w)).Sublist (n.receivedBy w) ∧
      (n.hist.transmitted.filter (fun p ↦ n.actionsOf p = l ∧ p ∈ n.receivedBy w)).Sublist
        (n.receivedBy w) := by
  have hq : Along step (fun _ ev ↦ ev.KeepsActions) (launch c launched size mem scratch) es :=
    along_of_forall hes _
  have hn : Ordered c n := run_invariant_along (fun _ _ _ hi hev hs ↦ hi.next hev hs)
    (ordered_launch c launched size mem scratch) hq h
  have hserved := hn.served w l
  refine ⟨hserved, List.Sublist.trans ?_ hserved⟩
  have hlast := ((hn.transmitted.last.filter (fun e ↦ e.2 = l)).map Prod.fst).filter
    (fun p ↦ p ∈ n.receivedBy w)
  rw [List.filter_map, List.filter_map, List.filter_map, List.map_map, List.filter_filter]
    at hlast
  have hboth : n.hist.transmitted.filter (fun p ↦ n.actionsOf p = l ∧ p ∈ n.receivedBy w) =
      n.hist.transmitted.filter (fun p ↦ p ∈ n.receivedBy w ∧ n.actionsOf p = l) :=
    List.filter_congr fun p _ ↦ by simp [and_comm]
  simp only [Function.comp_def, List.map_id', ← Bool.decide_and] at hlast
  rw [hboth]
  exact hlast

/-- Worker 1 receives two packets at once and sends both to worker 3, which transmits them. -/
def relayPairRun : List Event :=
  [.work 1, .work 1, .rxBurst 1 [⟨7, 0⟩, ⟨9, 0⟩], .work 1, .work 1, .alloc 1 (some ⟨1, 0⟩),
    .work 1, .work 1, .work 1, .alloc 1 (some ⟨1, 1⟩), .work 1, .work 3, .work 3, .work 3, .work 3,
    .work 3]

/-- In the run with two packets, worker 3 transmits them in order. -/
theorem packets_in_order_relay :
    ∃ n, run step (launch relayConfig workerRun 2 relayNet.mem relayNet.scratch) relayPairRun =
        some n ∧ n.hist.transmitted = [⟨7, 0⟩, ⟨9, 0⟩] ∧
      (n.hist.transmitted.filter (fun p ↦ n.actionsOf p = [0, 1] ∧ p ∈ n.receivedBy 1)).Sublist
        (n.receivedBy 1) := by
  have hrun : ((run step (launch relayConfig workerRun 2 relayNet.mem relayNet.scratch)
      relayPairRun).map (fun n ↦ n.hist.transmitted)) = some [⟨7, 0⟩, ⟨9, 0⟩] := by decide
  obtain ⟨n, hn, ht⟩ := Option.map_eq_some_iff.mp hrun
  have hes : ∀ ev ∈ relayPairRun, ev.KeepsActions := by
    simp [relayPairRun, Event.KeepsActions]
  exact ⟨n, hn, ht, (packets_in_order relayConfig workerRun 2 _ _ relayPairRun n hes hn 1 [0, 1]).2⟩

end Nflambda.Runtime
