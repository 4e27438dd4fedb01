import Mathlib.Algebra.BigOperators.Fin
import Nflambda.Base.Service
import Nflambda.Runtime.Overtaking

/-!
# The network drains

Library `Runtime`. Source `src/runtime/worker.h:80–185`. Where the installed paths have no cycle,
a packet needs a bounded number of steps, whatever the interleaving. Packets that stay in the
network are therefore stuck, and there are only three ways to be: workers block each other, a
worker has no defined continuation, or a worker that does not run has mail. Without them the
workers hand out every packet they have received.
-/

namespace Nflambda.Runtime

open Nflambda.Base Finset

variable {H : Type}

/-! ### Bounded work -/

/-- At a program point, the next step of worker `w` moves a packet on: it takes up an item or a
packet, handles it, or puts it into a mailbox. -/
def Net.MovesOn (n : Net H) (w : Core) : Pc → Prop
  | .dequeue => n.mailbox w ≠ []
  | .burst rest => rest ≠ []
  | .handle _ => True
  | .enqueue dest _ _ => (n.mailbox dest).length < n.config.ringSize - 1
  | .idle | .top | .rx => False

/-- An event that moves a packet on. The others are polls, failed attempts to send, receptions and
commands. -/
def Net.Productive (n : Net H) : Event → Prop
  | .work w => n.MovesOn w (n.pc w)
  | .alloc _ _ => True
  | .rxBurst _ _ | .command _ | .quit => False

instance (n : Net H) (w : Core) : (pc : Pc) → Decidable (n.MovesOn w pc)
  | .dequeue => inferInstanceAs (Decidable (n.mailbox w ≠ []))
  | .burst rest => inferInstanceAs (Decidable (rest ≠ []))
  | .handle _ => isTrue trivial
  | .enqueue dest _ _ =>
    inferInstanceAs (Decidable ((n.mailbox dest).length < n.config.ringSize - 1))
  | .idle | .top | .rx => isFalse id

instance (n : Net H) : (ev : Event) → Decidable (n.Productive ev)
  | .work w => inferInstanceAs (Decidable (n.MovesOn w (n.pc w)))
  | .alloc _ _ => isTrue trivial
  | .rxBurst _ _ | .command _ | .quit => isFalse id

/-- Whether a worker is in front of `event_handler`. -/
def Pc.handles : Pc → Nat
  | .handle _ => 1
  | _ => 0

/-- How many workers are in front of `event_handler`. -/
def handling (n : Net H) : Nat := ∑ w, (n.pc w).handles

/-- What is left to do for the packets in the network. -/
def effort (c : Config H) (rank : Int → Nat) (top : Nat) (n : Net H) : Nat :=
  2 * n.stations.cost c.servesAt rank top + handling n

/-- What there is to do for a packet that is received, at most. -/
def packetEffort (top : Nat) : Nat := 2 * (3 * top + 4)

/-- The installed paths go down in a rank that is at most `top`. -/
structure Config.Descends (c : Config H) (rank : Int → Nat) (top : Nat) : Prop where
  next : ∀ a b, c.Next a b → rank b < rank a
  top : ∀ a, rank a ≤ top

theorem Pc.handles_le (pc : Pc) : pc.handles ≤ 1 := by
  cases pc <;> simp [handles]

private theorem handling_update {n n' : Net H} {w : Core} {pc : Pc}
    (hpc : n'.pc = Function.update n.pc w pc) :
    handling n' + (n.pc w).handles = handling n + pc.handles := by
  unfold handling
  rw [hpc]
  exact sum_update_add Pc.handles n.pc w pc

/-- A productive event takes something off what is left to do; only received packets add to it. -/
theorem effort_taken {c : Config H} {rank : Int → Nat} {top : Nat} {n n' : Net H} {ev : Event}
    (hd : c.Descends rank top) (hn : Sending c n) (ho : n.stations.Orderly c.servesAt)
    (hsame : SameRoutes c n.config) (ht : Taken n ev n') :
    (if n.Productive ev then 1 else 0) + effort c rank top n' +
        packetEffort top * n.received.length ≤
      effort c rank top n + packetEffort top * n'.received.length := by
  have hstep (w : Core) (pc : Pc) (hpc : n'.pc = Function.update n.pc w pc)
      (hs : Stations.Step c.servesAt c.Next n.stations n'.stations)
      (hr : n'.hist.received = n.hist.received) :
      (if n.Productive ev then 1 else 0) + effort c rank top n' +
          packetEffort top * n.received.length ≤
        effort c rank top n + packetEffort top * n'.received.length := by
    have ha : n'.stations.arrived = n.stations.arrived := by
      funext w
      simp only [Net.stations, Net.receivedBy, hr]
    have hcost := Stations.cost_step ho.placed hd.next hd.top hs ha
    have hh := handling_update hpc
    have hle := pc.handles_le
    have hrec : n'.received = n.received := by rw [Net.received, hr, Net.received]
    rw [hrec]
    unfold effort
    split <;> omega
  have hstill (w : Core) (pc : Pc) (hpc : n'.pc = Function.update n.pc w pc)
      (hs : n'.stations = n.stations) (hr : n'.hist.received = n.hist.received)
      (hp : (if n.Productive ev then 1 else 0) + pc.handles ≤ (n.pc w).handles) :
      (if n.Productive ev then 1 else 0) + effort c rank top n' +
          packetEffort top * n.received.length ≤
        effort c rank top n + packetEffort top * n'.received.length := by
    have hh := handling_update hpc
    have hrec : n'.received = n.received := by rw [Net.received, hr, Net.received]
    rw [hrec]
    unfold effort
    rw [hs]
    omega
  cases ht with
  | move w pc h =>
    refine hstill w pc rfl (stations_move h) rfl ?_
    rcases h with ⟨hpc, rfl | rfl⟩ | ⟨hpc, hm, rfl | rfl⟩ | ⟨hpc, rfl⟩ <;>
      simp [Net.Productive, Net.MovesOn, Pc.handles, *]
  | pop w i q hpc hm => exact hstep w _ rfl (step_pop hpc hm) rfl
  | begin w p rest hpc => exact hstep w _ rfl (step_begin ho hpc) rfl
  | transmit w h e v hpc he hc =>
    exact hstep w h.resume (pc_transmit ..) (step_transmit hn ho.sound hpc he hc)
      (received_transmit ..)
  | act w h e f s st path hpc he hc ha hs hf hp =>
    have hnext : c.Next (n.message w h).actionId path := hsame.next he ha hs hf
    exact hstep w (.handle h) (pc_act n w e s st _ hpc)
      (step_act hn ho.sound hpc he hc hnext) (received_act ..)
  | actEnd w h e f s st hpc he hc =>
    exact hstep w h.resume (pc_actEnd ..) (step_actEnd hn ho.sound hpc he hc)
      (received_actEnd ..)
  | relay w i e dest hpc =>
    refine hstill w _ rfl (stations_relay hpc) rfl ?_
    simp [hpc, Pc.handles, Net.Productive, Net.MovesOn]
  | push w dest i h hpc hr => exact hstep w _ rfl (step_push hn hpc) rfl
  | retry w dest i h hpc hr =>
    simp [Net.Productive, Net.MovesOn, hpc, hr]
  | rxBurst w pkts hpc hp =>
    have hc := Stations.cost_arrive c.servesAt rank top (s := n.stations) (v := w) pkts
      (by simp [Net.stations, hpc, Pc.pending])
    have hh : handling (receive n w pkts) + (n.pc w).handles =
        handling n + (Pc.burst pkts).handles := handling_update rfl
    have hr : (receive n w pkts).received.length = n.received.length + pkts.length := by
      simp [receive, Net.received]
    have hmul : packetEffort top * (n.received.length + pkts.length) =
        packetEffort top * n.received.length + 2 * (pkts.length * (3 * top + 4)) := by
      rw [Nat.mul_add, packetEffort, Nat.mul_assoc 2 (3 * top + 4) pkts.length,
        Nat.mul_comm (3 * top + 4) pkts.length]
    have hnp : ¬ n.Productive (.rxBurst w pkts) := id
    rw [← stations_receive hpc] at hc
    simp only [hpc, Pc.handles] at hh
    rw [if_neg hnp, hr, hmul, effort, effort, hc]
    omega
  | drop w h e hpc => exact hstep w _ rfl (step_drop hpc) rfl
  | copy w h e dest i hpc he hc hl hd' hi =>
    refine hstill w _ rfl (stations_copy hn.once hpc hi) rfl ?_
    simp [hpc, Pc.handles, Net.Productive]
  | command line c' r h =>
    have hnp : ¬ n.Productive (.command line) := id
    have he : effort c rank top { n with config := c' } = effort c rank top n := rfl
    rw [if_neg hnp, he, Nat.zero_add]
    exact le_rfl
  | quit =>
    have hnp : ¬ n.Productive .quit := id
    have he : effort c rank top { n with config := { n.config with dpQuit := true } } =
        effort c rank top n := rfl
    rw [if_neg hnp, he, Nat.zero_add]
    exact le_rfl

/-- What every event of the workers keeps: the packets in order, and the routes of `c`. -/
structure Working (c : Config H) (n : Net H) : Prop where
  ordered : Ordered c n
  same : SameRoutes c n.config

theorem Event.IsWork.keepsActions {ev : Event} (h : ev.IsWork) : ev.KeepsActions := by
  cases ev with
  | command => exact h.elim
  | work | rxBurst | alloc | quit => trivial

/-- Every event of the workers keeps them working. -/
theorem Working.next {c : Config H} {n n' : Net H} {ev : Event} (hn : Working c n)
    (hk : c.KeepsPaths) (hev : ev.IsWork) (h : step n ev = some n') : Working c n' :=
  ⟨hn.ordered.next hev.keepsActions h, hn.same.taken hk (step_taken h) hev⟩

/-- Workers that have just been launched. -/
theorem working_launch (c : Config H) (launched : Core → Bool) (size : Nat)
    (mem : Item → Message) (scratch : Core → Message) :
    Working c (launch c launched size mem scratch) :=
  ⟨ordered_launch c launched size mem scratch, .refl c⟩

/-- The productive events of a run are bounded by what there was to do and what was received. -/
theorem countAlong_productive {c : Config H} {rank : Int → Nat} {top : Nat}
    (hd : c.Descends rank top) (hk : c.KeepsPaths) {n n' : Net H} {es : List Event}
    (hn : Working c n) (hes : ∀ ev ∈ es, ev.IsWork) (h : run step n es = some n') :
    countAlong step Net.Productive n es + effort c rank top n' +
        packetEffort top * n.received.length ≤
      effort c rank top n + packetEffort top * n'.received.length :=
  countAlong_le (effort c rank top) (fun n ↦ packetEffort top * n.received.length)
    (fun _ _ _ hw hev hs ↦ hw.next hk hev hs)
    (fun _ _ _ hw _ hs ↦ effort_taken hd hw.ordered.sending hw.ordered.orderly hw.same
      (step_taken hs)) hn (along_of_forall hes n) h

/-- Nothing is to do when workers are launched. -/
private theorem effort_launch (c : Config H) (launched : Core → Bool) (size : Nat)
    (mem : Item → Message) (scratch : Core → Message) (rank : Int → Nat) (top : Nat) :
    effort c rank top (launch c launched size mem scratch) = 0 := by
  have hcost (w : Core) : (launch c launched size mem scratch).stations.stationCost c.servesAt
      rank top w = 0 := by
    obtain ⟨hw, hh, hq⟩ := stations_launch c launched size mem scratch w
    rw [Stations.stationCost, hw, hh, hq, List.length_nil, Nat.zero_mul]
    rfl
  have hhandle (w : Core) : ((launch c launched size mem scratch).pc w).handles = 0 := by
    simp only [launch]
    split <;> rfl
  simp [effort, handling, Stations.cost, hcost, hhandle]

/-- At most `packetEffort top` productive events are taken for each received packet. -/
theorem countAlong_launch_le {c : Config H} {launched : Core → Bool} {size : Nat}
    {mem : Item → Message} {scratch : Core → Message} {rank : Int → Nat} {top : Nat}
    (hd : c.Descends rank top) (hk : c.KeepsPaths) {es : List Event} {n : Net H}
    (hes : ∀ ev ∈ es, ev.IsWork)
    (h : run step (launch c launched size mem scratch) es = some n) :
    countAlong step Net.Productive (launch c launched size mem scratch) es ≤
      (6 * top + 8) * n.received.length := by
  have hc := countAlong_productive hd hk (working_launch c launched size mem scratch) hes h
  have hp : packetEffort top = 6 * top + 8 := by
    rw [packetEffort]
    omega
  rw [effort_launch, hp, Nat.zero_add] at hc
  omega

/-- In every run of any launched workers, where network functions leave their paths alone and the
installed paths go down in a rank of at most `top`, at most `6 * top + 8` productive events are
taken for each received packet. -/
theorem work_bounded (c : Config H) (launched : Core → Bool) (size : Nat)
    (mem : Item → Message) (scratch : Core → Message) (rank : Int → Nat) (top : Nat)
    (hd : c.Descends rank top) (hk : c.KeepsPaths) (es : List Event) (n : Net H)
    (hes : ∀ ev ∈ es, ev.IsWork)
    (h : run step (launch c launched size mem scratch) es = some n) :
    countAlong step Net.Productive (launch c launched size mem scratch) es ≤
      (6 * top + 8) * n.received.length :=
  countAlong_launch_le hd hk hes h

/-- The entries of `relayConfig` that a packet can meet. -/
theorem relay_entry {a : Int} {e : ActionTableEntry Unit}
    (he : relayConfig.entry a = some e) : a = 0 ∨ a ≠ 0 ∧ ∀ f, e.action ≠ some (.action f) := by
  unfold Config.entry at he
  obtain ⟨i, hi, rfl⟩ := Option.map_eq_some_iff.mp he
  rw [idx?_eq_some_iff] at hi
  by_cases h0 : i = 0
  · exact .inl (by rw [hi, h0]; rfl)
  right
  refine ⟨fun ha ↦ h0 (Fin.ext (by simpa [ha] using hi.symm)), fun f hf ↦ ?_⟩
  by_cases h1 : i = 1
  · subst h1
    simp [relayConfig, Config.setEntry, Config.setWorker, Config.zeroed] at hf
  · simp [relayConfig, Config.setEntry, Config.setWorker, Config.zeroed, h0, h1] at hf

/-- The action of entry 0 of `relayConfig`. -/
theorem relay_action {e : ActionTableEntry Unit}
    {f : State Unit → Message → Except Fault (State Unit × Int)}
    (he : relayConfig.entry 0 = some e) (ha : e.action = some (.action f)) :
    f = fun s _ ↦ .ok (s, 1) := by
  have h0 : relayConfig.entry 0 = some (relayConfig.actionTable 0) := rfl
  have hact : (relayConfig.actionTable 0).action = some (.action (fun s _ ↦ .ok (s, 1))) := rfl
  rw [h0, Option.some.injEq] at he
  rw [← he, hact, Option.some.injEq, Handler.action.injEq] at ha
  exact ha.symm

/-- The only path of `relayConfig` leads from entry 0 to entry 1. -/
theorem relay_next {a b : Int} (h : relayConfig.Next a b) : a = 0 ∧ b = 1 := by
  obtain ⟨e, f, s, σ, m, st, he, ha, -, -, hf⟩ := h
  rcases relay_entry he with rfl | ⟨-, hno⟩
  · rw [relay_action he ha, Except.ok.injEq, Prod.mk.injEq] at hf
    exact ⟨rfl, hf.2.symm⟩
  · exact absurd ha (hno f)

/-- Entry 0 of `relayConfig` has rank 1, every other one rank 0. -/
theorem relay_descends :
    relayConfig.Descends (fun a ↦ if a = 0 then 1 else 0) 1 := by
  refine ⟨fun a b h ↦ ?_, fun a ↦ ?_⟩
  · obtain ⟨rfl, rfl⟩ := relay_next h
    decide
  · split <;> decide

/-- The action of `relayConfig` leaves its paths alone. -/
theorem relay_keepsPaths : relayConfig.KeepsPaths := by
  intro a e f he ha σ m st b hf
  rcases relay_entry he with rfl | ⟨-, hno⟩
  · rw [relay_action he ha, Except.ok.injEq, Prod.mk.injEq] at hf
    rw [← hf.1]
  · exact absurd ha (hno f)

/-- The path of `relayConfig` leads to an entry of the table. -/
theorem relay_pathsInTable : relayConfig.PathsInTable := by
  intro a b h
  rw [(relay_next h).2]
  decide

/-- The trails of `relayConfig` lead through workers 1 and 3. -/
theorem relay_served {w : Core} {p : Mbuf} {l : List Int} {a : Int} {v : Core}
    (ht : relayConfig.Trail (relayConfig.firstOf w p) l a)
    (hv : relayConfig.servesAt a = some v) : v = 1 ∨ v = 3 := by
  have hfirst : relayConfig.firstOf w p = 0 := by
    by_cases hw : w = 1 <;>
      simp [relayConfig, Config.firstOf, Config.setWorker, Config.setEntry, Config.zeroed, hw]
  have ha : a = 0 ∨ a = 1 := by
    cases ht with
    | start => exact .inl hfirst
    | next _ hb => exact .inr (relay_next hb).2
  rcases ha with rfl | rfl
  · have h0 : relayConfig.servesAt 0 = some 1 := by decide
    exact .inl (Option.some.inj (hv.symm.trans h0))
  · have h1 : relayConfig.servesAt 1 = some 3 := by decide
    exact .inr (Option.some.inj (hv.symm.trans h1))

/-- The run of one packet through two workers takes at most 14 productive events. -/
theorem work_bounded_relay : ∃ n, run step relayNet relayRun = some n ∧
    countAlong step Net.Productive relayNet relayRun ≤ (6 * 1 + 8) * n.received.length := by
  have hrun : (run step relayNet relayRun).isSome := by decide
  obtain ⟨n, hn⟩ := Option.isSome_iff_exists.mp hrun
  have hes : ∀ ev ∈ relayRun, ev.IsWork := by decide
  exact ⟨n, hn, work_bounded relayConfig workerRun 1 _ _ _ 1 relay_descends relay_keepsPaths
    relayRun n hes hn⟩

/-! ### Packets that stay -/

/-- A worker that can neither handle its message nor be told that there is no free item. -/
def Net.Faulty (n : Net H) (w : Core) : Prop :=
  (∃ h, n.pc w = .handle h) ∧ step n (.work w) = none ∧ step n (.alloc w none) = none

/-- A worker that does not run although it has mail. -/
def Net.Abandoned (n : Net H) (w : Core) : Prop := n.pc w = .idle ∧ n.mailbox w ≠ []

/-- A step of a worker that does not wait for the result of a search, or a reception of nothing. -/
def Event.IsPoll : Event → Prop
  | .work _ => True
  | .rxBurst _ pkts => pkts = []
  | _ => False

/-- Possibly after other steps of the workers, without a packet being received, a productive event
of the workers is enabled. -/
def Net.CanWork (n : Net H) : Prop :=
  ∃ fs n' ev n'', (∀ e ∈ fs, e.IsPoll) ∧ run step n fs = some n' ∧ n'.Productive ev ∧
    ev.IsWork ∧ step n' ev = some n''

/-- The three ways in which packets can be stuck. -/
def Net.Stuck (n : Net H) : Prop :=
  (∃ S, Deadlocked n S) ∨ (∃ w, n.Faulty w) ∨ ∃ w, n.Abandoned w

/-- A productive event that is enabled at once. -/
theorem Net.CanWork.now {n n' : Net H} (ev : Event) (hp : n.Productive ev) (hw : ev.IsWork)
    (h : step n ev = some n') : n.CanWork :=
  ⟨[], n, ev, n', by simp, rfl, hp, hw, h⟩

/-- A worker in front of `event_handler` goes on, unless it is faulty. -/
theorem canWork_of_handle {n : Net H} {w : Core} {h : Held} (hpc : n.pc w = .handle h) :
    n.CanWork ∨ n.Faulty w := by
  have hp : n.Productive (.work w) := by simp [Net.Productive, Net.MovesOn, hpc]
  cases hw : step n (.work w) with
  | some n' => exact .inl (.now _ hp trivial hw)
  | none =>
    cases ha : step n (.alloc w none) with
    | some n' => exact .inl (.now (.alloc w none) trivial trivial ha)
    | none => exact .inr ⟨⟨h, hpc⟩, hw, ha⟩

/-- A worker that sends goes on, unless the ring is full. -/
theorem canWork_of_enqueue {n : Net H} {w dest : Core} {i : Item} {h : Held}
    (hpc : n.pc w = .enqueue dest i h) : n.CanWork ∨ n.Blocked w dest := by
  by_cases hr : (n.mailbox dest).length < n.config.ringSize - 1
  · have hp : n.Productive (.work w) := by simp [Net.Productive, Net.MovesOn, hpc, hr]
    have hs : step n (.work w) = some (pushItem n w dest i h) := by
      simp [step, workerAction, hpc, hr, pushItem]
    exact .inl (.now _ hp trivial hs)
  · exact .inr ⟨⟨i, h, hpc⟩, hr⟩

/-- A worker with packets of a burst left takes up the next one. -/
theorem canWork_of_burst {n : Net H} {w : Core} {p : Mbuf} {rest : List Mbuf}
    (hpc : n.pc w = .burst (p :: rest)) : n.CanWork := by
  have hp : n.Productive (.work w) := by simp [Net.Productive, Net.MovesOn, hpc]
  have hs : step n (.work w) = some (beginPacket n w p rest) := by
    simp [step, workerAction, hpc, beginPacket]
  exact .now _ hp trivial hs

/-- Polls after which a worker that has no message looks at its mailbox. -/
theorem poll_to_dequeue {n : Net H} {w : Core} (hq : n.config.dpQuit = false)
    (hpc : n.pc w = .top ∨ n.pc w = .dequeue ∨ n.pc w = .rx ∨ n.pc w = .burst []) :
    ∃ fs n', (∀ e ∈ fs, e.IsPoll) ∧ run step n fs = some n' ∧ n'.pc w = .dequeue ∧
      n'.mailbox = n.mailbox := by
  have htop (k : Net H) (hk : k.config.dpQuit = false) (hp : k.pc w = .top) :
      step k (.work w) = some (k.setPc w .dequeue) := by
    simp [step, workerAction, hp, hk]
  have hburst (k : Net H) (hp : k.pc w = .burst []) :
      step k (.work w) = some (k.setPc w .top) := by
    simp [step, workerAction, hp]
  have hrx (k : Net H) (hp : k.pc w = .rx) :
      step k (.rxBurst w []) = some (receive k w []) := by
    have hc : k.CanReceive [] := ⟨by simp, List.nodup_nil, by simp⟩
    simp only [step, if_pos (And.intro hp hc)]
    rfl
  have hset (k : Net H) (pc : Pc) : (k.setPc w pc).pc w = pc := Function.update_self ..
  rcases hpc with hpc | hpc | hpc | hpc
  · refine ⟨[.work w], _, by simp [Event.IsPoll], ?_, hset n .dequeue, rfl⟩
    simp [run, htop n hq hpc]
  · exact ⟨[], n, by simp, rfl, hpc, rfl⟩
  · have h1 := hrx n hpc
    have h2 := hburst (receive n w []) (Function.update_self ..)
    have h3 := htop ((receive n w []).setPc w .top) hq (hset _ _)
    refine ⟨[.rxBurst w [], .work w, .work w], _, by simp [Event.IsPoll], ?_,
      hset ((receive n w []).setPc w .top) .dequeue, rfl⟩
    simp [run, h1, h2, h3]
  · have h1 := hburst n hpc
    have h2 := htop (n.setPc w .top) hq (hset n .top)
    refine ⟨[.work w, .work w], _, by simp [Event.IsPoll], ?_,
      hset (n.setPc w .top) .dequeue, rfl⟩
    simp [run, h1, h2]

/-- A worker with mail goes on, unless it is faulty, abandoned or in front of a full ring. -/
theorem canWork_of_mail {n : Net H} {w : Core} (hq : n.config.dpQuit = false)
    (hm : n.mailbox w ≠ []) :
    n.CanWork ∨ n.Faulty w ∨ n.Abandoned w ∨ ∃ dest, n.Blocked w dest := by
  have hpoll (hpc : n.pc w = .top ∨ n.pc w = .dequeue ∨ n.pc w = .rx ∨ n.pc w = .burst []) :
      n.CanWork := by
    obtain ⟨fs, n', hfs, hrun, hd, hmail⟩ := poll_to_dequeue hq hpc
    obtain ⟨i, q, hiq⟩ := List.exists_cons_of_ne_nil hm
    have hp : n'.Productive (.work w) := by simp [Net.Productive, Net.MovesOn, hd, hmail, hm]
    have hs : step n' (.work w) = some (popItem n' w i q) := by
      simp [step, workerAction, hd, hmail, hiq, popItem]
    exact ⟨fs, n', .work w, _, hfs, hrun, hp, trivial, hs⟩
  cases hpc : n.pc w with
  | idle => exact .inr (.inr (.inl ⟨hpc, hm⟩))
  | top => exact .inl (hpoll (.inl hpc))
  | dequeue => exact .inl (hpoll (.inr (.inl hpc)))
  | rx => exact .inl (hpoll (.inr (.inr (.inl hpc))))
  | burst rest =>
    cases rest with
    | nil => exact .inl (hpoll (.inr (.inr (.inr hpc))))
    | cons p rest => exact .inl (canWork_of_burst hpc)
  | handle h => exact (canWork_of_handle hpc).imp_right .inl
  | enqueue dest i h =>
    exact (canWork_of_enqueue hpc).imp_right fun hb ↦ .inr (.inr ⟨dest, hb⟩)

/-- Where a worker is in front of a full ring, the network goes on or is stuck. -/
theorem canWork_of_blocked {n : Net H} (hq : n.config.dpQuit = false)
    (hr : 2 ≤ n.config.ringSize) {w dest : Core} (hb : n.Blocked w dest) :
    n.CanWork ∨ n.Stuck := by
  by_contra hnot
  rw [not_or, Net.Stuck, not_or, not_or] at hnot
  obtain ⟨hwork, hdead, hfault, hidle⟩ := hnot
  refine hdead ((exists_waitsWithin (fun v d hvd ↦ ?_) hb).imp fun _ h ↦ h.1)
  have hm : n.mailbox d ≠ [] := by
    intro he
    have hfull := hvd.2
    rw [he, List.length_nil] at hfull
    omega
  rcases canWork_of_mail hq hm with h | h | h | h
  · exact absurd h hwork
  · exact absurd ⟨d, h⟩ hfault
  · exact absurd ⟨d, h⟩ hidle
  · exact h

/-- A packet that was received and neither transmitted nor freed can go on, or the network is
stuck. -/
theorem canWork_of_inside {n : Net H} (hn : PacketInvariant n) (hq : n.config.dpQuit = false)
    (hr : 2 ≤ n.config.ringSize) {p : Mbuf} (hp : p ∈ n.received)
    (ht : p ∉ n.hist.transmitted) (hf : p ∉ n.hist.freed) : n.CanWork ∨ n.Stuck := by
  have hhandle {w : Core} {h : Held} (hpc : n.pc w = .handle h) : n.CanWork ∨ n.Stuck :=
    (canWork_of_handle hpc).imp_right fun h ↦ .inr (.inl ⟨w, h⟩)
  have henqueue {w dest : Core} {i : Item} {h : Held} (hpc : n.pc w = .enqueue dest i h) :
      n.CanWork ∨ n.Stuck :=
    (canWork_of_enqueue hpc).elim .inl fun hb ↦ canWork_of_blocked hq hr hb
  rcases hn.somewhere hp with h | h | ⟨w, hw⟩ | ⟨m, ⟨w, hw⟩ | ⟨w, i, hi, -⟩, -⟩
  · exact absurd h ht
  · exact absurd h hf
  · cases hpc : n.pc w with
    | idle | top | dequeue | rx => simp [hpc, Pc.pending] at hw
    | burst rest =>
      cases rest with
      | nil => simp [hpc, Pc.pending] at hw
      | cons q rest => exact .inl (canWork_of_burst hpc)
    | handle h => exact hhandle hpc
    | enqueue dest i h => exact henqueue hpc
  · cases hpc : n.pc w with
    | idle | top | dequeue | rx | burst => simp [hpc, Net.messageAt] at hw
    | handle h => exact hhandle hpc
    | enqueue dest i h => exact henqueue hpc
  · rcases canWork_of_mail hq (List.ne_nil_of_mem hi) with h | h | h | ⟨dest, h⟩
    · exact .inl h
    · exact .inr (.inr (.inl ⟨w, h⟩))
    · exact .inr (.inr (.inr ⟨w, h⟩))
    · exact canWork_of_blocked hq hr h

/-! ### What is inside -/

/-- The packets of items on their way, and those that have left the network. -/
private def accounted (n : Net H) : List Mbuf :=
  (List.finRange 48).flatMap (fun w ↦ n.carry (n.mailbox w) ++ n.handAt w (n.pc w)) ++
    n.hist.transmitted ++ n.hist.freed

/-- Messages in mailboxes and in the workers' hands carry packets that have been received and have
not left the network. -/
theorem PacketInvariant.inside_le {n : Net H} (hn : PacketInvariant n) :
    (∑ w, ((n.mailbox w).length + (n.handAt w (n.pc w)).length)) + n.hist.transmitted.length +
      n.hist.freed.length ≤ n.received.length := by
  have hcount (p : Mbuf) : (accounted n).count p ≤ n.received.count p := by
    have hsum : (((List.finRange 48).map fun w ↦ (n.carry (n.mailbox w)).count p +
        (n.handAt w (n.pc w)).count p)).sum = inMail n p + inHand n p := by
      rw [← Fin.sum_univ_def, sum_add_distrib]
      rfl
    have hp := hn.placed p
    simp only [accounted, List.count_append, List.count_flatMap, Function.comp_def, hsum]
    unfold places at hp
    omega
  have hle := (List.subperm_ext_iff.mpr fun p _ ↦ hcount p).length_le
  have hlen : (accounted n).length = (∑ w, ((n.mailbox w).length + (n.handAt w (n.pc w)).length)) +
      n.hist.transmitted.length + n.hist.freed.length := by
    simp [accounted, List.length_flatMap, Net.carry, Fin.sum_univ_def, Nat.add_assoc]
  rwa [hlen] at hle

/-- Items on their way carry packets that have been received and have not left the network. -/
theorem PacketInvariant.inFlight_le {n : Net H} (hn : PacketInvariant n) :
    inFlight n + n.hist.transmitted.length + n.hist.freed.length ≤ n.received.length := by
  have hle := hn.inside_le
  have hhand (w : Core) : (n.pc w).items.length ≤ (n.handAt w (n.pc w)).length := by
    cases n.pc w with
    | handle h => cases h <;> simp [Net.handAt]
    | enqueue => simp [Net.handAt]
    | idle | top | dequeue | rx | burst => simp
  have hheld : (∑ w, (n.pc w).items.length) ≤ ∑ w, (n.handAt w (n.pc w)).length :=
    sum_le_sum fun w _ ↦ hhand w
  rw [sum_add_distrib] at hle
  simp only [inFlight, mailItems, heldItems, List.countP_true]
  omega

/-! ### Runs without receptions -/

/-- An event by which workers go on without new packets. -/
def Event.IsInternal : Event → Prop
  | .work _ | .alloc _ _ => True
  | .rxBurst _ pkts => pkts = []
  | _ => False

theorem Event.IsPoll.isInternal {ev : Event} (h : ev.IsPoll) : ev.IsInternal := by
  cases ev with
  | work | rxBurst => exact h
  | alloc => trivial
  | command | quit => exact h.elim

theorem Event.IsInternal.isWork {ev : Event} (h : ev.IsInternal) : ev.IsWork := by
  cases ev with
  | command => exact h.elim
  | work | rxBurst | alloc | quit => trivial

theorem Net.Productive.isInternal {n : Net H} {ev : Event} (h : n.Productive ev) :
    ev.IsInternal := by
  cases ev with
  | work | alloc => trivial
  | rxBurst | command | quit => exact h.elim

/-- Internal events receive nothing. -/
theorem received_internal {n n' : Net H} {ev : Event} (hi : ev.IsInternal) (ht : Taken n ev n') :
    n'.hist.received = n.hist.received := by
  cases ht with
  | transmit => exact received_transmit ..
  | act => exact received_act ..
  | actEnd => exact received_actEnd ..
  | rxBurst w pkts hpc hp =>
    have hnil : pkts = [] := hi
    simp [receive, hnil]
  | move | pop | begin | relay | push | retry | drop | copy => rfl
  | command | quit => exact hi.elim

/-- The workers run: nobody has been asked to quit, and a worker that was launched is not idle. -/
structure Running (launched : Core → Bool) (n : Net H) : Prop where
  quit : n.config.dpQuit = false
  active : ∀ w, launched w = true → n.pc w ≠ .idle

/-- An event of the workers, but not the request to quit. -/
def Event.KeepsRunning (ev : Event) : Prop := ev.IsWork ∧ ev ≠ .quit

theorem Event.IsInternal.keepsRunning {ev : Event} (h : ev.IsInternal) : ev.KeepsRunning := by
  refine ⟨h.isWork, ?_⟩
  rintro rfl
  exact h

/-- The workers run on, whatever commands arrive. -/
theorem Running.next {launched : Core → Bool} {n n' : Net H} {ev : Event}
    (hn : Running launched n) (hev : ev ≠ .quit) (h : step n ev = some n') :
    Running launched n' := by
  have ht := step_taken h
  have hc := config_taken ht
  refine ⟨?_, fun w hw hidle ↦ ?_⟩
  · generalize n'.config = c' at hc ⊢
    cases hc with
    | same | state => exact hn.quit
    | command line c' r hcli => exact (cliProcess_dpQuit hcli).trans hn.quit
    | quit => exact absurd rfl hev
  · have hkeep (v : Core) (pc : Pc) (hpc : n'.pc = Function.update n.pc v pc) (hne : pc ≠ .idle) :
        False := by
      rw [hpc] at hidle
      by_cases hv : w = v
      · subst hv
        rw [Function.update_self] at hidle
        exact hne hidle
      · rw [Function.update_of_ne hv] at hidle
        exact hn.active w hw hidle
    have hresume (d : Held) : d.resume ≠ .idle := by cases d <;> simp [Held.resume]
    cases ht with
    | move v pc hm =>
      refine hkeep v pc rfl ?_
      rintro rfl
      obtain ⟨hpc, -⟩ | ⟨-, -, hr⟩ | ⟨-, hr⟩ := hm
      · have hs : step n (.work v) = some (n.setPc v .dequeue) := by
          simp [step, workerAction, hpc, hn.quit]
        rw [hs, Option.some.injEq] at h
        have hv := congrFun (congrArg Net.pc h) v
        simp [Net.setPc] at hv
      · simp at hr
      · simp at hr
    | pop v i q hpc hm => exact hkeep v _ rfl (by simp)
    | begin v p rest hpc => exact hkeep v _ rfl (by simp)
    | transmit v d e u hpc =>
      exact hkeep v _ (pc_transmit ..) (hresume d)
    | act v d e f s st path hpc =>
      exact hkeep v (.handle d) (pc_act n v e s st _ hpc) (by simp)
    | actEnd v d e f s st hpc =>
      exact hkeep v _ (pc_actEnd ..) (hresume d)
    | relay v i e dest hpc => exact hkeep v _ rfl (by simp)
    | push v dest i d hpc hr => exact hkeep v _ rfl (hresume d)
    | retry => exact hn.active w hw hidle
    | rxBurst v pkts hpc hp => exact hkeep v _ rfl (by simp)
    | drop v d e hpc => exact hkeep v _ rfl (hresume d)
    | copy v d e dest i hpc => exact hkeep v _ rfl (by simp)
    | command | quit => exact hn.active w hw hidle

/-- What was received, transmitted or freed stays so. -/
structure Net.Before (n n' : Net H) : Prop where
  received : n.hist.received <+: n'.hist.received
  transmitted : n.hist.transmitted <+: n'.hist.transmitted
  freed : n.hist.freed <+: n'.hist.freed

/-- Nothing has happened in between. -/
theorem Net.Before.of_hist {n n' : Net H} (h : n'.hist = n.hist) : n.Before n' := by
  refine ⟨?_, ?_, ?_⟩ <;> rw [h]

/-- One thing after the other. -/
theorem Net.Before.trans {n n' n'' : Net H} (h : n.Before n') (h' : n'.Before n'') :
    n.Before n'' :=
  ⟨h.received.trans h'.received, h.transmitted.trans h'.transmitted, h.freed.trans h'.freed⟩

/-- No event takes back a packet that was received, transmitted or freed. -/
theorem before_taken {n n' : Net H} {ev : Event} (ht : Taken n ev n') : n.Before n' := by
  cases ht with
  | transmit w h e =>
    refine ⟨?_, ?_, ?_⟩
    · rw [received_transmit]
    · rw [complete_transmitted, transmitPacket, Net.store_hist]
      exact List.prefix_append ..
    · rw [complete_freed, transmitPacket, Net.store_hist]
      exact List.prefix_rfl
  | act w h e =>
    refine ⟨?_, ?_, ?_⟩ <;> rw [Net.store_hist] <;> exact List.prefix_rfl
  | actEnd w h e =>
    refine ⟨?_, ?_, ?_⟩
    · rw [received_actEnd]
    · rw [complete_transmitted, Net.store_hist]
      exact List.prefix_rfl
    · rw [complete_freed, Net.store_hist]
      exact List.prefix_rfl
  | drop w h => exact ⟨List.prefix_rfl, List.prefix_rfl, List.prefix_append ..⟩
  | rxBurst w pkts => exact ⟨List.prefix_append .., List.prefix_rfl, List.prefix_rfl⟩
  | move | pop | begin | relay | push | retry | copy | command | quit => exact .of_hist rfl

/-- No run takes back a packet that was received, transmitted or freed. -/
theorem before_run {n n' : Net H} {es : List Event} (h : run step n es = some n') :
    n.Before n' :=
  run_invariant (P := fun m ↦ n.Before m)
    (fun _ _ _ hm hs ↦ hm.trans (before_taken (step_taken hs))) (.of_hist rfl) h

/-- A packet that has left the network does not come back. -/
theorem Net.Before.out {n n' : Net H} (h : n.Before n') {p : Mbuf}
    (hp : p ∈ n.hist.transmitted ∨ p ∈ n.hist.freed) :
    p ∈ n'.hist.transmitted ∨ p ∈ n'.hist.freed :=
  hp.imp (fun ht ↦ h.transmitted.subset ht) fun hf ↦ h.freed.subset hf

/-! ### Draining -/

/-- What holds of the workers while they run over `c`, whatever they do. -/
structure Driven (c : Config H) (launched : Core → Bool) (n : Net H) : Prop where
  working : Working c n
  routed : Routed c n
  running : Running launched n
  ring : n.config.ringSize = c.ringSize

/-- The workers run on over `c`. -/
theorem Driven.next {c : Config H} {launched : Core → Bool} {n n' : Net H} {ev : Event}
    (hn : Driven c launched n) (hk : c.KeepsPaths) (hp : c.PathsInTable)
    (hev : ev.KeepsRunning) (h : step n ev = some n') : Driven c launched n' :=
  ⟨hn.working.next hk hev.1 h, hn.routed.next hk hp hev.1 h, hn.running.next hev.2 h,
    (ringSize_taken (step_taken h)).trans hn.ring⟩

/-- Workers that have just been launched run over their configuration. -/
theorem driven_launch (c : Config H) (launched : Core → Bool) (size : Nat) (mem : Item → Message)
    (scratch : Core → Message) (hq : c.dpQuit = false) :
    Driven c launched (launch c launched size mem scratch) := by
  refine ⟨working_launch c launched size mem scratch, routed_launch c launched size mem scratch,
    ⟨hq, fun w hw ↦ ?_⟩, rfl⟩
  simp [launch, hw]

/-- A run of running workers over `c`. -/
theorem Driven.run {c : Config H} {launched : Core → Bool} {n n' : Net H} {es : List Event}
    (hn : Driven c launched n) (hk : c.KeepsPaths) (hp : c.PathsInTable)
    (hes : ∀ ev ∈ es, ev.KeepsRunning) (h : run step n es = some n') : Driven c launched n' :=
  run_invariant_along (fun _ _ _ hm hev hs ↦ hm.next hk hp hev hs) hn (along_of_forall hes _) h

/-- An internal run receives nothing. -/
theorem run_internal {n n' : Net H} {fs : List Event} (hfs : ∀ ev ∈ fs, ev.IsInternal)
    (h : run step n fs = some n') : n'.hist.received = n.hist.received :=
  run_invariant_along (P := fun m ↦ m.hist.received = n.hist.received)
    (fun _ _ _ hm hev hs ↦ (received_internal hev (step_taken hs)).trans hm) rfl
    (along_of_forall hfs n) h

/-- Where the installed paths have no cycle, the workers can go on without new packets until every
packet has left the network, or until they are stuck. -/
theorem exists_drained_or_stuck {c : Config H} {launched : Core → Bool} {rank : Int → Nat}
    {top : Nat} (hd : c.Descends rank top) (hk : c.KeepsPaths) (hp : c.PathsInTable)
    (hr : 2 ≤ c.ringSize) {n : Net H} (hn : Driven c launched n) :
    ∃ fs n', (∀ ev ∈ fs, ev.IsInternal) ∧ Base.run step n fs = some n' ∧
      ((∀ p ∈ n'.received, p ∈ n'.hist.transmitted ∨ p ∈ n'.hist.freed) ∨ n'.Stuck) := by
  -- by induction on what is left to do, which every productive event lowers
  induction hm : effort c rank top n using Nat.strong_induction_on generalizing n with
  | _ m ih =>
    by_cases hout : ∀ p ∈ n.received, p ∈ n.hist.transmitted ∨ p ∈ n.hist.freed
    · exact ⟨[], n, by simp, rfl, .inl hout⟩
    push Not at hout
    obtain ⟨p, hpr, ht, hf⟩ := hout
    rcases canWork_of_inside hn.routed.packets hn.running.quit (hn.ring ▸ hr) hpr ht hf with
      hwork | hstuck
    · obtain ⟨fs, n₁, ev, n₂, hfs, hrun, hprod, -, hstep⟩ := hwork
      have hall : ∀ e ∈ fs ++ [ev], e.IsInternal := by
        intro e he
        rcases List.mem_append.mp he with he | he
        · exact (hfs e he).isInternal
        · rw [List.mem_singleton.mp he]
          exact hprod.isInternal
      have h₂ : Base.run step n (fs ++ [ev]) = some n₂ := run_snoc hrun hstep
      have hn₁ := hn.run hk hp (fun e he ↦ (hfs e he).isInternal.keepsRunning) hrun
      have hn₂ := hn.run hk hp (fun e he ↦ (hall e he).keepsRunning) h₂
      have he₁ := countAlong_productive hd hk hn.working
        (fun e he ↦ (hfs e he).isInternal.isWork) hrun
      have he₂ := effort_taken hd hn₁.working.ordered.sending hn₁.working.ordered.orderly
        hn₁.working.same (step_taken hstep)
      have hr₁ : n₁.received = n.received :=
        congrArg (List.map Prod.snd) (run_internal (fun e he ↦ (hfs e he).isInternal) hrun)
      have hr₂ : n₂.received = n₁.received :=
        congrArg (List.map Prod.snd) (received_internal hprod.isInternal (step_taken hstep))
      rw [hr₁] at he₁
      rw [if_pos hprod, hr₂] at he₂
      obtain ⟨gs, n', hgs, hrun', hend⟩ := ih (effort c rank top n₂) (by omega) hn₂ rfl
      refine ⟨fs ++ [ev] ++ gs, n', fun e he ↦ ?_, (run_append h₂).trans hrun', hend⟩
      exact (List.mem_append.mp he).elim (hall e) (hgs e)
    · exact ⟨[], n, by simp, rfl, .inr hstuck⟩

/-- Mail for workers that were launched is not abandoned. -/
theorem Driven.not_abandoned {c : Config H} {launched : Core → Bool} {n : Net H}
    (hn : Driven c launched n)
    (hl : ∀ w p l a v, (w, p) ∈ n.hist.received → c.Trail (c.firstOf w p) l a →
      c.servesAt a = some v → launched v = true) (v : Core) : ¬ n.Abandoned v := by
  rintro ⟨hidle, hmail⟩
  obtain ⟨i, q, hq⟩ := List.exists_cons_of_ne_nil hmail
  have hi : i ∈ n.mailbox v := by
    rw [hq]
    exact List.mem_cons_self
  have hsite : c.servesAt (n.mem i).actionId = some v :=
    (hn.working.ordered.orderly.placed.queue v (n.jobOf (n.mem i)) (List.mem_map_of_mem hi)).1
  obtain ⟨w, hw, htrail⟩ := (hn.routed.trail (n.mem i).m).held (n.mem i) (.inr ⟨v, i, hi, rfl⟩) rfl
  exact hn.running.active v (hl w _ _ _ v hw htrail hsite) hidle

/-- Running workers with few packets inside do not block each other. -/
theorem Driven.not_deadlocked {c : Config H} {launched : Core → Bool} {n : Net H}
    (hn : Driven c launched n)
    (hfew : n.received.length <
      n.hist.transmitted.length + n.hist.freed.length + 2 * c.ringSize)
    (S : Finset Core) : ¬ Deadlocked n S := by
  intro hS
  have hneeds : 2 * n.config.ringSize ≤ inFlight n := by
    refine (hS.inFlight fun w _ hw ↦ ?_).2
    obtain ⟨⟨i, d, hpc⟩, -⟩ := hw
    exact (hn.working.ordered.sending.dest w w i d hpc).2 rfl
  have hle := hn.routed.packets.inFlight_le
  rw [hn.ring] at hneeds
  omega

/-- Running workers with few packets inside hand out every packet they have received, or a network
function faults. -/
theorem Driven.drains {c : Config H} {launched : Core → Bool} {rank : Int → Nat} {top : Nat}
    {n : Net H} (hn : Driven c launched n) (hd : c.Descends rank top) (hk : c.KeepsPaths)
    (hp : c.PathsInTable) (hr : 2 ≤ c.ringSize)
    (hl : ∀ w p l a v, (w, p) ∈ n.hist.received → c.Trail (c.firstOf w p) l a →
      c.servesAt a = some v → launched v = true)
    (hfew : n.received.length <
      n.hist.transmitted.length + n.hist.freed.length + 2 * c.ringSize) :
    ∃ fs n', (∀ ev ∈ fs, ev.IsInternal) ∧ Base.run step n fs = some n' ∧
      ((∀ p ∈ n.received, p ∈ n'.hist.transmitted ∨ p ∈ n'.hist.freed) ∨ ∃ w, n'.Faulty w) := by
  obtain ⟨fs, n', hfs, hrun, hend⟩ := exists_drained_or_stuck hd hk hp hr hn
  have hn' := hn.run hk hp (fun ev hev ↦ (hfs ev hev).keepsRunning) hrun
  have hrec := run_internal hfs hrun
  have htr := (before_run hrun).transmitted.length_le
  have hfr := (before_run hrun).freed.length_le
  have hrec' : n'.received = n.received := congrArg (List.map Prod.snd) hrec
  refine ⟨fs, n', hfs, hrun, ?_⟩
  rcases hend with hout | ⟨S, hS⟩ | hfault | ⟨v, hv⟩
  · exact .inl (hrec' ▸ hout)
  · refine absurd hS (hn'.not_deadlocked ?_ S)
    rw [hrec']
    omega
  · exact .inr hfault
  · exact absurd hv (hn'.not_abandoned (hrec ▸ hl) v)

end Nflambda.Runtime
