import Nflambda.Runtime.Edit
import Nflambda.Runtime.Worker

/-!
# What one event of the network does

Library `Runtime`. `Taken` lists, once for every program point and branch of
`worker_action` and `event_handler`, what an enabled event does. Every invariant
of the network is proved by cases on it.
-/

namespace Nflambda.Runtime

open Nflambda.Base

variable {H : Type}

/-- The network after a locally created message could not be copied. -/
def dropPacket (n : Net H) (w : Core) (h : Held) : Net H :=
  { n.setPc w h.resume with hist := { n.hist with freed := n.hist.freed ++ [(n.message w h).m] } }

/-- The network after a locally created message was copied to a free item. -/
def copyPacket (n : Net H) (w dest : Core) (i : Item) (h : Held) : Net H :=
  { n.setPc w (.enqueue dest i h) with
    buffer := Function.update n.buffer w ((n.buffer w).erase i)
    mem := Function.update n.mem i { n.message w h with producerId := (w.val : Int) } }

/-- The network after an item was put into a mailbox. -/
def pushItem (n : Net H) (w dest : Core) (i : Item) (h : Held) : Net H :=
  { n.setPc w h.resume with
    mailbox := Function.update n.mailbox dest (n.mailbox dest ++ [i]) }

/-- The network after an item was taken from the own mailbox. -/
def popItem (n : Net H) (w : Core) (i : Item) (q : List Item) : Net H :=
  { n.setPc w (.handle (.item i)) with mailbox := Function.update n.mailbox w q }

/-- The network after the next packet of a burst was put into the local message. -/
def beginPacket (n : Net H) (w : Core) (p : Mbuf) (rest : List Mbuf) : Net H :=
  { n.setPc w (.handle (.packet rest)) with
    scratch := Function.update n.scratch w (startPacket n w p) }

/-- The network after a burst was received. -/
def receive (n : Net H) (w : Core) (pkts : List Mbuf) : Net H :=
  { n.setPc w (.burst pkts) with
    hist := { n.hist with received := n.hist.received ++ pkts.map (fun p ↦ (w, p)) } }

/-- The call that worker `w` makes when entry `e` is selected for the message `h`. -/
def callOf (n : Net H) (w : Core) (h : Held) (e : ActionTableEntry H) : Call :=
  ⟨(n.message w h).m, (n.message w h).actionId, w, e.state⟩

/-- The network while a network function's action has run and updated its state. -/
def ranAction (n : Net H) (w : Core) (h : Held) (e : ActionTableEntry H) (s : Fin STATE_NUM)
    (st : State H) : Net H :=
  (n.called (callOf n w h e)).updateState s st

/-- The enabled events with their results. -/
inductive Taken (n : Net H) : Event → Net H → Prop where
  | move (w : Core) (pc : Pc)
      (h : n.pc w = .top ∧ (pc = .idle ∨ pc = .dequeue) ∨
        n.pc w = .dequeue ∧ n.mailbox w = [] ∧ (pc = .rx ∨ pc = .top) ∨
        n.pc w = .burst [] ∧ pc = .top) :
      Taken n (.work w) (n.setPc w pc)
  | pop (w : Core) (i : Item) (q : List Item) (hpc : n.pc w = .dequeue)
      (hm : n.mailbox w = i :: q) : Taken n (.work w) (popItem n w i q)
  | begin (w : Core) (p : Mbuf) (rest : List Mbuf) (hpc : n.pc w = .burst (p :: rest)) :
      Taken n (.work w) (beginPacket n w p rest)
  | transmit (w : Core) (h : Held) (e : ActionTableEntry H) (v : Core)
      (hpc : n.pc w = .handle h) (he : n.config.entry (n.message w h).actionId = some e)
      (hc : e.coreId = (w.val : Int)) (ha : e.action = some .transmitPacket)
      (hs : e.state = .worker v) :
      Taken n (.work w) (complete (transmitPacket (n.called (callOf n w h e)) w h) w h)
  | act (w : Core) (h : Held) (e : ActionTableEntry H)
      (f : State H → Message → Except Fault (State H × Int)) (s : Fin STATE_NUM)
      (st : State H) (path : Int)
      (hpc : n.pc w = .handle h) (he : n.config.entry (n.message w h).actionId = some e)
      (hc : e.coreId = (w.val : Int)) (ha : e.action = some (.action f)) (hs : e.state = .state s)
      (hf : f (n.config.states s) (n.message w h) = .ok (st, path)) (hp : path ≠ -1) :
      Taken n (.work w)
        ((ranAction n w h e s st).store w h { n.message w h with path, actionId := path })
  | actEnd (w : Core) (h : Held) (e : ActionTableEntry H)
      (f : State H → Message → Except Fault (State H × Int)) (s : Fin STATE_NUM)
      (st : State H)
      (hpc : n.pc w = .handle h) (he : n.config.entry (n.message w h).actionId = some e)
      (hc : e.coreId = (w.val : Int)) (ha : e.action = some (.action f)) (hs : e.state = .state s)
      (hf : f (n.config.states s) (n.message w h) = .ok (st, -1)) :
      Taken n (.work w)
        (complete ((ranAction n w h e s st).store w h { n.message w h with path := -1 }) w h)
  | relay (w : Core) (i : Item) (e : ActionTableEntry H) (dest : Core)
      (hpc : n.pc w = .handle (.item i)) (he : n.config.entry (n.mem i).actionId = some e)
      (hc : e.coreId ≠ (w.val : Int)) (hl : (n.mem i).producerId ≠ -1)
      (hd : e.coreId = (dest.val : Int)) :
      Taken n (.work w) (n.setPc w (.enqueue dest i (.item i)))
  | push (w dest : Core) (i : Item) (h : Held) (hpc : n.pc w = .enqueue dest i h)
      (hr : (n.mailbox dest).length < n.config.ringSize - 1) :
      Taken n (.work w) (pushItem n w dest i h)
  | retry (w dest : Core) (i : Item) (h : Held) (hpc : n.pc w = .enqueue dest i h)
      (hr : ¬ (n.mailbox dest).length < n.config.ringSize - 1) : Taken n (.work w) n
  | rxBurst (w : Core) (pkts : List Mbuf) (hpc : n.pc w = .rx) (hp : n.CanReceive pkts) :
      Taken n (.rxBurst w pkts) (receive n w pkts)
  | drop (w : Core) (h : Held) (e : ActionTableEntry H) (hpc : n.pc w = .handle h)
      (he : n.config.entry (n.message w h).actionId = some e) (hc : e.coreId ≠ (w.val : Int))
      (hl : (n.message w h).producerId = -1) :
      Taken n (.alloc w none) (dropPacket n w h)
  | copy (w : Core) (h : Held) (e : ActionTableEntry H) (dest : Core) (i : Item)
      (hpc : n.pc w = .handle h)
      (he : n.config.entry (n.message w h).actionId = some e) (hc : e.coreId ≠ (w.val : Int))
      (hl : (n.message w h).producerId = -1) (hd : e.coreId = (dest.val : Int))
      (hi : i ∈ n.buffer w) :
      Taken n (.alloc w (some i)) (copyPacket n w dest i h)
  | command (line : List Char) (c : Config H) (r : Reply)
      (h : cliProcess n.config line = .ok (c, r)) :
      Taken n (.command line) { n with config := c }
  | quit : Taken n .quit { n with config := { n.config with dpQuit := true } }

private theorem taken_selectAction (n n' : Net H) (w : Core) (h : Held)
    (e : ActionTableEntry H) (hpc : n.pc w = .handle h)
    (he : n.config.entry (n.message w h).actionId = some e) (hc : e.coreId = (w.val : Int))
    (hn : selectAction n w h e = some n') : Taken n (.work w) n' := by
  unfold selectAction at hn
  dsimp only at hn
  split at hn
  · next v ha hs =>
    rw [Option.some.injEq] at hn
    rw [← hn]
    exact .transmit w h e v hpc he hc ha hs
  · next f s ha hs =>
    split at hn
    · simp at hn
    · next st path hf =>
      split at hn
      · next hp =>
        subst hp
        rw [Option.some.injEq] at hn
        rw [← hn]
        exact .actEnd w h e f s st hpc he hc ha hs hf
      · next hp =>
        rw [Option.some.injEq] at hn
        rw [← hn]
        exact .act w h e f s st path hpc he hc ha hs hf hp
  · simp at hn

private theorem taken_eventHandler (n n' : Net H) (w : Core) (h : Held)
    (hpc : n.pc w = .handle h) (hn : eventHandler n w h = some n') :
    Taken n (.work w) n' := by
  unfold eventHandler at hn
  dsimp only at hn
  split at hn
  · simp at hn
  · next e he =>
    split at hn
    · next hc => exact taken_selectAction n n' w h e hpc he hc hn
    · next hc =>
      split at hn
      · simp at hn
      · next hl =>
        split at hn
        · next dest i hd =>
          rw [Option.some.injEq] at hn
          rw [← hn]
          exact .relay w i e dest hpc he hc hl (idx?_eq_some_iff.mp hd)
        · simp at hn

private theorem taken_allocate (n n' : Net H) (w : Core) (h : Held) (r : Option Item)
    (hpc : n.pc w = .handle h) (hn : allocate n w h r = some n') :
    Taken n (.alloc w r) n' := by
  unfold allocate at hn
  dsimp only at hn
  split at hn
  · simp at hn
  · next e he =>
    split at hn
    · next hc =>
      split at hn
      · simp at hn
      · rw [Option.some.injEq] at hn
        rw [← hn]
        exact .drop w h e hpc he hc.1 hc.2
      · next dest i hd =>
        split at hn
        · next hi =>
          rw [Option.some.injEq] at hn
          rw [← hn]
          exact .copy w h e dest i hpc he hc.1 hc.2 (idx?_eq_some_iff.mp hd) hi
        · simp at hn
    · simp at hn

private theorem taken_workerAction (n n' : Net H) (w : Core)
    (hn : workerAction n w = some n') : Taken n (.work w) n' := by
  unfold workerAction at hn
  split at hn
  · simp at hn
  · next hpc =>
    rw [Option.some.injEq] at hn
    rw [← hn]
    exact .move w _ (.inl ⟨hpc, by split <;> simp⟩)
  · next hpc =>
    split at hn
    · next i q hm =>
      rw [Option.some.injEq] at hn
      rw [← hn]
      exact .pop w i q hpc hm
    · next hm =>
      rw [Option.some.injEq] at hn
      rw [← hn]
      exact .move w _ (.inr (.inl ⟨hpc, hm, by split <;> simp⟩))
  · simp at hn
  · next hpc =>
    rw [Option.some.injEq] at hn
    rw [← hn]
    exact .move w _ (.inr (.inr ⟨hpc, rfl⟩))
  · next p rest hpc =>
    rw [Option.some.injEq] at hn
    rw [← hn]
    exact .begin w p rest hpc
  · next h hpc => exact taken_eventHandler n n' w h hpc hn
  · next dest i h hpc =>
    split at hn
    · next hr =>
      rw [Option.some.injEq] at hn
      rw [← hn]
      exact .push w dest i h hpc hr
    · next hr =>
      rw [Option.some.injEq] at hn
      rw [← hn]
      exact .retry w dest i h hpc hr

/-- Every enabled event is one of the listed ones. -/
theorem step_taken {n n' : Net H} {ev : Event} (h : step n ev = some n') : Taken n ev n' := by
  cases ev with
  | work w => exact taken_workerAction n n' w h
  | rxBurst w pkts =>
    simp only [step] at h
    split at h
    · next hp =>
      rw [Option.some.injEq] at h
      rw [← h]
      exact .rxBurst w pkts hp.1 hp.2
    · simp at h
  | alloc w r =>
    simp only [step] at h
    split at h
    · next hd hpc => exact taken_allocate n n' w hd r hpc h
    · simp at h
  | command line =>
    simp only [step] at h
    split at h
    · next c r hc =>
      rw [Option.some.injEq] at h
      rw [← h]
      exact .command line c r hc
    · simp at h
  | quit =>
    simp only [step, Option.some.injEq] at h
    rw [← h]
    exact .quit

section Enabled

variable {n : Net H} {w dest : Core} {i : Item} {h : Held} {e : ActionTableEntry H}

/-- A worker takes the next packet of its burst. -/
theorem enabled_begin {p : Mbuf} {rest : List Mbuf} (hpc : n.pc w = .burst (p :: rest)) :
    step n (.work w) = some (beginPacket n w p rest) := by
  simp only [step, workerAction, hpc]
  rfl

/-- A worker takes the next item out of its mailbox. -/
theorem enabled_pop {q : List Item} (hpc : n.pc w = .dequeue) (hm : n.mailbox w = i :: q) :
    step n (.work w) = some (popItem n w i q) := by
  simp only [step, workerAction, hpc, hm]
  rfl

/-- A worker runs the action of a network function that leads on. -/
theorem enabled_act {f : State H → Message → Except Fault (State H × Int)} {s : Fin STATE_NUM}
    {st : State H} {path : Int} (hpc : n.pc w = .handle h)
    (he : n.config.entry (n.message w h).actionId = some e) (hc : e.coreId = (w.val : Int))
    (ha : e.action = some (.action f)) (hs : e.state = .state s)
    (hf : f (n.config.states s) (n.message w h) = .ok (st, path)) (hp : path ≠ -1) :
    step n (.work w) = some
      ((ranAction n w h e s st).store w h { n.message w h with path, actionId := path }) := by
  simp only [step, workerAction, hpc, eventHandler, he, if_pos hc, selectAction, ha, hs,
    Net.called_config, hf, if_neg hp]
  simp only [ranAction, callOf, hs]

/-- A worker transmits a packet. -/
theorem enabled_transmit {v : Core} (hpc : n.pc w = .handle h)
    (he : n.config.entry (n.message w h).actionId = some e) (hc : e.coreId = (w.val : Int))
    (ha : e.action = some .transmitPacket) (hs : e.state = .worker v) :
    step n (.work w) = some (complete (transmitPacket (n.called (callOf n w h e)) w h) w h) := by
  simp only [step, workerAction, hpc, eventHandler, he, if_pos hc, selectAction, ha, hs, callOf]

/-- A worker copies a message that has to leave the core to a free item. -/
theorem enabled_copy (hpc : n.pc w = .handle h)
    (he : n.config.entry (n.message w h).actionId = some e) (hc : e.coreId ≠ (w.val : Int))
    (hl : (n.message w h).producerId = -1) (hd : e.coreId = (dest.val : Int))
    (hi : i ∈ n.buffer w) : step n (.alloc w (some i)) = some (copyPacket n w dest i h) := by
  have hdest : idx? 48 e.coreId = some dest := idx?_eq_some_iff.mpr hd
  simp only [step, hpc, allocate, he, if_pos (And.intro hc hl), hdest, if_pos hi, copyPacket]

/-- A worker whose message has to leave the core finds no free item. -/
theorem enabled_drop (hpc : n.pc w = .handle h)
    (he : n.config.entry (n.message w h).actionId = some e) (hc : e.coreId ≠ (w.val : Int))
    (hl : (n.message w h).producerId = -1) (hd : e.coreId = (dest.val : Int)) :
    step n (.alloc w none) = some (dropPacket n w h) := by
  have hdest : idx? 48 e.coreId = some dest := idx?_eq_some_iff.mpr hd
  simp only [step, hpc, allocate, he, if_pos (And.intro hc hl), hdest, dropPacket]

/-- A worker wants to send on an item that another one has produced. -/
theorem enabled_relay (hpc : n.pc w = .handle (.item i))
    (he : n.config.entry (n.mem i).actionId = some e) (hc : e.coreId ≠ (w.val : Int))
    (hl : (n.mem i).producerId ≠ -1) (hd : e.coreId = (dest.val : Int)) :
    step n (.work w) = some (n.setPc w (.enqueue dest i (.item i))) := by
  have hdest : idx? 48 e.coreId = some dest := idx?_eq_some_iff.mpr hd
  simp only [step, workerAction, hpc, eventHandler, Net.message, he, if_neg hc, if_neg hl, hdest]

/-- A worker finds room in the ring it sends to. -/
theorem enabled_push (hpc : n.pc w = .enqueue dest i h)
    (hr : (n.mailbox dest).length < n.config.ringSize - 1) :
    step n (.work w) = some (pushItem n w dest i h) := by
  simp only [step, workerAction, hpc, if_pos hr]
  rfl

/-- A worker receives a burst. -/
theorem enabled_rxBurst {pkts : List Mbuf} (hpc : n.pc w = .rx) (hp : n.CanReceive pkts) :
    step n (.rxBurst w pkts) = some (receive n w pkts) := by
  simp only [step, if_pos (And.intro hpc hp)]
  rfl

end Enabled

/-- The end of handling leaves the configuration alone. -/
@[simp] theorem complete_config (n : Net H) (w : Core) (h : Held) :
    (complete n w h).config = n.config := by
  unfold complete
  cases h with
  | packet rest => rfl
  | item i =>
    dsimp only
    split <;> rfl

/-- What an event does to the configuration: an action may update its state, and commands are
executed. -/
inductive ConfigTaken (c : Config H) : Event → Config H → Prop
  | same (ev : Event) : ConfigTaken c ev c
  | state (w : Core) (s : Fin STATE_NUM) (st : State H) :
    ConfigTaken c (.work w) (c.setState s st)
  | command (line : List Char) (c' : Config H) (r : Reply)
    (h : cliProcess c line = .ok (c', r)) : ConfigTaken c (.command line) c'
  | quit : ConfigTaken c .quit { c with dpQuit := true }

/-- The change of the configuration by an enabled event. -/
theorem config_taken {n n' : Net H} {ev : Event} (ht : Taken n ev n') :
    ConfigTaken n.config ev n'.config := by
  cases ht with
  | transmit w h =>
    rw [complete_config, transmitPacket, Net.store_config]
    exact .same _
  | act w h e f s st =>
    rw [Net.store_config]
    exact .state w s st
  | actEnd w h e f s st =>
    rw [complete_config, Net.store_config]
    exact .state w s st
  | command line c r h => exact .command line c r h
  | quit => exact .quit
  | move | pop | begin | relay | push | retry | rxBurst | drop | copy => exact .same _

/-- The rings keep their size. -/
theorem ringSize_taken {n n' : Net H} {ev : Event} (ht : Taken n ev n') :
    n'.config.ringSize = n.config.ringSize := by
  have hc := config_taken ht
  generalize n'.config = c' at hc ⊢
  cases hc with
  | command line c' r h => exact cliProcess_ringSize h
  | same | state | quit => rfl

/-- A command line that is not an `action` command. -/
def Event.KeepsActions : Event → Prop
  | .command line => (strtok line).head? ≠ some "action"
  | _ => True

/-- Without `action` commands the action table stays as it is. -/
theorem entryFields_taken {n n' : Net H} {ev : Event} (ht : Taken n ev n')
    (hev : ev.KeepsActions) (i : Fin ACTION_TABLE_SIZE) :
    entryFields n'.config i = entryFields n.config i := by
  have hc := config_taken ht
  generalize n'.config = c' at hc ⊢
  cases hc with
  | command line c' r h => exact cliProcess_entryFields h hev i
  | same | state | quit => rfl

/-- Where the packet path reads the same of every entry, it finds the same of an index. -/
theorem exists_entry_of_fields {c c' : Config H}
    (hf : ∀ i, entryFields c' i = entryFields c i) {id : Int} {e : ActionTableEntry H}
    (he : c.entry id = some e) :
    ∃ e', c'.entry id = some e' ∧ e'.action = e.action ∧ e'.state = e.state ∧
      e'.coreId = e.coreId := by
  unfold Config.entry at he ⊢
  obtain ⟨i, hi, rfl⟩ := Option.map_eq_some_iff.mp he
  refine ⟨c'.actionTable i, by rw [hi]; rfl, ?_, ?_, ?_⟩
  · exact congrArg (·.1) (hf i)
  · exact congrArg (·.2.1) (hf i)
  · exact congrArg (·.2.2) (hf i)

/-- The end of handling notes at most a forgotten item. -/
theorem complete_hist (n : Net H) (w : Core) (h : Held) :
    ∃ l, (complete n w h).hist = { n.hist with forgotten := l } := by
  unfold complete
  cases h with
  | packet rest => exact ⟨n.hist.forgotten, rfl⟩
  | item i =>
    dsimp only
    split
    · exact ⟨n.hist.forgotten, rfl⟩
    · exact ⟨i :: n.hist.forgotten, rfl⟩

/-- The end of handling calls no action. -/
@[simp] theorem complete_calls (n : Net H) (w : Core) (h : Held) :
    (complete n w h).hist.calls = n.hist.calls := by
  obtain ⟨l, hl⟩ := complete_hist n w h
  rw [hl]

/-- The end of handling receives no packet. -/
@[simp] theorem complete_received (n : Net H) (w : Core) (h : Held) :
    (complete n w h).hist.received = n.hist.received := by
  obtain ⟨l, hl⟩ := complete_hist n w h
  rw [hl]

/-- The end of handling transmits no packet. -/
@[simp] theorem complete_transmitted (n : Net H) (w : Core) (h : Held) :
    (complete n w h).hist.transmitted = n.hist.transmitted := by
  obtain ⟨l, hl⟩ := complete_hist n w h
  rw [hl]

/-- The end of handling frees no packet. -/
@[simp] theorem complete_freed (n : Net H) (w : Core) (h : Held) :
    (complete n w h).hist.freed = n.hist.freed := by
  obtain ⟨l, hl⟩ := complete_hist n w h
  rw [hl]

/-- An entry that can be selected: `transmit_packet` on a worker object, or an action on a state
object. -/
def ActionTableEntry.Runs (e : ActionTableEntry H) : Prop :=
  (∃ v, e.action = some .transmitPacket ∧ e.state = .worker v) ∨
    ∃ f s, e.action = some (.action f) ∧ e.state = .state s

/-- What an event adds to the calls: at most one, of an entry on the worker that takes the step. -/
theorem calls_taken {n n' : Net H} {ev : Event} (ht : Taken n ev n') :
    n'.hist.calls = n.hist.calls ∨ ∃ w h e, ev = .work w ∧ n.pc w = .handle h ∧
      n.config.entry (n.message w h).actionId = some e ∧ e.coreId = (w.val : Int) ∧ e.Runs ∧
      n'.hist.calls = n.hist.calls ++ [callOf n w h e] := by
  cases ht with
  | transmit w h e v hpc he hc ha hs =>
    refine Or.inr ⟨w, h, e, rfl, hpc, he, hc, Or.inl ⟨v, ha, hs⟩, ?_⟩
    rw [complete_calls, transmitPacket, Net.store_hist]
    rfl
  | act w h e f s st path hpc he hc ha hs =>
    refine Or.inr ⟨w, h, e, rfl, hpc, he, hc, Or.inr ⟨f, s, ha, hs⟩, ?_⟩
    rw [Net.store_hist]
    rfl
  | actEnd w h e f s st hpc he hc ha hs =>
    refine Or.inr ⟨w, h, e, rfl, hpc, he, hc, Or.inr ⟨f, s, ha, hs⟩, ?_⟩
    rw [complete_calls, Net.store_hist]
    rfl
  | move | pop | begin | relay | push | retry | rxBurst | drop | copy | command | quit =>
    exact Or.inl rfl

end Nflambda.Runtime
