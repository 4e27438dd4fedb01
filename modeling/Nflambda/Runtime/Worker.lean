import Nflambda.Base.Transition
import Nflambda.Runtime.Cli

/-!
# The worker network

Library `Runtime`. Source `src/runtime/worker.h:71–185`. A network is the
configuration together with the mailboxes, the message pools and the program
point of every worker. One event takes one worker from one program point to the
next, so that a run is an interleaving of the workers' loops with commands.

`rte_ring` is a bounded first-in first-out queue. `get_free_item` may return any
item of the pool or `NULL`. Counters that only feed the log are left out.
-/

namespace Nflambda.Runtime

open Nflambda.Base

/-- An object of a message pool: the worker whose `message_buffer` it was allocated in, and
its place there. -/
structure Item where
  owner : Core
  place : Nat
  deriving DecidableEq, Repr

/-- The message a worker works on: one it dequeued, or its own `p_cm_local`, in which case the
packets of the burst that come after it are kept. -/
inductive Held where
  | item (i : Item)
  | packet (rest : List Mbuf)
  deriving DecidableEq, Repr

/-- Where a worker stands in `worker_action`, `worker.h:123–185`. -/
inductive Pc where
  /-- Not launched, or returned from `worker_action`. -/
  | idle
  /-- The test of the outer loop. -/
  | top
  /-- Before `rte_ring_dequeue` on the own mailbox. -/
  | dequeue
  /-- Before `rte_eth_rx_burst`. -/
  | rx
  /-- The loop over a burst, with the packets that are not yet processed. -/
  | burst (rest : List Mbuf)
  /-- The loop `while (ret == 0)`, before a call of `event_handler`. -/
  | handle (h : Held)
  /-- The retry loop around `rte_ring_enqueue`; `h` is what `event_handler` was called on. -/
  | enqueue (dest : Core) (i : Item) (h : Held)
  deriving DecidableEq, Repr

/-- One call of a selected action. -/
structure Call where
  m : Mbuf
  actionId : Int
  core : Core
  state : StateRef
  deriving DecidableEq, Repr

/-- What has happened in a run: packets received, transmitted and freed, items that were
neither returned nor passed on, and calls of actions, the oldest first. -/
structure History where
  received : List (Core × Mbuf)
  transmitted : List Mbuf
  freed : List Mbuf
  forgotten : List Item
  calls : List Call

/-- The running network. -/
structure Net (H : Type) where
  config : Config H
  /-- Contents of the pool items. -/
  mem : Item → Message
  /-- `p_cm_local` of every worker. -/
  scratch : Core → Message
  mailbox : Core → List Item
  /-- Free items of every worker's `message_buffer`. -/
  buffer : Core → List Item
  pc : Core → Pc
  hist : History

/-- Events of a run: a worker takes its next step, receives a burst, or is told the result of
`get_free_item`; a command line arrives; the program is asked to quit. -/
inductive Event where
  | work (w : Core)
  | rxBurst (w : Core) (pkts : List Mbuf)
  | alloc (w : Core) (i : Option Item)
  | command (line : List Char)
  | quit
  deriving DecidableEq, Repr

variable {H : Type}

namespace Net

/-- Move one worker to a program point. -/
def setPc (n : Net H) (w : Core) (pc : Pc) : Net H :=
  { n with pc := Function.update n.pc w pc }

/-- The message a pointer held by worker `w` refers to. -/
def message (n : Net H) (w : Core) : Held → Message
  | .item i => n.mem i
  | .packet _ => n.scratch w

/-- Write through a pointer held by worker `w`. -/
def store (n : Net H) (w : Core) (h : Held) (m : Message) : Net H :=
  match h with
  | .item i => { n with mem := Function.update n.mem i m }
  | .packet _ => { n with scratch := Function.update n.scratch w m }

/-- Note the call of a selected action. -/
def called (n : Net H) (c : Call) : Net H :=
  { n with hist := { n.hist with calls := n.hist.calls ++ [c] } }

/-- Note a packet handed to `rte_eth_tx_buffer`. -/
def transmitted (n : Net H) (p : Mbuf) : Net H :=
  { n with hist := { n.hist with transmitted := n.hist.transmitted ++ [p] } }

/-- Replace the state object an action has worked on. -/
def updateState (n : Net H) (s : Fin STATE_NUM) (st : State H) : Net H :=
  { n with config := n.config.setState s st }

section Projections

variable (n : Net H) (w : Core) (h : Held) (m : Message) (c : Call) (s : Fin STATE_NUM)
  (st : State H) (p : Mbuf)

@[simp] theorem store_config : (n.store w h m).config = n.config := by cases h <;> rfl
@[simp] theorem store_mailbox : (n.store w h m).mailbox = n.mailbox := by cases h <;> rfl
@[simp] theorem store_buffer : (n.store w h m).buffer = n.buffer := by cases h <;> rfl
@[simp] theorem store_pc : (n.store w h m).pc = n.pc := by cases h <;> rfl
@[simp] theorem store_hist : (n.store w h m).hist = n.hist := by cases h <;> rfl
@[simp] theorem called_config : (n.called c).config = n.config := rfl
@[simp] theorem called_mailbox : (n.called c).mailbox = n.mailbox := rfl
@[simp] theorem called_buffer : (n.called c).buffer = n.buffer := rfl
@[simp] theorem called_pc : (n.called c).pc = n.pc := rfl
@[simp] theorem called_mem : (n.called c).mem = n.mem := rfl
@[simp] theorem called_scratch : (n.called c).scratch = n.scratch := rfl
@[simp] theorem called_message : (n.called c).message w h = n.message w h := by
  cases h <;> rfl
@[simp] theorem transmitted_config : (n.transmitted p).config = n.config := rfl
@[simp] theorem transmitted_mailbox : (n.transmitted p).mailbox = n.mailbox := rfl
@[simp] theorem transmitted_buffer : (n.transmitted p).buffer = n.buffer := rfl
@[simp] theorem transmitted_pc : (n.transmitted p).pc = n.pc := rfl
@[simp] theorem transmitted_mem : (n.transmitted p).mem = n.mem := rfl
@[simp] theorem transmitted_scratch : (n.transmitted p).scratch = n.scratch := rfl
@[simp] theorem transmitted_message : (n.transmitted p).message w h = n.message w h := by
  cases h <;> rfl
@[simp] theorem updateState_mailbox : (n.updateState s st).mailbox = n.mailbox := rfl
@[simp] theorem updateState_buffer : (n.updateState s st).buffer = n.buffer := rfl
@[simp] theorem updateState_pc : (n.updateState s st).pc = n.pc := rfl
@[simp] theorem updateState_mem : (n.updateState s st).mem = n.mem := rfl
@[simp] theorem updateState_scratch : (n.updateState s st).scratch = n.scratch := rfl
@[simp] theorem updateState_hist : (n.updateState s st).hist = n.hist := rfl

/-- A write through a pointer is read back through it. -/
@[simp] theorem message_store : (n.store w h m).message w h = m := by
  cases h <;> simp [message, store]

end Projections

end Net

/-- Where a worker continues once a message needs no more handling. -/
def Held.resume : Held → Pc
  | .item _ => .dequeue
  | .packet rest => .burst rest

/-- `actionTable->actionTableEntry[id]`. -/
def Config.entry (c : Config H) (id : Int) : Option (ActionTableEntry H) :=
  (idx? ACTION_TABLE_SIZE id).map c.actionTable

/-- The end of handling with return code 1, `worker.h:157–159`: a dequeued item goes back to
the pool of the worker that finishes it if that worker is also its producer. -/
def complete (n : Net H) (w : Core) (h : Held) : Net H :=
  match h with
  | .item i =>
    if (n.mem i).producerId = (w.val : Int) then
      { n.setPc w .dequeue with buffer := Function.update n.buffer w (i :: n.buffer w) }
    else
      { n.setPc w .dequeue with hist := { n.hist with forgotten := i :: n.hist.forgotten } }
  | .packet rest => n.setPc w (.burst rest)

/-- `transmit_packet`, `worker.h:71–78`: the packet is handed to `rte_eth_tx_buffer`. -/
def transmitPacket (n : Net H) (w : Core) (h : Held) : Net H :=
  (n.transmitted (n.message w h).m).store w h { n.message w h with path := -1 }

/-- `event_handler` after the core test, `worker.h:109–120`: the selected action runs, and the
path it sets decides between another iteration and return code 1. -/
def selectAction (n : Net H) (w : Core) (h : Held) (e : ActionTableEntry H) :
    Option (Net H) :=
  let m := n.message w h
  let n := n.called ⟨m.m, m.actionId, w, e.state⟩
  match e.action, e.state with
  | some .transmitPacket, .worker _ => some (complete (transmitPacket n w h) w h)
  | some (.action f), .state s =>
    match f (n.config.states s) m with
    | .error _ => none
    | .ok (s', path) =>
      if path = -1 then some (complete ((n.updateState s s').store w h { m with path }) w h)
      else some ((n.updateState s s').store w h { m with path, actionId := path })
  | _, _ => none

/-- `event_handler`, `worker.h:80–121`, up to the retry loops. A message that has to leave the
core and was created here waits for `get_free_item`. -/
def eventHandler (n : Net H) (w : Core) (h : Held) : Option (Net H) :=
  let m := n.message w h
  match n.config.entry m.actionId with
  | none => none
  | some e =>
    if e.coreId = (w.val : Int) then selectAction n w h e
    else if m.producerId = -1 then none
    else
      match idx? 48 e.coreId, h with
      | some dest, .item i => some (n.setPc w (.enqueue dest i h))
      | _, _ => none

/-- `event_handler` on a message created here that has to leave the core,
`worker.h:87–101`, with the result `r` of `get_free_item`. -/
def allocate (n : Net H) (w : Core) (h : Held) (r : Option Item) : Option (Net H) :=
  let m := n.message w h
  match n.config.entry m.actionId with
  | none => none
  | some e =>
    if e.coreId ≠ (w.val : Int) ∧ m.producerId = -1 then
      match idx? 48 e.coreId, r with
      | none, _ => none
      | some _, none =>
        some { n.setPc w h.resume with
          hist := { n.hist with freed := n.hist.freed ++ [m.m] } }
      | some dest, some i =>
        if i ∈ n.buffer w then
          some { n.setPc w (.enqueue dest i h) with
            buffer := Function.update n.buffer w ((n.buffer w).erase i)
            mem := Function.update n.mem i { m with producerId := (w.val : Int) } }
        else none
    else none

/-- The next packet of a burst becomes the local message, `worker.h:172–177`. -/
def startPacket (n : Net H) (w : Core) (p : Mbuf) : Message :=
  let bucket : Fin RSS_I_TABLE_SIZE := ⟨p.rss.toNat % 512, Nat.mod_lt _ (by decide)⟩
  { n.scratch w with
    m := p
    producerId := -1
    coreId := (w.val : Int)
    rssHash := bucket.val
    actionId := (n.config.workerList w).buckets bucket }

/-- The next step of `worker_action`, `worker.h:123–185`. -/
def workerAction (n : Net H) (w : Core) : Option (Net H) :=
  match n.pc w with
  | .idle => none
  | .top => some (n.setPc w (if n.config.dpQuit then .idle else .dequeue))
  | .dequeue =>
    match n.mailbox w with
    | i :: q => some { n.setPc w (.handle (.item i)) with mailbox := Function.update n.mailbox w q }
    | [] => some (n.setPc w (if (n.config.workerList w).firstAction then .rx else .top))
  | .rx => none
  | .burst [] => some (n.setPc w .top)
  | .burst (p :: rest) =>
    some { n.setPc w (.handle (.packet rest)) with
      scratch := Function.update n.scratch w (startPacket n w p) }
  | .handle h => eventHandler n w h
  | .enqueue dest i h =>
    if (n.mailbox dest).length < n.config.ringSize - 1 then
      some { n.setPc w h.resume with
        mailbox := Function.update n.mailbox dest (n.mailbox dest ++ [i]) }
    else some n

/-- A burst of at most 1024 packets, none of which the NIC has handed out before. -/
def Net.CanReceive (n : Net H) (pkts : List Mbuf) : Prop :=
  pkts.length ≤ 1024 ∧ pkts.Nodup ∧ ∀ p ∈ pkts, p ∉ n.hist.received.map Prod.snd

instance (n : Net H) (pkts : List Mbuf) : Decidable (n.CanReceive pkts) := by
  unfold Net.CanReceive
  infer_instance

/-- One event of the network; an event that is not enabled, or whose execution has no defined
continuation, is `none`. -/
def step (n : Net H) : Event → Option (Net H)
  | .work w => workerAction n w
  | .rxBurst w pkts =>
    if n.pc w = .rx ∧ n.CanReceive pkts then
      some { n.setPc w (.burst pkts) with
        hist := { n.hist with received := n.hist.received ++ pkts.map (fun p ↦ (w, p)) } }
    else none
  | .alloc w r =>
    match n.pc w with
    | .handle h => allocate n w h r
    | _ => none
  | .command line =>
    match cliProcess n.config line with
    | .ok (c, _) => some { n with config := c }
    | .error _ => none
  | .quit => some { n with config := { n.config with dpQuit := true } }

/-- A network in which the given workers have just been launched: empty mailboxes, pools of
`size` free items each, nothing received. -/
def launch (c : Config H) (launched : Core → Bool) (size : Nat) (mem : Item → Message)
    (scratch : Core → Message) : Net H where
  config := c
  mem := mem
  scratch := scratch
  mailbox := fun _ ↦ []
  buffer := fun w ↦ (List.range size).map (Item.mk w)
  pc := fun w ↦ if launched w then .top else .idle
  hist := ⟨[], [], [], [], []⟩

/-- `worker run`, `cli.c:399–402`, launches the workers with odd indices. -/
def workerRun (w : Core) : Bool := w.val % 2 == 1

end Nflambda.Runtime
