import Nflambda.Runtime.Exhaustion
import Nflambda.Runtime.Trapped

/-!
# Two workers that fill each other's rings

Library `Runtime`. Source `src/runtime/worker.h:80–185`. A worker that sends everything it receives
to another one, which sends it back, looks into its mailbox between bursts only. With bursts as
large as the rings, both rings fill up and the workers block each other, whatever the pools hold.
-/

namespace Nflambda.Runtime

open Nflambda.Base

variable {H : Type}

/-- Over `c`, worker `u` classifies what it receives and asks worker `v`, whose answers have to come
back to `u`. The states of the two functions keep what they need to ask and to answer. -/
structure Crossing (c : Config H) where
  u : Core
  v : Core
  first : Int
  ask : Int
  back : Int
  classify : State H → Message → Except Fault (State H × Int)
  answer : State H → Message → Except Fault (State H × Int)
  s : Fin STATE_NUM
  t : Fin STATE_NUM
  /-- So many calls of `classify` on a state ask. -/
  asks : Nat → State H → Prop
  answers : State H → Prop
  cores_ne : u ≠ v
  states_ne : s ≠ t
  polls : (c.workerList u).firstAction = true
  firstEntry : ∃ e, c.entry first = some e ∧ e.coreId = (u.val : Int) ∧
    e.action = some (.action classify) ∧ e.state = .state s
  askEntry : ∃ e, c.entry ask = some e ∧ e.coreId = (v.val : Int) ∧
    e.action = some (.action answer) ∧ e.state = .state t
  backEntry : ∃ e, c.entry back = some e ∧ e.coreId = (u.val : Int)
  classifies : ∀ k σ m, asks (k + 1) σ → ∃ st, classify σ m = .ok (st, ask) ∧ asks k st
  replies : ∀ σ m, answers σ → ∃ st, answer σ m = .ok (st, back) ∧ answers st

namespace Crossing

variable {c : Config H} (x : Crossing c)

theorem ask_ne : x.ask ≠ -1 := by
  obtain ⟨e, he, -⟩ := x.askEntry
  intro h
  rw [h] at he
  cases he

theorem back_ne : x.back ≠ -1 := by
  obtain ⟨e, he, -⟩ := x.backEntry
  intro h
  rw [h] at he
  cases he

/-- Where the two workers stand: their program points, the lengths of their mailboxes, the free
items and the number of questions left, and what was received so far. What is in the ring of `v` or
in the hands of `u` asks. -/
structure At (n : Net H) (pu pv : Pc) (inbox queue free left : Nat)
    (received : List (Core × Mbuf)) : Prop where
  sending : Sending c n
  ring : n.config.ringSize = c.ringSize
  workers : n.config.workerList = c.workerList
  quit : n.config.dpQuit = false
  here : n.pc x.u = pu
  there : n.pc x.v = pv
  length_inbox : (n.mailbox x.u).length = inbox
  length_queue : (n.mailbox x.v).length = queue
  asking : ∀ i, i ∈ n.mailbox x.v ∨ i ∈ pu.items → (n.mem i).actionId = x.ask
  length_free : free ≤ (n.buffer x.u).length
  asks_left : x.asks left (n.config.states x.s)
  can_answer : x.answers (n.config.states x.t)
  history : n.hist.received = received

variable {x} {n : Net H} {pu pv : Pc} {inbox queue free left : Nat}
  {received : List (Core × Mbuf)}

/-- The numbers may be written in other ways. -/
theorem At.cast (h : x.At n pu pv inbox queue free left received)
    {inbox' queue' free' left' : Nat} (hi : inbox = inbox') (hq : queue = queue')
    (hf : free = free') (hl : left = left') :
    x.At n pu pv inbox' queue' free' left' received := by
  subst hi hq hf hl
  exact h

/-- An event leaves the table and the rings as they are, and items in one place. -/
private theorem At.sending_next {n' : Net H} {ev : Event}
    (h : x.At n pu pv inbox queue free left received) (hev : ev.IsSmooth)
    (hs : step n ev = some n') : Sending c n' ∧ n'.config.ringSize = c.ringSize :=
  ⟨h.sending.next hev.1.1.keepsActions (step_taken hs),
    (ringSize_taken (step_taken hs)).trans h.ring⟩

/-- The entry of `c` that the running network reads. -/
private theorem At.entry (h : x.At n pu pv inbox queue free left received) {a : Int}
    {e : ActionTableEntry H} (he : c.entry a = some e) :
    ∃ e', n.config.entry a = some e' ∧ e'.action = e.action ∧ e'.state = e.state ∧
      e'.coreId = e.coreId :=
  exists_entry_of_fields h.sending.table he

/-! ### Worker `u` -/

/-- Worker `u` takes the next packet of its burst. -/
theorem At.begin {p : Mbuf} {rest : List Mbuf}
    (h : x.At n (.burst (p :: rest)) pv inbox queue free left received)
    (hp : c.firstOf x.u p = x.first) :
    ∃ n', step n (.work x.u) = some n' ∧
      x.At n' (.handle (.packet rest)) pv inbox queue free left received ∧
      (n'.message x.u (.packet rest)).actionId = x.first ∧
      (n'.message x.u (.packet rest)).m = p := by
  have hs := enabled_begin h.here
  obtain ⟨hsend, hring⟩ := h.sending_next (isSmooth_work x.u) hs
  refine ⟨_, hs, ⟨hsend, hring, h.workers, h.quit, ?_, ?_, h.length_inbox, h.length_queue,
    fun i hi ↦ ?_, h.length_free, h.asks_left, h.can_answer, h.history⟩, ?_, ?_⟩
  · simp [beginPacket, Net.setPc]
  · simpa [beginPacket, Net.setPc, x.cores_ne.symm] using h.there
  · exact h.asking i (.inl (hi.resolve_right (by simp)))
  · rw [← hp, Config.firstOf, ← h.workers]
    simp [beginPacket, Net.message, startPacket]
  · simp [beginPacket, Net.message, startPacket]

/-- Worker `u` classifies the packet: it asks. -/
theorem At.classified {rest : List Mbuf}
    (h : x.At n (.handle (.packet rest)) pv inbox queue free (left + 1) received)
    (ha : (n.message x.u (.packet rest)).actionId = x.first) :
    ∃ n', step n (.work x.u) = some n' ∧
      x.At n' (.handle (.packet rest)) pv inbox queue free left received ∧
      (n'.message x.u (.packet rest)).actionId = x.ask ∧
      (n'.message x.u (.packet rest)).m = (n.message x.u (.packet rest)).m := by
  obtain ⟨e, he, hcore, haction, hstate⟩ := x.firstEntry
  obtain ⟨e', he', haction', hstate', hcore'⟩ := h.entry he
  obtain ⟨st, hok, hleft⟩ := x.classifies left _ (n.message x.u (.packet rest)) h.asks_left
  have hs := enabled_act h.here (ha ▸ he') (hcore'.trans hcore) (haction'.trans haction)
    (hstate'.trans hstate) hok x.ask_ne
  obtain ⟨hsend, hring⟩ := h.sending_next (isSmooth_work x.u) hs
  refine ⟨_, hs, ⟨hsend, hring, ?_, ?_, ?_, ?_, ?_, ?_, fun i hi ↦ ?_, ?_, ?_, ?_, ?_⟩, ?_, ?_⟩
  · simpa [ranAction, Net.updateState, Config.setState] using h.workers
  · simpa [ranAction, Net.updateState, Config.setState] using h.quit
  · simpa [ranAction] using h.here
  · simpa [ranAction] using h.there
  · simpa [ranAction] using h.length_inbox
  · simpa [ranAction] using h.length_queue
  · exact h.asking i (by simpa [ranAction] using hi)
  · simpa [ranAction] using h.length_free
  · simpa [ranAction, Net.updateState, Config.setState] using hleft
  · simpa [ranAction, Net.updateState, Config.setState, x.states_ne.symm] using h.can_answer
  · simpa [ranAction, Net.called] using h.history
  · rw [Net.message_store]
  · rw [Net.message_store]

/-- Worker `u` copies the packet to a free item. -/
theorem At.copied {rest : List Mbuf}
    (h : x.At n (.handle (.packet rest)) pv inbox queue (free + 1) left received)
    (ha : (n.message x.u (.packet rest)).actionId = x.ask) :
    ∃ i n', step n (.alloc x.u (some i)) = some n' ∧
      x.At n' (.enqueue x.v i (.packet rest)) pv inbox queue free left received ∧
      (n'.mem i).m = (n.message x.u (.packet rest)).m := by
  obtain ⟨e, he, hcore, -⟩ := x.askEntry
  obtain ⟨e', he', -, -, hcore'⟩ := h.entry he
  have hlen := h.length_free
  obtain ⟨i, hi⟩ := List.exists_mem_of_length_pos (by omega : 0 < (n.buffer x.u).length)
  have haway : e'.coreId ≠ (x.u.val : Int) := by
    rw [hcore', hcore]
    intro heq
    exact x.cores_ne (Fin.ext (by omega))
  have hlocal : (n.message x.u (.packet rest)).producerId = -1 :=
    h.sending.produced.scratch x.u rest h.here
  have hs := enabled_copy h.here (ha ▸ he') haway hlocal (hcore'.trans hcore) hi
  obtain ⟨hsend, hring⟩ := h.sending_next (isSmooth_alloc x.u i) hs
  refine ⟨i, _, hs, ⟨hsend, hring, h.workers, h.quit, ?_, ?_, h.length_inbox, h.length_queue,
    fun j hj ↦ ?_, ?_, h.asks_left, h.can_answer, h.history⟩, ?_⟩
  · simp [copyPacket, Net.setPc]
  · simpa [copyPacket, Net.setPc, x.cores_ne.symm] using h.there
  · by_cases hji : j = i
    · subst hji
      simpa [copyPacket] using ha
    · have hq : j ∈ n.mailbox x.v := by simpa [hji, copyPacket, Net.setPc] using hj
      simpa [copyPacket, hji] using h.asking j (.inl hq)
  · have herase := List.length_erase_of_mem hi
    simp only [copyPacket, Function.update_self]
    omega
  · simp [copyPacket]

/-- Worker `u` sends its question. -/
theorem At.pushed {i : Item} {d : Held}
    (h : x.At n (.enqueue x.v i d) pv inbox queue free left received)
    (hr : queue < c.ringSize - 1) :
    ∃ n', step n (.work x.u) = some n' ∧
      x.At n' d.resume pv inbox (queue + 1) free left received := by
  have hs := enabled_push h.here (by rwa [h.length_queue, h.ring])
  obtain ⟨hsend, hring⟩ := h.sending_next (isSmooth_work x.u) hs
  refine ⟨_, hs, ⟨hsend, hring, h.workers, h.quit, ?_, ?_, ?_, ?_, fun j hj ↦ ?_, h.length_free,
    h.asks_left, h.can_answer, h.history⟩⟩
  · simp [pushItem, Net.setPc]
  · simpa [pushItem, Net.setPc, x.cores_ne.symm] using h.there
  · simpa [pushItem, Net.setPc, x.cores_ne] using h.length_inbox
  · simpa [pushItem, Net.setPc] using h.length_queue
  · have hj' : j ∈ n.mailbox x.v ∨ j = i := by simpa [pushItem] using hj
    exact h.asking j (hj'.imp_right fun hji ↦ by simpa using hji)

/-- Worker `u` comes to the end of its burst. -/
theorem At.finished (h : x.At n (.burst []) pv inbox queue free left received) :
    ∃ n', step n (.work x.u) = some n' ∧ x.At n' .top pv inbox queue free left received := by
  have hs : step n (.work x.u) = some (n.setPc x.u .top) := by
    simp only [step, workerAction, h.here]
  obtain ⟨hsend, hring⟩ := h.sending_next (isSmooth_work x.u) hs
  refine ⟨_, hs, ⟨hsend, hring, h.workers, h.quit, ?_, ?_, h.length_inbox, h.length_queue,
    h.asking, h.length_free, h.asks_left, h.can_answer, h.history⟩⟩
  · simp [Net.setPc]
  · simpa [Net.setPc, x.cores_ne.symm] using h.there

/-- Worker `u` finds its mailbox empty and receives a burst. -/
theorem At.arrived (h : x.At n .top pv 0 queue free left received) {pkts : List Mbuf}
    (hp : pkts.length ≤ 1024 ∧ pkts.Nodup ∧ ∀ p ∈ pkts, p ∉ received.map Prod.snd) :
    ∃ n', ReachableBy step Event.IsSmooth n n' ∧ x.At n' (.burst pkts) pv 0 queue free left
      (received ++ pkts.map fun p ↦ (x.u, p)) := by
  have h1 : step n (.work x.u) = some (n.setPc x.u .dequeue) := by
    simp [step, workerAction, h.here, h.quit]
  have h2 : step (n.setPc x.u .dequeue) (.work x.u) =
      some ((n.setPc x.u .dequeue).setPc x.u .rx) := by
    have hpoll : (n.config.workerList x.u).firstAction = true := by
      rw [h.workers]
      exact x.polls
    have hmail : n.mailbox x.u = [] := List.eq_nil_of_length_eq_zero h.length_inbox
    simp [step, workerAction, Net.setPc, hpoll, hmail]
  have h3 : step ((n.setPc x.u .dequeue).setPc x.u .rx) (.rxBurst x.u pkts) =
      some (receive ((n.setPc x.u .dequeue).setPc x.u .rx) x.u pkts) :=
    enabled_rxBurst (by simp [Net.setPc]) (by rw [← h.history] at hp; exact hp)
  have hwork := (isSmooth_work x.u).1.1.keepsActions
  have hsend := ((h.sending.next hwork (step_taken h1)).next hwork (step_taken h2)).next
    (isSmooth_rxBurst x.u pkts).1.1.keepsActions (step_taken h3)
  refine ⟨_, (((ReachableBy.refl _ n).tail (isSmooth_work x.u) h1).tail (isSmooth_work x.u)
    h2).tail (isSmooth_rxBurst x.u pkts) h3, ⟨hsend, h.ring, h.workers, h.quit, ?_, ?_,
    h.length_inbox, h.length_queue, h.asking, h.length_free, h.asks_left, h.can_answer, ?_⟩⟩
  · simp [receive, Net.setPc]
  · simpa [receive, Net.setPc, x.cores_ne.symm] using h.there
  · simp only [receive, Net.setPc]
    rw [h.history]

/-! ### Worker `v` -/

/-- Worker `v` comes to its mailbox. -/
theorem At.awake (h : x.At n pu .top inbox queue free left received) :
    ∃ n', step n (.work x.v) = some n' ∧ x.At n' pu .dequeue inbox queue free left received := by
  have hs : step n (.work x.v) = some (n.setPc x.v .dequeue) := by
    simp [step, workerAction, h.there, h.quit]
  obtain ⟨hsend, hring⟩ := h.sending_next (isSmooth_work x.v) hs
  refine ⟨_, hs, ⟨hsend, hring, h.workers, h.quit, ?_, ?_, h.length_inbox, h.length_queue,
    h.asking, h.length_free, h.asks_left, h.can_answer, h.history⟩⟩
  · simpa [Net.setPc, x.cores_ne] using h.here
  · simp [Net.setPc]

/-- Worker `v` takes a question out of its mailbox. -/
theorem At.popped (h : x.At n pu .dequeue inbox (queue + 1) free left received) :
    ∃ i n', step n (.work x.v) = some n' ∧
      x.At n' pu (.handle (.item i)) inbox queue free left received ∧
      (n'.mem i).actionId = x.ask := by
  obtain ⟨i, q, hq⟩ := List.exists_cons_of_length_eq_add_one h.length_queue
  have hs := enabled_pop h.there hq
  have hlen := h.length_queue
  rw [hq, List.length_cons] at hlen
  obtain ⟨hsend, hring⟩ := h.sending_next (isSmooth_work x.v) hs
  refine ⟨i, _, hs, ⟨hsend, hring, h.workers, h.quit, ?_, ?_, ?_, ?_, fun j hj ↦ ?_, h.length_free,
    h.asks_left, h.can_answer, h.history⟩, ?_⟩
  · simpa [popItem, Net.setPc, x.cores_ne] using h.here
  · simp [popItem, Net.setPc]
  · simpa [popItem, Net.setPc, x.cores_ne] using h.length_inbox
  · simp only [popItem, Function.update_self]
    omega
  · refine h.asking j (hj.imp_left fun hj ↦ ?_)
    rw [hq]
    exact List.mem_cons_of_mem i (by simpa [popItem] using hj)
  · exact h.asking i (.inl (by rw [hq]; exact List.mem_cons_self))

/-- Worker `v` answers. -/
theorem At.answered {i : Item}
    (h : x.At n pu (.handle (.item i)) inbox queue free left received)
    (ha : (n.mem i).actionId = x.ask) :
    ∃ n', step n (.work x.v) = some n' ∧
      x.At n' pu (.handle (.item i)) inbox queue free left received ∧
      (n'.mem i).actionId = x.back := by
  obtain ⟨e, he, hcore, haction, hstate⟩ := x.askEntry
  obtain ⟨e', he', haction', hstate', hcore'⟩ := h.entry he
  obtain ⟨st, hok, hanswers⟩ := x.replies _ (n.mem i) h.can_answer
  have hs := enabled_act h.there (h := .item i) (ha ▸ he') (hcore'.trans hcore)
    (haction'.trans haction) (hstate'.trans hstate) hok x.back_ne
  obtain ⟨hsend, hring⟩ := h.sending_next (isSmooth_work x.v) hs
  -- the item in hand is in no mailbox, and not in the hands of the other worker
  obtain ⟨hheld, hmail, -⟩ := held_alone (w := x.v) (h.sending.once i)
    (by rw [h.there]; exact List.mem_singleton_self i)
  refine ⟨_, hs, ⟨hsend, hring, ?_, ?_, ?_, ?_, ?_, ?_, fun j hj ↦ ?_, ?_, ?_, ?_, ?_⟩, ?_⟩
  · simpa [ranAction, Net.updateState, Config.setState] using h.workers
  · simpa [ranAction, Net.updateState, Config.setState] using h.quit
  · simpa [ranAction] using h.here
  · simpa [ranAction] using h.there
  · simpa [ranAction] using h.length_inbox
  · simpa [ranAction] using h.length_queue
  · have hj' : j ∈ n.mailbox x.v ∨ j ∈ pu.items := by simpa [ranAction] using hj
    have hne : j ≠ i := by
      rintro rfl
      rcases hj' with hj' | hj'
      · exact hmail x.v hj'
      · exact hheld x.u x.cores_ne (by rwa [h.here])
    simpa [Net.store, ranAction, hne] using h.asking j hj'
  · simpa [ranAction] using h.length_free
  · simpa [ranAction, Net.updateState, Config.setState, x.states_ne] using h.asks_left
  · simpa [ranAction, Net.updateState, Config.setState] using hanswers
  · simpa [ranAction, Net.called] using h.history
  · simp [Net.store]

/-- Worker `v` wants to send the answer back. -/
theorem At.relayed {i : Item}
    (h : x.At n pu (.handle (.item i)) inbox queue free left received)
    (ha : (n.mem i).actionId = x.back) :
    ∃ n', step n (.work x.v) = some n' ∧
      x.At n' pu (.enqueue x.u i (.item i)) inbox queue free left received := by
  obtain ⟨e, he, hcore⟩ := x.backEntry
  obtain ⟨e', he', -, -, hcore'⟩ := h.entry he
  have haway : e'.coreId ≠ (x.v.val : Int) := by
    rw [hcore', hcore]
    intro heq
    exact x.cores_ne (Fin.ext (by omega))
  have hlive : Live n i := .inl ⟨x.v, by rw [h.there]; exact List.mem_singleton_self i⟩
  have hforeign : (n.mem i).producerId ≠ -1 := by
    rw [h.sending.produced.live i hlive]
    omega
  have hs := enabled_relay h.there (ha ▸ he') haway hforeign (hcore'.trans hcore)
  obtain ⟨hsend, hring⟩ := h.sending_next (isSmooth_work x.v) hs
  refine ⟨_, hs, ⟨hsend, hring, h.workers, h.quit, ?_, ?_, h.length_inbox, h.length_queue,
    h.asking, h.length_free, h.asks_left, h.can_answer, h.history⟩⟩
  · simpa [Net.setPc, x.cores_ne] using h.here
  · simp [Net.setPc]

/-- Worker `v` sends an answer back. -/
theorem At.returned {i : Item}
    (h : x.At n pu (.enqueue x.u i (.item i)) inbox queue free left received)
    (hr : inbox < c.ringSize - 1) :
    ∃ n', step n (.work x.v) = some n' ∧
      x.At n' pu .dequeue (inbox + 1) queue free left received := by
  have hs := enabled_push h.there (by rwa [h.length_inbox, h.ring])
  obtain ⟨hsend, hring⟩ := h.sending_next (isSmooth_work x.v) hs
  refine ⟨_, hs, ⟨hsend, hring, h.workers, h.quit, ?_, ?_, ?_, ?_, fun j hj ↦ ?_, h.length_free,
    h.asks_left, h.can_answer, h.history⟩⟩
  · simpa [pushItem, Net.setPc, x.cores_ne] using h.here
  · simp [pushItem, Net.setPc, Held.resume]
  · simpa [pushItem, Net.setPc] using h.length_inbox
  · simpa [pushItem, Net.setPc, x.cores_ne.symm] using h.length_queue
  · refine h.asking j (hj.imp_left fun hj ↦ ?_)
    simpa [pushItem, Net.setPc, x.cores_ne.symm] using hj

/-! ### Both -/

/-- Worker `u` asks about the next packet, and tries to send the question. -/
theorem At.asked {p : Mbuf} {rest : List Mbuf}
    (h : x.At n (.burst (p :: rest)) pv inbox queue (free + 1) (left + 1) received)
    (hp : c.firstOf x.u p = x.first) :
    ∃ i n', ReachableBy step Event.IsSmooth n n' ∧
      x.At n' (.enqueue x.v i (.packet rest)) pv inbox queue free left received ∧
      (n'.mem i).m = p := by
  obtain ⟨n1, hs1, h1, hid1, hm1⟩ := h.begin hp
  obtain ⟨n2, hs2, h2, hid2, hm2⟩ := h1.classified hid1
  obtain ⟨i, n3, hs3, h3, hm3⟩ := h2.copied hid2
  refine ⟨i, n3, ?_, h3, hm3.trans (hm2.trans hm1)⟩
  exact (((ReachableBy.refl _ n).tail (isSmooth_work x.u) hs1).tail (isSmooth_work x.u) hs2).tail
    (isSmooth_alloc x.u i) hs3

/-- Worker `u` sends so many questions as there is room for. -/
theorem At.asked_many (k : Nat) {pkts : List Mbuf}
    (h : x.At n (.burst pkts) pv inbox queue (free + k) (left + k) received)
    (hp : ∀ p ∈ pkts, c.firstOf x.u p = x.first) (hk : k ≤ pkts.length)
    (hr : queue + k ≤ c.ringSize - 1) :
    ∃ n', ReachableBy step Event.IsSmooth n n' ∧
      x.At n' (.burst (pkts.drop k)) pv inbox (queue + k) free left received := by
  induction k generalizing n pkts queue with
  | zero => exact ⟨n, .refl _ n, h⟩
  | succ k ih =>
    cases pkts with
    | nil => exact absurd hk (Nat.not_succ_le_zero k)
    | cons p rest =>
      obtain ⟨hp, hrest⟩ := List.forall_mem_cons.mp hp
      obtain ⟨i, n1, hr1, h1, -⟩ := h.asked hp
      obtain ⟨n2, hs2, h2⟩ := h1.pushed (by omega)
      obtain ⟨n3, hr3, h3⟩ := ih h2 hrest (Nat.le_of_succ_le_succ hk) (by omega)
      refine ⟨n3, (hr1.tail (isSmooth_work x.u) hs2).trans hr3, ?_⟩
      rw [List.drop_succ_cons]
      exact h3.cast rfl (by omega) rfl rfl

/-- Worker `v` answers the next question, and tries to send the answer back. -/
theorem At.fetched (h : x.At n pu .dequeue inbox (queue + 1) free left received) :
    ∃ i n', ReachableBy step Event.IsSmooth n n' ∧
      x.At n' pu (.enqueue x.u i (.item i)) inbox queue free left received := by
  obtain ⟨i, n1, hs1, h1, hid1⟩ := h.popped
  obtain ⟨n2, hs2, h2, hid2⟩ := h1.answered hid1
  obtain ⟨n3, hs3, h3⟩ := h2.relayed hid2
  exact ⟨i, n3, (((ReachableBy.refl _ n).tail (isSmooth_work x.v) hs1).tail (isSmooth_work x.v)
    hs2).tail (isSmooth_work x.v) hs3, h3⟩

/-- Worker `v` sends so many answers back as there is room for, and holds one more. -/
theorem At.fetched_many (k : Nat) {i : Item}
    (h : x.At n pu (.enqueue x.u i (.item i)) inbox (queue + k) free left received)
    (hr : inbox + k ≤ c.ringSize - 1) :
    ∃ j n', ReachableBy step Event.IsSmooth n n' ∧
      x.At n' pu (.enqueue x.u j (.item j)) (inbox + k) queue free left received := by
  induction k generalizing n i inbox with
  | zero => exact ⟨i, n, .refl _ n, h⟩
  | succ k ih =>
    obtain ⟨n1, hs1, h1⟩ := h.returned (by omega)
    obtain ⟨i2, n2, hr2, h2⟩ := h1.fetched
    obtain ⟨j, n3, hr3, h3⟩ := ih h2 (by omega)
    exact ⟨j, n3, (((ReachableBy.refl _ n).tail (isSmooth_work x.v) hs1).trans hr2).trans hr3,
      h3.cast (by omega) rfl rfl rfl⟩

/-- With both rings full, the workers block each other, and the packet in the hands of `u` is
trapped. -/
theorem At.trapped {i j : Item} {d e : Held}
    (h : x.At n (.enqueue x.v i d) (.enqueue x.u j e) inbox queue free left received)
    (hu : c.ringSize - 1 ≤ inbox) (hv : c.ringSize - 1 ≤ queue) : Trapped n (n.mem i).m := by
  refine ⟨{x.u, x.v}, ⟨⟨x.u, by simp⟩, fun w hw ↦ ?_⟩, x.u, by simp,
    .inr ⟨i, .inl (by rw [h.here]; exact List.mem_singleton_self i), rfl⟩⟩
  have hfull_u : ¬ (n.mailbox x.u).length < n.config.ringSize - 1 := by
    rw [h.length_inbox, h.ring]
    omega
  have hfull_v : ¬ (n.mailbox x.v).length < n.config.ringSize - 1 := by
    rw [h.length_queue, h.ring]
    omega
  rcases Finset.mem_insert.mp hw with rfl | hw
  · exact ⟨x.v, by simp, ⟨i, d, h.here⟩, hfull_v⟩
  · rw [Finset.mem_singleton.mp hw]
    exact ⟨x.u, by simp, ⟨j, e, h.there⟩, hfull_u⟩

/-- The two workers when they were launched. -/
theorem at_launch (x : Crossing c) {launched : Core → Bool} (hu : launched x.u = true)
    (hv : launched x.v = true) (hq : c.dpQuit = false) {size free left : Nat}
    (hfree : free ≤ size) (hasks : x.asks left (c.states x.s))
    (hanswers : x.answers (c.states x.t)) (mem : Item → Message) (scratch : Core → Message) :
    x.At (launch c launched size mem scratch) .top .top 0 0 free left [] where
  sending := (ordered_launch c launched size mem scratch).sending
  ring := rfl
  workers := rfl
  quit := hq
  here := by simp [launch, hu]
  there := by simp [launch, hv]
  length_inbox := rfl
  length_queue := rfl
  asking i hi := by simp [launch] at hi
  length_free := by simpa [launch] using hfree
  asks_left := hasks
  can_answer := hanswers
  history := rfl

/-- With rings no larger than a burst, two bursts for which worker `u` only asks trap a packet,
though every pool has free items for all of them. -/
theorem exists_trapped (x : Crossing c) {launched : Core → Bool} (hu : launched x.u = true)
    (hv : launched x.v = true) (hq : c.dpQuit = false) (h2 : 2 ≤ c.ringSize)
    (h1024 : c.ringSize ≤ 1024) {size : Nat} (hsize : 2 * c.ringSize ≤ size)
    (hasks : x.asks (2 * c.ringSize) (c.states x.s)) (hanswers : x.answers (c.states x.t))
    (mem : Item → Message) (scratch : Core → Message) {pkts : List Mbuf}
    (hlen : pkts.length = 2 * c.ringSize) (hnodup : pkts.Nodup)
    (hfirst : ∀ p ∈ pkts, c.firstOf x.u p = x.first) :
    ∃ n p, ReachableBy step Event.IsSmooth (launch c launched size mem scratch) n ∧
      n.hist.received = pkts.map (fun p ↦ (x.u, p)) ∧ p ∈ pkts ∧ Trapped n p := by
  obtain ⟨r, hring⟩ : ∃ r, c.ringSize = r + 2 := ⟨c.ringSize - 2, by omega⟩
  have hn := x.at_launch hu hv hq hsize hasks hanswers mem scratch
  generalize launch c launched size mem scratch = n at hn
  rw [hring] at hn hlen h1024
  obtain ⟨one, two, rfl, hone, htwo⟩ : ∃ one two, pkts = one ++ two ∧ one.length = r + 2 ∧
      two.length = r + 2 :=
    ⟨pkts.take (r + 2), pkts.drop (r + 2), (List.take_append_drop ..).symm, by simp; omega,
      by simp; omega⟩
  obtain ⟨hnodup1, hnodup2, hdisj⟩ := List.nodup_append.mp hnodup
  have hfirst1 : ∀ p ∈ one, c.firstOf x.u p = x.first :=
    fun p hp ↦ hfirst p (List.mem_append_left two hp)
  have hfirst2 : ∀ p ∈ two, c.firstOf x.u p = x.first :=
    fun p hp ↦ hfirst p (List.mem_append_right one hp)
  -- `u` fills the ring of `v` with its first burst, of which `v` takes one packet
  have htwice : 2 * (r + 2) = r + 3 + (r + 1) := by omega
  obtain ⟨n1, hr1, h1⟩ := hn.arrived ⟨by omega, hnodup1, by simp⟩
  obtain ⟨n2, hr2, h2⟩ := (h1.cast rfl rfl htwice htwice).asked_many (r + 1) hfirst1 (by omega)
    (by omega)
  obtain ⟨n3, hs3, h3⟩ := h2.awake
  obtain ⟨i3, n4, hr4, h4⟩ := (h3.cast rfl (Nat.zero_add (r + 1)) rfl rfl).fetched
  obtain ⟨n5, hr5, h5⟩ := h4.asked_many 1 (fun p hp ↦ hfirst1 p (List.mem_of_mem_drop hp))
    (by simp; omega) (by omega)
  rw [List.drop_drop, List.drop_of_length_le (by omega)] at h5
  have hnew : ∀ p ∈ two, p ∉ ([] ++ one.map fun q ↦ (x.u, q)).map Prod.snd := by
    intro p hp hmem
    rw [List.nil_append, List.map_map] at hmem
    obtain ⟨q, hq, rfl⟩ := List.mem_map.mp hmem
    exact hdisj _ hq _ hp rfl
  -- while `u` handles its second burst, `v` answers the first one
  obtain ⟨n6, hs6, h6⟩ := h5.finished
  have hleft : r + 2 = 1 + (r + 1) := by omega
  obtain ⟨n7, hr7, h7⟩ := h6.arrived ⟨by omega, hnodup2, hnew⟩
  obtain ⟨i8, n8, hr8, h8⟩ := (h7.cast rfl (Nat.zero_add (r + 1)).symm rfl rfl).fetched_many (r + 1)
    (by omega)
  obtain ⟨n9, hr9, h9⟩ := (h8.cast rfl rfl hleft hleft).asked_many (r + 1) hfirst2 (by omega)
    (by omega)
  have hone' : (two.drop (r + 1)).length = 1 := by
    rw [List.length_drop]
    omega
  obtain ⟨p, hp⟩ := List.length_eq_one_iff.mp hone'
  have hmem : p ∈ two := List.mem_of_mem_drop (hp ▸ List.mem_singleton_self p)
  rw [hp] at h9
  obtain ⟨i10, n10, hr10, h10, hm10⟩ := (h9.cast rfl rfl (Nat.zero_add 1).symm
    (Nat.zero_add 1).symm).asked (hfirst2 p hmem)
  refine ⟨n10, p, ?_, ?_, List.mem_append_right one hmem, ?_⟩
  · exact (((((hr1.trans hr2).tail (isSmooth_work x.v) hs3).trans hr4).trans hr5).tail
      (isSmooth_work x.u) hs6).trans (((hr7.trans hr8).trans hr9).trans hr10)
  · rw [h10.history, List.map_append, List.nil_append]
  · rw [← hm10]
    exact h10.trapped (by omega) (by omega)

end Crossing

end Nflambda.Runtime
