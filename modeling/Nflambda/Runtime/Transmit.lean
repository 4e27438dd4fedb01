import Mathlib.Algebra.Order.Ring.Int
import Nflambda.Base.Transition
import Nflambda.Runtime.Common

/-!
# Transmission

Library `Runtime`. `send_the_unsent_packets`, `transmit_packet` and the part of `worker_action` that
calls them, `src/runtime/worker.h:57–78,141–149`, with the older `transmit_packet` of
`src/runtime/nfunctor.h:60–66`. One loop iteration of a worker is one step: it drains the buffer
when the timer has expired, and then hands packets to `rte_eth_tx_buffer`. No send fails.
-/

namespace Nflambda.Runtime

open Nflambda.Base

/-- Packets that a tx buffer is initialised for, `cli.c:214`. -/
abbrev TX_BUFFER_SIZE : Nat := 1024

/-- `drain_tsc`, `worker.h:59–60`, for a time-stamp counter that runs at `hz`. -/
def drainTsc (hz : BitVec 64) : BitVec 64 := (hz + 1000000 - 1) / 1000000 * 100

/-- The fields of `struct worker`, `worker.h:23–55`, that transmission uses: `txb` holds the packets
that wait in the buffer. `passed` counts the packets handed to `rte_eth_tx_buffer`. -/
structure TxWorker where
  txn : Int
  txs : Int
  lastAction : Bool
  txb : List Mbuf
  passed : Nat

/-- `rte_eth_tx_buffer_flush`: the buffer afterwards, and how many packets were sent. -/
def rteEthTxBufferFlush (txb : List Mbuf) : List Mbuf × Nat := ([], txb.length)

/-- `rte_eth_tx_buffer`: a full buffer is flushed. -/
def rteEthTxBuffer (txb : List Mbuf) (m : Mbuf) : List Mbuf × Nat :=
  if txb.length + 1 < TX_BUFFER_SIZE then (txb ++ [m], 0) else rteEthTxBufferFlush (txb ++ [m])

namespace TxWorker

/-- `transmit_packet`, `worker.h:71–78`: the result of `rte_eth_tx_buffer` is not used. -/
def transmitPacket (p : TxWorker) (m : RxPacket) : TxWorker :=
  let r := rteEthTxBuffer p.txb m.m
  { p with txb := r.1, txs := p.txs + m.pktLen * 8, passed := p.passed + 1 }

/-- The older `transmit_packet`, `nfunctor.h:60–66`. -/
def transmitPacketOld (p : TxWorker) (m : RxPacket) : TxWorker :=
  let r := rteEthTxBuffer p.txb m.m
  { p with txb := r.1, txn := p.txn + r.2, txs := p.txs + m.pktLen * 8, passed := p.passed + 1 }

/-- `send_the_unsent_packets`, `worker.h:57–69`: the worker and the static variable `prev_tsc`
afterwards, and the result. The other static variable is written before it is read. -/
def sendTheUnsentPackets (hz prevTsc now : BitVec 64) (p : TxWorker) :
    TxWorker × BitVec 64 × Nat :=
  let curTsc := now
  let diffTsc := curTsc - prevTsc
  if diffTsc > drainTsc hz then
    let (txb, nbTx) := rteEthTxBufferFlush p.txb
    ({ p with txb }, curTsc, nbTx)
  else (p, prevTsc, 0)

/-- The start of a loop iteration, `worker.h:143–149`. -/
def drain (hz prevTsc now : BitVec 64) (p : TxWorker) : TxWorker × BitVec 64 :=
  if p.lastAction then
    let (p, prevTsc, nbTx) := sendTheUnsentPackets hz prevTsc now p
    ({ p with txn := p.txn + nbTx }, prevTsc)
  else (p, prevTsc)

end TxWorker

/-- A loop iteration: what `prev_tsc` holds when it starts, its time, and the packets it
transmits. -/
structure Iteration where
  prevTsc : BitVec 64
  now : BitVec 64
  pkts : List RxPacket
  deriving DecidableEq, Repr

/-- The drain timer has expired for a worker that has the last action. -/
def Iteration.Drains (hz : BitVec 64) (lastAction : Bool) (i : Iteration) : Prop :=
  lastAction = true ∧ drainTsc hz < i.now - i.prevTsc

instance (hz : BitVec 64) (lastAction : Bool) (i : Iteration) :
    Decidable (i.Drains hz lastAction) := inferInstanceAs (Decidable (_ ∧ _))

/-- One loop iteration, with the `transmit_packet` of a version of the program. -/
def TxWorker.iteration (transmit : TxWorker → RxPacket → TxWorker) (hz : BitVec 64)
    (p : TxWorker) (i : Iteration) : TxWorker :=
  i.pkts.foldl transmit (p.drain hz i.prevTsc i.now).1

/-! ### The counter of sent packets -/

/-- How many packets leave because the buffer is full, when `waiting` packets are in it first. -/
def fullSends (hz : BitVec 64) (lastAction : Bool) (waiting : Nat) : List Iteration → Nat
  | [] => 0
  | i :: is =>
    let first := if i.Drains hz lastAction then 0 else waiting
    let all := first + i.pkts.length
    TX_BUFFER_SIZE * (all / TX_BUFFER_SIZE) + fullSends hz lastAction (all % TX_BUFFER_SIZE) is

/-- A worker with an empty buffer that has not transmitted anything. -/
def TxWorker.fresh (txn txs : Int) (lastAction : Bool) : TxWorker := ⟨txn, txs, lastAction, [], 0⟩

/-- The sent and the waiting packets are the ones handed to `rte_eth_tx_buffer`. -/
def TxWorker.Accounted (p : TxWorker) : Prop := p.txn + p.txb.length = p.passed

/-- Handing over packets one by one sends a full buffer again and again. -/
private theorem transmitPacket_foldl (pkts : List RxPacket) :
    ∀ p : TxWorker, p.txb.length < TX_BUFFER_SIZE →
      (pkts.foldl TxWorker.transmitPacket p).lastAction = p.lastAction ∧
      (pkts.foldl TxWorker.transmitPacket p).txn = p.txn ∧
      (pkts.foldl TxWorker.transmitPacket p).passed = p.passed + pkts.length ∧
      (pkts.foldl TxWorker.transmitPacket p).txb.length =
        (p.txb.length + pkts.length) % TX_BUFFER_SIZE := by
  induction pkts with
  | nil => exact fun p hp ↦ ⟨rfl, rfl, rfl, (Nat.mod_eq_of_lt hp).symm⟩
  | cons m pkts ih =>
    intro p hp
    have hlen : (p.transmitPacket m).txb.length = (p.txb.length + 1) % TX_BUFFER_SIZE := by
      show (rteEthTxBuffer p.txb m.m).1.length = _
      unfold rteEthTxBuffer
      split
      · next hlt => rw [List.length_append, List.length_singleton, Nat.mod_eq_of_lt hlt]
      · next hge =>
        have hfull : p.txb.length + 1 = TX_BUFFER_SIZE := by omega
        rw [hfull, Nat.mod_self]
        rfl
    have hlt : (p.transmitPacket m).txb.length < TX_BUFFER_SIZE := by
      rw [hlen]
      exact Nat.mod_lt _ (by decide)
    obtain ⟨hlast, htxn, hpassed, hwait⟩ := ih (p.transmitPacket m) hlt
    refine ⟨hlast, htxn, ?_, ?_⟩
    · have hone : (p.transmitPacket m).passed = p.passed + 1 := rfl
      rw [List.foldl_cons, hpassed, hone, List.length_cons]
      omega
    · rw [List.foldl_cons, hwait, hlen, List.length_cons, Nat.mod_add_mod]
      congr 1
      omega

/-- After the timer has expired, the buffer is flushed. -/
theorem sendTheUnsentPackets_of_lt {hz prevTsc now : BitVec 64}
    (h : drainTsc hz < now - prevTsc) (p : TxWorker) :
    p.sendTheUnsentPackets hz prevTsc now = ({ p with txb := [] }, now, p.txb.length) := by
  unfold TxWorker.sendTheUnsentPackets
  exact if_pos h

/-- Before that, nothing happens. -/
theorem sendTheUnsentPackets_of_not_lt {hz prevTsc now : BitVec 64}
    (h : ¬ drainTsc hz < now - prevTsc) (p : TxWorker) :
    p.sendTheUnsentPackets hz prevTsc now = (p, prevTsc, 0) := by
  unfold TxWorker.sendTheUnsentPackets
  exact if_neg h

/-- A worker that drains its buffer. -/
theorem drain_of_drains {hz : BitVec 64} {p : TxWorker} {i : Iteration}
    (h : i.Drains hz p.lastAction) : p.drain hz i.prevTsc i.now =
      ({ p with txb := [], txn := p.txn + p.txb.length }, i.now) := by
  unfold TxWorker.drain
  rw [if_pos h.1, sendTheUnsentPackets_of_lt h.2]

/-- A worker that does not drain its buffer. -/
theorem drain_of_not_drains {hz : BitVec 64} {p : TxWorker} {i : Iteration}
    (h : ¬ i.Drains hz p.lastAction) : p.drain hz i.prevTsc i.now = (p, i.prevTsc) := by
  unfold TxWorker.drain
  by_cases hlast : p.lastAction = true
  · rw [if_pos hlast, sendTheUnsentPackets_of_not_lt fun hlt ↦ h ⟨hlast, hlt⟩]
    simp
  · rw [if_neg hlast]

/-- Draining moves the waiting packets to the sent ones. -/
private theorem drain_spec (hz : BitVec 64) (p : TxWorker) (i : Iteration) :
    (p.drain hz i.prevTsc i.now).1.lastAction = p.lastAction ∧
      (p.drain hz i.prevTsc i.now).1.passed = p.passed ∧
      (p.drain hz i.prevTsc i.now).1.txb.length =
        (if i.Drains hz p.lastAction then 0 else p.txb.length) ∧
      (p.drain hz i.prevTsc i.now).1.txn + (p.drain hz i.prevTsc i.now).1.txb.length =
        p.txn + p.txb.length := by
  by_cases hdrains : i.Drains hz p.lastAction
  · rw [drain_of_drains hdrains, if_pos hdrains]
    exact ⟨rfl, rfl, rfl, Int.add_zero _⟩
  · rw [drain_of_not_drains hdrains, if_neg hdrains]
    exact ⟨rfl, rfl, rfl, rfl⟩

/-- The packets that have been sent or wait fall short of those handed over by the ones that left
with a full buffer. -/
theorem balance (hz : BitVec 64) (is : List Iteration) :
    ∀ p : TxWorker, p.txb.length < TX_BUFFER_SIZE →
      (is.foldl (TxWorker.iteration .transmitPacket hz) p).txn +
          (is.foldl (TxWorker.iteration .transmitPacket hz) p).txb.length +
          fullSends hz p.lastAction p.txb.length is + p.passed =
        p.txn + p.txb.length + (is.foldl (TxWorker.iteration .transmitPacket hz) p).passed := by
  induction is with
  | nil =>
    intro p _
    simp [fullSends]
  | cons i is ih =>
    intro p hp
    obtain ⟨hlast, hpassed, hwait, hmoved⟩ := drain_spec hz p i
    have hlt : (p.drain hz i.prevTsc i.now).1.txb.length < TX_BUFFER_SIZE := by
      rw [hwait]
      split
      · decide
      · exact hp
    obtain ⟨hlast', htxn', hpassed', hwait'⟩ := transmitPacket_foldl i.pkts _ hlt
    have hrest := ih (p.iteration .transmitPacket hz i) (by
      show (i.pkts.foldl TxWorker.transmitPacket _).txb.length < _
      rw [hwait']
      exact Nat.mod_lt _ (by decide))
    have hdiv := Nat.div_add_mod ((p.drain hz i.prevTsc i.now).1.txb.length + i.pkts.length)
      TX_BUFFER_SIZE
    rw [List.foldl_cons, fullSends]
    change _ = (i.pkts.foldl TxWorker.transmitPacket _).txn +
      (i.pkts.foldl TxWorker.transmitPacket _).txb.length + _ at hrest
    change _ + (fullSends hz (i.pkts.foldl TxWorker.transmitPacket _).lastAction
      (i.pkts.foldl TxWorker.transmitPacket _).txb.length is : Int) +
      (i.pkts.foldl TxWorker.transmitPacket _).passed = _ at hrest
    rw [hlast', hlast, htxn', hpassed', hwait', hpassed] at hrest
    rw [← hwait]
    push_cast at hrest hdiv ⊢
    omega

/-- After any iterations of any worker, the sent and the waiting packets are the ones handed to
`rte_eth_tx_buffer` exactly when the packets that left with a full buffer are as many as `txn`
counted before the first. -/
theorem accounted_iff (hz : BitVec 64) (txn txs : Int) (lastAction : Bool)
    (is : List Iteration) :
    (is.foldl (TxWorker.iteration .transmitPacket hz) (.fresh txn txs lastAction)).Accounted ↔
      (fullSends hz lastAction 0 is : Int) = txn := by
  have h := balance hz is (.fresh txn txs lastAction) (by show 0 < _; decide)
  change _ + (fullSends hz lastAction 0 is : Int) + ((0 : Nat) : Int) =
    txn + ((0 : Nat) : Int) + _ at h
  unfold TxWorker.Accounted
  omega

private theorem not_accounted_of_full (hz : BitVec 64) {pkts : List RxPacket}
    (hpkts : pkts.length = TX_BUFFER_SIZE) :
    ¬ ([⟨0, 0, pkts⟩].foldl (TxWorker.iteration .transmitPacket hz)
      (.fresh 0 0 true)).Accounted := by
  intro h
  have hb := balance hz [⟨0, 0, pkts⟩] (.fresh 0 0 true) (Nat.zero_lt_succ 1023)
  have hfull : (fullSends hz true 0 [⟨0, 0, pkts⟩] : Int) = 1024 := by
    simp [fullSends, hpkts]
  change _ + (fullSends hz true 0 _ : Int) + ((0 : Nat) : Int) = 0 + ((0 : Nat) : Int) + _ at hb
  rw [hfull] at hb
  unfold TxWorker.Accounted at h
  omega

/-- A worker whose buffer fills up in its first iteration. -/
theorem full_buffer_not_accounted :
    ¬ ([⟨0, 0, List.replicate 1024 ⟨⟨0, 0⟩, 64⟩⟩].foldl
      (TxWorker.iteration .transmitPacket 2000000000) (.fresh 0 0 true)).Accounted :=
  not_accounted_of_full 2000000000 List.length_replicate

/-- The older `transmit_packet` counts the packets that leave with a full buffer. -/
private theorem transmitPacketOld_foldl (pkts : List RxPacket) : ∀ p : TxWorker,
    (pkts.foldl TxWorker.transmitPacketOld p).txn +
        (pkts.foldl TxWorker.transmitPacketOld p).txb.length + p.passed =
      p.txn + p.txb.length + (pkts.foldl TxWorker.transmitPacketOld p).passed := by
  induction pkts with
  | nil => exact fun _ ↦ rfl
  | cons m pkts ih =>
    intro p
    have hrest := ih (p.transmitPacketOld m)
    have hmoved : (p.transmitPacketOld m).txn + (p.transmitPacketOld m).txb.length =
        p.txn + p.txb.length + 1 := by
      show p.txn + (rteEthTxBuffer p.txb m.m).2 + (rteEthTxBuffer p.txb m.m).1.length = _
      unfold rteEthTxBuffer
      split
      · rw [List.length_append, List.length_singleton]
        push_cast
        omega
      · show p.txn + ((p.txb ++ [m.m]).length : Nat) + ((0 : Nat) : Int) = _
        rw [List.length_append, List.length_singleton]
        push_cast
        omega
    have hpassed : (p.transmitPacketOld m).passed = p.passed + 1 := rfl
    rw [hpassed] at hrest
    rw [List.foldl_cons]
    push_cast at hrest
    omega

/-- With the older `transmit_packet`, the sent and the waiting packets are the ones handed over
after any iterations, if `txn` counts from 0. -/
theorem accounted_old (hz : BitVec 64) (txs : Int) (lastAction : Bool) (is : List Iteration) :
    (is.foldl (TxWorker.iteration .transmitPacketOld hz) (.fresh 0 txs lastAction)).Accounted := by
  have hkeep : ∀ (is : List Iteration) (p : TxWorker), p.Accounted →
      (is.foldl (TxWorker.iteration .transmitPacketOld hz) p).Accounted := by
    intro is
    induction is with
    | nil => exact fun _ hp ↦ hp
    | cons i is ih =>
      intro p hp
      refine ih _ ?_
      obtain ⟨-, hpassed, -, hmoved⟩ := drain_spec hz p i
      have hfold := transmitPacketOld_foldl i.pkts (p.drain hz i.prevTsc i.now).1
      unfold TxWorker.Accounted TxWorker.iteration at *
      omega
  exact hkeep is _ rfl

/-! ### Workers that share the time of the last flush -/

/-- One loop iteration of one worker: its time and the packets it transmits. -/
structure Turn where
  w : Core
  now : BitVec 64
  pkts : List RxPacket
  deriving DecidableEq, Repr

/-- The workers with the static variable `prev_tsc`, `worker.h:58`. Every time stamp is at least
`clock`. `flushes` records which worker has flushed its buffer, and when. -/
structure TxNet where
  worker : Core → TxWorker
  prevTsc : BitVec 64
  clock : BitVec 64
  flushes : List (Core × BitVec 64)

/-- The iteration that a turn amounts to. -/
def TxNet.iteration (n : TxNet) (t : Turn) : Iteration := ⟨n.prevTsc, t.now, t.pkts⟩

/-- The call of `send_the_unsent_packets` in this turn flushes the worker's buffer. -/
def TxNet.Flushes (hz : BitVec 64) (n : TxNet) (t : Turn) : Prop :=
  (n.iteration t).Drains hz (n.worker t.w).lastAction

instance (hz : BitVec 64) (n : TxNet) (t : Turn) : Decidable (n.Flushes hz t) :=
  inferInstanceAs (Decidable (Iteration.Drains ..))

/-- One turn. The time-stamp counter does not run backwards. -/
def txStep (hz : BitVec 64) (n : TxNet) (t : Turn) : Option TxNet :=
  if n.clock ≤ t.now then
    let p := n.worker t.w
    some {
      worker := Function.update n.worker t.w (p.iteration .transmitPacket hz (n.iteration t))
      prevTsc := (p.drain hz n.prevTsc t.now).2
      clock := t.now
      flushes := if n.Flushes hz t then n.flushes ++ [(t.w, t.now)] else n.flushes }
  else none

/-- Workers before their first iterations. -/
def TxNet.start (worker : Core → TxWorker) (clock : BitVec 64) : TxNet := ⟨worker, 0, clock, []⟩

/-- The last time at which a worker has flushed its buffer, or the time of its start. -/
def TxNet.since (start : Core → BitVec 64) (n : TxNet) (w : Core) : BitVec 64 :=
  ((n.flushes.filter (·.1 = w)).getLast?.map Prod.snd).getD (start w)

/-- A worker calls `send_the_unsent_packets` more than `drain_tsc` after its own last flush, or
after its start. -/
def TxNet.Late (hz : BitVec 64) (start : Core → BitVec 64) (n : TxNet) (t : Turn) : Prop :=
  n.clock ≤ t.now ∧ (n.worker t.w).lastAction = true ∧
    (n.since start t.w).toNat + (drainTsc hz).toNat < t.now.toNat

instance (hz : BitVec 64) (start : Core → BitVec 64) (n : TxNet) (t : Turn) :
    Decidable (n.Late hz start t) := inferInstanceAs (Decidable (_ ∧ _ ∧ _))

/-- A late call flushes the buffer. -/
def Independent (hz : BitVec 64) (start : Core → BitVec 64) (n : TxNet) (t : Turn) : Prop :=
  n.Late hz start t → n.Flushes hz t

instance (hz : BitVec 64) (start : Core → BitVec 64) (n : TxNet) (t : Turn) :
    Decidable (Independent hz start n t) := inferInstanceAs (Decidable (_ → _))

/-- No other worker has flushed its buffer within the last `drain_tsc` before a late call. -/
def Unshadowed (hz : BitVec 64) (start : Core → BitVec 64) (n : TxNet) (t : Turn) : Prop :=
  n.Late hz start t → ∀ x ∈ n.flushes, x.1 ≠ t.w →
    x.2.toNat + (drainTsc hz).toNat < t.now.toNat

/-- `prev_tsc` is the time of the last flush of any worker. -/
structure LastFlush (n : TxNet) : Prop where
  prevTsc : n.prevTsc = (n.flushes.getLast?.map Prod.snd).getD 0
  le_clock : n.prevTsc ≤ n.clock
  le : ∀ x ∈ n.flushes, x.2 ≤ n.prevTsc

/-- Every turn keeps `prev_tsc` the time of the last flush. -/
theorem LastFlush.step {hz : BitVec 64} {n n' : TxNet} {t : Turn} (h : LastFlush n)
    (hs : txStep hz n t = some n') : LastFlush n' := by
  unfold txStep at hs
  split at hs
  case isFalse => cases hs
  case isTrue hclock =>
  cases hs
  have hle : n.prevTsc ≤ t.now := BitVec.le_trans h.le_clock hclock
  by_cases hflush : n.Flushes hz t
  · have hdrain := drain_of_drains hflush
    change TxWorker.drain hz n.prevTsc t.now _ = _ at hdrain
    constructor
    · simp [hflush, hdrain]
      rfl
    · simp [hdrain]
      exact BitVec.le_refl _
    · intro x hx
      simp only [hflush, if_true, List.mem_append, List.mem_singleton] at hx
      rw [hdrain]
      rcases hx with hx | rfl
      · exact BitVec.le_trans (h.le x hx) hle
      · exact BitVec.le_refl _
  · have hdrain := drain_of_not_drains hflush
    change TxWorker.drain hz n.prevTsc t.now _ = _ at hdrain
    constructor
    · simp only [hflush, if_false, hdrain]
      exact h.prevTsc
    · simp only [hdrain]
      exact hle
    · simp only [hflush, if_false, hdrain]
      exact h.le

/-- The timer has expired exactly when the last flush is long enough ago. -/
theorem flushes_iff {hz : BitVec 64} {n : TxNet} {t : Turn} (h : LastFlush n)
    (hclock : n.clock ≤ t.now) (hlast : (n.worker t.w).lastAction = true) :
    n.Flushes hz t ↔ n.prevTsc.toNat + (drainTsc hz).toNat < t.now.toNat := by
  have hle : n.prevTsc ≤ t.now := BitVec.le_trans h.le_clock hclock
  have hsub : (t.now - n.prevTsc).toNat = t.now.toNat - n.prevTsc.toNat :=
    BitVec.toNat_sub_of_le hle
  have hnat : n.prevTsc.toNat ≤ t.now.toNat := hle
  unfold TxNet.Flushes Iteration.Drains TxNet.iteration
  rw [BitVec.lt_def, hsub]
  simp only [hlast, true_and]
  omega

/-- A late call flushes the buffer exactly when no other worker has flushed its own too recently. -/
theorem independent_iff_unshadowed {hz : BitVec 64} {start : Core → BitVec 64} {n : TxNet}
    (h : LastFlush n) (t : Turn) : Independent hz start n t ↔ Unshadowed hz start n t := by
  refine forall_congr' fun hlate ↦ ?_
  obtain ⟨hclock, hlast, hsince⟩ := hlate
  rw [flushes_iff h hclock hlast]
  constructor
  · intro hflush x hx _
    have hx' : x.2.toNat ≤ n.prevTsc.toNat := h.le x hx
    omega
  · intro hothers
    cases hget : n.flushes.getLast? with
    | none =>
      have hprev : n.prevTsc = 0 := by rw [h.prevTsc, hget]; rfl
      rw [hprev]
      show 0 + _ < _
      omega
    | some x =>
      have hprev : n.prevTsc = x.2 := by rw [h.prevTsc, hget]; rfl
      have hmem : x ∈ n.flushes := List.mem_of_getLast? hget
      rw [hprev]
      by_cases hown : x.1 = t.w
      · -- the worker's own flush is the last of all
        have hsame : n.since start t.w = x.2 := by
          obtain ⟨l, hl⟩ := List.getLast?_eq_some_iff.mp hget
          unfold TxNet.since
          rw [hl, List.filter_append]
          simp [hown]
        rw [← hsame]
        exact hsince
      · exact hothers x hmem hown

/-- In every interleaving of the loop iterations of any workers, every late call flushes its
worker's buffer exactly when no late call is made within `drain_tsc` after another worker's
flush. -/
theorem along_independent_iff (hz : BitVec 64) (start : Core → BitVec 64)
    (worker : Core → TxWorker) (clock : BitVec 64) (ts : List Turn) :
    Along (txStep hz) (Independent hz start) (.start worker clock) ts ↔
      Along (txStep hz) (Unshadowed hz start) (.start worker clock) ts := by
  have h0 : LastFlush (.start worker clock) :=
    ⟨rfl, Nat.zero_le _, fun _ hx ↦ nomatch hx⟩
  exact along_congr (I := LastFlush) (fun _ _ _ hn hs ↦ hn.step hs)
    (fun _ t hn ↦ independent_iff_unshadowed hn t) h0 ts

/-- A worker that waits since its start does not flush its buffer, because another one has. -/
theorem drain_not_independent :
    ¬ Along (txStep 1000000000) (Independent 1000000000 fun _ ↦ 0)
      (.start (fun _ ↦ .fresh 0 0 true) 0) [⟨1, 200000, []⟩, ⟨3, 250000, []⟩] := by
  decide

end Nflambda.Runtime
