import Nflambda.Base.Rounds
import Nflambda.Runtime.Draining
import Nflambda.Runtime.Pool

/-!
# When a message pool is exhausted

Library `Runtime`. Source `src/runtime/worker.h:86–94,157–159` and `src/runtime/Config.c:223`. A
packet is lost when `get_free_item` finds nothing. Items in mailboxes and in hands are bounded by
the rings, so this takes a pool most of whose items have been finished by other workers and are
forgotten. On the other hand a worker whose items are always finished elsewhere hands on no more
packets than its pool had items.
-/

namespace Nflambda.Runtime

open Nflambda.Base Finset

variable {H : Type}

/-- `get_free_item` finds an item as long as the pool has one. -/
def FindsFree (n : Net H) : Event → Prop
  | .alloc w none => n.buffer w = []
  | _ => True

/-- An event of the workers that no failure of `get_free_item` is part of. -/
def Event.IsSmooth (ev : Event) : Prop := ev.KeepsRunning ∧ ∀ w, ev ≠ .alloc w none

theorem isSmooth_work (w : Core) : (Event.work w).IsSmooth :=
  ⟨⟨trivial, by simp⟩, by simp⟩

theorem isSmooth_rxBurst (w : Core) (pkts : List Mbuf) : (Event.rxBurst w pkts).IsSmooth :=
  ⟨⟨trivial, by simp⟩, by simp⟩

theorem isSmooth_alloc (w : Core) (i : Item) : (Event.alloc w (some i)).IsSmooth :=
  ⟨⟨trivial, by simp⟩, by simp⟩

/-- In a run of such events, `get_free_item` finds what there is. -/
theorem along_findsFree {es : List Event} (hes : ∀ ev ∈ es, ev.IsSmooth) (n : Net H) :
    Along step FindsFree n es :=
  (along_of_forall hes n).mono fun k ev hev ↦ by
    cases ev with
    | alloc w r =>
      cases r with
      | none => exact absurd rfl (hev.2 w)
      | some i => trivial
    | work | rxBurst | command | quit => trivial

/-- If the event finishes a dequeued item, then not on the worker that produced it. -/
def FinishedAway (n : Net H) : Event → Prop
  | .work w =>
    ∀ i, n.pc w = .handle (.item i) → n.Finishes w (.item i) → n.produces w i = false
  | _ => True

/-- Worker `w` copies a packet to an item of its pool, to hand it on. -/
def Event.HandsOn (w : Core) : Event → Prop
  | .alloc v (some _) => v = w
  | _ => False

instance (w : Core) : (ev : Event) → Decidable (ev.HandsOn w)
  | .alloc v (some _) => inferInstanceAs (Decidable (v = w))
  | .alloc _ none | .work _ | .rxBurst _ _ | .command _ | .quit => instDecidableFalse

/-! ### Losses -/

/-- No ring holds more than fits into it. -/
theorem mailbox_taken {n n' : Net H} {ev : Event} (ht : Taken n ev n')
    (hn : ∀ v, (n.mailbox v).length ≤ n.config.ringSize - 1) (v : Core) :
    (n'.mailbox v).length ≤ n'.config.ringSize - 1 := by
  rw [ringSize_taken ht]
  cases ht with
  | pop w i q hpc hm =>
    by_cases hv : v = w
    · subst hv
      have hle := hn v
      rw [hm, List.length_cons] at hle
      simp only [popItem, Function.update_self]
      omega
    · simpa [popItem, hv] using hn v
  | push w dest i h hpc hr =>
    by_cases hv : v = dest
    · subst hv
      simp only [pushItem, Function.update_self, List.length_append, List.length_singleton]
      omega
    · simpa [pushItem, hv] using hn v
  | transmit =>
    rw [complete_mailbox]
    simpa [transmitPacket] using hn v
  | act => simpa [ranAction] using hn v
  | actEnd =>
    rw [complete_mailbox]
    simpa [ranAction] using hn v
  | move | begin | relay | retry | rxBurst | drop | copy | command | quit => exact hn v

/-- Forgotten items stay forgotten. -/
theorem forgotten_suffix {n n' : Net H} {ev : Event} (ht : Taken n ev n') :
    n.hist.forgotten <:+ n'.hist.forgotten := by
  have hcomplete (k : Net H) (w : Core) (h : Held) :
      k.hist.forgotten <:+ (complete k w h).hist.forgotten := by
    cases h with
    | packet rest => exact List.suffix_rfl
    | item i =>
      simp only [complete]
      split
      · exact List.suffix_rfl
      · exact List.suffix_cons i _
  cases ht with
  | transmit w h e =>
    apply List.IsSuffix.trans _ (hcomplete _ w h)
    rw [transmitPacket, Net.store_hist]
    exact List.suffix_rfl
  | act =>
    rw [Net.store_hist]
    exact List.suffix_rfl
  | actEnd w h e f s st =>
    apply List.IsSuffix.trans _ (hcomplete _ w h)
    rw [Net.store_hist]
    exact List.suffix_rfl
  | move | pop | begin | relay | push | retry | rxBurst | drop | copy | command | quit =>
    exact List.suffix_rfl

/-- An empty pool has most of its items forgotten: the others are in the rings and in hands. -/
theorem PoolInvariant.forgotten_of_empty {size : Nat} {n : Net H} (hn : PoolInvariant size n)
    (hring : ∀ v, (n.mailbox v).length ≤ n.config.ringSize - 1) (hpos : 1 ≤ n.config.ringSize)
    {w : Core} {rest : List Mbuf} (hpc : n.pc w = .handle (.packet rest)) (hb : n.buffer w = []) :
    size < n.hist.forgotten.countP (·.owner == w) + 48 * n.config.ringSize := by
  have hbal := hn.balance w
  have hmail : mailItems (n.produces w) n ≤ 48 * (n.config.ringSize - 1) := by
    calc mailItems (n.produces w) n ≤ ∑ _v : Core, (n.config.ringSize - 1) :=
          sum_le_sum fun v _ ↦ List.countP_le_length.trans (hring v)
      _ = 48 * (n.config.ringSize - 1) := by simp
  have hheld : heldItems (n.produces w) n ≤ 47 := by
    have hone (v : Core) : (n.pc v).items.countP (n.produces w) ≤ 1 := by
      apply List.countP_le_length.trans
      cases n.pc v with
      | handle h => cases h <;> simp
      | enqueue => simp
      | idle | top | dequeue | rx | burst => simp
    have hself : (n.pc w).items.countP (n.produces w) = 0 := by rw [hpc]; rfl
    calc heldItems (n.produces w) n
        = ∑ v ∈ univ.erase w, (n.pc v).items.countP (n.produces w) := by
          rw [heldItems, ← add_sum_erase univ _ (mem_univ w), hself, Nat.zero_add]
      _ ≤ ∑ _v ∈ univ.erase w, 1 := sum_le_sum fun v _ ↦ hone v
      _ = 47 := by simp
  rw [hb, List.length_nil] at hbal
  omega

/-- What every event keeps where `get_free_item` finds what there is. -/
structure Losing (c : Config H) (size : Nat) (n : Net H) : Prop where
  pool : PoolInvariant size n
  ring : n.config.ringSize = c.ringSize
  mailbox : ∀ v, (n.mailbox v).length ≤ n.config.ringSize - 1
  lost : n.hist.freed ≠ [] →
    ∃ w, size < n.hist.forgotten.countP (·.owner == w) + 48 * c.ringSize

/-- Only a failed search frees a packet, the one that the worker handles. -/
theorem freed_taken {n n' : Net H} {ev : Event} (ht : Taken n ev n') :
    n'.hist.freed = n.hist.freed ∨ ∃ w h, ev = .alloc w none ∧ n.pc w = .handle h ∧
      (n.message w h).producerId = -1 ∧
      n'.hist.freed = n.hist.freed ++ [(n.message w h).m] := by
  cases ht with
  | transmit =>
    left
    rw [complete_freed, transmitPacket, Net.store_hist]
    rfl
  | act =>
    left
    rw [Net.store_hist]
    rfl
  | actEnd =>
    left
    rw [complete_freed, Net.store_hist]
    rfl
  | drop w h e hpc he hc hl => exact .inr ⟨w, h, rfl, hpc, hl, rfl⟩
  | move | pop | begin | relay | push | retry | rxBurst | copy | command | quit => exact .inl rfl

/-- In a run from `n`, packet `p` was freed by a worker whose pool was empty. -/
def FreedEmpty (n : Net H) (es : List Event) (p : Mbuf) : Prop :=
  ∃ es₁ w es₂ k d, es = es₁ ++ .alloc w none :: es₂ ∧ run step n es₁ = some k ∧
    k.pc w = .handle d ∧ (k.message w d).m = p ∧ k.buffer w = []

/-- Where `get_free_item` finds what there is, packets are only freed by workers whose pools are
empty. -/
theorem freedEmpty_of_freed {n n' : Net H} {es : List Event} {p : Mbuf}
    (hf : Along step FindsFree n es) (h : run step n es = some n') (hn : p ∉ n.hist.freed)
    (hp : p ∈ n'.hist.freed) : FreedEmpty n es p := by
  induction es generalizing n with
  | nil =>
    rw [run_nil, Option.some.injEq] at h
    rw [h] at hn
    exact absurd hp hn
  | cons ev es ih =>
    obtain ⟨k, hk, hrest⟩ := run_cons_iff.mp h
    by_cases hfreed : p ∈ k.hist.freed
    · rcases freed_taken (step_taken hk) with hsame | ⟨w, d, rfl, hpc, -, hsnoc⟩
      · rw [hsame] at hfreed
        exact absurd hfreed hn
      · rw [hsnoc, List.mem_append, List.mem_singleton] at hfreed
        exact ⟨[], w, es, n, d, rfl, run_nil n, hpc, (hfreed.resolve_left hn).symm, hf.1⟩
    · obtain ⟨es₁, w, es₂, m, d, rfl, hm, hd⟩ := ih (hf.2 k hk) hrest hfreed
      exact ⟨ev :: es₁, w, es₂, m, d, rfl, run_cons_iff.mpr ⟨k, hk, hm⟩, hd⟩

/-- A worker that waits for the result of `get_free_item` goes on with one that finds what there
is. -/
theorem exists_findsFree {n n' : Net H} {w : Core} {r : Option Item}
    (h : step n (.alloc w r) = some n') :
    ∃ r' n'', FindsFree n (.alloc w r') ∧ step n (.alloc w r') = some n'' := by
  obtain ⟨d, e, dest, hpc, he, hc, hdest⟩ : ∃ d e dest, n.pc w = .handle d ∧
      n.config.entry (n.message w d).actionId = some e ∧
      (e.coreId ≠ (w.val : Int) ∧ (n.message w d).producerId = -1) ∧
      idx? 48 e.coreId = some dest := by
    simp only [step] at h
    split at h
    · next d hpc =>
      simp only [allocate] at h
      split at h
      · cases h
      · next e he =>
        split at h
        · next hc =>
          cases hdest : idx? 48 e.coreId with
          | none => simp [hdest] at h
          | some dest => exact ⟨d, e, dest, hpc, he, hc, hdest⟩
        · cases h
    · cases h
  cases hb : n.buffer w with
  | nil =>
    refine ⟨none, dropPacket n w d, hb, ?_⟩
    simp only [step, hpc, allocate, he, if_pos hc, hdest, dropPacket]
  | cons i q =>
    have hi : i ∈ n.buffer w := by
      rw [hb]
      exact List.mem_cons_self
    refine ⟨some i, copyPacket n w dest i d, trivial, ?_⟩
    simp only [step, hpc, allocate, he, if_pos hc, hdest, if_pos hi, copyPacket]

/-- Every event keeps the losses explained. -/
theorem Losing.next {c : Config H} {size : Nat} {n n' : Net H} {ev : Event}
    (hn : Losing c size n) (hc : 1 ≤ c.ringSize) (hf : FindsFree n ev)
    (h : step n ev = some n') : Losing c size n' := by
  have ht := step_taken h
  have hring := (ringSize_taken ht).trans hn.ring
  refine ⟨hn.pool.next h, hring, mailbox_taken ht hn.mailbox, fun hfreed ↦ ?_⟩
  have hmono (w : Core) : n.hist.forgotten.countP (·.owner == w) ≤
      n'.hist.forgotten.countP (·.owner == w) := (forgotten_suffix ht).sublist.countP_le
  have hlost : ∃ w, size < n.hist.forgotten.countP (·.owner == w) + 48 * c.ringSize := by
    rcases freed_taken ht with hsame | ⟨w, k, rfl, hpc, hl, -⟩
    · apply hn.lost
      rwa [← hsame]
    · obtain ⟨rest, rfl⟩ := hn.pool.produced.packet_of_local hpc hl
      have hlt := hn.pool.forgotten_of_empty hn.mailbox (hn.ring ▸ hc) hpc hf
      rw [hn.ring] at hlt
      exact ⟨w, hlt⟩
  obtain ⟨w, hw⟩ := hlost
  exact ⟨w, by have := hmono w; omega⟩

/-- In every run in which `get_free_item` finds what there is, a packet is lost only after all but
48 rings' worth of the items of some worker have been finished by other workers and forgotten. -/
theorem loss_needs_forgotten (c : Config H) (launched : Core → Bool) (size : Nat)
    (mem : Item → Message) (scratch : Core → Message) (hc : 1 ≤ c.ringSize) (es : List Event)
    (n : Net H) (hf : Along step FindsFree (launch c launched size mem scratch) es)
    (h : run step (launch c launched size mem scratch) es = some n)
    (hlost : n.hist.freed ≠ []) :
    ∃ w, size < n.hist.forgotten.countP (·.owner == w) + 48 * c.ringSize := by
  have h0 : Losing c size (launch c launched size mem scratch) :=
    ⟨poolInvariant_launch c launched size mem scratch, rfl, fun _ ↦ Nat.zero_le _,
      fun hne ↦ absurd rfl hne⟩
  exact (run_invariant_along (fun _ _ _ hn hq hs ↦ hn.next hc hq hs) h0 hf h).lost hlost

/-- Over `crossConfig`, worker 1 has `pkts` of its burst left and `items` in its pool, and worker 3
waits for mail. -/
private structure Handing (n : Net Unit) (pkts : List Mbuf) (items : List Item) : Prop where
  config : n.config = crossConfig 2
  here : n.pc 1 = .burst pkts
  there : n.pc 3 = .dequeue
  mail : n.mailbox 3 = []
  pool : n.buffer 1 = items

private theorem entry_startPacket {n : Net Unit} (hc : n.config = crossConfig 2) (p : Mbuf) :
    (crossConfig 2).entry (startPacket n 1 p).actionId = some ((crossConfig 2).actionTable 0) := by
  rw [startPacket, hc]
  rfl

/-- Worker 1 copies the next packet to an item. -/
private theorem Handing.copied {n : Net Unit} {p : Mbuf} {rest : List Mbuf} {i : Item}
    {items : List Item} (h : Handing n (p :: rest) (i :: items)) :
    ∃ n', ReachableBy step Event.IsSmooth n n' ∧ n'.config = crossConfig 2 ∧
      n'.pc 1 = .enqueue 3 i (.packet rest) ∧ n'.pc 3 = .dequeue ∧ n'.mailbox 3 = [] ∧
      n'.buffer 1 = items ∧ n'.mem i = { startPacket n 1 p with producerId := 1 } := by
  have hpool : (beginPacket n 1 p rest).buffer 1 = i :: items := h.pool
  have hm : (beginPacket n 1 p rest).message 1 (.packet rest) = startPacket n 1 p := by
    simp [beginPacket, Net.message]
  have hs1 := enabled_begin h.here
  have hs2 : step (beginPacket n 1 p rest) (.alloc 1 (some i)) =
      some (copyPacket (beginPacket n 1 p rest) 1 3 i (.packet rest)) :=
    enabled_copy (by simp [beginPacket, Net.setPc])
      (by
        rw [hm, show (beginPacket n 1 p rest).config = crossConfig 2 from h.config]
        exact entry_startPacket h.config p)
      (by decide) (by rw [hm]; rfl) rfl (by rw [hpool]; exact List.mem_cons_self)
  refine ⟨_, ((ReachableBy.refl _ n).tail (isSmooth_work 1) hs1).tail (isSmooth_alloc 1 i) hs2,
    h.config, ?_, ?_, h.mail, ?_, ?_⟩
  · simp [copyPacket, Net.setPc]
  · simpa [copyPacket, beginPacket, Net.setPc] using h.there
  · simp [copyPacket, hpool]
  · simp [copyPacket, hm]

/-- Worker 1 hands the next packet to worker 3, which transmits it and forgets the item. -/
private theorem Handing.next {n : Net Unit} {p : Mbuf} {rest : List Mbuf} {i : Item}
    {items : List Item} (h : Handing n (p :: rest) (i :: items)) :
    ∃ n', ReachableBy step Event.IsSmooth n n' ∧ Handing n' rest items := by
  obtain ⟨k, hr, hc, hpc1, hpc3, hmail, hpool, hmem⟩ := h.copied
  have hs1 := enabled_push hpc1 (by rw [hmail, hc]; decide)
  have hpc : (pushItem k 1 3 i (.packet rest)).pc 3 = .dequeue := by
    simpa [pushItem, Net.setPc] using hpc3
  have hs2 := enabled_pop hpc (q := []) (i := i) (by simp [pushItem, hmail])
  generalize hk : popItem (pushItem k 1 3 i (.packet rest)) 3 i [] = k' at hs2
  have hm : k'.mem i = { startPacket n 1 p with producerId := 1 } := by
    rw [← hk]
    exact hmem
  have hc' : k'.config = crossConfig 2 := by
    rw [← hk]
    exact hc
  have hs3 : step k' (.work 3) = some (complete (transmitPacket
      (k'.called (callOf k' 3 (.item i) ((crossConfig 2).actionTable 0))) 3 (.item i)) 3
      (.item i)) := by
    refine enabled_transmit (v := 3) ?_ ?_ rfl rfl rfl
    · simp [← hk, popItem, Net.setPc]
    · rw [Net.message, hm, hc']
      exact entry_startPacket h.config p
  have hforeign : ((transmitPacket (k'.called (callOf k' 3 (.item i)
      ((crossConfig 2).actionTable 0))) 3 (.item i)).mem i).producerId ≠
        ((3 : Core).val : Int) := by
    simp [transmitPacket, Net.store, Net.message, hm]
  rw [complete, if_neg hforeign] at hs3
  refine ⟨_, ((hr.tail (isSmooth_work 1) hs1).tail (isSmooth_work 3) hs2).tail (isSmooth_work 3)
    hs3, ⟨?_, ?_, ?_, ?_, ?_⟩⟩
  · exact hc'
  · simp [transmitPacket, ← hk, popItem, pushItem, Net.setPc, Held.resume]
  · simp [Net.setPc]
  · simp [transmitPacket, ← hk, popItem, Net.setPc]
  · subst hk
    exact hpool

/-- Worker 1 hands on as many packets as its pool has items. -/
private theorem Handing.run {n : Net Unit} {pkts rest : List Mbuf} {items : List Item}
    (h : Handing n (pkts ++ rest) items) (hlen : pkts.length = items.length) :
    ∃ n', ReachableBy step Event.IsSmooth n n' ∧ Handing n' rest [] := by
  induction pkts generalizing n items with
  | nil =>
    rw [List.length_nil, eq_comm, List.length_eq_zero_iff] at hlen
    exact ⟨n, .refl _ n, hlen ▸ h⟩
  | cons p pkts ih =>
    cases items with
    | nil => simp at hlen
    | cons i items =>
      obtain ⟨k, hk, hnext⟩ := h.next
      obtain ⟨n', hn', hlast⟩ := ih hnext (by simpa using hlen)
      exact ⟨n', hk.trans hn', hlast⟩

/-- `crossConfig` with rings of two slots and pools of 96 items. -/
def lossNet : Net Unit :=
  launch (crossConfig 2) workerRun 96 (fun _ ↦ ⟨0, 0, 0, 0, ⟨0, 0⟩, 0⟩)
    (fun _ ↦ ⟨0, 0, 0, 0, ⟨0, 0⟩, 0⟩)

/-- Worker 1 receives one packet more than its pool has items. -/
private theorem handing_lossNet : ∃ n, ReachableBy step Event.IsSmooth lossNet n ∧
    Handing n ((List.range 96).map (Mbuf.mk · 0) ++ [Mbuf.mk 96 0]) (lossNet.buffer 1) := by
  have hs := enabled_rxBurst (show
    (((lossNet.setPc 3 .dequeue).setPc 1 .dequeue).setPc 1 .rx).pc 1 = .rx by simp [Net.setPc])
    (show Net.CanReceive _ ((List.range 96).map (Mbuf.mk · 0) ++ [Mbuf.mk 96 0]) by decide +kernel)
  refine ⟨_, ((((ReachableBy.refl _ lossNet).tail (isSmooth_work 3) rfl).tail (isSmooth_work 1)
    rfl).tail (isSmooth_work 1) rfl).tail (isSmooth_rxBurst 1 _) hs, ⟨rfl, ?_, ?_, rfl, rfl⟩⟩
  · simp [receive, Net.setPc]
  · simp [receive, Net.setPc]

/-- Worker 1 hands 96 packets to worker 3, which forgets every item; then it has none for the last
packet and frees it. Its pool has as many items as 48 rings have slots. -/
theorem loss_needs_forgotten_pair : ∃ es n, Along step FindsFree lossNet es ∧
    run step lossNet es = some n ∧ n.hist.freed ≠ [] ∧
    ∃ w, 96 < n.hist.forgotten.countP (·.owner == w) + 48 * 2 := by
  obtain ⟨n0, hr0, h0⟩ := handing_lossNet
  obtain ⟨n, hr, hn⟩ := h0.run (by simp [lossNet, launch])
  obtain ⟨es, hes, hrun⟩ := (hr0.trans hr).tail (isSmooth_work 1) (enabled_begin hn.here)
  have hdrop : step (beginPacket n 1 ⟨96, 0⟩ []) (.alloc 1 none) =
      some (dropPacket (beginPacket n 1 ⟨96, 0⟩ []) 1 (.packet [])) := by
    have hm : (beginPacket n 1 ⟨96, 0⟩ []).message 1 (.packet []) = startPacket n 1 ⟨96, 0⟩ := by
      simp [beginPacket, Net.message]
    have hcore : ((crossConfig 2).actionTable 0).coreId = ((3 : Core).val : Int) := rfl
    refine enabled_drop ?_ ?_ ?_ ?_ hcore
    · simp [beginPacket, Net.setPc]
    · rw [hm, show (beginPacket n 1 ⟨96, 0⟩ []).config = crossConfig 2 from hn.config]
      exact entry_startPacket hn.config _
    · decide
    · rw [hm]
      rfl
  have hall : Along step FindsFree lossNet (es ++ [.alloc 1 none]) :=
    (along_append_iff hrun).mpr ⟨along_findsFree hes lossNet, hn.pool, fun _ _ ↦ trivial⟩
  have hlast := run_snoc hrun hdrop
  have hfreed : (dropPacket (beginPacket n 1 ⟨96, 0⟩ []) 1 (.packet [])).hist.freed ≠ [] := by
    simp [dropPacket]
  exact ⟨_, _, hall, hlast, hfreed, loss_needs_forgotten (crossConfig 2) workerRun 96 _ _
    (by decide) _ _ hall hlast hfreed⟩

/-! ### The life of a pool -/

/-- A worker that finishes no item of its own puts nothing back into its pool. -/
private theorem buffer_complete {k : Net H} {w : Core} {h : Held}
    (hp : ∀ i, h = .item i → k.produces w i = false) : (complete k w h).buffer = k.buffer := by
  cases h with
  | packet rest => rfl
  | item i =>
    have hi := hp i rfl
    have hne : (k.mem i).producerId ≠ (w.val : Int) := by simpa [Net.produces] using hi
    simp only [complete, if_neg hne]
    rfl

/-- An event takes an item out of the pool of `w` when it hands a packet on, and puts none back
when items are finished away from their producers. -/
theorem buffer_taken {n n' : Net H} {ev : Event} (hf : FinishedAway n ev) (ht : Taken n ev n')
    (w : Core) :
    (if ev.HandsOn w then 1 else 0) + (n'.buffer w).length ≤ (n.buffer w).length := by
  have hsame {ev : Event} {k : Net H} (hb : k.buffer = n.buffer) (hno : ¬ ev.HandsOn w) :
      (if ev.HandsOn w then 1 else 0) + (k.buffer w).length ≤ (n.buffer w).length := by
    rw [hb, if_neg hno, Nat.zero_add]
  have hstore (k : Net H) (v : Core) (h : Held) (m : Message) (hk : k.mem = n.mem)
      (hm : m.producerId = (n.message v h).producerId) (i : Item) :
      (k.store v h m).produces v i = n.produces v i := by
    cases h with
    | packet rest => simp [Net.produces, Net.store, hk]
    | item j =>
      by_cases hij : i = j
      · subst hij
        simp [Net.produces, Net.store, hm, Net.message]
      · simp [Net.produces, Net.store, hk, hij]
  cases ht with
  | transmit v h e u hpc he hc ha hs =>
    refine hsame ?_ id
    rw [buffer_complete]
    · simp [transmitPacket]
    · rintro i rfl
      refine Eq.trans (hstore _ _ _ _ ?_ ?_ _) (hf i hpc ⟨e, he, hc, .inl ⟨ha, u, hs⟩⟩)
      · rfl
      · rfl
  | act => exact hsame (by simp [ranAction]) id
  | actEnd v h e f s st hpc he hc ha hs hfn =>
    refine hsame ?_ id
    rw [buffer_complete]
    · simp [ranAction]
    · rintro i rfl
      refine Eq.trans (hstore _ _ _ _ ?_ ?_ _) (hf i hpc ⟨e, he, hc, .inr ⟨f, s, st, ha, hs, hfn⟩⟩)
      · rfl
      · rfl
  | copy v h e dest i hpc he hc hl hd hi =>
    by_cases hv : v = w
    · subst hv
      have hlen := List.length_erase_of_mem hi
      have hpos := List.length_pos_of_mem hi
      simp only [Event.HandsOn, if_true, copyPacket, Function.update_self]
      omega
    · have hw : w ≠ v := Ne.symm hv
      simp [Event.HandsOn, hv, copyPacket, hw]
  | move | pop | begin | relay | push | retry | rxBurst | drop | command | quit =>
    exact hsame rfl id

/-- In every run in which every dequeued item is finished away from the worker that produced it, a
worker hands on at most as many packets as its pool had items, whatever `get_free_item` does. -/
theorem pool_lifetime (c : Config H) (launched : Core → Bool) (size : Nat)
    (mem : Item → Message) (scratch : Core → Message) (es : List Event) (n : Net H)
    (hf : Along step FinishedAway (launch c launched size mem scratch) es)
    (h : run step (launch c launched size mem scratch) es = some n) (w : Core) :
    countAlong step (fun _ ev ↦ ev.HandsOn w) (launch c launched size mem scratch) es ≤ size := by
  have hc : countAlong step (fun _ ev ↦ ev.HandsOn w) (launch c launched size mem scratch) es +
      (n.buffer w).length + 0 ≤ ((launch c launched size mem scratch).buffer w).length + 0 := by
    refine countAlong_le (I := fun _ ↦ True) (fun n : Net H ↦ (n.buffer w).length) (fun _ ↦ 0)
      (fun _ _ _ _ _ _ ↦ trivial) (fun k ev k' _ hq hs ↦ ?_) trivial hf h
    exact buffer_taken hq (step_taken hs) w
  have hsize : ((launch c launched size mem scratch).buffer w).length = size := by simp [launch]
  omega

/-- The worker of an event does not handle an item that it produced. -/
private def Net.worksForOthers (n : Net H) : Event → Bool
  | .work w =>
    match n.pc w with
    | .handle (.item i) => !n.produces w i
    | _ => true
  | _ => true

/-- Worker 1 hands on one packet, with the only item of its pool. -/
theorem pool_lifetime_relay :
    countAlong step (fun _ ev ↦ ev.HandsOn 1) relayNet relayRun ≤ 1 := by
  have hrun : (run step relayNet relayRun).isSome := by decide
  obtain ⟨n, hn⟩ := Option.isSome_iff_exists.mp hrun
  have hothers : Along step (fun k ev ↦ k.worksForOthers ev = true) relayNet relayRun := by decide
  have hf : Along step FinishedAway relayNet relayRun := by
    refine hothers.mono fun k ev hk ↦ ?_
    cases ev with
    | rxBurst | alloc | command | quit => trivial
    | work w =>
      intro i hpc _
      simpa [Net.worksForOthers, hpc] using hk
  exact pool_lifetime relayConfig workerRun 1 _ _ relayRun n hf hn 1

end Nflambda.Runtime
