import Nflambda.Runtime.Ownership

/-!
# Packets are conserved

Library `Runtime`. A received packet waits in a burst, is in some worker's
hands, is carried by an item in a mailbox, was handed to the NIC or was freed.
These places are counted over the whole network, and every event keeps the
count.
-/

namespace Nflambda.Runtime

open Nflambda.Base Finset

variable {H : Type}

/-- Packets of the current burst that a worker has not yet looked at. -/
def Pc.pending : Pc → List Mbuf
  | .burst rest => rest
  | .handle (.packet rest) => rest
  | .enqueue _ _ (.packet rest) => rest
  | _ => []

/-- The packet in a worker's hands at a program point: that of the message it handles, or of the
item it tries to send. -/
def Net.handAt (n : Net H) (w : Core) : Pc → List Mbuf
  | .handle h => [(n.message w h).m]
  | .enqueue _ i _ => [(n.mem i).m]
  | _ => []

/-- Packets carried by a list of items. -/
def Net.carry (n : Net H) (l : List Item) : List Mbuf := l.map (fun i ↦ (n.mem i).m)

/-- How often a packet waits in some worker's burst. -/
def inBurst (n : Net H) (p : Mbuf) : Nat := ∑ w, ((n.pc w).pending.count p)

/-- How many workers have a packet in their hands. -/
def inHand (n : Net H) (p : Mbuf) : Nat := ∑ w, ((n.handAt w (n.pc w)).count p)

/-- How many items in mailboxes carry a packet. -/
def inMail (n : Net H) (p : Mbuf) : Nat := ∑ w, ((n.carry (n.mailbox w)).count p)

/-- The number of places a packet is in. -/
def places (n : Net H) (p : Mbuf) : Nat :=
  inBurst n p + inHand n p + inMail n p + n.hist.transmitted.count p + n.hist.freed.count p

/-- The packets the NIC has handed out, in order. -/
def Net.received (n : Net H) : List Mbuf := n.hist.received.map Prod.snd

/-- Replace a mailbox. -/
def Net.setMailbox (n : Net H) (w : Core) (l : List Item) : Net H :=
  { n with mailbox := Function.update n.mailbox w l }

/-- Replace a local message. -/
def Net.setScratch (n : Net H) (w : Core) (m : Message) : Net H :=
  { n with scratch := Function.update n.scratch w m }

/-- Take a free item from a pool and write a message to it. -/
def Net.takeItem (n : Net H) (w : Core) (i : Item) (m : Message) : Net H :=
  { n with
    buffer := Function.update n.buffer w ((n.buffer w).erase i)
    mem := Function.update n.mem i m }

/-- Replace the history. -/
def Net.setHist (n : Net H) (hist : History) : Net H := { n with hist }

/-! ### How the parts of an event change the count -/

private theorem places_congr (p : Mbuf) {n n' : Net H} (hp : n'.pc = n.pc)
    (hm : n'.mailbox = n.mailbox) (he : ∀ i, Live n i → (n'.mem i).m = (n.mem i).m)
    (hs : ∀ w r, n.pc w = .handle (.packet r) → (n'.scratch w).m = (n.scratch w).m)
    (ht : n'.hist.transmitted = n.hist.transmitted) (hf : n'.hist.freed = n.hist.freed) :
    places n' p = places n p := by
  have hb : inBurst n' p = inBurst n p := by simp only [inBurst, hp]
  have hh : inHand n' p = inHand n p := by
    unfold inHand
    apply sum_congr rfl
    intro w _
    rw [hp]
    cases hpc : n.pc w with
    | handle h =>
      cases h with
      | item i => simp [Net.handAt, Net.message, he i (.inl ⟨w, by rw [hpc]; simp⟩)]
      | packet r => simp [Net.handAt, Net.message, hs w r hpc]
    | enqueue dest i h => simp [Net.handAt, he i (.inl ⟨w, by rw [hpc]; simp⟩)]
    | idle | top | dequeue | rx | burst => rfl
  have hc : inMail n' p = inMail n p := by
    unfold inMail
    apply sum_congr rfl
    intro w _
    rw [hm]
    have hl : n'.carry (n.mailbox w) = n.carry (n.mailbox w) :=
      List.map_congr_left fun i hi ↦ he i (.inr ⟨w, hi⟩)
    rw [hl]
  simp only [places, hb, hh, hc, ht, hf]

private theorem places_setPc (n : Net H) (w : Core) (pc : Pc) (p : Mbuf) :
    places (n.setPc w pc) p + ((n.pc w).pending.count p + (n.handAt w (n.pc w)).count p) =
      places n p + (pc.pending.count p + (n.handAt w pc).count p) := by
  have hb := sum_update_add (fun c : Pc ↦ c.pending.count p) n.pc w pc
  have hh := sum_change (fun v ↦ (n.handAt v (n.pc v)).count p)
    (fun v ↦ (n.handAt v (Function.update n.pc w pc v)).count p) w
    (fun v hv ↦ by rw [Function.update_of_ne hv])
  simp only [Function.update_self] at hh
  have hb' : inBurst (n.setPc w pc) p = ∑ v, (Function.update n.pc w pc v).pending.count p := rfl
  have hh' : inHand (n.setPc w pc) p =
      ∑ v, (n.handAt v (Function.update n.pc w pc v)).count p := by
    apply sum_congr rfl
    intro v _
    simp only [Net.setPc]
    cases Function.update n.pc w pc v with
    | handle h => cases h <;> rfl
    | enqueue | idle | top | dequeue | rx | burst => rfl
  have hc' : inMail (n.setPc w pc) p = inMail n p := rfl
  have ht : (n.setPc w pc).hist = n.hist := rfl
  simp only [places, hb', hh', hc', ht]
  simp only [inBurst, inHand]
  omega

private theorem places_setMailbox (n : Net H) (w : Core) (l : List Item) (p : Mbuf) :
    places (n.setMailbox w l) p + (n.carry (n.mailbox w)).count p =
      places n p + (n.carry l).count p := by
  have hm := sum_update_add (fun q : List Item ↦ (n.carry q).count p) n.mailbox w l
  have hb' : inBurst (n.setMailbox w l) p = inBurst n p := rfl
  have hh' : inHand (n.setMailbox w l) p = inHand n p := by
    apply sum_congr rfl
    intro v _
    simp only [Net.setMailbox]
    cases n.pc v with
    | handle h => cases h <;> rfl
    | enqueue | idle | top | dequeue | rx | burst => rfl
  have hc' : inMail (n.setMailbox w l) p =
      ∑ v, (n.carry (Function.update n.mailbox w l v)).count p := rfl
  have ht : (n.setMailbox w l).hist = n.hist := rfl
  simp only [places, hb', hh', hc', ht]
  simp only [inMail]
  omega

/-- Writing through a held pointer keeps every packet where it is. -/
private theorem places_store (n : Net H) (w : Core) (h : Held) (m : Message) (p : Mbuf)
    (hm : m.m = (n.message w h).m) : places (n.store w h m) p = places n p := by
  apply places_congr <;> try simp
  · intro i _
    cases h with
    | packet r => rfl
    | item j =>
      by_cases hij : i = j
      · subst hij
        simp [Net.store, hm, Net.message]
      · simp [Net.store, hij]
  · intro v r _
    cases h with
    | item j => rfl
    | packet r' =>
      by_cases hv : v = w
      · subst hv
        simp [Net.store, hm, Net.message]
      · simp [Net.store, hv]

/-- Finishing a message takes its packet out of the worker's hands. -/
private theorem places_complete (n : Net H) (w : Core) (h : Held) (p : Mbuf)
    (hpc : n.pc w = .handle h) :
    places (complete n w h) p + [(n.message w h).m].count p = places n p := by
  cases h with
  | packet rest =>
    have hs := places_setPc n w (.burst rest) p
    simp only [hpc, Pc.pending, Net.handAt, List.count_nil] at hs
    simp only [complete]
    omega
  | item i =>
    have hs := places_setPc n w .dequeue p
    simp only [hpc, Pc.pending, Net.handAt, List.count_nil] at hs
    have hc : places (complete n w (.item i)) p = places (n.setPc w .dequeue) p := by
      simp only [complete]
      split <;> exact places_congr p rfl rfl (fun _ _ ↦ rfl) (fun _ _ _ ↦ rfl) rfl rfl
    omega

/-- Two networks that differ in their histories differ in what left them. -/
private theorem places_setHist (n : Net H) (hist : History) (p : Mbuf) :
    places (n.setHist hist) p + (n.hist.transmitted.count p + n.hist.freed.count p) =
      places n p + (hist.transmitted.count p + hist.freed.count p) := by
  have hh : inHand (n.setHist hist) p = inHand n p := by
    apply sum_congr rfl
    intro v _
    simp only [Net.setHist]
    cases n.pc v with
    | handle h => cases h <;> rfl
    | enqueue | idle | top | dequeue | rx | burst => rfl
  have hb : inBurst (n.setHist hist) p = inBurst n p := rfl
  have hm : inMail (n.setHist hist) p = inMail n p := rfl
  simp only [places, hb, hh, hm]
  simp only [Net.setHist]
  omega

private theorem places_transmitted (n : Net H) (c : Call) (x p : Mbuf) :
    places ((n.called c).transmitted x) p = places n p + [x].count p := by
  have h := places_setHist n ((n.called c).transmitted x).hist p
  have he : (n.called c).transmitted x = n.setHist ((n.called c).transmitted x).hist := rfl
  have hf : ((n.called c).transmitted x).hist.freed = n.hist.freed := rfl
  have ht : ((n.called c).transmitted x).hist.transmitted = n.hist.transmitted ++ [x] := rfl
  rw [hf, ht, List.count_append] at h
  rw [he]
  omega

private theorem places_transmit (n : Net H) (w : Core) (h : Held) (c : Call) (p : Mbuf)
    (hpc : n.pc w = .handle h) :
    places (complete (transmitPacket (n.called c) w h) w h) p = places n p := by
  have hm : (transmitPacket (n.called c) w h).message w h = { n.message w h with path := -1 } := by
    simp [transmitPacket]
  have hc := places_complete (transmitPacket (n.called c) w h) w h p
    (by simpa [transmitPacket] using hpc)
  have hs : places (transmitPacket (n.called c) w h) p =
      places ((n.called c).transmitted (n.message w h).m) p := by
    unfold transmitPacket
    rw [Net.called_message]
    exact places_store _ w h _ p (by simp)
  rw [hm, hs, places_transmitted] at hc
  exact Nat.add_right_cancel hc

private theorem places_drop (n : Net H) (w : Core) (h : Held) (p : Mbuf)
    (hpc : n.pc w = .handle h) : places (dropPacket n w h) p = places n p := by
  have hs := places_setPc n w h.resume p
  have hh := places_setHist (n.setPc w h.resume) (dropPacket n w h).hist p
  have he : dropPacket n w h = (n.setPc w h.resume).setHist (dropPacket n w h).hist := rfl
  have hf : (dropPacket n w h).hist.freed = n.hist.freed ++ [(n.message w h).m] := rfl
  have ht : (dropPacket n w h).hist.transmitted = n.hist.transmitted := rfl
  have hn : (n.setPc w h.resume).hist = n.hist := rfl
  have hr : h.resume.pending = (n.pc w).pending := by
    rw [hpc]
    cases h <;> rfl
  have hz : n.handAt w h.resume = [] := by cases h <;> rfl
  rw [hf, ht, hn, List.count_append] at hh
  rw [hr, hz, hpc, Net.handAt, List.count_nil] at hs
  rw [he]
  omega

private theorem places_loadScratch (n : Net H) (w : Core) (m : Message) (x : Mbuf)
    (rest : List Mbuf) (p : Mbuf) (hpc : n.pc w = .burst (x :: rest)) (hm : m.m = x) :
    places ((n.setScratch w m).setPc w (.handle (.packet rest))) p = places n p := by
  have h1 : places (n.setScratch w m) p = places n p := by
    refine places_congr p rfl rfl (fun _ _ ↦ rfl) (fun v r hv ↦ ?_) rfl rfl
    have hvw : v ≠ w := by
      rintro rfl
      simp [hpc] at hv
    simp [Net.setScratch, hvw]
  have hs := places_setPc (n.setScratch w m) w (.handle (.packet rest)) p
  have hw : ((n.setScratch w m).message w (.packet rest)).m = x := by
    simp [Net.setScratch, Net.message, hm]
  have hpc1 : (n.setScratch w m).pc w = .burst (x :: rest) := hpc
  have hr : (x :: rest).count p + 0 = rest.count p + [x].count p := by
    simp [List.count_cons]
  simp only [hpc1, Pc.pending, Net.handAt, hw, h1, List.count_nil] at hs
  rw [hr] at hs
  exact Nat.add_right_cancel hs

private theorem places_begin (n : Net H) (w : Core) (x : Mbuf) (rest : List Mbuf) (p : Mbuf)
    (hpc : n.pc w = .burst (x :: rest)) : places (beginPacket n w x rest) p = places n p :=
  places_loadScratch n w (startPacket n w x) x rest p hpc rfl

private theorem places_loadItem (n : Net H) (w dest : Core) (i : Item) (h : Held) (m : Message)
    (p : Mbuf) (hpc : n.pc w = .handle h) (hi : ¬ Live n i) (hm : m.m = (n.message w h).m) :
    places ((n.takeItem w i m).setPc w (.enqueue dest i h)) p = places n p := by
  have hlive (j : Item) (hj : Live n j) : (n.takeItem w i m).mem j = n.mem j := by
    have hji : j ≠ i := by
      rintro rfl
      exact hi hj
    simp [Net.takeItem, hji]
  have h1 : places (n.takeItem w i m) p = places n p :=
    places_congr p rfl rfl (fun j hj ↦ by rw [hlive j hj]) (fun _ _ _ ↦ rfl) rfl rfl
  have hw : (n.takeItem w i m).message w h = n.message w h := by
    cases h with
    | packet r => rfl
    | item j => exact hlive j (.inl ⟨w, by rw [hpc]; simp⟩)
  have hi1 : (n.takeItem w i m).mem i = m := by simp [Net.takeItem]
  have hs := places_setPc (n.takeItem w i m) w (.enqueue dest i h) p
  have hpc1 : (n.takeItem w i m).pc w = .handle h := hpc
  have hr : (Pc.handle h).pending = (Pc.enqueue dest i h).pending := by cases h <;> rfl
  rw [hpc1, hr] at hs
  simp only [Net.handAt, hi1, hw, hm, h1] at hs
  exact Nat.add_right_cancel hs

private theorem places_copy (n : Net H) (w dest : Core) (i : Item) (h : Held) (p : Mbuf)
    (hpc : n.pc w = .handle h) (hi : ¬ Live n i) :
    places (copyPacket n w dest i h) p = places n p :=
  places_loadItem n w dest i h { n.message w h with producerId := (w.val : Int) } p hpc hi rfl

private theorem places_pop (n : Net H) (w : Core) (i : Item) (q : List Item) (p : Mbuf)
    (hpc : n.pc w = .dequeue) (hm : n.mailbox w = i :: q) :
    places (popItem n w i q) p = places n p := by
  have hs := places_setPc (n.setMailbox w q) w (.handle (.item i)) p
  have ht := places_setMailbox n w q p
  have hpc1 : (n.setMailbox w q).pc w = .dequeue := hpc
  have hi : ((n.setMailbox w q).message w (.item i)).m = (n.mem i).m := rfl
  have he : popItem n w i q = (n.setMailbox w q).setPc w (.handle (.item i)) := rfl
  simp only [hpc1, Pc.pending, Net.handAt, List.count_nil, hi, List.count_cons] at hs
  simp only [hm, Net.carry, List.map_cons, List.count_cons] at ht
  rw [he]
  omega

private theorem places_push (n : Net H) (w dest : Core) (i : Item) (h : Held) (p : Mbuf)
    (hpc : n.pc w = .enqueue dest i h) : places (pushItem n w dest i h) p = places n p := by
  have hs := places_setPc (n.setMailbox dest (n.mailbox dest ++ [i])) w h.resume p
  have ht := places_setMailbox n dest (n.mailbox dest ++ [i]) p
  have hpc1 : (n.setMailbox dest (n.mailbox dest ++ [i])).pc w = .enqueue dest i h := hpc
  have hi : ((n.setMailbox dest (n.mailbox dest ++ [i])).mem i).m = (n.mem i).m := rfl
  have he : pushItem n w dest i h =
      (n.setMailbox dest (n.mailbox dest ++ [i])).setPc w h.resume := rfl
  have hr : h.resume.pending = (Pc.enqueue dest i h).pending := by cases h <;> rfl
  have hz : (n.setMailbox dest (n.mailbox dest ++ [i])).handAt w h.resume = [] := by
    cases h <;> rfl
  simp only [Net.carry, List.map_append, List.count_append, List.map_cons, List.map_nil] at ht
  rw [hpc1, hr, hz, Net.handAt, hi, List.count_nil] at hs
  rw [he]
  omega

private theorem places_receive (n : Net H) (w : Core) (pkts : List Mbuf) (p : Mbuf)
    (hpc : n.pc w = .rx) : places (receive n w pkts) p = places n p + pkts.count p := by
  have hs := places_setPc n w (.burst pkts) p
  have hh := places_setHist (n.setPc w (.burst pkts)) (receive n w pkts).hist p
  have he : receive n w pkts = (n.setPc w (.burst pkts)).setHist (receive n w pkts).hist := rfl
  have hf : (receive n w pkts).hist.freed = n.hist.freed := rfl
  have ht : (receive n w pkts).hist.transmitted = n.hist.transmitted := rfl
  have hn : (n.setPc w (.burst pkts)).hist = n.hist := rfl
  rw [hf, ht, hn] at hh
  simp only [hpc, Pc.pending, Net.handAt, List.count_nil] at hs
  rw [he]
  omega

/-! ### Whole events -/

/-- The path that the action selected for the message of worker `w` sets, if it is a network
function's action that runs on this core. -/
def Net.selectedPath (n : Net H) (w : Core) : Option Int :=
  match n.pc w with
  | .handle h =>
    match n.config.entry (n.message w h).actionId with
    | none => none
    | some e =>
      if e.coreId = (w.val : Int) then
        match e.action, e.state with
        | some (.action f), .state s =>
          match f (n.config.states s) (n.message w h) with
          | .ok (_, path) => some path
          | .error _ => none
        | _, _ => none
      else none
  | _ => none

/-- If a network function's action runs, it sets `m->path` to an index of the action table. -/
def PathsValid (n : Net H) : Event → Prop
  | .work w => ∀ path, n.selectedPath w = some path → (idx? ACTION_TABLE_SIZE path).isSome
  | _ => True

instance (n : Net H) (ev : Event) : Decidable (PathsValid n ev) := by
  cases ev with
  | work w =>
    cases h : n.selectedPath w with
    | none => exact isTrue (by simp [PathsValid, h])
    | some path =>
      exact decidable_of_iff ((idx? ACTION_TABLE_SIZE path).isSome) (by simp [PathsValid, h])
  | rxBurst | alloc | command | quit => exact isTrue trivial

/-- Every event keeps each packet in as many places as before, but for the packets it
receives. -/
theorem places_taken {n n' : Net H} {ev : Event}
    (hone : ∀ i, itemTotal (· == i) n ≤ 1) (hv : PathsValid n ev) (ht : Taken n ev n')
    (p : Mbuf) : places n' p + n.received.count p = places n p + n'.received.count p := by
  cases ht with
  | move w pc h =>
    have hs := places_setPc n w pc p
    have hr : (n.setPc w pc).received = n.received := rfl
    rw [hr]
    rcases h with ⟨hpc, rfl | rfl⟩ | ⟨hpc, -, rfl | rfl⟩ | ⟨hpc, rfl⟩ <;>
      simp only [hpc, Pc.pending, Net.handAt, List.count_nil] at hs <;> omega
  | pop w i q hpc hm =>
    rw [places_pop n w i q p hpc hm]
    rfl
  | begin w x rest hpc =>
    rw [places_begin n w x rest p hpc]
    rfl
  | transmit w h e v hpc he hc ha hs =>
    rw [places_transmit n w h _ p hpc]
    have hr : (complete (transmitPacket (n.called (callOf n w h e)) w h) w h).received =
        n.received := by
      rw [Net.received, complete_received, transmitPacket, Net.store_hist]
      rfl
    rw [hr]
  | act w h e f s st path hpc he hc ha hs hf hp =>
    have hm : places (ranAction n w h e s st) p = places n p :=
      places_congr p rfl rfl (fun _ _ ↦ rfl) (fun _ _ _ ↦ rfl) rfl rfl
    rw [places_store _ w h _ p (by cases h <;> rfl), hm]
    cases h <;> rfl
  | actEnd w h e f s st hpc he hc ha hs hf =>
    have hpath : n.selectedPath w = some (-1) := by
      simp [Net.selectedPath, hpc, he, hc, ha, hs, hf]
    have hi := hv (-1) hpath
    simp [idx?] at hi
  | relay w i e dest hpc he hc hl hd =>
    have hs := places_setPc n w (.enqueue dest i (.item i)) p
    have hr : (n.setPc w (.enqueue dest i (.item i))).received = n.received := rfl
    rw [hr]
    simp only [hpc, Pc.pending, Net.handAt, Net.message, List.count_nil] at hs
    omega
  | push w dest i h hpc hr =>
    rw [places_push n w dest i h p hpc]
    rfl
  | retry => rfl
  | rxBurst w pkts hpc hp =>
    have hr : (receive n w pkts).received = n.received ++ pkts := by
      simp [receive, Net.received, Function.comp_def]
    rw [places_receive n w pkts p hpc, hr, List.count_append]
    omega
  | drop w h e hpc he hc hl =>
    rw [places_drop n w h p hpc]
    rfl
  | copy w h e dest i hpc he hc hl hd hi =>
    have hlive : ¬ Live n i := fun hli ↦ by
      have := hone i
      exact absurd (hli.not_free hi) (by omega)
    rw [places_copy n w dest i h p hpc hlive]
    rfl
  | command line c r h =>
    have hs : places { n with config := c } p = places n p :=
      places_congr p rfl rfl (fun _ _ ↦ rfl) (fun _ _ _ ↦ rfl) rfl rfl
    rw [hs]
    rfl
  | quit =>
    have hs : places { n with config := { n.config with dpQuit := true } } p = places n p :=
      places_congr p rfl rfl (fun _ _ ↦ rfl) (fun _ _ _ ↦ rfl) rfl rfl
    rw [hs]
    rfl

/-- Only a burst adds to the packets received, and it brings new ones. -/
theorem received_taken {n n' : Net H} {ev : Event} (ht : Taken n ev n') :
    n'.received = n.received ∨ ∃ pkts, n.CanReceive pkts ∧ n'.received = n.received ++ pkts := by
  have hcomplete (k : Net H) (w : Core) (h : Held) : (complete k w h).received = k.received := by
    rw [Net.received, complete_received, Net.received]
  have hstore (k : Net H) (w : Core) (h : Held) (m : Message) :
      (k.store w h m).received = k.received := by
    cases h <;> rfl
  cases ht with
  | rxBurst w pkts hpc hp =>
    exact .inr ⟨pkts, hp, by simp [receive, Net.received, Function.comp_def]⟩
  | transmit | actEnd =>
    left
    rw [hcomplete]
    exact hstore ..
  | act => exact .inl (hstore ..)
  | move | pop | begin | relay | push | retry | drop | copy | command | quit => exact .inl rfl

/-! ### Whole runs -/

/-- What every event keeps: items know their producer and are in one place, packets are in as
many places as they were received, and no packet is received twice. -/
structure PacketInvariant (n : Net H) : Prop where
  produced : Produced n
  once : ∀ i, itemTotal (· == i) n ≤ 1
  placed : ∀ p, places n p = n.received.count p
  fresh : n.received.Nodup

/-- The invariant holds when workers are launched. -/
theorem packetInvariant_launch (c : Config H) (launched : Core → Bool) (size : Nat)
    (mem : Item → Message) (scratch : Core → Message) :
    PacketInvariant (launch c launched size mem scratch) := by
  have hitems (w : Core) : ((launch c launched size mem scratch).pc w).items = [] := by
    simp only [launch]
    split <;> rfl
  have hpending (w : Core) : ((launch c launched size mem scratch).pc w).pending = [] := by
    simp only [launch]
    split <;> rfl
  have hhand (w : Core) : (launch c launched size mem scratch).handAt w
      ((launch c launched size mem scratch).pc w) = [] := by
    simp only [launch]
    split <;> rfl
  have hmail (w : Core) : (launch c launched size mem scratch).mailbox w = [] := rfl
  have hbuffer (w : Core) : (launch c launched size mem scratch).buffer w =
      (List.range size).map (Item.mk w) := rfl
  have hhist : (launch c launched size mem scratch).hist = ⟨[], [], [], [], []⟩ := rfl
  constructor
  · constructor
    · rintro i (⟨w, hw⟩ | ⟨w, hw⟩)
      · rw [hitems] at hw
        exact absurd hw List.not_mem_nil
      · exact absurd hw List.not_mem_nil
    · intro w i hi
      rw [hbuffer, List.mem_map] at hi
      obtain ⟨k, -, rfl⟩ := hi
      rfl
    · intro w rest hw
      simp only [launch] at hw
      split at hw <;> simp at hw
  · intro i
    simp only [itemTotal, heldItems, mailItems, freeItems, hitems, hmail, hbuffer, hhist,
      List.countP_nil, sum_const_zero, Nat.zero_add, Nat.add_zero]
    have hone : ∀ w ≠ i.owner, ((List.range size).map (Item.mk w)).countP (· == i) = 0 := by
      intro w hw
      rw [List.countP_eq_zero]
      intro j hj
      obtain ⟨k, -, rfl⟩ := List.mem_map.mp hj
      have hne : Item.mk w k ≠ i := by
        rintro rfl
        exact hw rfl
      simpa using hne
    rw [sum_eq_single i.owner (fun w _ hw ↦ hone w hw) (by simp)]
    have hnodup : ((List.range size).map (Item.mk i.owner)).Nodup :=
      List.nodup_range.map fun a b h ↦ by simpa using h
    exact List.nodup_iff_count_le_one.mp hnodup i
  · intro p
    simp [places, inBurst, inHand, inMail, hpending, hhand, hmail, hhist, Net.carry,
      Net.received]
  · rw [Net.received, hhist]
    exact List.nodup_nil

/-- Every event with a valid path keeps the invariant. -/
theorem PacketInvariant.next {n n' : Net H} {ev : Event} (hn : PacketInvariant n)
    (hv : PathsValid n ev) (h : step n ev = some n') : PacketInvariant n' := by
  have ht := step_taken h
  constructor
  · exact hn.produced.taken ht
  · intro i
    rw [itemTotal_taken _ hn.produced ht]
    exact hn.once i
  · intro p
    have hp := places_taken hn.once hv ht p
    have hq := hn.placed p
    omega
  · rcases received_taken ht with hr | ⟨pkts, hc, hr⟩
    · rw [hr]
      exact hn.fresh
    · rw [hr]
      refine List.nodup_append.mpr ⟨hn.fresh, hc.2.1, ?_⟩
      rintro a ha b hb rfl
      exact hc.2.2 a hb ha

/-- Every received packet is in exactly one place, no packet is anywhere else, no item is in two
mailboxes, and an item of a pool is in no mailbox and in no worker's hands. -/
structure Conserved (n : Net H) : Prop where
  received : ∀ p ∈ n.received, places n p = 1
  other : ∀ p ∉ n.received, places n p = 0
  mailbox : ∀ i, mailItems (· == i) n ≤ 1
  pool : ∀ w, ∀ i ∈ n.buffer w, ¬ Live n i

/-- The invariant conserves packets and items. -/
theorem PacketInvariant.conserved {n : Net H} (hn : PacketInvariant n) : Conserved n where
  received p hp := by rw [hn.placed p, List.count_eq_one_of_mem hn.fresh hp]
  other p hp := by rw [hn.placed p, List.count_eq_zero_of_not_mem hp]
  mailbox i := by
    have h := hn.once i
    unfold itemTotal at h
    omega
  pool w i hi hl := by
    have h := hn.once i
    have h2 := hl.not_free hi
    omega

/-- In every run of any launched workers over any action table, with any commands in between,
in which network functions' actions set `m->path` to an index of the table, every packet ever
received is in exactly one place. -/
theorem packets_conserved (c : Config H) (launched : Core → Bool) (size : Nat)
    (mem : Item → Message) (scratch : Core → Message) (es : List Event) (n : Net H)
    (hv : Along step PathsValid (launch c launched size mem scratch) es)
    (h : run step (launch c launched size mem scratch) es = some n) : Conserved n := by
  have h0 := packetInvariant_launch c launched size mem scratch
  exact (run_invariant_along (fun _ _ _ hn hq hs ↦ hn.next hq hs) h0 hv h).conserved

/-- An action on worker 1 whose packets are all transmitted by worker 3. -/
def relayConfig : Config Unit :=
  let c := Config.zeroed ()
  let e := c.actionTable 0
  let c := c.setEntry 0
    { e with action := some (.action (fun s _ ↦ .ok (s, 1))), state := .state 0, coreId := 1 }
  let c := c.setEntry 1 { e with action := some .transmitPacket, state := .worker 3, coreId := 3 }
  c.setWorker 1 { c.workerList 1 with firstAction := true }

/-- The workers with odd indices over `relayConfig`, with one free item each. -/
def relayNet : Net Unit :=
  launch relayConfig workerRun 1 (fun _ ↦ ⟨0, 0, 0, 0, ⟨0, 0⟩, 0⟩)
    (fun _ ↦ ⟨0, 0, 0, 0, ⟨0, 0⟩, 0⟩)

/-- Worker 1 receives a packet, handles it and sends it to worker 3, which transmits it. -/
def relayRun : List Event :=
  [.work 1, .work 1, .rxBurst 1 [⟨7, 0⟩], .work 1, .work 1, .alloc 1 (some ⟨1, 0⟩), .work 1,
    .work 3, .work 3, .work 3]

/-- In the run from worker 1 to worker 3 the packet is conserved. -/
theorem packets_conserved_relay :
    ∃ n, run step relayNet relayRun = some n ∧ Conserved n := by
  have hrun : (run step relayNet relayRun).isSome := by decide
  obtain ⟨n, hn⟩ := Option.isSome_iff_exists.mp hrun
  exact ⟨n, hn, packets_conserved relayConfig workerRun 1 _ _ relayRun n (by decide) hn⟩

end Nflambda.Runtime
