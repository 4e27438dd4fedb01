import Nflambda.Base.Ledger
import Nflambda.Runtime.Taken

/-!
# Who owns items and packets

Library `Runtime`. Every pool item is in one mailbox, in one pool, held by one
worker, or forgotten; every received packet is in one place. Both are counted
over all places, and one event keeps the count.
-/

namespace Nflambda.Runtime

open Nflambda.Base Finset

variable {H : Type}

/-! ### Counting items -/

/-- The item a worker holds at a program point. -/
def Pc.items : Pc → List Item
  | .handle (.item i) => [i]
  | .enqueue _ i _ => [i]
  | _ => []

section ItemsOf

variable (i : Item) (rest : List Mbuf) (dest : Core) (h : Held)

@[simp] theorem items_idle : Pc.items .idle = [] := rfl
@[simp] theorem items_top : Pc.items .top = [] := rfl
@[simp] theorem items_dequeue : Pc.items .dequeue = [] := rfl
@[simp] theorem items_rx : Pc.items .rx = [] := rfl
@[simp] theorem items_burst : Pc.items (.burst rest) = [] := rfl
@[simp] theorem items_item : Pc.items (.handle (.item i)) = [i] := rfl
@[simp] theorem items_packet : Pc.items (.handle (.packet rest)) = [] := rfl
@[simp] theorem items_enqueue : Pc.items (.enqueue dest i h) = [i] := rfl
@[simp] theorem items_resume : h.resume.items = [] := by cases h <;> rfl

end ItemsOf

/-- Items with a property that some worker holds. -/
def heldItems (q : Item → Bool) (n : Net H) : Nat := ∑ w, ((n.pc w).items.countP q)

/-- Items with a property in mailboxes. -/
def mailItems (q : Item → Bool) (n : Net H) : Nat := ∑ w, ((n.mailbox w).countP q)

/-- Items with a property in pools. -/
def freeItems (q : Item → Bool) (n : Net H) : Nat := ∑ w, ((n.buffer w).countP q)

/-- Items with a property, wherever they are. -/
def itemTotal (q : Item → Bool) (n : Net H) : Nat :=
  heldItems q n + mailItems q n + freeItems q n + n.hist.forgotten.countP q

private theorem itemTotal_congr (q : Item → Bool) {n n' : Net H} (hp : n'.pc = n.pc)
    (hm : n'.mailbox = n.mailbox) (hb : n'.buffer = n.buffer)
    (hf : n'.hist.forgotten = n.hist.forgotten) : itemTotal q n' = itemTotal q n := by
  simp only [itemTotal, heldItems, mailItems, freeItems, hp, hm, hb, hf]

private theorem itemTotal_setPc (q : Item → Bool) (n : Net H) (w : Core) (pc : Pc)
    (h : pc.items = (n.pc w).items) : itemTotal q (n.setPc w pc) = itemTotal q n := by
  have hs := sum_update_add (fun p : Pc ↦ p.items.countP q) n.pc w pc
  simp only [h] at hs
  simp only [itemTotal, heldItems, mailItems, freeItems, Net.setPc]
  omega

private theorem itemTotal_pop (q : Item → Bool) (n : Net H) (w : Core) (i : Item)
    (r : List Item) (hpc : n.pc w = .dequeue) (hm : n.mailbox w = i :: r) :
    itemTotal q (popItem n w i r) = itemTotal q n := by
  have hs := sum_update_add (fun p : Pc ↦ p.items.countP q) n.pc w (.handle (.item i))
  have ht := sum_update_add (fun l : List Item ↦ l.countP q) n.mailbox w r
  simp only [hpc, hm, items_dequeue, items_item, List.countP_cons, List.countP_nil] at hs ht
  simp only [itemTotal, heldItems, mailItems, freeItems, popItem, Net.setPc]
  omega

private theorem itemTotal_push (q : Item → Bool) (n : Net H) (w dest : Core) (i : Item)
    (h : Held) (hpc : n.pc w = .enqueue dest i h) :
    itemTotal q (pushItem n w dest i h) = itemTotal q n := by
  have hs := sum_update_add (fun p : Pc ↦ p.items.countP q) n.pc w h.resume
  have ht := sum_update_add (fun l : List Item ↦ l.countP q) n.mailbox dest (n.mailbox dest ++ [i])
  simp only [hpc, items_enqueue, items_resume, List.countP_cons, List.countP_nil,
    List.countP_append] at hs ht
  simp only [itemTotal, heldItems, mailItems, freeItems, pushItem, Net.setPc]
  omega

private theorem itemTotal_drop (q : Item → Bool) (n : Net H) (w : Core) (rest : List Mbuf)
    (hpc : n.pc w = .handle (.packet rest)) :
    itemTotal q (dropPacket n w (.packet rest)) = itemTotal q n := by
  have hs : itemTotal q (n.setPc w (Held.packet rest).resume) = itemTotal q n :=
    itemTotal_setPc q n w _ (by rw [hpc]; rfl)
  exact (itemTotal_congr q rfl rfl rfl rfl).trans hs

private theorem itemTotal_copy (q : Item → Bool) (n : Net H) (w dest : Core) (i : Item)
    (rest : List Mbuf) (hpc : n.pc w = .handle (.packet rest)) (hi : i ∈ n.buffer w) :
    itemTotal q (copyPacket n w dest i (.packet rest)) = itemTotal q n := by
  have hs := sum_update_add (fun p : Pc ↦ p.items.countP q) n.pc w
    (.enqueue dest i (.packet rest))
  have ht := sum_update_add (fun l : List Item ↦ l.countP q) n.buffer w ((n.buffer w).erase i)
  have he : (n.buffer w).countP q = (i :: (n.buffer w).erase i).countP q :=
    (List.perm_cons_erase hi).countP_eq q
  simp only [hpc, items_packet, items_enqueue, List.countP_cons, List.countP_nil] at hs ht he
  simp only [itemTotal, heldItems, mailItems, freeItems, copyPacket, Net.setPc]
  omega

/-- Finishing a message moves its item to the pool or to the forgotten ones. -/
theorem itemTotal_complete (q : Item → Bool) (n : Net H) (w : Core) (h : Held)
    (hpc : n.pc w = .handle h) : itemTotal q (complete n w h) = itemTotal q n := by
  cases h with
  | packet rest => exact itemTotal_setPc q n w _ (by rw [hpc]; rfl)
  | item i =>
    have hs := sum_update_add (fun p : Pc ↦ p.items.countP q) n.pc w .dequeue
    have ht := sum_update_add (fun l : List Item ↦ l.countP q) n.buffer w (i :: n.buffer w)
    simp only [hpc, items_item, items_dequeue, List.countP_cons, List.countP_nil] at hs ht
    simp only [complete]
    split <;>
    · simp only [itemTotal, heldItems, mailItems, freeItems, Net.setPc, List.countP_cons]
      omega

/-! ### Producers -/

/-- The item is in a mailbox or in some worker's hands. -/
def Live (n : Net H) (i : Item) : Prop :=
  (∃ w, i ∈ (n.pc w).items) ∨ ∃ w, i ∈ n.mailbox w

/-- Items carry the worker whose pool they come from, and local messages carry none. -/
structure Produced (n : Net H) : Prop where
  live : ∀ i, Live n i → (n.mem i).producerId = (i.owner.val : Int)
  free : ∀ w i, i ∈ n.buffer w → i.owner = w
  scratch : ∀ w rest, n.pc w = .handle (.packet rest) → (n.scratch w).producerId = -1

/-- An item that is free and live at once is counted twice. -/
theorem Live.not_free {n : Net H} {i : Item} {w : Core} (hl : Live n i)
    (hf : i ∈ n.buffer w) : 2 ≤ itemTotal (· == i) n := by
  have hb := le_total (fun v ↦ (n.buffer v).countP (· == i)) w
  have hb1 : 1 ≤ (n.buffer w).countP (· == i) := List.countP_pos_iff.mpr ⟨i, hf, by simp⟩
  simp only [itemTotal, heldItems, mailItems, freeItems]
  rcases hl with ⟨v, hv⟩ | ⟨v, hv⟩
  · have hh := le_total (fun v ↦ (n.pc v).items.countP (· == i)) v
    have hh1 : 1 ≤ (n.pc v).items.countP (· == i) := List.countP_pos_iff.mpr ⟨i, hv, by simp⟩
    omega
  · have hm := le_total (fun v ↦ (n.mailbox v).countP (· == i)) v
    have hm1 : 1 ≤ (n.mailbox v).countP (· == i) := List.countP_pos_iff.mpr ⟨i, hv, by simp⟩
    omega

private theorem items_update {n : Net H} {w v : Core} {pc : Pc} {i : Item}
    (h : i ∈ (Function.update n.pc w pc v).items) : i ∈ pc.items ∨ i ∈ (n.pc v).items := by
  by_cases hv : v = w
  · subst hv
    rw [Function.update_self] at h
    exact .inl h
  · rw [Function.update_of_ne hv] at h
    exact .inr h

private theorem mem_update {f : Core → List Item} {w v : Core} {l : List Item} {i : Item}
    (h : i ∈ Function.update f w l v) : i ∈ l ∨ i ∈ f v := by
  by_cases hv : v = w
  · subst hv
    rw [Function.update_self] at h
    exact .inl h
  · rw [Function.update_of_ne hv] at h
    exact .inr h

private theorem packet_update {n : Net H} {w v : Core} {pc : Pc} {rest : List Mbuf}
    (hpc : ∀ r, pc ≠ .handle (.packet r))
    (h : Function.update n.pc w pc v = .handle (.packet rest)) :
    n.pc v = .handle (.packet rest) := by
  by_cases hv : v = w
  · subst hv
    rw [Function.update_self] at h
    exact absurd h (hpc rest)
  · rwa [Function.update_of_ne hv] at h

private theorem resume_ne (h : Held) (r : List Mbuf) : h.resume ≠ .handle (.packet r) := by
  cases h <;> simp [Held.resume]

/-- Moving a worker to a program point at which it holds no local message, and no item it did
not hold before. -/
theorem Produced.setPc {n : Net H} (hn : Produced n) (w : Core) (pc : Pc)
    (hi : ∀ i ∈ pc.items, Live n i) (hp : ∀ r, pc ≠ .handle (.packet r)) :
    Produced (n.setPc w pc) where
  live i hl := by
    apply hn.live
    rcases hl with ⟨v, hv⟩ | ⟨v, hv⟩
    · rcases items_update hv with h | h
      · exact hi i h
      · exact .inl ⟨v, h⟩
    · exact .inr ⟨v, hv⟩
  free := hn.free
  scratch v rest hv := hn.scratch v rest (packet_update hp hv)

private theorem Produced.of_eq {n n' : Net H} (hn : Produced n) (hp : n'.pc = n.pc)
    (hm : n'.mailbox = n.mailbox) (hb : n'.buffer = n.buffer) (he : n'.mem = n.mem)
    (hs : n'.scratch = n.scratch) : Produced n' where
  live i hl := by
    rw [he]
    apply hn.live
    simpa only [Live, hp, hm] using hl
  free := by rw [hb]; exact hn.free
  scratch v rest hv := by
    rw [hs]
    rw [hp] at hv
    exact hn.scratch v rest hv

/-- A write through a held pointer that keeps the producer. -/
theorem Produced.store {n : Net H} (hn : Produced n) (w : Core) (h : Held) (m : Message)
    (hm : m.producerId = (n.message w h).producerId) : Produced (n.store w h m) where
  live i hl := by
    have hl' : Live n i := by simpa only [Live, Net.store_pc, Net.store_mailbox] using hl
    cases h with
    | packet rest => exact hn.live i hl'
    | item j =>
      by_cases hij : i = j
      · subst hij
        simp only [Net.store, Function.update_self, hm]
        exact hn.live i hl'
      · simp only [Net.store, Function.update_of_ne hij]
        exact hn.live i hl'
  free := by rw [Net.store_buffer]; exact hn.free
  scratch v rest hv := by
    rw [Net.store_pc] at hv
    cases h with
    | item j => exact hn.scratch v rest hv
    | packet r =>
      by_cases hvw : v = w
      · subst hvw
        simp only [Net.store, Function.update_self, hm]
        exact hn.scratch v rest hv
      · simp only [Net.store, Function.update_of_ne hvw]
        exact hn.scratch v rest hv

/-- Finishing a message gives an item back only to the pool it came from. -/
theorem Produced.complete {n : Net H} (hn : Produced n) (w : Core) (h : Held)
    (hpc : n.pc w = .handle h) : Produced (complete n w h) := by
  cases h with
  | packet rest => exact hn.setPc w _ (by simp) (by simp)
  | item i =>
    have hd := hn.setPc w .dequeue (by simp) (by simp)
    simp only [Runtime.complete]
    split
    · next hp =>
      refine ⟨hd.live, fun v j hj ↦ ?_, hd.scratch⟩
      have hi : i.owner = w := by
        have hl := hn.live i (.inl ⟨w, by rw [hpc]; simp⟩)
        rw [hp] at hl
        apply Fin.ext
        omega
      by_cases hv : v = w
      · subst hv
        simp only [Function.update_self, List.mem_cons] at hj
        rcases hj with rfl | hj
        · exact hi
        · exact hn.free v j hj
      · simp only [Function.update_of_ne hv] at hj
        exact hn.free v j hj
    · exact hd.of_eq rfl rfl rfl rfl rfl

/-- A message that waits for `get_free_item` is a local one. -/
theorem Produced.packet_of_local {n : Net H} (hn : Produced n) {w : Core} {h : Held}
    (hpc : n.pc w = .handle h) (hl : (n.message w h).producerId = -1) :
    ∃ rest, h = .packet rest := by
  cases h with
  | packet rest => exact ⟨rest, rfl⟩
  | item i =>
    have hi := hn.live i (.inl ⟨w, by rw [hpc]; simp⟩)
    simp only [Net.message] at hl
    omega

/-- Every event keeps the producers right. -/
theorem Produced.taken {n n' : Net H} {ev : Event} (hn : Produced n) (ht : Taken n ev n') :
    Produced n' := by
  cases ht with
  | move w pc h =>
    apply hn.setPc
    · intro i hi
      rcases h with ⟨-, rfl | rfl⟩ | ⟨-, -, rfl | rfl⟩ | ⟨-, rfl⟩ <;> simp at hi
    · intro r
      rcases h with ⟨-, rfl | rfl⟩ | ⟨-, -, rfl | rfl⟩ | ⟨-, rfl⟩ <;> simp
  | pop w i q hpc hm =>
    have hmem : ∀ j ∈ i :: q, Live n j := fun j hj ↦ .inr ⟨w, by rw [hm]; exact hj⟩
    refine ⟨fun j hj ↦ ?_, hn.free, fun v rest hv ↦ hn.scratch v rest (packet_update (by simp) hv)⟩
    apply hn.live
    rcases hj with ⟨v, hv⟩ | ⟨v, hv⟩
    · rcases items_update hv with h | h
      · simp only [items_item, List.mem_singleton] at h
        exact hmem j (by simp [h])
      · exact .inl ⟨v, h⟩
    · rcases mem_update hv with h | h
      · exact hmem j (by simp [h])
      · exact .inr ⟨v, h⟩
  | begin w p rest hpc =>
    refine ⟨fun j hj ↦ hn.live j ?_, hn.free, fun v r hv ↦ ?_⟩
    · rcases hj with ⟨v, hv⟩ | ⟨v, hv⟩
      · rcases items_update hv with h | h
        · simp at h
        · exact .inl ⟨v, h⟩
      · exact .inr ⟨v, hv⟩
    · by_cases hvw : v = w
      · subst hvw
        simp [beginPacket, startPacket]
      · simp only [beginPacket, Net.setPc, Function.update_of_ne hvw] at hv ⊢
        exact hn.scratch v r hv
  | transmit w h e v hpc he hc ha hs =>
    have hr : Produced ((n.called (callOf n w h e)).transmitted (n.message w h).m) :=
      hn.of_eq rfl rfl rfl rfl rfl
    apply Produced.complete
    · unfold transmitPacket
      rw [Net.called_message]
      exact hr.store w h _ (by simp)
    · simpa [transmitPacket] using hpc
  | act w h e f s st path hpc he hc ha hs hf hp =>
    have hr : Produced (ranAction n w h e s st) := hn.of_eq rfl rfl rfl rfl rfl
    exact hr.store w h _ (by cases h <;> rfl)
  | actEnd w h e f s st hpc he hc ha hs hf =>
    have hr : Produced (ranAction n w h e s st) := hn.of_eq rfl rfl rfl rfl rfl
    apply Produced.complete
    · exact hr.store w h _ (by cases h <;> rfl)
    · simpa [ranAction] using hpc
  | relay w i e dest hpc he hc hl hd =>
    apply hn.setPc
    · intro j hj
      simp only [items_enqueue, List.mem_singleton] at hj
      exact .inl ⟨w, by rw [hpc, hj]; simp⟩
    · simp
  | push w dest i h hpc hr =>
    have hi : Live n i := .inl ⟨w, by rw [hpc]; simp⟩
    have hs := hn.setPc w h.resume (by simp) (resume_ne h)
    refine ⟨fun j hj ↦ hn.live j ?_, hn.free, hs.scratch⟩
    rcases hj with ⟨v, hv⟩ | ⟨v, hv⟩
    · rcases items_update hv with h' | h'
      · simp at h'
      · exact .inl ⟨v, h'⟩
    · rcases mem_update hv with h' | h'
      · rcases List.mem_append.mp h' with h' | h'
        · exact .inr ⟨dest, h'⟩
        · rw [List.mem_singleton] at h'
          rwa [h']
      · exact .inr ⟨v, h'⟩
  | retry => exact hn
  | rxBurst w pkts hpc hp =>
    exact (hn.setPc w (.burst pkts) (by simp) (by simp)).of_eq rfl rfl rfl rfl rfl
  | drop w h e hpc he hc hl =>
    exact (hn.setPc w h.resume (by simp) (resume_ne h)).of_eq rfl rfl rfl rfl rfl
  | copy w h e dest i hpc he hc hl hd hi =>
    refine ⟨fun j hj ↦ ?_, fun v j hj ↦ ?_, fun v r hv ↦ hn.scratch v r
      (packet_update (by simp) hv)⟩
    · by_cases hji : j = i
      · subst hji
        simp [copyPacket, hn.free w j hi]
      · simp only [copyPacket, Function.update_of_ne hji]
        apply hn.live
        rcases hj with ⟨v, hv⟩ | ⟨v, hv⟩
        · rcases items_update hv with h' | h'
          · simp [hji] at h'
          · exact .inl ⟨v, h'⟩
        · exact .inr ⟨v, hv⟩
    · rcases mem_update hj with h' | h'
      · by_cases hvw : v = w
        · subst hvw
          exact hn.free v j (List.mem_of_mem_erase h')
        · simp only [copyPacket, Function.update_of_ne hvw] at hj
          exact hn.free v j hj
      · exact hn.free v j h'
  | command line c r h => exact hn.of_eq rfl rfl rfl rfl rfl
  | quit => exact hn.of_eq rfl rfl rfl rfl rfl

/-- Every event keeps the number of items with a property. -/
theorem itemTotal_taken (q : Item → Bool) {n n' : Net H} {ev : Event} (hn : Produced n)
    (ht : Taken n ev n') : itemTotal q n' = itemTotal q n := by
  cases ht with
  | move w pc h =>
    apply itemTotal_setPc
    rcases h with ⟨hpc, rfl | rfl⟩ | ⟨hpc, -, rfl | rfl⟩ | ⟨hpc, rfl⟩ <;> rw [hpc] <;> rfl
  | pop w i r hpc hm => exact itemTotal_pop q n w i r hpc hm
  | begin w p rest hpc =>
    have hs := itemTotal_setPc q n w (.handle (.packet rest)) (by rw [hpc]; rfl)
    exact (itemTotal_congr q rfl rfl rfl rfl).trans hs
  | transmit w h e v hpc he hc ha hs =>
    rw [itemTotal_complete q _ w h (by simpa [transmitPacket] using hpc)]
    apply itemTotal_congr <;> simp [transmitPacket, Net.transmitted, Net.called]
  | act w h e f s st path hpc he hc ha hs hf hp =>
    apply itemTotal_congr <;> simp [ranAction, Net.called]
  | actEnd w h e f s st hpc he hc ha hs hf =>
    rw [itemTotal_complete q _ w h (by simpa [ranAction] using hpc)]
    apply itemTotal_congr <;> simp [ranAction, Net.called]
  | relay w i e dest hpc he hc hl hd => exact itemTotal_setPc q n w _ (by rw [hpc]; rfl)
  | push w dest i h hpc hr => exact itemTotal_push q n w dest i h hpc
  | retry => rfl
  | rxBurst w pkts hpc hp =>
    have hs := itemTotal_setPc q n w (.burst pkts) (by rw [hpc]; rfl)
    exact (itemTotal_congr q rfl rfl rfl rfl).trans hs
  | drop w h e hpc he hc hl =>
    obtain ⟨rest, rfl⟩ := hn.packet_of_local hpc hl
    exact itemTotal_drop q n w rest hpc
  | copy w h e dest i hpc he hc hl hd hi =>
    obtain ⟨rest, rfl⟩ := hn.packet_of_local hpc hl
    exact itemTotal_copy q n w dest i rest hpc hi
  | command line c r h => exact itemTotal_congr q rfl rfl rfl rfl
  | quit => exact itemTotal_congr q rfl rfl rfl rfl

end Nflambda.Runtime
