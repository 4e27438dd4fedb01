import Nflambda.Runtime.Routes

/-!
# The loop over a message

Library `Runtime`. `worker_action` calls `event_handler` on a message again
while it returns 0, `src/runtime/worker.h:153–155` and `178–180`. Every iteration that
does not end the loop calls an action, so a packet with a bounded trail is
released.
-/

namespace Nflambda.Runtime

open Nflambda.Base

variable {H : Type}

/-- Worker `w` leaves the loop over `d` after at most `k` iterations, whatever the other workers
do. -/
def Net.LoopEnds (n : Net H) (w : Core) (d : Held) (k : Nat) : Prop :=
  ∀ es n', (∀ ev ∈ es, ev.IsWork) → run step n es = some n' →
    Visits step (fun m ↦ m.pc w = .handle d) n es → es.count (.work w) ≤ k

/-- Worker `w` can take the next iteration of the loop over `d`, unless the function of the
selected action has no defined result. -/
def Net.GoesOn (n : Net H) (w : Core) (d : Held) : Prop :=
  (∃ ev n', (ev = .work w ∨ ∃ r, ev = .alloc w r) ∧ step n ev = some n') ∨
    ∃ e f s fault, n.config.entry (n.message w d).actionId = some e ∧
      e.action = some (.action f) ∧ e.state = .state s ∧
      f (n.config.states s) (n.message w d) = .error fault

private theorem message_store_m {n : Net H} {v : Core} {d : Held} {x : Message}
    (hx : x.m = (n.message v d).m) (w : Core) (d' : Held) :
    ((n.store v d x).message w d').m = (n.message w d').m := by
  cases d with
  | item i =>
    cases d' with
    | packet r => rfl
    | item j =>
      by_cases hj : j = i
      · subst hj
        simpa [Net.store, Net.message] using hx
      · simp [Net.store, Net.message, hj]
  | packet r =>
    cases d' with
    | item j => rfl
    | packet r' =>
      by_cases hw : w = v
      · subst hw
        simpa [Net.store, Net.message] using hx
      · simp [Net.store, Net.message, hw]

private theorem message_complete (n : Net H) (v w : Core) (d d' : Held) :
    (complete n v d).message w d' = n.message w d' := by
  unfold complete
  cases d with
  | packet r => cases d' <;> rfl
  | item i =>
    dsimp only
    split <;> cases d' <;> rfl

/-- An item that is held or in a mailbox keeps its packet. -/
theorem mem_taken_of_live {n n' : Net H} {ev : Event} (hi : PacketInvariant n)
    (ht : Taken n ev n') {i : Item} (hl : Live n i) : (n'.mem i).m = (n.mem i).m := by
  -- which worker looks at the item makes no difference
  have hstore (k : Net H) (v : Core) (d : Held) (x : Message) (hx : x.m = (k.message v d).m) :
      ((k.store v d x).mem i).m = (k.mem i).m := message_store_m hx v (.item i)
  have hcomplete (k : Net H) (v : Core) (d : Held) : (complete k v d).mem i = k.mem i :=
    message_complete k v v d (.item i)
  cases ht with
  | move | pop | begin | relay | push | retry | rxBurst | drop | command | quit => rfl
  | transmit v d =>
    rw [hcomplete, transmitPacket, Net.called_message]
    refine (hstore _ _ _ _ ?_).trans rfl
    rw [Net.transmitted_message, Net.called_message]
  | act v d =>
    refine (hstore _ _ _ _ ?_).trans rfl
    cases d <;> rfl
  | actEnd v d =>
    rw [hcomplete]
    refine (hstore _ _ _ _ ?_).trans rfl
    cases d <;> rfl
  | copy v d e dest j hpc he hc hd hdest hbuf =>
    have hne : i ≠ j := by
      rintro rfl
      have h2 := hl.not_free hbuf
      have h1 := hi.once i
      omega
    simp [copyPacket, hne]

/-- The message that a worker handles keeps its packet. -/
private theorem message_taken {n n' : Net H} {ev : Event} (hi : PacketInvariant n)
    (ht : Taken n ev n') {w : Core} {d : Held} (hpc : n.pc w = .handle d) :
    (n'.message w d).m = (n.message w d).m := by
  cases d with
  | item i =>
    exact mem_taken_of_live hi ht (.inl ⟨w, by rw [hpc]; exact List.mem_singleton_self _⟩)
  | packet r =>
    cases ht with
    | move | pop | relay | push | retry | rxBurst | drop | copy | command | quit => rfl
    | begin v x rest hv =>
      have hne : w ≠ v := by
        rintro rfl
        rw [hpc] at hv
        cases hv
      simp [Net.message, beginPacket, Net.setPc, hne]
    | transmit v d' =>
      rw [message_complete, transmitPacket, Net.called_message]
      refine (message_store_m ?_ w _).trans rfl
      rw [Net.transmitted_message, Net.called_message]
    | act v d' =>
      refine (message_store_m ?_ w _).trans rfl
      cases d' <;> rfl
    | actEnd v d' =>
      rw [message_complete]
      refine (message_store_m ?_ w _).trans rfl
      cases d' <;> rfl

/-- An iteration after which a worker handles the same message called an action for it. -/
private theorem length_actionsOf_taken {n n' : Net H} {w : Core} {d : Held}
    (ht : Taken n (.work w) n') (hpc : n.pc w = .handle d) (hpc' : n'.pc w = .handle d) :
    (n'.actionsOf (n.message w d).m).length = (n.actionsOf (n.message w d).m).length + 1 := by
  have hcomplete (k : Net H) (d' : Held) : (complete k w d').pc w ≠ .handle d := by
    unfold complete
    cases d' with
    | packet r => simp [Net.setPc]
    | item i =>
      dsimp only
      split <;> simp [Net.setPc]
  have hbusy {pc : Pc} (h : n.pc w = pc) (hne : pc ≠ .handle d) : False := by
    rw [hpc] at h
    exact hne h.symm
  cases ht with
  | move w pc h =>
    rcases h with ⟨h, -⟩ | ⟨h, -⟩ | ⟨h, -⟩ <;> exact (hbusy h (by simp)).elim
  | pop w i q h => exact (hbusy h (by simp)).elim
  | begin w x rest h => exact (hbusy h (by simp)).elim
  | push w dest i d' h => exact (hbusy h (by simp)).elim
  | retry w dest i d' h => exact (hbusy h (by simp)).elim
  | relay w i e dest h => simp [Net.setPc] at hpc'
  | transmit w d' => exact absurd hpc' (hcomplete _ _)
  | actEnd w d' => exact absurd hpc' (hcomplete _ _)
  | act w d' e f s st path h =>
    rw [hpc, Pc.handle.injEq] at h
    subst h
    have hc : ((ranAction n w d e s st).store w d
        { n.message w d with path, actionId := path }).hist.calls =
          n.hist.calls ++ [callOf n w d e] := by
      rw [Net.store_hist]
      rfl
    have hx : (callOf n w d e).m = (n.message w d).m := rfl
    rw [actionsOf_snoc hc, List.length_append, if_pos hx]
    rfl

/-- Other events take no call back. -/
private theorem length_actionsOf_le {n n' : Net H} {ev : Event} (ht : Taken n ev n') (p : Mbuf) :
    (n.actionsOf p).length ≤ (n'.actionsOf p).length := by
  rcases calls_taken ht with h | ⟨w, d, e, -, -, -, -, -, h⟩
  · unfold Net.actionsOf
    rw [h]
  · rw [actionsOf_snoc h, List.length_append]
    omega

/-- What was received stays received. -/
private theorem mem_received_taken {n n' : Net H} {ev : Event} (ht : Taken n ev n')
    {x : Core × Mbuf} (hx : x ∈ n.hist.received) : x ∈ n'.hist.received := by
  cases ht with
  | rxBurst => exact List.mem_append_left _ hx
  | transmit =>
    rw [complete_received, transmitPacket, Net.store_hist]
    exact hx
  | act =>
    rw [Net.store_hist]
    exact hx
  | actEnd =>
    rw [complete_received, Net.store_hist]
    exact hx
  | move | pop | begin | relay | push | retry | drop | copy | command | quit => exact hx

/-- While a worker stays in the loop `while (ret == 0)` over a message, every iteration calls one
more action for its packet, whatever the other workers do. -/
private theorem loop_calls {c : Config H} (hk : c.KeepsPaths) (hp : c.PathsInTable) {w : Core}
    {d : Held} {p : Mbuf} {es : List Event} {n n' : Net H} (hn : Routed c n)
    (hes : ∀ ev ∈ es, ev.IsWork) (hm : (n.message w d).m = p) (hrun : run step n es = some n')
    (hloop : Visits step (fun k ↦ k.pc w = .handle d) n es) :
    (n.actionsOf p).length + es.count (.work w) ≤ (n'.actionsOf p).length ∧ Routed c n' ∧
      n'.pc w = .handle d ∧ (n'.message w d).m = p ∧
      ∀ x ∈ n.hist.received, x ∈ n'.hist.received := by
  induction es generalizing n with
  | nil =>
    rw [run_nil, Option.some.injEq] at hrun
    subst hrun
    exact ⟨Nat.le_refl _, hn, hloop, hm, fun _ hx ↦ hx⟩
  | cons ev es ih =>
    obtain ⟨k, hk1, hrun⟩ := run_cons_iff.mp hrun
    obtain ⟨hpc, hrest⟩ := hloop
    have ht := step_taken hk1
    have hk' := hn.next hk hp (hes ev List.mem_cons_self) hk1
    have hmk : (k.message w d).m = p := (message_taken hn.packets ht hpc).trans hm
    obtain ⟨hle, hn', hpc', hm', hrec⟩ := ih hk'
      (fun e he ↦ hes e (List.mem_cons_of_mem ev he)) hmk hrun (hrest k hk1)
    refine ⟨?_, hn', hpc', hm', fun x hx ↦ hrec x (mem_received_taken ht hx)⟩
    have hpck : k.pc w = .handle d := by
      cases es with
      | nil => exact hrest k hk1
      | cons f fs => exact (hrest k hk1).1
    rw [List.count_cons]
    split
    · next hev =>
      have hev' : ev = .work w := by simpa using hev
      subst hev'
      have hone := length_actionsOf_taken ht hpc hpck
      rw [hm] at hone
      omega
    · have hmono := length_actionsOf_le ht p
      omega

/-- If at most `k` actions are called for a packet while it is in the loop, the loop over it
ends. -/
theorem loopEnds {c : Config H} (hk : c.KeepsPaths) (hp : c.PathsInTable) {n : Net H}
    (hn : Routed c n) {w : Core} {d : Held} {k : Nat}
    (hbound : ∀ n' : Net H, Routed c n' → (∀ x ∈ n.hist.received, x ∈ n'.hist.received) →
      n'.pc w = .handle d → (n'.message w d).m = (n.message w d).m →
        (n'.actionsOf (n.message w d).m).length ≤ k) : n.LoopEnds w d k := by
  intro es n' hes hrun hloop
  obtain ⟨hle, hn', hpc, hm, hrec⟩ := loop_calls hk hp hn hes rfl hrun hloop
  have hk' := hbound n' hn' hrec hpc hm
  omega

/-- A worker in the loop over a message whose action is on some core can go on. -/
theorem goesOn {n : Net H} (hi : Produced n) {w v : Core} {d : Held}
    {e : ActionTableEntry H} (hpc : n.pc w = .handle d)
    (he : n.config.entry (n.message w d).actionId = some e) (hv : e.coreId = (v.val : Int))
    (hr : e.Runs) : n.GoesOn w d := by
  by_cases hc : e.coreId = (w.val : Int)
  · have hstep : step n (.work w) = selectAction n w d e := by
      simp only [step, workerAction, hpc, eventHandler, he, if_pos hc]
    have hgo (h : (selectAction n w d e).isSome) :
        ∃ ev n', (ev = .work w ∨ ∃ r, ev = .alloc w r) ∧ step n ev = some n' := by
      obtain ⟨n', hn'⟩ := Option.isSome_iff_exists.mp h
      exact ⟨.work w, n', .inl rfl, hstep.trans hn'⟩
    rcases hr with ⟨u, ha, hs⟩ | ⟨f, s, ha, hs⟩
    · left
      apply hgo
      simp only [selectAction, ha, hs, Option.isSome_some]
    · cases hf : f (n.config.states s) (n.message w d) with
      | error fault => exact .inr ⟨e, f, s, fault, he, ha, hs, hf⟩
      | ok r =>
        left
        apply hgo
        simp only [selectAction, ha, hs, Net.called_config, hf]
        split <;> rfl
  · left
    by_cases hl : (n.message w d).producerId = -1
    · exact ⟨.alloc w none, dropPacket n w d, .inr ⟨none, rfl⟩, enabled_drop hpc he hc hl hv⟩
    · cases d with
      | packet r => exact absurd (hi.scratch w r hpc) hl
      | item i =>
        exact ⟨.work w, n.setPc w (.enqueue v i (.item i)), .inl rfl, enabled_relay hpc he hc hl hv⟩

end Nflambda.Runtime
