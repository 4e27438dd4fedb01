import Nflambda.Runtime.DecomposedLb

/-!
# The load balancer with a server selector

Library `Runtime`. Source `lb_data_action` and `lb_control_ss_action`,
`src/runtime/nf/ss_lb.c:29–225`. The loops of a data actor are those of `DataActor.step`; every
pair of rings connects one data actor with the control actor, which answers each request with the
first entry of `server_ip_map_array`. `*dp_quit` stays false.
-/

namespace Nflambda.Runtime

open Nflambda.Base

/-- Where the control actor is, `ss_lb.c:212–221`. -/
inductive SsControlPc (n : Nat) where
  /-- Before the test of the main loop. -/
  | loop
  /-- In the loop over the data actors, before `rte_ring_dequeue` on the ring of actor `i`. -/
  | poll (i : Nat)
  /-- Before `rte_ring_enqueue` of the reply to actor `i`. -/
  | reply (i : Fin n)
  deriving DecidableEq, Repr

/-- `struct lb_control_ss`, `ss_lb.h:56–67`, with its data actors. -/
structure SsGroup (T : Type) (n : Nat) where
  actor : Fin n → DataActor T
  control : SsControlPc n
  controlCount : Nat

/-- What happens to a group. -/
inductive SsEvent (n : Nat) where
  /-- Data actor `i` polls its port, where `pktsBurst` has arrived. -/
  | poll (i : Fin n) (pktsBurst : List LbPacket)
  /-- Data actor `i` takes another step. -/
  | work (i : Fin n)
  /-- The control actor takes its next step. -/
  | control
  deriving DecidableEq, Repr

variable {T : Type} {n : Nat}

/-- Replace one data actor. -/
def SsGroup.setActor (g : SsGroup T n) (i : Fin n) (a : DataActor T) : SsGroup T n :=
  { g with actor := Function.update g.actor i a }

/-- The next step of `lb_control_ss_action`, `ss_lb.c:212–224`. -/
def ssControlStep (g : SsGroup T n) : SsGroup T n :=
  match g.control with
  | .loop => { g with control := .poll 0 }
  | .poll i =>
    if h : i < n then
      match (g.actor ⟨i, h⟩).sendRing with
      | [] => { g with control := .poll (i + 1) }
      | _ :: sendRing => { g.setActor ⟨i, h⟩ { g.actor ⟨i, h⟩ with sendRing } with
          controlCount := g.controlCount + 1
          control := .reply ⟨i, h⟩ }
    else { g with control := .loop }
  | .reply i =>
    { g.setActor i { g.actor i with
        recvRing := rteRingEnqueue (g.actor i).recvRing ⟨0, serverIpMapArray 0⟩ } with
      control := .poll (i.val + 1) }

/-- One event of a group. -/
def ssStep [RteHashData T] (g : SsGroup T n) : SsEvent n → Option (SsGroup T n)
  | .poll i pktsBurst =>
    if (g.actor i).pc = .loop then ((g.actor i).step false pktsBurst 0).map (g.setActor i) else none
  | .work i =>
    if (g.actor i).pc = .loop then none else ((g.actor i).step false [] 0).map (g.setActor i)
  | .control => some (ssControlStep g)

/-- A data actor with the given table that `lb_data_init`, `ss_lb.c:166–203`, has prepared and that
has been launched; the 5-tuple holds what its memory held. -/
def lbDataInit (htTableFm : T) (ipv45Tuple : Ipv4FiveTuple) : FlowMapper T :=
  { htTableFm, rxn := 0, rxs := 0, found := 0, unfound := 0, keyFull := 0, ipv45Tuple,
    running := true, log := [] }

/-- The actors after their launch, with empty rings, `ss_lb.c:246–252`. -/
def ssLaunch (mapper : Fin n → FlowMapper T) : SsGroup T n where
  actor := fun i ↦ ⟨mapper i, .loop, [], []⟩
  control := .loop
  controlCount := 0

/-- The packets that an event brings to data actor `i`. -/
def SsEvent.brings (e : SsEvent n) (i : Fin n) : List LbPacket :=
  match e with
  | .poll k pktsBurst => if k = i then pktsBurst else []
  | _ => []

/-- The packets that arrive for data actor `i` in a run, in order. -/
def arrived (es : List (SsEvent n)) (i : Fin n) : List LbPacket := es.flatMap (·.brings i)

/-- The packets of its burst that an actor has not forwarded. -/
def DataPc.rest : DataPc → List LbPacket
  | .burst rest => rest
  | .dequeue m rest _ => m :: rest
  | .testQuit m rest _ => m :: rest
  | _ => []

/-- The number of requests of data actor `i` that the control actor has taken and not answered. -/
def SsControlPc.taken (pc : SsControlPc n) (i : Fin n) : Nat :=
  match pc with
  | .reply k => if k = i then 1 else 0
  | _ => 0

variable [RteHashData T]

/-- The loop over some packets with the first server as the answer to every request. -/
def FlowMapper.handle (s : FlowMapper T) (ms : List LbPacket) : FlowMapper T :=
  ms.foldl (fun s m ↦ s.packet m (some (serverIpMapArray 0))) s

/-- What holds of a data actor for which some packets have arrived and of whose requests `taken`
are with the control actor: the packets that it is done with have been handled, and while it waits
there is one message between the actors. -/
structure ActorInv (first : FlowMapper T) (packets : List LbPacket) (taken : Nat)
    (a : DataActor T) : Prop where
  handled : ∃ ms, packets = ms ++ a.pc.rest ∧
    a.mapper = { first.handle ms with rxn := first.rxn + packets.length }
  running : a.mapper.running = true
  active : a.pc ≠ .idle
  messages : a.sendRing.length + taken + a.recvRing.length =
    if a.pc.request = none then 0 else 1
  replies : ∀ msg ∈ a.recvRing, msg.dstAddr = serverIpMapArray 0

/-- What holds of a group for which some packets have arrived. -/
def SsInv (first : Fin n → FlowMapper T) (packets : Fin n → List LbPacket) (g : SsGroup T n) :
    Prop :=
  ∀ i, ActorInv (first i) (packets i) (g.control.taken i) (g.actor i)

/-! ### Steps -/

private theorem packet_rxn (s : FlowMapper T) (rxn : Int) (m : LbPacket)
    (reply : Option (BitVec 32)) :
    ({ s with rxn } : FlowMapper T).packet m reply = { s.packet m reply with rxn } := by
  unfold FlowMapper.packet
  by_cases hrunning : s.running = true
  · rw [if_pos hrunning, if_pos hrunning]
    by_cases hip : m.IsIpv4
    · rw [if_pos hip, if_pos hip]
      dsimp only
      cases RteHashData.lookupData s.htTableFm (copyTuple s.ipv45Tuple m) with
      | none =>
        cases reply with
        | none => rfl
        | some msg => rfl
      | some dip => rfl
    · rw [if_neg hip, if_neg hip]
  · rw [if_neg hrunning, if_neg hrunning]

/-- A packet for which nothing is asked is handled without a reply. -/
private theorem packet_of_hit {s : FlowMapper T} {m : LbPacket}
    (h : ¬ (m.IsIpv4 ∧
      RteHashData.lookupData s.htTableFm (copyTuple s.ipv45Tuple m) = none))
    (reply : Option (BitVec 32)) : s.packet m none = s.packet m reply := by
  unfold FlowMapper.packet
  by_cases hip : m.IsIpv4
  · rw [if_pos hip, if_pos hip]
    dsimp only
    cases hlookup : RteHashData.lookupData s.htTableFm (copyTuple s.ipv45Tuple m) with
    | none => exact absurd ⟨hip, hlookup⟩ h
    | some dip => rfl
  · rw [if_neg hip, if_neg hip]

/-- An actor that gets its replies keeps running. -/
private theorem running_packet (s : FlowMapper T) (m : LbPacket) (msg : BitVec 32) :
    (s.packet m (some msg)).running = s.running := by
  unfold FlowMapper.packet
  split
  · split
    · dsimp only
      cases RteHashData.lookupData s.htTableFm (copyTuple s.ipv45Tuple m) <;> rfl
    · rfl
  · rfl

/-- One more packet is handled. -/
private theorem handled_packet {first s : FlowMapper T} {packets ms rest : List LbPacket}
    {m : LbPacket} (hpackets : packets = ms ++ m :: rest)
    (hs : s = { first.handle ms with rxn := first.rxn + packets.length }) :
    ∃ ms', packets = ms' ++ rest ∧ s.packet m (some (serverIpMapArray 0)) =
      { first.handle ms' with rxn := first.rxn + packets.length } := by
  refine ⟨ms ++ [m], by rw [List.append_assoc, List.singleton_append, hpackets], ?_⟩
  rw [hs, packet_rxn, FlowMapper.handle, FlowMapper.handle, List.foldl_append]
  rfl

/-- The steps of a data actor keep the invariant. -/
theorem ActorInv.step {first : FlowMapper T} {packets pktsBurst : List LbPacket} {taken : Nat}
    {a a' : DataActor T} (h : ActorInv first packets taken a)
    (hburst : a.pc ≠ .loop → pktsBurst = []) (hs : a.step false pktsBurst 0 = some a') :
    ActorInv first (packets ++ pktsBurst) taken a' := by
  obtain ⟨⟨ms, hpackets, hmapper⟩, hrunning, -, hmessages, hreplies⟩ := h
  have hnone (hpc : a.pc ≠ .loop) : packets ++ pktsBurst = packets := by
    rw [hburst hpc, List.append_nil]
  unfold DataActor.step at hs
  split at hs
  · cases hs
  · next hpc =>
    -- a burst arrives
    cases hs
    rw [hpc] at hpackets hmessages
    have hrequest : (if pktsBurst = [] then DataPc.loop else .burst pktsBurst).request = none := by
      split <;> rfl
    refine ⟨⟨ms, ?_, ?_⟩, hrunning, ?_, ?_, hreplies⟩
    · rw [hpackets]
      dsimp only
      split
      · next hnil => rw [hnil, List.append_nil]
      · simp [DataPc.rest]
    · dsimp only
      rw [hmapper, List.length_append]
      push_cast
      rw [Int.add_assoc]
    · dsimp only
      split <;> exact fun hn ↦ nomatch hn
    · rw [hrequest]
      exact hmessages
  · next hpc =>
    cases hs
    rw [hnone (by rw [hpc]; exact fun hn ↦ nomatch hn)]
    rw [hpc] at hpackets hmessages
    exact ⟨⟨ms, hpackets, hmapper⟩, hrunning, (fun hn ↦ nomatch hn), hmessages, hreplies⟩
  · next m rest hpc =>
    rw [hnone (by rw [hpc]; exact fun hn ↦ nomatch hn)]
    rw [hpc] at hpackets hmessages
    have hzero : a.sendRing.length + taken + a.recvRing.length = 0 := hmessages
    split at hs
    · -- the actor asks the control actor
      cases hs
      refine ⟨⟨ms, hpackets, hmapper⟩, hrunning, (fun hn ↦ nomatch hn), ?_, hreplies⟩
      have hempty : a.sendRing = [] := List.length_eq_zero_iff.mp (by omega)
      rw [hempty]
      change 1 + taken + a.recvRing.length = 1
      omega
    · next hhit =>
      cases hs
      rw [packet_of_hit hhit (some (serverIpMapArray 0))]
      exact ⟨handled_packet hpackets hmapper, (running_packet ..).trans hrunning,
        (fun hn ↦ nomatch hn), hzero, hreplies⟩
  · next m rest request hpc =>
    rw [hnone (by rw [hpc]; exact fun hn ↦ nomatch hn)]
    rw [hpc] at hpackets hmessages
    have hone : a.sendRing.length + taken + a.recvRing.length = 1 := hmessages
    split at hs
    · cases hs
      exact ⟨⟨ms, hpackets, hmapper⟩, hrunning, (fun hn ↦ nomatch hn), hmessages, hreplies⟩
    · next msg recvRing hrecv =>
      cases hs
      rw [hrecv] at hone hreplies
      have hmsg : msg.dstAddr = serverIpMapArray 0 := hreplies msg List.mem_cons_self
      rw [hmsg]
      refine ⟨handled_packet hpackets hmapper, (running_packet ..).trans hrunning,
        (fun hn ↦ nomatch hn), ?_, fun r hr ↦ hreplies r (List.mem_cons_of_mem _ hr)⟩
      rw [List.length_cons] at hone
      change a.sendRing.length + taken + recvRing.length = 0
      omega
  · next m rest request hpc =>
    cases hs
    rw [hnone (by rw [hpc]; exact fun hn ↦ nomatch hn)]
    rw [hpc] at hpackets hmessages
    exact ⟨⟨ms, hpackets, hmapper⟩, hrunning, (fun hn ↦ nomatch hn), hmessages, hreplies⟩

omit [RteHashData T] in
private theorem setActor_self (g : SsGroup T n) (i : Fin n) (a : DataActor T) :
    (g.setActor i a).actor i = a := Function.update_self ..

omit [RteHashData T] in
private theorem setActor_of_ne (g : SsGroup T n) {i k : Fin n} (h : k ≠ i) (a : DataActor T) :
    (g.setActor i a).actor k = g.actor k := Function.update_of_ne h ..

/-- What a step of the control actor does to a data actor. -/
inductive Served (taken taken' : Nat) (a : DataActor T) : DataActor T → Prop
  /-- Nothing. -/
  | keep (h : taken' = taken) : Served taken taken' a a
  /-- Its request is taken. -/
  | take (request : Nat) (sendRing : List Nat) (hsend : a.sendRing = request :: sendRing)
      (h : taken = 0) (h' : taken' = 1) : Served taken taken' a { a with sendRing }
  /-- It is answered. -/
  | reply (h : taken = 1) (h' : taken' = 0) : Served taken taken' a { a with
      recvRing := rteRingEnqueue a.recvRing ⟨0, serverIpMapArray 0⟩ }

omit [RteHashData T] in
/-- The steps of the control actor. -/
theorem served_of_ssControlStep (g : SsGroup T n) (i : Fin n) :
    Served (g.control.taken i) ((ssControlStep g).control.taken i) (g.actor i)
      ((ssControlStep g).actor i) := by
  unfold ssControlStep
  split
  · next hpc => exact .keep (by rw [hpc]; rfl)
  · next k hpc =>
    split
    · next hk =>
      split
      · exact .keep (by rw [hpc]; rfl)
      · next request sendRing hsend =>
        by_cases hi : i = ⟨k, hk⟩
        · subst hi
          dsimp only
          rw [setActor_self]
          exact .take request sendRing hsend (by rw [hpc]; rfl) (if_pos rfl)
        · dsimp only
          rw [setActor_of_ne g hi]
          exact .keep (by rw [hpc]; exact if_neg (Ne.symm hi))
    · exact .keep (by rw [hpc]; rfl)
  · next k hpc =>
    by_cases hi : i = k
    · subst hi
      dsimp only
      rw [setActor_self]
      exact .reply (by rw [hpc]; exact if_pos rfl) rfl
    · dsimp only
      rw [setActor_of_ne g hi]
      exact .keep (by rw [hpc]; exact (if_neg (Ne.symm hi)).symm)

/-- The control actor keeps the invariant of every data actor. -/
theorem ActorInv.served {first : FlowMapper T} {packets : List LbPacket} {taken taken' : Nat}
    {a a' : DataActor T} (h : ActorInv first packets taken a) (hs : Served taken taken' a a') :
    ActorInv first packets taken' a' := by
  have hmessages := h.messages
  cases hs with
  | keep heq => rwa [heq]
  | take request sendRing hsend hzero hone =>
    refine ⟨h.handled, h.running, h.active, ?_, h.replies⟩
    rw [hsend, List.length_cons, hzero] at hmessages
    rw [hone, ← hmessages]
  | reply hone hzero =>
    have hle : a.sendRing.length + taken + a.recvRing.length ≤ 1 := by
      rw [hmessages]
      split <;> omega
    have hempty : a.recvRing = [] := List.length_eq_zero_iff.mp (by omega)
    refine ⟨h.handled, h.running, h.active, ?_, fun msg hmsg ↦ ?_⟩
    · rw [hempty, hone] at hmessages
      rw [hzero, ← hmessages, hempty]
      rfl
    · rw [hempty] at hmsg
      exact List.mem_singleton.mp hmsg ▸ rfl

/-- Every event keeps the invariant. -/
theorem SsInv.step {first : Fin n → FlowMapper T} {packets : Fin n → List LbPacket}
    {g g' : SsGroup T n} {e : SsEvent n} (h : SsInv first packets g) (hs : ssStep g e = some g') :
    SsInv first (fun i ↦ packets i ++ e.brings i) g' := by
  have hdata {i : Fin n} {pktsBurst : List LbPacket} (hburst : (g.actor i).pc ≠ .loop →
        pktsBurst = []) (hbrings : ∀ k, e.brings k = if i = k then pktsBurst else [])
      (ha : ((g.actor i).step false pktsBurst 0).map (g.setActor i) = some g') :
      SsInv first (fun i ↦ packets i ++ e.brings i) g' := by
    obtain ⟨a, hstep, rfl⟩ := Option.map_eq_some_iff.mp ha
    intro k
    dsimp only
    rw [hbrings]
    by_cases hk : k = i
    · subst hk
      rw [setActor_self, if_pos rfl]
      exact (h k).step hburst hstep
    · rw [setActor_of_ne g hk, if_neg (Ne.symm hk), List.append_nil]
      exact h k
  cases e with
  | poll i pktsBurst =>
    rw [ssStep] at hs
    split at hs
    · next hpc => exact hdata (fun hn ↦ absurd hpc hn) (fun _ ↦ rfl) hs
    · cases hs
  | work i =>
    rw [ssStep] at hs
    split at hs
    · cases hs
    · exact hdata (fun _ ↦ rfl) (fun k ↦ by rw [ite_self]; rfl) hs
  | control =>
    cases hs
    intro i
    dsimp only
    rw [show packets i ++ (SsEvent.control : SsEvent n).brings i = packets i from
      List.append_nil _]
    exact (h i).served (served_of_ssControlStep g i)

/-- A run keeps the invariant. -/
theorem SsInv.run {first : Fin n → FlowMapper T} (es : List (SsEvent n)) :
    ∀ {packets : Fin n → List LbPacket} {g g' : SsGroup T n}, SsInv first packets g →
      Base.run ssStep g es = some g' → SsInv first (fun i ↦ packets i ++ arrived es i) g' := by
  induction es with
  | nil =>
    intro packets g g' h hrun
    rw [run_nil, Option.some.injEq] at hrun
    subst hrun
    simpa [arrived] using h
  | cons e es ih =>
    intro packets g g' h hrun
    obtain ⟨r, hr, hrest⟩ := run_cons_iff.mp hrun
    have hi := ih (h.step hr) hrest
    simpa [arrived] using hi

/-- The actors after their launch. -/
theorem ssInv_launch {first : Fin n → FlowMapper T} (h : ∀ i, (first i).running = true) :
    SsInv first (fun _ ↦ []) (ssLaunch first) := by
  intro i
  refine ⟨⟨[], rfl, ?_⟩, h i, (fun hn ↦ nomatch hn), rfl, fun msg hmsg ↦ nomatch hmsg⟩
  show first i = { first i with rxn := (first i).rxn + 0 }
  rw [Int.add_zero]

/-! ### Every request is answered -/

/-- Some steps lead from one state of the group to another without a packet arriving. -/
def Quiet (g g' : SsGroup T n) : Prop :=
  ∃ es, (∀ i, arrived es i = []) ∧ run ssStep g es = some g'

theorem Quiet.refl (g : SsGroup T n) : Quiet g g := ⟨[], fun _ ↦ rfl, rfl⟩

theorem Quiet.trans {g g' g'' : SsGroup T n} (h : Quiet g g') (h' : Quiet g' g'') :
    Quiet g g'' := by
  obtain ⟨es, hes, hrun⟩ := h
  obtain ⟨fs, hfs, hrun'⟩ := h'
  refine ⟨es ++ fs, fun i ↦ ?_, by rw [run_append hrun, hrun']⟩
  rw [arrived, List.flatMap_append]
  exact (congrArg₂ (· ++ ·) (hes i) (hfs i)).trans (List.append_nil [])

/-- The invariant holds after such steps. -/
theorem SsInv.quiet {first : Fin n → FlowMapper T} {packets : Fin n → List LbPacket}
    {g g' : SsGroup T n} (h : SsInv first packets g) (hq : Quiet g g') :
    SsInv first packets g' := by
  obtain ⟨es, hes, hrun⟩ := hq
  have hrest := h.run es hrun
  simpa [hes] using hrest

/-- A step of a data actor that does not poll its port. -/
private theorem quiet_work {g : SsGroup T n} {i : Fin n} {a : DataActor T}
    (hpc : (g.actor i).pc ≠ .loop) (ha : (g.actor i).step false [] 0 = some a) :
    Quiet g (g.setActor i a) := by
  refine ⟨[.work i], fun _ ↦ rfl, ?_⟩
  rw [run, ssStep, if_neg hpc, ha]
  rfl

/-- Steps of the control actor. -/
theorem quiet_iterate (g : SsGroup T n) (k : Nat) : Quiet g (ssControlStep^[k] g) := by
  induction k generalizing g with
  | zero => exact .refl g
  | succ k ih =>
    rw [Function.iterate_succ_apply]
    exact .trans ⟨[.control], fun _ ↦ rfl, rfl⟩ (ih _)

omit [RteHashData T] in
/-- The control actor does not move the data actors, and takes no reply back. -/
theorem actor_iterate (g : SsGroup T n) (i : Fin n) (k : Nat) :
    ((ssControlStep^[k] g).actor i).pc = (g.actor i).pc ∧
      ((g.actor i).recvRing ≠ [] → ((ssControlStep^[k] g).actor i).recvRing ≠ []) := by
  induction k generalizing g with
  | zero => exact ⟨rfl, id⟩
  | succ k ih =>
    obtain ⟨hpc, hrecv⟩ := ih (ssControlStep g)
    have hone : ((ssControlStep g).actor i).pc = (g.actor i).pc ∧
        ((g.actor i).recvRing ≠ [] → ((ssControlStep g).actor i).recvRing ≠ []) := by
      have hserved := served_of_ssControlStep g i
      generalize (ssControlStep g).actor i = a' at hserved
      cases hserved with
      | keep => exact ⟨rfl, id⟩
      | take => exact ⟨rfl, id⟩
      | reply =>
        refine ⟨rfl, fun hne ↦ ?_⟩
        show rteRingEnqueue _ _ ≠ []
        unfold rteRingEnqueue
        split
        · exact List.append_ne_nil_of_right_ne_nil _ (List.cons_ne_nil _ _)
        · exact hne
    rw [Function.iterate_succ_apply]
    exact ⟨hpc.trans hone.1, fun hne ↦ hrecv (hone.2 hne)⟩

omit [RteHashData T] in
private theorem ssControlStep_of_loop {g : SsGroup T n} (h : g.control = .loop) :
    ssControlStep g = { g with control := .poll 0 } := by
  unfold ssControlStep
  simp only [h]

omit [RteHashData T] in
/-- The control actor goes on to the next data actor, after it has answered a request of the one it
polls, if there is one. -/
theorem exists_next_poll {g : SsGroup T n} {j : Nat} (hpc : g.control = .poll j) (hj : j < n) :
    ∃ k, (ssControlStep^[k] g).control = .poll (j + 1) ∧
      ((g.actor ⟨j, hj⟩).sendRing ≠ [] →
        ((ssControlStep^[k] g).actor ⟨j, hj⟩).recvRing ≠ []) ∧
      ∀ i : Fin n, i.val ≠ j → (ssControlStep^[k] g).actor i = g.actor i := by
  cases hsend : (g.actor ⟨j, hj⟩).sendRing with
  | nil =>
    have hstep : ssControlStep g = { g with control := .poll (j + 1) } := by
      unfold ssControlStep
      simp only [hpc, dif_pos hj, hsend]
    refine ⟨1, ?_⟩
    rw [Function.iterate_one, hstep]
    exact ⟨rfl, fun hne ↦ absurd rfl hne, fun _ _ ↦ rfl⟩
  | cons request sendRing =>
    have hstep : ssControlStep g = { g.setActor ⟨j, hj⟩ { g.actor ⟨j, hj⟩ with sendRing } with
        controlCount := g.controlCount + 1
        control := .reply ⟨j, hj⟩ } := by
      unfold ssControlStep
      simp only [hpc, dif_pos hj, hsend]
    refine ⟨2, ?_⟩
    rw [Function.iterate_succ_apply, Function.iterate_one, hstep]
    refine ⟨rfl, fun _ ↦ ?_, fun i hi ↦ ?_⟩
    · unfold ssControlStep
      dsimp only
      rw [setActor_self]
      show rteRingEnqueue _ _ ≠ []
      unfold rteRingEnqueue
      split
      · exact List.append_ne_nil_of_right_ne_nil _ (List.cons_ne_nil _ _)
      · next hfull =>
        intro hnil
        rw [hnil] at hfull
        exact hfull (by decide)
    · have hne : i ≠ ⟨j, hj⟩ := fun heq ↦ hi (congrArg Fin.val heq)
      unfold ssControlStep
      dsimp only
      rw [setActor_of_ne _ hne]
      exact setActor_of_ne _ hne _

omit [RteHashData T] in
/-- The control actor comes back to the start of its loop. -/
theorem exists_control_loop (g : SsGroup T n) : ∃ k, (ssControlStep^[k] g).control = .loop := by
  have hpoll : ∀ (d j : Nat) (g : SsGroup T n), g.control = .poll j → n - j ≤ d →
      ∃ k, (ssControlStep^[k] g).control = .loop := by
    intro d
    induction d with
    | zero =>
      intro j g hpc hd
      refine ⟨1, ?_⟩
      rw [Function.iterate_one, ssControlStep]
      simp only [hpc, dif_neg (show ¬ j < n by omega)]
    | succ d ih =>
      intro j g hpc hd
      by_cases hj : j < n
      · obtain ⟨k, hk, -⟩ := exists_next_poll hpc hj
        obtain ⟨k', hk'⟩ := ih (j + 1) _ hk (by omega)
        exact ⟨k' + k, by rw [Function.iterate_add_apply]; exact hk'⟩
      · refine ⟨1, ?_⟩
        rw [Function.iterate_one, ssControlStep]
        simp only [hpc, dif_neg hj]
  cases hpc : g.control with
  | loop => exact ⟨0, hpc⟩
  | poll j => exact hpoll (n - j) j g hpc (Nat.le_refl _)
  | reply i =>
    have hstep : (ssControlStep g).control = .poll (i.val + 1) := by
      unfold ssControlStep
      simp only [hpc]
    obtain ⟨k, hk⟩ := hpoll _ _ _ hstep (Nat.le_refl _)
    exact ⟨k + 1, by rw [Function.iterate_succ_apply]; exact hk⟩

omit [RteHashData T] in
/-- A request is answered once the control actor polls the ring that it is in. -/
theorem exists_answer_of_poll {i : Fin n} : ∀ (d j : Nat) (g : SsGroup T n), g.control = .poll j →
    j + d = i.val → (g.actor i).sendRing ≠ [] →
      ∃ k, ((ssControlStep^[k] g).actor i).recvRing ≠ [] := by
  intro d
  induction d with
  | zero =>
    intro j g hpc hj hsend
    obtain rfl : j = i.val := hj
    obtain ⟨k, -, hrecv, -⟩ := exists_next_poll hpc i.isLt
    exact ⟨k, hrecv hsend⟩
  | succ d ih =>
    intro j g hpc hj hsend
    have hlt := i.isLt
    obtain ⟨k, hk, -, hother⟩ := exists_next_poll hpc (show j < n by omega)
    have hsame := hother i (by omega)
    obtain ⟨k', hk'⟩ := ih (j + 1) _ hk (by omega) (by rw [hsame]; exact hsend)
    exact ⟨k' + k, by rw [Function.iterate_add_apply]; exact hk'⟩

/-- An actor that waits is answered. -/
theorem SsInv.exists_answer {first : Fin n → FlowMapper T} {packets : Fin n → List LbPacket}
    {g : SsGroup T n} (h : SsInv first packets g) {i : Fin n}
    (hwait : (g.actor i).pc.request ≠ none) :
    ∃ k, ((ssControlStep^[k] g).actor i).recvRing ≠ [] := by
  obtain ⟨k, hloop⟩ := exists_control_loop g
  by_cases hrecv : ((ssControlStep^[k] g).actor i).recvRing = []
  · have hinv := h.quiet (quiet_iterate g k) i
    have hmessages := hinv.messages
    rw [(actor_iterate g i k).1, if_neg hwait, hloop, hrecv] at hmessages
    change _ + 0 + 0 = 1 at hmessages
    have hsend : ((ssControlStep^[k] g).actor i).sendRing ≠ [] := by
      intro hnil
      rw [hnil] at hmessages
      cases hmessages
    have hnext : (ssControlStep^[k + 1] g) = { ssControlStep^[k] g with control := .poll 0 } := by
      rw [Function.iterate_succ_apply']
      exact ssControlStep_of_loop hloop
    obtain ⟨k', hk'⟩ := exists_answer_of_poll (i := i) i.val 0 (ssControlStep^[k + 1] g)
      (by rw [hnext]) (Nat.zero_add _) (by rw [hnext]; exact hsend)
    exact ⟨k' + (k + 1), by rw [Function.iterate_add_apply]; exact hk'⟩
  · exact ⟨k, hrecv⟩

/-- An actor that waits for a reply gets it and goes on. -/
theorem SsInv.exists_burst {first : Fin n → FlowMapper T} {packets : Fin n → List LbPacket}
    {g : SsGroup T n} (h : SsInv first packets g) {i : Fin n} {m : LbPacket}
    {rest : List LbPacket} {request : Nat} (hpc : (g.actor i).pc = .dequeue m rest request) :
    ∃ g', Quiet g g' ∧ (g'.actor i).pc = .burst rest := by
  obtain ⟨k, hk⟩ := h.exists_answer (i := i) (by rw [hpc]; exact fun hn ↦ nomatch hn)
  have hpc' := (actor_iterate g i k).1.trans hpc
  cases hrecv : ((ssControlStep^[k] g).actor i).recvRing with
  | nil => exact absurd hrecv hk
  | cons msg recvRing =>
    have hstep : ((ssControlStep^[k] g).actor i).step false [] 0 =
        some { (ssControlStep^[k] g).actor i with
          mapper := ((ssControlStep^[k] g).actor i).mapper.packet m (some msg.dstAddr)
          recvRing
          pc := .burst rest } := by
      unfold DataActor.step
      simp only [hpc', hrecv]
    refine ⟨_, (quiet_iterate g k).trans
      (quiet_work (by rw [hpc']; exact fun hn ↦ nomatch hn) hstep), ?_⟩
    rw [setActor_self]

/-- A data actor forwards what is left of its burst. -/
theorem SsInv.exists_loop_of_burst {first : Fin n → FlowMapper T} {i : Fin n}
    (rest : List LbPacket) : ∀ {packets : Fin n → List LbPacket} {g : SsGroup T n},
      SsInv first packets g → (g.actor i).pc = .burst rest →
      ∃ g', Quiet g g' ∧ (g'.actor i).pc = .loop := by
  induction rest with
  | nil =>
    intro packets g h hpc
    have hstep : (g.actor i).step false [] 0 = some { g.actor i with pc := .loop } := by
      unfold DataActor.step
      simp only [hpc]
    refine ⟨_, quiet_work (by rw [hpc]; exact fun hn ↦ nomatch hn) hstep, ?_⟩
    rw [setActor_self]
  | cons m rest ih =>
    intro packets g h hpc
    have hne : (g.actor i).pc ≠ .loop := by rw [hpc]; exact fun hn ↦ nomatch hn
    obtain ⟨g', hq, hpc'⟩ : ∃ g', Quiet g g' ∧ (g'.actor i).pc = .burst rest := by
      by_cases hmiss : m.IsIpv4 ∧ RteHashData.lookupData (g.actor i).mapper.htTableFm
          (copyTuple (g.actor i).mapper.ipv45Tuple m) = none
      · have hstep : (g.actor i).step false [] 0 = some { g.actor i with
            sendRing := rteRingEnqueue (g.actor i).sendRing 0, pc := .dequeue m rest 0 } := by
          unfold DataActor.step
          simp only [hpc, if_pos hmiss]
        have hq := quiet_work hne hstep
        obtain ⟨g', hq', hpc'⟩ := (h.quiet hq).exists_burst (i := i) (by rw [setActor_self])
        exact ⟨g', hq.trans hq', hpc'⟩
      · have hstep : (g.actor i).step false [] 0 = some { g.actor i with
            mapper := (g.actor i).mapper.packet m none, pc := .burst rest } := by
          unfold DataActor.step
          simp only [hpc, if_neg hmiss]
        exact ⟨_, quiet_work hne hstep, by rw [setActor_self]⟩
    obtain ⟨g'', hq', hloop⟩ := ih (h.quiet hq) hpc'
    exact ⟨g'', hq.trans hq', hloop⟩

/-- From every state of a run, a data actor can come back to its main loop, even if no packet
arrives any more. -/
theorem SsInv.exists_loop {first : Fin n → FlowMapper T} {packets : Fin n → List LbPacket}
    {g : SsGroup T n} (h : SsInv first packets g) (i : Fin n) :
    ∃ g', Quiet g g' ∧ (g'.actor i).pc = .loop := by
  cases hpc : (g.actor i).pc with
  | idle => exact absurd hpc (h i).active
  | loop => exact ⟨g, .refl g, hpc⟩
  | burst rest => exact SsInv.exists_loop_of_burst rest h hpc
  | dequeue m rest request =>
    obtain ⟨g', hq, hpc'⟩ := h.exists_burst hpc
    obtain ⟨g'', hq', hloop⟩ := SsInv.exists_loop_of_burst rest (h.quiet hq) hpc'
    exact ⟨g'', hq.trans hq', hloop⟩
  | testQuit m rest request =>
    have hstep : (g.actor i).step false [] 0 =
        some { g.actor i with pc := .dequeue m rest request } := by
      unfold DataActor.step
      simp only [hpc, Bool.false_eq_true, if_false]
    have hq := quiet_work (by rw [hpc]; exact fun hn ↦ nomatch hn) hstep
    obtain ⟨g', hq', hpc'⟩ := (h.quiet hq).exists_burst (i := i) (by rw [setActor_self])
    obtain ⟨g'', hq'', hloop⟩ :=
      SsInv.exists_loop_of_burst rest ((h.quiet hq).quiet hq') hpc'
    exact ⟨g'', (hq.trans hq').trans hq'', hloop⟩

end Nflambda.Runtime
