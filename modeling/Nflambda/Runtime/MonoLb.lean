import Nflambda.Runtime.SsLb

/-!
# The monolithic load balancer

Library `Runtime`. Source `mono_lb_action`, `src/runtime/nf/mono_lb.c:66–191`, against the data
actors and the control actor of `src/runtime/nf/ss_lb.c`. Both let the first server serve a new
flow, but `mono_lb_action` leaves the destination address of the packet that opens it as it is.
Transmission and its statistics are left out.
-/

namespace Nflambda.Runtime

open Nflambda.Base

/-- The fields of `struct mono_lb`, `mono_lb.h:20–43`, that the action uses, with the packets that
have been forwarded and the destination addresses with which they were. -/
structure MonoLb (T : Type) where
  htTableFm : T
  rxn : Int
  rxs : Int
  found : Int
  unfound : Int
  keyFull : Int
  log : List (LbPacket × BitVec 32)

/-- The 5-tuple that is read of a TCP packet, `mono_lb.c:152–156`. -/
def LbPacket.tuple (m : LbPacket) : Ipv4FiveTuple where
  ipSrc := rteBeToCpu32 m.srcAddr
  ipDst := rteBeToCpu32 m.dstAddr
  proto := m.nextProtoId
  portSrc := m.ports.1
  portDst := m.ports.2

variable {T T' : Type} [RteHashData T] [RteHashData T']

/-- The body of the loop over a burst, `mono_lb.c:134–187`. -/
def MonoLb.packet (s : MonoLb T) (m : LbPacket) : MonoLb T :=
  let s := { s with rxs := s.rxs + m.pktLen * 8 }
  if m.IsIpv4 then
    if m.nextProtoId = IPPROTO_TCP then
      match RteHashData.lookupData s.htTableFm m.tuple with
      | none =>
        let (htTableFm, retAdd) :=
          RteHashData.addKeyData s.htTableFm m.tuple (serverIpMapArray 0)
        { s with
          unfound := s.unfound + 1
          htTableFm
          keyFull := if retAdd = -ENOSPC then s.keyFull + 1 else s.keyFull
          log := s.log ++ [(m, m.dstAddr)] }
      | some dip => { s with found := s.found + 1, log := s.log ++ [(m, dip)] }
    else { s with log := s.log ++ [(m, m.dstAddr)] }
  else { s with log := s.log ++ [(m, m.dstAddr)] }

/-- One turn of the main loop, `mono_lb.c:107–189`. -/
def MonoLb.burst (s : MonoLb T) (pktsBurst : List LbPacket) : MonoLb T :=
  pktsBurst.foldl MonoLb.packet { s with rxn := s.rxn + pktsBurst.length }

/-- `mono_lb_action`, `mono_lb.c:66–191`, on the bursts that arrive before `dp_quit` is set. -/
def monoLbAction (monolb : MonoLb T) (bursts : List (List LbPacket)) : MonoLb T :=
  bursts.foldl MonoLb.burst monolb

/-- A load balancer with the given table after `mono_lb_init`, `mono_lb.c:223–234`. -/
def monoLbInit (htTableFm : T) : MonoLb T :=
  { htTableFm, rxn := 0, rxs := 0, found := 0, unfound := 0, keyFull := 0, log := [] }

/-- The packets that a data actor has forwarded, with their destination addresses. -/
def sent (log : List Forwarded) : List (LbPacket × BitVec 32) :=
  log.map fun x ↦ (x.received, x.dstAddr)

/-- A TCP packet. -/
def LbPacket.IsTcp (m : LbPacket) : Prop := m.IsIpv4 ∧ m.nextProtoId = IPPROTO_TCP

instance (m : LbPacket) : Decidable m.IsTcp := inferInstanceAs (Decidable (_ ∧ _))

/-- All packets of flows that a table does not hold are addressed to the first server. -/
def NewFlowsAddressed (table : T) (ms : List LbPacket) : Prop :=
  ∀ m ∈ ms, RteHashData.lookupData table m.tuple = none → m.dstAddr = serverIpMapArray 0

instance (table : T) (ms : List LbPacket) : Decidable (NewFlowsAddressed table ms) :=
  inferInstanceAs (Decidable (∀ m ∈ ms, _ → _))

/-! ### One packet -/

/-- The data actor's key of a TCP packet. -/
theorem copyTuple_of_tcp (t : Ipv4FiveTuple) {m : LbPacket} (h : m.nextProtoId = IPPROTO_TCP) :
    copyTuple t m = m.tuple := by
  rw [copyTuple_eq, keyWith, if_pos (.inl h)]
  rfl

/-- Swapping the bytes twice gives the number back. -/
theorem rteBeToCpu32_self (x : BitVec 32) : rteBeToCpu32 (rteBeToCpu32 x) = x := by
  unfold rteBeToCpu32
  apply BitVec.eq_of_getLsbD_eq
  intro i hi
  simp only [BitVec.getLsbD_append, BitVec.getLsbD_extractLsb']
  grind

/-- The packets of a flow are addressed to one destination. -/
theorem dstAddr_of_tuple {m m' : LbPacket} (h : m.tuple = m'.tuple) : m.dstAddr = m'.dstAddr := by
  have hip : rteBeToCpu32 m.dstAddr = rteBeToCpu32 m'.dstAddr := congrArg Ipv4FiveTuple.ipDst h
  rw [← rteBeToCpu32_self m.dstAddr, hip, rteBeToCpu32_self]

/-- Two tables hold the same data under every key. -/
def SameData (table : T) (table' : T') : Prop :=
  ∀ key, RteHashData.lookupData table key = RteHashData.lookupData table' key

/-- The load balancer and a running data actor have the same flows and counters. -/
structure Agree (mono : MonoLb T) (s : FlowMapper T') : Prop where
  table : SameData mono.htTableFm s.htTableFm
  found : mono.found = s.found
  unfound : mono.unfound = s.unfound
  running : s.running = true

/-- A TCP packet of a flow in the table: both rewrite its destination in the same way. -/
theorem Agree.packet_of_some {mono : MonoLb T} {s : FlowMapper T'} (h : Agree mono s)
    {m : LbPacket} (hm : m.IsTcp) {dip : BitVec 32}
    (hdip : RteHashData.lookupData mono.htTableFm m.tuple = some dip) :
    Agree (mono.packet m) (s.packet m (some (serverIpMapArray 0))) ∧
      (mono.packet m).htTableFm = mono.htTableFm ∧
      (mono.packet m).log = mono.log ++ [(m, dip)] ∧
      sent (s.packet m (some (serverIpMapArray 0))).log = sent s.log ++ [(m, dip)] := by
  have hmono : mono.packet m = { mono with
      rxs := mono.rxs + m.pktLen * 8
      found := mono.found + 1
      log := mono.log ++ [(m, dip)] } := by
    unfold MonoLb.packet
    rw [if_pos hm.1, if_pos hm.2]
    dsimp only
    rw [hdip]
  have hs : s.packet m (some (serverIpMapArray 0)) = { s with
      rxs := s.rxs + m.pktLen * 8
      ipv45Tuple := m.tuple
      found := s.found + 1
      log := s.log ++ [⟨m, some m.tuple, dip⟩] } := by
    unfold FlowMapper.packet
    rw [if_pos h.running, if_pos hm.1]
    dsimp only
    rw [copyTuple_of_tcp _ hm.2, ← h.table, hdip]
  rw [hmono, hs]
  refine ⟨⟨h.table, congrArg (· + 1) h.found, h.unfound, h.running⟩, rfl, rfl, ?_⟩
  exact List.map_append

variable [LawfulRteHashData T] [LawfulRteHashData T']

/-- The first TCP packet of a flow, while both tables have room: only the data actor rewrites its
destination. -/
theorem Agree.packet_of_none {mono : MonoLb T} {s : FlowMapper T'} (h : Agree mono s)
    {m : LbPacket} (hm : m.IsTcp)
    (hnone : RteHashData.lookupData mono.htTableFm m.tuple = none)
    (hmonoFull : (mono.packet m).keyFull = mono.keyFull)
    (hsFull : (s.packet m (some (serverIpMapArray 0))).keyFull = s.keyFull) :
    Agree (mono.packet m) (s.packet m (some (serverIpMapArray 0))) ∧
      (∀ key, RteHashData.lookupData (mono.packet m).htTableFm key =
        if key = m.tuple then some (serverIpMapArray 0)
        else RteHashData.lookupData mono.htTableFm key) ∧
      (mono.packet m).log = mono.log ++ [(m, m.dstAddr)] ∧
      sent (s.packet m (some (serverIpMapArray 0))).log =
        sent s.log ++ [(m, serverIpMapArray 0)] := by
  have hmono : mono.packet m = { mono with
      rxs := mono.rxs + m.pktLen * 8
      unfound := mono.unfound + 1
      htTableFm :=
        (RteHashData.addKeyData mono.htTableFm m.tuple (serverIpMapArray 0)).1
      keyFull := if (RteHashData.addKeyData mono.htTableFm m.tuple (serverIpMapArray 0)).2 =
        -ENOSPC then mono.keyFull + 1 else mono.keyFull
      log := mono.log ++ [(m, m.dstAddr)] } := by
    unfold MonoLb.packet
    rw [if_pos hm.1, if_pos hm.2]
    dsimp only
    rw [hnone]
  have hs : s.packet m (some (serverIpMapArray 0)) = { s with
      rxs := s.rxs + m.pktLen * 8
      ipv45Tuple := m.tuple
      unfound := s.unfound + 1
      htTableFm := (RteHashData.addKeyData s.htTableFm m.tuple (serverIpMapArray 0)).1
      keyFull := if (RteHashData.addKeyData s.htTableFm m.tuple (serverIpMapArray 0)).2 =
        -ENOSPC then s.keyFull + 1 else s.keyFull
      log := s.log ++ [⟨m, some m.tuple, serverIpMapArray 0⟩] } := by
    unfold FlowMapper.packet
    rw [if_pos h.running, if_pos hm.1]
    dsimp only
    rw [copyTuple_of_tcp _ hm.2, ← h.table, hnone]
  rw [hmono] at hmonoFull ⊢
  rw [hs] at hsFull ⊢
  have hmonoAdd := (LawfulRteHashData.add_cases mono.htTableFm m.tuple
    (serverIpMapArray 0)).resolve_right fun hfull ↦ by
      dsimp only at hmonoFull
      rw [if_pos hfull] at hmonoFull
      omega
  have hsAdd := (LawfulRteHashData.add_cases s.htTableFm m.tuple
    (serverIpMapArray 0)).resolve_right fun hfull ↦ by
      dsimp only at hsFull
      rw [if_pos hfull] at hsFull
      omega
  refine ⟨⟨fun key ↦ ?_, h.found, congrArg (· + 1) h.unfound, h.running⟩, hmonoAdd.2, rfl, ?_⟩
  · dsimp only
    rw [hmonoAdd.2 key, hsAdd.2 key, h.table key]
  · exact List.map_append

/-! ### Traces -/

omit [LawfulRteHashData T] in
private theorem MonoLb.keyFull_packet_le (s : MonoLb T) (m : LbPacket) :
    s.keyFull ≤ (s.packet m).keyFull := by
  unfold MonoLb.packet
  split
  · split
    · dsimp only
      cases RteHashData.lookupData s.htTableFm m.tuple with
      | none =>
        dsimp only
        split <;> omega
      | some dip => exact Int.le_refl _
    · exact Int.le_refl _
  · exact Int.le_refl _

omit [LawfulRteHashData T] in
private theorem MonoLb.keyFull_le (ms : List LbPacket) (s : MonoLb T) :
    s.keyFull ≤ (ms.foldl MonoLb.packet s).keyFull := by
  induction ms generalizing s with
  | nil => exact Int.le_refl _
  | cons m ms ih => exact Int.le_trans (s.keyFull_packet_le m) (ih _)

omit [LawfulRteHashData T'] in
private theorem FlowMapper.keyFull_packet_le (s : FlowMapper T') (m : LbPacket)
    (reply : Option (BitVec 32)) : s.keyFull ≤ (s.packet m reply).keyFull := by
  unfold FlowMapper.packet
  split
  · split
    · dsimp only
      cases RteHashData.lookupData s.htTableFm (copyTuple s.ipv45Tuple m) with
      | none =>
        cases reply with
        | none => exact Int.le_refl _
        | some msg =>
          dsimp only
          split <;> omega
      | some dip => exact Int.le_refl _
    · exact Int.le_refl _
  · exact Int.le_refl _

omit [LawfulRteHashData T'] in
private theorem FlowMapper.keyFull_handle_le (ms : List LbPacket) (s : FlowMapper T') :
    s.keyFull ≤ (s.handle ms).keyFull := by
  induction ms generalizing s with
  | nil => exact Int.le_refl _
  | cons m ms ih => exact Int.le_trans (s.keyFull_packet_le m _) (ih _)

omit [LawfulRteHashData T] [LawfulRteHashData T'] in
/-- The first packet of a flow that the table does not hold puts it there. What remains to be asked
of the later packets is the same, since they are addressed to the same destination. -/
private theorem newFlowsAddressed_cons {table table' : T} {m : LbPacket} {ms : List LbPacket}
    (hnone : RteHashData.lookupData table m.tuple = none)
    (htable : ∀ key, RteHashData.lookupData table' key =
      if key = m.tuple then some (serverIpMapArray 0) else RteHashData.lookupData table key) :
    NewFlowsAddressed table (m :: ms) ↔
      m.dstAddr = serverIpMapArray 0 ∧ NewFlowsAddressed table' ms := by
  constructor
  · intro h
    refine ⟨h m List.mem_cons_self hnone, fun m' hm' hnone' ↦ ?_⟩
    rw [htable] at hnone'
    split at hnone'
    · cases hnone'
    · exact h m' (List.mem_cons_of_mem m hm') hnone'
  · rintro ⟨hm, hms⟩ m' hm' hnone'
    by_cases hsame : m'.tuple = m.tuple
    · rw [dstAddr_of_tuple hsame, hm]
    · rcases List.mem_cons.mp hm' with rfl | hm'
      · exact absurd rfl hsame
      · refine hms m' hm' ?_
        rw [htable, if_neg hsame]
        exact hnone'

/-- While both tables have room, a trace of TCP packets keeps the load balancer and the data actor
in agreement, and they forward it in the same way exactly when the packets of new flows are
addressed to the first server. -/
theorem Agree.handle (ms : List LbPacket) (htcp : ∀ m ∈ ms, m.IsTcp) :
    ∀ {mono : MonoLb T} {s : FlowMapper T'}, Agree mono s →
      (ms.foldl MonoLb.packet mono).keyFull = mono.keyFull →
      (s.handle ms).keyFull = s.keyFull →
      Agree (ms.foldl MonoLb.packet mono) (s.handle ms) ∧
        ∃ l l', (ms.foldl MonoLb.packet mono).log = mono.log ++ l ∧
          sent (s.handle ms).log = sent s.log ++ l' ∧
          (l = l' ↔ NewFlowsAddressed mono.htTableFm ms) := by
  induction ms with
  | nil =>
    intro mono s h _ _
    refine ⟨h, [], [], (List.append_nil _).symm, (List.append_nil _).symm, ?_⟩
    exact iff_of_true rfl fun m hm ↦ absurd hm List.not_mem_nil
  | cons m ms ih =>
    intro mono s h hmonoFull hsFull
    have hm := htcp m List.mem_cons_self
    rw [List.foldl_cons] at hmonoFull ⊢
    change ((s.packet m (some (serverIpMapArray 0))).handle ms).keyFull = _ at hsFull
    change Agree _ ((s.packet m (some (serverIpMapArray 0))).handle ms) ∧ ∃ l l', _ ∧
      sent ((s.packet m (some (serverIpMapArray 0))).handle ms).log = _ ∧ _
    -- the tables are never full, before this packet or after it
    have hmono1 := mono.keyFull_packet_le m
    have hmono2 := (mono.packet m).keyFull_le ms
    have hs1 := s.keyFull_packet_le m (some (serverIpMapArray 0))
    have hs2 := (s.packet m (some (serverIpMapArray 0))).keyFull_handle_le ms
    have hrest (hagree : Agree (mono.packet m) (s.packet m (some (serverIpMapArray 0)))) :=
      ih (fun m' hm' ↦ htcp m' (List.mem_cons_of_mem m hm')) hagree (by omega) (by omega)
    cases hlookup : RteHashData.lookupData mono.htTableFm m.tuple with
    | some dip =>
      obtain ⟨hagree, htable, hlog, hsent⟩ := h.packet_of_some hm hlookup
      obtain ⟨hagree', l, l', hl, hl', hiff⟩ := hrest hagree
      refine ⟨hagree', (m, dip) :: l, (m, dip) :: l', ?_, ?_, ?_⟩
      · rw [hl, hlog, List.append_assoc, List.singleton_append]
      · rw [hl', hsent, List.append_assoc, List.singleton_append]
      · rw [List.cons_inj_right, hiff, htable]
        constructor
        · intro hall m' hm' hnone
          rcases List.mem_cons.mp hm' with rfl | hm'
          · rw [hlookup] at hnone
            cases hnone
          · exact hall m' hm' hnone
        · exact fun hall m' hm' ↦ hall m' (List.mem_cons_of_mem m hm')
    | none =>
      obtain ⟨hagree, htable, hlog, hsent⟩ :=
        h.packet_of_none hm hlookup (by omega) (by omega)
      obtain ⟨hagree', l, l', hl, hl', hiff⟩ := hrest hagree
      refine ⟨hagree', (m, m.dstAddr) :: l, (m, serverIpMapArray 0) :: l', ?_, ?_, ?_⟩
      · rw [hl, hlog, List.append_assoc, List.singleton_append]
      · rw [hl', hsent, List.append_assoc, List.singleton_append]
      · rw [newFlowsAddressed_cons hlookup htable, ← hiff, List.cons.injEq, Prod.mk.injEq]
        simp only [true_and]

omit [LawfulRteHashData T] in
/-- How a trace is divided into bursts shows in the number of received packets only. -/
theorem monoLbAction_eq (bursts : List (List LbPacket)) : ∀ s : MonoLb T,
    monoLbAction s bursts = { bursts.flatten.foldl MonoLb.packet s with
      rxn := s.rxn + bursts.flatten.length } := by
  have hpackets : ∀ (ms : List LbPacket) (s : MonoLb T) (rxn : Int),
      ms.foldl MonoLb.packet { s with rxn } = { ms.foldl MonoLb.packet s with rxn } := by
    intro ms
    induction ms with
    | nil => exact fun _ _ ↦ rfl
    | cons m ms ih =>
      intro s rxn
      have hm : ({ s with rxn } : MonoLb T).packet m = { s.packet m with rxn } := by
        unfold MonoLb.packet
        dsimp only
        split
        · split
          · cases RteHashData.lookupData s.htTableFm m.tuple <;> rfl
          · rfl
        · rfl
      rw [List.foldl_cons, List.foldl_cons, hm, ih]
  induction bursts with
  | nil =>
    intro s
    show s = { s with rxn := s.rxn + 0 }
    rw [Int.add_zero]
  | cons b bursts ih =>
    intro s
    have hburst : s.burst b = { b.foldl MonoLb.packet s with rxn := s.rxn + b.length } :=
      hpackets b s _
    have hrest := ih (s.burst b)
    rw [monoLbAction, List.foldl_cons, List.flatten_cons, List.foldl_append, List.length_append]
    rw [monoLbAction] at hrest
    rw [hrest, hburst, hpackets]
    dsimp only
    push_cast
    rw [Int.add_assoc]

/-- In every run of any number of data actors with the control actor, a data actor handles all
packets that arrive for it. If these are TCP packets and neither flow table is ever full, the
monolithic load balancer finds and misses as many of them, and it forwards the same packets to the
same destinations exactly when the packets of flows that the table did not hold are all addressed
to the first server. -/
theorem mono_ss_equivalent_iff {n : Nat} (i : Fin n) (table : T) (tables : Fin n → T')
    (tuples : Fin n → Ipv4FiveTuple) (htable : SameData table (tables i)) (es : List (SsEvent n))
    (g : SsGroup T' n)
    (hrun : run ssStep (ssLaunch fun k ↦ lbDataInit (tables k) (tuples k)) es = some g) :
    (∃ g', Quiet g g' ∧ (g'.actor i).pc = .loop) ∧
    ((g.actor i).pc = .loop → (∀ m ∈ arrived es i, m.IsTcp) →
      ∀ bursts : List (List LbPacket), bursts.flatten = arrived es i →
      (monoLbAction (monoLbInit table) bursts).keyFull = 0 → (g.actor i).mapper.keyFull = 0 →
        ((monoLbAction (monoLbInit table) bursts).found = (g.actor i).mapper.found ∧
          (monoLbAction (monoLbInit table) bursts).unfound = (g.actor i).mapper.unfound) ∧
        ((monoLbAction (monoLbInit table) bursts).log = sent (g.actor i).mapper.log ↔
          NewFlowsAddressed table (arrived es i))) := by
  have hinv : SsInv (fun k ↦ lbDataInit (tables k) (tuples k)) (arrived es) g :=
    (ssInv_launch (fun _ ↦ rfl)).run es hrun
  refine ⟨hinv.exists_loop i, fun hloop htcp bursts hbursts hmonoFull hsFull ↦ ?_⟩
  -- all packets have been handled
  obtain ⟨ms, hms, hmapper⟩ := (hinv i).handled
  rw [hloop] at hms
  obtain rfl : ms = arrived es i := ((List.append_nil ms).symm.trans hms.symm)
  rw [hmapper] at hsFull ⊢
  rw [monoLbAction_eq, hbursts] at hmonoFull ⊢
  have hagree : Agree (monoLbInit table) (lbDataInit (tables i) (tuples i)) :=
    ⟨htable, rfl, rfl, rfl⟩
  obtain ⟨hagree', l, l', hl, hl', hiff⟩ := hagree.handle _ htcp hmonoFull hsFull
  refine ⟨⟨hagree'.found, hagree'.unfound⟩, ?_⟩
  dsimp only
  rw [hl, hl']
  exact hiff

/-- A run in which the packet `m`, of a new flow, arrives for a single data actor. -/
def newFlowRun (m : LbPacket) : List (SsEvent 1) :=
  [.poll 0 [m], .work 0, .control, .control, .control, .work 0, .work 0]

/-- A single data actor with an empty table. -/
def singleActor : SsGroup (List (Ipv4FiveTuple × BitVec 32)) 1 :=
  ssLaunch fun _ ↦ lbDataInit [] ⟨0, 0, 0, 0, 0⟩

/-- A packet that is addressed to the first server. -/
theorem mono_ss_equivalent_iff_first : ∃ g,
    run ssStep singleActor (newFlowRun { tcpPacket with dstAddr := serverIpMapArray 0 }) = some g ∧
      (monoLbAction (monoLbInit ([] : List (Ipv4FiveTuple × BitVec 32)))
        [[{ tcpPacket with dstAddr := serverIpMapArray 0 }]]).log =
        sent (g.actor 0).mapper.log := by
  have hsome : (run ssStep singleActor (newFlowRun { tcpPacket with
      dstAddr := serverIpMapArray 0 })).map (fun g ↦ ((g.actor 0).pc, (g.actor 0).mapper.keyFull)) =
      some (.loop, 0) := by decide
  obtain ⟨g, hg, hpc⟩ := Option.map_eq_some_iff.mp hsome
  rw [Prod.mk.injEq] at hpc
  refine ⟨g, hg, ?_⟩
  have h := mono_ss_equivalent_iff 0 ([] : List (Ipv4FiveTuple × BitVec 32)) (fun _ ↦ [])
    (fun _ ↦ ⟨0, 0, 0, 0, 0⟩) (fun _ ↦ rfl) _ g hg
  exact (h.2 hpc.1 (by decide) [[_]] rfl (by decide) hpc.2).2.mpr (by decide)

/-- A packet that is addressed to another destination keeps it in the monolithic load balancer
only. -/
theorem mono_ss_differ : ∃ g,
    run ssStep singleActor (newFlowRun tcpPacket) = some g ∧ (g.actor 0).pc = .loop ∧
      (monoLbAction (monoLbInit ([] : List (Ipv4FiveTuple × BitVec 32))) [[tcpPacket]]).log =
        [(tcpPacket, tcpPacket.dstAddr)] ∧
      sent (g.actor 0).mapper.log = [(tcpPacket, serverIpMapArray 0)] ∧
      tcpPacket.dstAddr ≠ serverIpMapArray 0 := by
  have hsome : (run ssStep singleActor (newFlowRun tcpPacket)).map
      (fun g ↦ ((g.actor 0).pc, sent (g.actor 0).mapper.log)) =
      some (.loop, [(tcpPacket, serverIpMapArray 0)]) := by decide
  obtain ⟨g, hg, hpc⟩ := Option.map_eq_some_iff.mp hsome
  rw [Prod.mk.injEq] at hpc
  exact ⟨g, hg, hpc.1, by decide, hpc.2, by decide⟩

end Nflambda.Runtime
