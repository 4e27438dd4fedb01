import Mathlib.Data.List.Basic
import Nflambda.Runtime.Common

/-!
# The data actors of the decomposed load balancers

Library `Runtime`. Source `decomposed_LB_data_action`, `src/runtime/nf/decomposed_lb.c:37–178`, and
`lb_data_action`, `src/runtime/nf/ss_lb.c:29–164`. Both look every IPv4 packet up in a flow table
and rewrite its destination to the address found or to the one the control actor replies. A reply
points to an entry of a constant table and stands for the address there. The keys of both tables
are the 16 bytes of a 5-tuple; nothing writes its padding, which is left out. Transmission and its
statistics are left out.
-/

namespace Nflambda.Runtime

open Nflambda.Base

/-- `rte_be_to_cpu_32` on a little-endian machine. -/
def rteBeToCpu32 (x : BitVec 32) : BitVec 32 :=
  x.extractLsb' 0 8 ++ x.extractLsb' 8 8 ++ x.extractLsb' 16 8 ++ x.extractLsb' 24 8

/-- `be16toh` and `rte_be_to_cpu_16` on a little-endian machine. -/
def be16toh (x : BitVec 16) : BitVec 16 := x.extractLsb' 0 8 ++ x.extractLsb' 8 8

/-- The protocol number of TCP. -/
def IPPROTO_TCP : BitVec 8 := 6

/-- The protocol number of UDP. -/
def IPPROTO_UDP : BitVec 8 := 17

/-- A received packet, in network byte order. -/
structure LbPacket where
  pktLen : Nat
  etherType : BitVec 16
  /-- The options of the IPv4 header, four bytes each; without options it has 20 bytes. -/
  options : List (BitVec 16 × BitVec 16)
  /-- Flags and fragment offset. -/
  fragmentOffset : BitVec 16
  nextProtoId : BitVec 8
  srcAddr : BitVec 32
  dstAddr : BitVec 32
  /-- The ports of the datagram; its first fragment has them behind the IPv4 header. -/
  srcPort : BitVec 16
  dstPort : BitVec 16
  /-- The two words behind the IPv4 header of a later fragment. -/
  payload : BitVec 16 × BitVec 16
  deriving DecidableEq, Repr

/-- The test for the Ethernet type of IPv4. -/
def LbPacket.IsIpv4 (m : LbPacket) : Prop := m.etherType = be16toh 0x0800

instance (m : LbPacket) : Decidable m.IsIpv4 := inferInstanceAs (Decidable (_ = _))

/-- TCP and UDP packets carry ports. -/
def LbPacket.HasPorts (m : LbPacket) : Prop :=
  m.nextProtoId = IPPROTO_TCP ∨ m.nextProtoId = IPPROTO_UDP

instance (m : LbPacket) : Decidable m.HasPorts := inferInstanceAs (Decidable (_ ∨ _))

/-- The packet is a whole datagram or the first fragment of one: its fragment offset is 0. -/
def LbPacket.IsFirst (m : LbPacket) : Prop := be16toh m.fragmentOffset &&& 0x1fff = 0

instance (m : LbPacket) : Decidable m.IsFirst := inferInstanceAs (Decidable (_ = _))

/-- The two words at the fixed offset 34 of the frame, behind `struct rte_ether_hdr` and the 20
bytes of `struct rte_ipv4_hdr`. -/
def LbPacket.tcpHdr (m : LbPacket) : BitVec 16 × BitVec 16 :=
  match m.options with
  | [] => if m.IsFirst then (m.srcPort, m.dstPort) else m.payload
  | option :: _ => option

/-- Without options, these are the words behind the header. -/
theorem LbPacket.tcpHdr_of_nil {m : LbPacket} (h : m.options = []) :
    m.tcpHdr = if m.IsFirst then (m.srcPort, m.dstPort) else m.payload := by
  unfold LbPacket.tcpHdr
  rw [h]

/-- The ports that the actors read, in host byte order. -/
def LbPacket.ports (m : LbPacket) : BitVec 16 × BitVec 16 :=
  (be16toh m.tcpHdr.1, be16toh m.tcpHdr.2)

/-- The operations of `rte_hash` on tables with data. A lookup returns nothing for `-ENOENT`. -/
class RteHashData (T : Type) where
  lookupData : T → Ipv4FiveTuple → Option (BitVec 32)
  addKeyData : T → Ipv4FiveTuple → BitVec 32 → T × Int

/-- The documented behaviour of `rte_hash_add_key_data`: the key holds the data afterwards, or the
table is full. -/
class LawfulRteHashData (T : Type) [RteHashData T] : Prop where
  add_cases : ∀ (table : T) (key : Ipv4FiveTuple) (data : BitVec 32),
    ((RteHashData.addKeyData table key data).2 = 0 ∧ ∀ key',
      RteHashData.lookupData (RteHashData.addKeyData table key data).1 key' =
        if key' = key then some data else RteHashData.lookupData table key') ∨
    (RteHashData.addKeyData table key data).2 = -ENOSPC

/-- A table without a bound that keeps its keys and their data in a list. -/
instance : RteHashData (List (Ipv4FiveTuple × BitVec 32)) where
  lookupData table key := (table.find? (·.1 = key)).map Prod.snd
  addKeyData table key data := ((key, data) :: table, 0)

instance : LawfulRteHashData (List (Ipv4FiveTuple × BitVec 32)) where
  add_cases table key data := by
    refine .inl ⟨rfl, fun key' ↦ ?_⟩
    show (((key, data) :: table).find? (·.1 = key')).map Prod.snd =
      if key' = key then some data else (table.find? (·.1 = key')).map Prod.snd
    by_cases h : key = key'
    · rw [List.find?_cons_of_pos (by simpa using h), if_pos h.symm]
      rfl
    · rw [List.find?_cons_of_neg (by simpa using h), if_neg (Ne.symm h)]

/-- What an actor has forwarded: the packet as it was received, the key that was looked up for it
and the destination address with which it was sent. -/
structure Forwarded where
  received : LbPacket
  key : Option Ipv4FiveTuple
  dstAddr : BitVec 32
  deriving DecidableEq, Repr

/-- A data actor between two packets: the fields of `struct decomposed_LB_data` and
`struct lb_data` that both use, the local 5-tuple, whether the loops still run, and what has been
forwarded. -/
structure FlowMapper (T : Type) where
  htTableFm : T
  rxn : Int
  rxs : Int
  found : Int
  unfound : Int
  keyFull : Int
  ipv45Tuple : Ipv4FiveTuple
  running : Bool
  log : List Forwarded

/-- The 5-tuple after the headers of an IPv4 packet have been copied to it,
`decomposed_lb.c:110–128` and `ss_lb.c:110–125`. -/
def copyTuple (ipv45Tuple : Ipv4FiveTuple) (m : LbPacket) : Ipv4FiveTuple :=
  let t := { ipv45Tuple with
    ipSrc := rteBeToCpu32 m.srcAddr
    ipDst := rteBeToCpu32 m.dstAddr
    proto := m.nextProtoId }
  if m.nextProtoId = IPPROTO_TCP then
    { t with portSrc := m.ports.1, portDst := m.ports.2 }
  else if m.nextProtoId = IPPROTO_UDP then
    { t with portSrc := m.ports.1, portDst := m.ports.2 }
  else t

variable {T : Type} [RteHashData T]

/-- The body of the loop over a burst, `decomposed_lb.c:102–163` and `ss_lb.c:103–160`. The reply is
what the control actor sends if it is asked, or `none` if `dp_quit` is set while the actor waits:
the actor then leaves its loops. -/
def FlowMapper.packet (s : FlowMapper T) (m : LbPacket) (reply : Option (BitVec 32)) :
    FlowMapper T :=
  if s.running then
    let s := { s with rxs := s.rxs + m.pktLen * 8 }
    if m.IsIpv4 then
      let ipv45Tuple := copyTuple s.ipv45Tuple m
      match RteHashData.lookupData s.htTableFm ipv45Tuple with
      | none =>
        match reply with
        | none => { s with ipv45Tuple, unfound := s.unfound + 1, running := false }
        | some msg =>
          let (htTableFm, retAdd) := RteHashData.addKeyData s.htTableFm ipv45Tuple msg
          { s with
            ipv45Tuple
            unfound := s.unfound + 1
            htTableFm
            keyFull := if retAdd = -ENOSPC then s.keyFull + 1 else s.keyFull
            log := s.log ++ [⟨m, some ipv45Tuple, msg⟩] }
      | some dip =>
        { s with
          ipv45Tuple
          found := s.found + 1
          log := s.log ++ [⟨m, some ipv45Tuple, dip⟩] }
    else { s with log := s.log ++ [⟨m, none, m.dstAddr⟩] }
  else s

/-- One turn of the main loop, `decomposed_lb.c:81–165` and `ss_lb.c:80–162`. -/
def FlowMapper.burst (s : FlowMapper T) (pktsBurst : List (LbPacket × Option (BitVec 32))) :
    FlowMapper T :=
  pktsBurst.foldl (fun s p ↦ s.packet p.1 p.2)
    (if s.running then { s with rxn := s.rxn + pktsBurst.length } else s)

/-- `decomposed_LB_data_action`, `decomposed_lb.c:37–178`, on the bursts that arrive before
`dp_quit` is set. The 5-tuple starts with whatever its memory holds. -/
def decomposedLBDataAction (dlbD : FlowMapper T) (ipv45Tuple : Ipv4FiveTuple)
    (bursts : List (List (LbPacket × Option (BitVec 32)))) : FlowMapper T :=
  bursts.foldl FlowMapper.burst { dlbD with ipv45Tuple, running := true, log := [] }

/-- `lb_data_action`, `ss_lb.c:29–164`: it resets the number of received packets first. -/
def lbDataAction (lbData : FlowMapper T) (ipv45Tuple : Ipv4FiveTuple)
    (bursts : List (List (LbPacket × Option (BitVec 32)))) : FlowMapper T :=
  bursts.foldl FlowMapper.burst { lbData with rxn := 0, ipv45Tuple, running := true, log := [] }

/-! ### Flows and their keys -/

/-- Two IPv4 packets belong to one flow: the ports are those of their datagrams, wherever they are
in the frames. -/
structure SameFlow (m m' : LbPacket) : Prop where
  ipv4 : m.IsIpv4
  ipv4' : m'.IsIpv4
  srcAddr : m.srcAddr = m'.srcAddr
  dstAddr : m.dstAddr = m'.dstAddr
  proto : m.nextProtoId = m'.nextProtoId
  ports : m.HasPorts → m.srcPort = m'.srcPort ∧ m.dstPort = m'.dstPort

/-- Two packets have the same headers. Of a datagram in fragments, the first one has the header of
the transport protocol. -/
structure SameHeaders (m m' : LbPacket) : Prop where
  etherType : m.etherType = m'.etherType
  options : m.options = m'.options
  fragmentOffset : m.fragmentOffset = m'.fragmentOffset
  proto : m.nextProtoId = m'.nextProtoId
  srcAddr : m.srcAddr = m'.srcAddr
  dstAddr : m.dstAddr = m'.dstAddr
  ports : m.IsFirst → m.srcPort = m'.srcPort ∧ m.dstPort = m'.dstPort

/-- The words that the actors read as ports are in the headers of the packet. -/
def LbPacket.ReadsHeaders (m : LbPacket) : Prop := m.options = [] → m.IsFirst

/-- The ports that are read last of a TCP or UDP packet, or those at the start if there is none. -/
def lastPorts (ports : BitVec 16 × BitVec 16) (received : List LbPacket) :
    BitVec 16 × BitVec 16 :=
  received.foldl (fun ports m ↦ if m.IsIpv4 ∧ m.HasPorts then m.ports else ports) ports

/-- The key of a packet when the 5-tuple holds the given ports. -/
def keyWith (ports : BitVec 16 × BitVec 16) (m : LbPacket) : Ipv4FiveTuple :=
  let ports := if m.HasPorts then m.ports else ports
  ⟨m.nextProtoId, rteBeToCpu32 m.srcAddr, rteBeToCpu32 m.dstAddr, ports.1, ports.2⟩

/-- The ports that the 5-tuple holds. -/
def Ipv4FiveTuple.ports (t : Ipv4FiveTuple) : BitVec 16 × BitVec 16 := (t.portSrc, t.portDst)

/-- Copying the headers makes the key of the packet. -/
theorem copyTuple_eq (t : Ipv4FiveTuple) (m : LbPacket) : copyTuple t m = keyWith t.ports m := by
  unfold copyTuple keyWith
  by_cases htcp : m.nextProtoId = IPPROTO_TCP
  · rw [if_pos htcp, if_pos (.inl htcp)]
  · rw [if_neg htcp]
    by_cases hudp : m.nextProtoId = IPPROTO_UDP
    · rw [if_pos hudp, if_pos (.inr hudp)]
    · have hports : ¬ m.HasPorts := fun h ↦ h.elim htcp hudp
      rw [if_neg hudp, if_neg hports]
      rfl

/-- The ports of a key. -/
theorem ports_keyWith (ports : BitVec 16 × BitVec 16) (m : LbPacket) :
    (keyWith ports m).ports = if m.HasPorts then m.ports else ports := rfl

/-- Two packets of a flow have the same key exactly when the ports in it are the same: those that
are read of them or, if they carry none, those that they meet in the 5-tuple. -/
theorem SameFlow.keyWith_eq_iff {m m' : LbPacket} (h : SameFlow m m')
    (ports ports' : BitVec 16 × BitVec 16) :
    keyWith ports m = keyWith ports' m' ↔
      if m.HasPorts then m.ports = m'.ports else ports = ports' := by
  have hports : m'.HasPorts ↔ m.HasPorts := by
    unfold LbPacket.HasPorts
    rw [h.proto]
  have hkey : keyWith ports m = keyWith ports' m' ↔
      (keyWith ports m).ports = (keyWith ports' m').ports := by
    refine ⟨congrArg _, fun heq ↦ ?_⟩
    have hfields : ∀ p (m : LbPacket), keyWith p m = ⟨m.nextProtoId, rteBeToCpu32 m.srcAddr,
        rteBeToCpu32 m.dstAddr, (keyWith p m).ports.1, (keyWith p m).ports.2⟩ := fun _ _ ↦ rfl
    rw [hfields ports, hfields ports', h.proto, h.srcAddr, h.dstAddr, heq]
  rw [hkey, ports_keyWith, ports_keyWith]
  by_cases hm : m.HasPorts
  · rw [if_pos hm, if_pos hm, if_pos (hports.mpr hm)]
  · rw [if_neg hm, if_neg hm, if_neg (fun h ↦ hm (hports.mp h))]

/-- With a header of 20 bytes, the ports that are read of a whole datagram are its ports. -/
theorem SameFlow.ports_eq {m m' : LbPacket} (h : SameFlow m m') (hm : m.HasPorts)
    (hoptions : m.options = []) (hoptions' : m'.options = []) (hfirst : m.IsFirst)
    (hfirst' : m'.IsFirst) : m.ports = m'.ports := by
  rw [LbPacket.ports, LbPacket.ports, LbPacket.tcpHdr_of_nil hoptions,
    LbPacket.tcpHdr_of_nil hoptions', if_pos hfirst, if_pos hfirst', (h.ports hm).1, (h.ports hm).2]

/-- The ports that are read of packets with the same headers are the same exactly when they are in
the headers. -/
theorem ports_const_iff (m : LbPacket) :
    (∀ m', SameHeaders m m' → m'.ports = m.ports) ↔ m.ReadsHeaders := by
  constructor
  · intro h hoptions
    by_contra hfirst
    -- two later fragments that differ behind their headers
    have hread : ∀ payload, ({ m with payload } : LbPacket).ports =
        (be16toh payload.1, be16toh payload.2) := by
      intro payload
      have hlater : ¬ ({ m with payload } : LbPacket).IsFirst := hfirst
      rw [LbPacket.ports, LbPacket.tcpHdr_of_nil (m := { m with payload }) hoptions, if_neg hlater]
    have hsame : ∀ payload, SameHeaders m { m with payload } := fun payload ↦
      ⟨rfl, rfl, rfl, rfl, rfl, rfl, fun _ ↦ ⟨rfl, rfl⟩⟩
    have heq := (h _ (hsame (0, 0))).trans (h _ (hsame (1, 0))).symm
    rw [hread, hread] at heq
    exact absurd heq (by decide)
  · intro hread m' hsame
    rw [LbPacket.ports, LbPacket.ports]
    cases hoptions : m.options with
    | nil =>
      have hfirst := hread hoptions
      have hfirst' : m'.IsFirst := by
        unfold LbPacket.IsFirst at hfirst ⊢
        rwa [← hsame.fragmentOffset]
      rw [LbPacket.tcpHdr_of_nil hoptions,
        LbPacket.tcpHdr_of_nil (hsame.options.symm.trans hoptions), if_pos hfirst, if_pos hfirst',
        (hsame.ports hfirst).1, (hsame.ports hfirst).2]
    | cons option options =>
      unfold LbPacket.tcpHdr
      rw [← hsame.options, hoptions]

/-- The key of a packet depends on its headers only exactly when it carries ports and they are read
of its headers. -/
theorem keyWith_const_iff (ports : BitVec 16 × BitVec 16) (m : LbPacket) :
    (∀ m', SameHeaders m m' → ∀ ports', keyWith ports' m' = keyWith ports m) ↔
      m.HasPorts ∧ m.ReadsHeaders := by
  have hhas : ∀ {m'}, SameHeaders m m' → (m'.HasPorts ↔ m.HasPorts) := fun {m'} hsame ↦ by
    unfold LbPacket.HasPorts
    rw [hsame.proto]
  constructor
  · intro h
    have hm : m.HasPorts := by
      by_contra hm
      have hp := congrArg Ipv4FiveTuple.ports
        (h m ⟨rfl, rfl, rfl, rfl, rfl, rfl, fun _ ↦ ⟨rfl, rfl⟩⟩ (ports.1 + 1, ports.2))
      rw [ports_keyWith, ports_keyWith, if_neg hm, if_neg hm] at hp
      have hone : ports.1 + 1 = ports.1 := congrArg Prod.fst hp
      bv_omega
    refine ⟨hm, (ports_const_iff m).mp fun m' hsame ↦ ?_⟩
    have hp := congrArg Ipv4FiveTuple.ports (h m' hsame ports)
    rwa [ports_keyWith, ports_keyWith, if_pos hm, if_pos ((hhas hsame).mpr hm)] at hp
  · rintro ⟨hm, hread⟩ m' hsame ports'
    unfold keyWith
    rw [if_pos hm, if_pos ((hhas hsame).mpr hm), (ports_const_iff m).mpr hread m' hsame,
      hsame.proto, hsame.srcAddr, hsame.dstAddr]

/-! ### Runs -/

/-- The packets that have been forwarded, as they were received. -/
def FlowMapper.received (s : FlowMapper T) : List LbPacket := s.log.map Forwarded.received

/-- An actor that started with some ports and `keyFull` failures: what it has looked up and, while
the table has not been full, what the table holds. -/
structure FlowMapper.Inv (ports : BitVec 16 × BitVec 16) (keyFull : Int) (s : FlowMapper T) :
    Prop where
  keyFull_le : keyFull ≤ s.keyFull
  ports_eq : s.running = true → s.ipv45Tuple.ports = lastPorts ports s.received
  key_eq : ∀ (i : Nat) (x : Forwarded), s.log[i]? = some x →
    x.key = if x.received.IsIpv4 then
      some (keyWith (lastPorts ports (s.received.take i)) x.received) else none
  stored : s.keyFull = keyFull → ∀ x ∈ s.log, ∀ key, x.key = some key →
    RteHashData.lookupData s.htTableFm key = some x.dstAddr

omit [RteHashData T] in
private theorem received_append {s s' : FlowMapper T} {x : Forwarded}
    (h : s'.log = s.log ++ [x]) : s'.received = s.received ++ [x.received] := by
  rw [FlowMapper.received, h, List.map_append]
  rfl

private theorem lastPorts_append (ports : BitVec 16 × BitVec 16) (received : List LbPacket)
    (m : LbPacket) : lastPorts ports (received ++ [m]) =
      if m.IsIpv4 ∧ m.HasPorts then m.ports else lastPorts ports received := by
  rw [lastPorts, List.foldl_append]
  rfl

/-- Forwarding one more packet keeps the invariant, if its key is the one of its flow and the
table keeps what it holds. -/
theorem FlowMapper.Inv.append {ports : BitVec 16 × BitVec 16} {keyFull : Int}
    {s s' : FlowMapper T} {x : Forwarded} (h : s.Inv ports keyFull)
    (hlog : s'.log = s.log ++ [x]) (hle : s.keyFull ≤ s'.keyFull)
    (hports : s'.ipv45Tuple.ports = lastPorts ports (s.received ++ [x.received]))
    (hkey : x.key = if x.received.IsIpv4 then
      some (keyWith (lastPorts ports s.received) x.received) else none)
    (hstored : s'.keyFull = s.keyFull → (∀ key v,
      RteHashData.lookupData s.htTableFm key = some v →
        RteHashData.lookupData s'.htTableFm key = some v) ∧
      ∀ key, x.key = some key → RteHashData.lookupData s'.htTableFm key = some x.dstAddr) :
    s'.Inv ports keyFull where
  keyFull_le := Int.le_trans h.keyFull_le hle
  ports_eq _ := by rw [hports, received_append hlog]
  key_eq i y hy := by
    rw [hlog] at hy
    rw [received_append hlog]
    have hlen : s.received.length = s.log.length := List.length_map _
    by_cases hi : i < s.log.length
    · rw [List.getElem?_append_left hi] at hy
      rw [h.key_eq i y hy, List.take_append_of_le_length (by omega)]
    · rw [List.getElem?_append_right (by omega)] at hy
      have hi0 : i - s.log.length = 0 := by
        by_contra hne
        rw [List.getElem?_eq_none (by simp; omega)] at hy
        cases hy
      rw [hi0] at hy
      cases hy
      have htake : (s.received ++ [x.received]).take i = s.received := by
        rw [show i = s.received.length by omega]
        exact List.take_left
      rw [hkey, htake]
  stored hfull y hy key hk := by
    have hsame : s'.keyFull = s.keyFull := by
      have h1 := h.keyFull_le
      omega
    have hold : s.keyFull = keyFull := hsame.symm.trans hfull
    obtain ⟨hkeeps, hnew⟩ := hstored hsame
    rw [hlog] at hy
    rcases List.mem_append.mp hy with hy | hy
    · exact hkeeps key _ (h.stored hold y hy key hk)
    · rw [List.mem_singleton] at hy
      subst hy
      exact hnew key hk

variable [LawfulRteHashData T]

/-- One packet keeps the invariant. -/
theorem FlowMapper.Inv.packet {ports : BitVec 16 × BitVec 16} {keyFull : Int}
    {s : FlowMapper T} (h : s.Inv ports keyFull) (m : LbPacket) (reply : Option (BitVec 32)) :
    (s.packet m reply).Inv ports keyFull := by
  unfold FlowMapper.packet
  split
  case isFalse => exact h
  case isTrue hrunning =>
  have hports := h.ports_eq hrunning
  by_cases hip : m.IsIpv4
  case neg =>
    rw [if_neg hip]
    refine h.append (x := ⟨m, none, m.dstAddr⟩) rfl (Int.le_refl _) ?_ (if_neg hip).symm ?_
    · rw [lastPorts_append, if_neg (fun hn ↦ hip hn.1)]
      exact hports
    · exact fun _ ↦ ⟨fun _ _ hv ↦ hv, fun key hk ↦ by cases hk⟩
  case pos =>
  rw [if_pos hip]
  have hkey : some (copyTuple s.ipv45Tuple m) = if m.IsIpv4 then
      some (keyWith (lastPorts ports s.received) m) else none := by
    rw [if_pos hip, copyTuple_eq, hports]
  have hnext : (copyTuple s.ipv45Tuple m).ports = lastPorts ports (s.received ++ [m]) := by
    rw [copyTuple_eq, ports_keyWith, lastPorts_append, hports]
    simp only [hip, true_and]
  dsimp only
  cases hlookup : RteHashData.lookupData s.htTableFm (copyTuple s.ipv45Tuple m) with
  | none =>
    cases reply with
    | none => exact ⟨h.keyFull_le, fun hr ↦ (nomatch hr), h.key_eq, h.stored⟩
    | some msg =>
      refine h.append (x := ⟨m, some (copyTuple s.ipv45Tuple m), msg⟩) rfl ?_ hnext hkey ?_
      · dsimp only
        split <;> omega
      · intro hsame
        have hadd := LawfulRteHashData.add_cases s.htTableFm (copyTuple s.ipv45Tuple m) msg
        rcases hadd with ⟨-, hafter⟩ | hfull
        · refine ⟨fun key v hv ↦ ?_, fun key hk ↦ ?_⟩
          · rw [hafter, if_neg, hv]
            rintro rfl
            rw [hlookup] at hv
            cases hv
          · rw [Option.some.injEq] at hk
            rw [hafter, if_pos hk.symm]
        · dsimp only at hsame
          rw [if_pos hfull] at hsame
          omega
  | some dip =>
    refine h.append (x := ⟨m, some (copyTuple s.ipv45Tuple m), dip⟩) rfl (Int.le_refl _) hnext
      hkey fun _ ↦ ⟨fun _ _ hv ↦ hv, fun key hk ↦ ?_⟩
    rw [Option.some.injEq] at hk
    rw [← hk]
    exact hlookup

/-- A run keeps the invariant. -/
theorem FlowMapper.Inv.bursts {ports : BitVec 16 × BitVec 16} {keyFull : Int}
    (bursts : List (List (LbPacket × Option (BitVec 32)))) {s : FlowMapper T}
    (h : s.Inv ports keyFull) : (bursts.foldl FlowMapper.burst s).Inv ports keyFull := by
  induction bursts generalizing s with
  | nil => exact h
  | cons b bursts ih =>
    refine ih ?_
    have hstart : (if s.running then { s with rxn := s.rxn + b.length } else s).Inv ports
        keyFull := by
      split
      · exact ⟨h.keyFull_le, h.ports_eq, h.key_eq, h.stored⟩
      · exact h
    unfold FlowMapper.burst
    generalize (if s.running then { s with rxn := s.rxn + b.length } else s) = s' at hstart
    induction b generalizing s' with
    | nil => exact hstart
    | cons p b ihb => exact ihb _ (hstart.packet p.1 p.2)

omit [LawfulRteHashData T] in
/-- A running actor forwards the packet, or stops at it. -/
theorem FlowMapper.packet_log {s : FlowMapper T} (h : s.running = true) (m : LbPacket)
    (reply : Option (BitVec 32)) :
    (∃ x, (s.packet m reply).log = s.log ++ [x] ∧ x.received = m) ∨
      (s.packet m reply).log = s.log ∧ (s.packet m reply).running = false := by
  unfold FlowMapper.packet
  rw [if_pos h]
  by_cases hip : m.IsIpv4
  · rw [if_pos hip]
    dsimp only
    cases RteHashData.lookupData s.htTableFm (copyTuple s.ipv45Tuple m) with
    | none =>
      cases reply with
      | none => exact .inr ⟨rfl, rfl⟩
      | some msg => exact .inl ⟨_, rfl, rfl⟩
    | some dip => exact .inl ⟨_, rfl, rfl⟩
  · rw [if_neg hip]
    exact .inl ⟨_, rfl, rfl⟩

omit [LawfulRteHashData T] in
/-- Packets that arrive one after the other are forwarded in their order, up to the one at which
the actor stops. -/
theorem FlowMapper.received_packets (ps : List (LbPacket × Option (BitVec 32))) :
    ∀ s : FlowMapper T, ∃ k, (ps.foldl (fun s p ↦ s.packet p.1 p.2) s).received =
        s.received ++ (ps.map Prod.fst).take k ∧
      ((ps.foldl (fun s p ↦ s.packet p.1 p.2) s).running = true → k = ps.length) ∧
      (s.running = false → k = 0 ∧ (ps.foldl (fun s p ↦ s.packet p.1 p.2) s).running = false) := by
  induction ps with
  | nil => exact fun s ↦ ⟨0, (List.append_nil _).symm, fun _ ↦ rfl, fun h ↦ ⟨rfl, h⟩⟩
  | cons p ps ih =>
    intro s
    obtain ⟨k, hk, hlen, hstop⟩ := ih (s.packet p.1 p.2)
    rw [List.foldl_cons]
    cases hrun : s.running with
    | true =>
      rcases FlowMapper.packet_log hrun p.1 p.2 with ⟨x, hx, hm⟩ | ⟨hlog, hstopped⟩
      · refine ⟨k + 1, ?_, fun h ↦ by rw [hlen h, List.length_cons], fun h ↦ (nomatch h)⟩
        rw [hk, received_append hx, hm, List.map_cons, List.take_succ_cons, List.append_assoc,
          List.singleton_append]
      · obtain ⟨rfl, hdone⟩ := hstop hstopped
        refine ⟨0, ?_, fun h ↦ absurd (hdone.symm.trans h) Bool.false_ne_true, fun h ↦ (nomatch h)⟩
        rw [hk, FlowMapper.received, hlog]
        rfl
    | false =>
      have hsame : s.packet p.1 p.2 = s := by
        unfold FlowMapper.packet
        rw [if_neg (by rw [hrun]; exact Bool.false_ne_true)]
      rw [hsame] at hk hstop ⊢
      obtain ⟨rfl, hdone⟩ := hstop hrun
      exact ⟨0, hk, fun h ↦ absurd (hdone.symm.trans h) Bool.false_ne_true, fun _ ↦ ⟨rfl, hdone⟩⟩

omit [LawfulRteHashData T] in
/-- The packets of a run are forwarded in their order, up to the one at which the actor stops. -/
theorem FlowMapper.received_bursts (bursts : List (List (LbPacket × Option (BitVec 32)))) :
    ∀ s : FlowMapper T, ∃ k, (bursts.foldl FlowMapper.burst s).received =
        s.received ++ (bursts.flatten.map Prod.fst).take k ∧
      (s.running = false → k = 0 ∧ (bursts.foldl FlowMapper.burst s).running = false) := by
  induction bursts with
  | nil => exact fun s ↦ ⟨0, (List.append_nil _).symm, fun h ↦ ⟨rfl, h⟩⟩
  | cons b bursts ih =>
    intro s
    obtain ⟨k, hk, hstop⟩ := ih (s.burst b)
    let s' := if s.running then { s with rxn := s.rxn + b.length } else s
    have hs' : s'.received = s.received ∧ s'.running = s.running := by
      dsimp only [s']
      split <;> exact ⟨rfl, rfl⟩
    obtain ⟨j, hj, hlen, hstopb⟩ := FlowMapper.received_packets b s'
    rw [hs'.1] at hj
    rw [hs'.2] at hstopb
    rw [List.foldl_cons, List.flatten_cons, List.map_append]
    cases hrun : (s.burst b).running with
    | true =>
      have hall := hlen hrun
      refine ⟨b.length + k, ?_, fun h ↦ ?_⟩
      · have hb : b.length = (b.map Prod.fst).length := (List.length_map _).symm
        rw [hk, show (s.burst b).received = _ from hj, hall, hb, List.take_length,
          List.append_assoc, List.take_length_add_append]
      · rw [show (s.burst b).running = false from (hstopb h).2] at hrun
        cases hrun
    | false =>
      obtain ⟨rfl, hdone⟩ := hstop hrun
      refine ⟨min j b.length, ?_, fun h ↦ ⟨by rw [(hstopb h).1]; exact Nat.zero_min _, hdone⟩⟩
      rw [hk, List.take_zero, List.append_nil, show (s.burst b).received = _ from hj,
        List.take_append_of_le_length (by rw [List.length_map]; exact Nat.min_le_right _ _)]
      congr 1
      rw [List.take_eq_take_iff, List.length_map]
      omega

/-- The packets that an actor has forwarded: those before the one at which it stopped. -/
def handled (bursts : List (List (LbPacket × Option (BitVec 32)))) (s : FlowMapper T) :
    List LbPacket :=
  (bursts.flatten.map Prod.fst).take s.log.length

/-- Packets of one flow have been looked up with one key and sent to one address. -/
def Sticky (log : List Forwarded) : Prop :=
  ∀ x ∈ log, ∀ y ∈ log, SameFlow x.received y.received → x.key = y.key ∧ x.dstAddr = y.dstAddr

/-- The key of every IPv4 packet depends on its own headers only: every packet with these headers
gets it, whatever the 5-tuple holds. -/
def OwnKeys (log : List Forwarded) : Prop :=
  ∀ x ∈ log, x.received.IsIpv4 → ∀ m, SameHeaders x.received m → ∀ ipv45Tuple,
    x.key = some (copyTuple ipv45Tuple m)

/-- Of any two TCP or UDP packets of a flow the same ports are read, and any two other packets of a
flow come after the same ports: those read of the last TCP or UDP packet before each of them, or
those at the start. -/
def PortsAgree (ports : BitVec 16 × BitVec 16) (received : List LbPacket) : Prop :=
  ∀ (i j : Nat) (m m' : LbPacket), received[i]? = some m → received[j]? = some m' →
    SameFlow m m' →
      if m.HasPorts then m.ports = m'.ports
      else lastPorts ports (received.take i) = lastPorts ports (received.take j)

/-- Every IPv4 packet is TCP or UDP, its ports are read of its headers, and of the packets of a flow
the same ports are read. -/
structure OwnPorts (received : List LbPacket) : Prop where
  own : ∀ m ∈ received, m.IsIpv4 → m.HasPorts ∧ m.ReadsHeaders
  agree : ∀ m ∈ received, ∀ m' ∈ received, SameFlow m m' → m.ports = m'.ports

/-- Without options, that is: every IPv4 packet is TCP or UDP and no later fragment. -/
theorem ownPorts_iff {received : List LbPacket}
    (h : ∀ m ∈ received, m.IsIpv4 → m.options = []) :
    OwnPorts received ↔ ∀ m ∈ received, m.IsIpv4 → m.HasPorts ∧ m.IsFirst := by
  constructor
  · intro hports m hm hip
    exact ⟨(hports.own m hm hip).1, (hports.own m hm hip).2 (h m hm hip)⟩
  · intro hall
    refine ⟨fun m hm hip ↦ ⟨(hall m hm hip).1, fun _ ↦ (hall m hm hip).2⟩, ?_⟩
    intro m hm m' hm' hflow
    exact hflow.ports_eq (hall m hm hflow.ipv4).1 (h m hm hflow.ipv4) (h m' hm' hflow.ipv4')
      (hall m hm hflow.ipv4).2 (hall m' hm' hflow.ipv4').2

omit [RteHashData T] [LawfulRteHashData T] in
private theorem received_getElem? {s : FlowMapper T} {i : Nat} {m : LbPacket} :
    s.received[i]? = some m ↔ ∃ x, s.log[i]? = some x ∧ x.received = m := by
  rw [FlowMapper.received, List.getElem?_map, Option.map_eq_some_iff]

omit [LawfulRteHashData T] in
/-- The flows are sticky exactly when the ports in the keys of each of them agree. -/
theorem FlowMapper.Inv.sticky_iff {ports : BitVec 16 × BitVec 16} {keyFull : Int}
    {s : FlowMapper T} (h : s.Inv ports keyFull) (hfull : s.keyFull = keyFull) :
    Sticky s.log ↔ PortsAgree ports s.received := by
  have hkeys : ∀ (i j : Nat) (x y : Forwarded), s.log[i]? = some x → s.log[j]? = some y →
      SameFlow x.received y.received →
      (x.key = y.key ↔ if x.received.HasPorts then x.received.ports = y.received.ports
        else lastPorts ports (s.received.take i) = lastPorts ports (s.received.take j)) := by
    intro i j x y hx hy hflow
    rw [h.key_eq i x hx, h.key_eq j y hy, if_pos hflow.ipv4, if_pos hflow.ipv4',
      Option.some.injEq, hflow.keyWith_eq_iff]
  constructor
  · intro hsticky i j m m' hm hm' hflow
    obtain ⟨x, hx, rfl⟩ := received_getElem?.mp hm
    obtain ⟨y, hy, rfl⟩ := received_getElem?.mp hm'
    have hkey := (hsticky x (List.mem_of_getElem? hx) y (List.mem_of_getElem? hy) hflow).1
    exact (hkeys i j x y hx hy hflow).mp hkey
  · intro hagree x hx y hy hflow
    obtain ⟨i, hi⟩ := List.getElem?_of_mem hx
    obtain ⟨j, hj⟩ := List.getElem?_of_mem hy
    have hkey : x.key = y.key := (hkeys i j x y hi hj hflow).mpr
      (hagree i j _ _ (received_getElem?.mpr ⟨x, hi, rfl⟩) (received_getElem?.mpr ⟨y, hj, rfl⟩)
        hflow)
    have hsome := h.key_eq i x hi
    rw [if_pos hflow.ipv4] at hsome
    have hdst := (h.stored hfull x hx _ hsome).symm.trans
      (h.stored hfull y hy _ (hkey ▸ hsome))
    exact ⟨hkey, Option.some.inj hdst⟩

omit [LawfulRteHashData T] in
/-- The keys depend on the packets' own headers exactly when all IPv4 packets carry ports that are
read of their headers. -/
theorem FlowMapper.Inv.ownKeys_iff {ports : BitVec 16 × BitVec 16} {keyFull : Int}
    {s : FlowMapper T} (h : s.Inv ports keyFull) :
    OwnKeys s.log ↔ ∀ m ∈ s.received, m.IsIpv4 → m.HasPorts ∧ m.ReadsHeaders := by
  have hown : ∀ x ∈ s.log, x.received.IsIpv4 →
      ((∀ m, SameHeaders x.received m → ∀ t, x.key = some (copyTuple t m)) ↔
        x.received.HasPorts ∧ x.received.ReadsHeaders) := by
    intro x hx hip
    obtain ⟨i, hi⟩ := List.getElem?_of_mem hx
    rw [h.key_eq i x hi, if_pos hip, ← keyWith_const_iff (lastPorts ports (s.received.take i))]
    constructor
    · intro ht m hm p
      have hp := Option.some.inj (ht m hm ⟨0, 0, 0, p.1, p.2⟩)
      rw [copyTuple_eq] at hp
      exact hp.symm
    · intro hp m hm t
      rw [copyTuple_eq, hp m hm t.ports]
  constructor
  · intro hkeys m hm hip
    obtain ⟨x, hx, rfl⟩ := List.mem_map.mp hm
    exact (hown x hx hip).mp (hkeys x hx hip)
  · intro hports x hx hip
    exact (hown x hx hip).mpr (hports _ (List.mem_map_of_mem hx) hip)

omit [LawfulRteHashData T] in
/-- The flows are sticky and the keys depend on the packets' own headers exactly when the packets
have their own ports. -/
theorem FlowMapper.Inv.own_iff {ports : BitVec 16 × BitVec 16} {keyFull : Int}
    {s : FlowMapper T} (h : s.Inv ports keyFull) (hfull : s.keyFull = keyFull) :
    Sticky s.log ∧ OwnKeys s.log ↔ OwnPorts s.received := by
  rw [h.sticky_iff hfull, h.ownKeys_iff]
  constructor
  · rintro ⟨hagree, hown⟩
    refine ⟨hown, fun m hm m' hm' hflow ↦ ?_⟩
    obtain ⟨i, hi⟩ := List.getElem?_of_mem hm
    obtain ⟨j, hj⟩ := List.getElem?_of_mem hm'
    have hports := hagree i j m m' hi hj hflow
    rwa [if_pos (hown m hm hflow.ipv4).1] at hports
  · rintro ⟨hown, hagree⟩
    refine ⟨fun i j m m' hm hm' hflow ↦ ?_, hown⟩
    have hmem := List.mem_of_getElem? hm
    rw [if_pos (hown m hmem hflow.ipv4).1]
    exact hagree m hmem m' (List.mem_of_getElem? hm') hflow

/-- As long as the flow table is never full, the flows are sticky exactly when the ports in the keys
of each flow agree, and also the keys depend on the packets' own headers only exactly when the
packets have their own ports. If no header has options, this means that every IPv4 packet is TCP or
UDP and no later fragment. This holds of both data actions. -/
theorem flow_sticky_iff (actor : FlowMapper T) (ipv45Tuple : Ipv4FiveTuple)
    (bursts : List (List (LbPacket × Option (BitVec 32)))) :
    ∀ action ∈ [decomposedLBDataAction (T := T), lbDataAction],
      (action actor ipv45Tuple bursts).keyFull = actor.keyFull →
      (Sticky (action actor ipv45Tuple bursts).log ↔
        PortsAgree ipv45Tuple.ports (handled bursts (action actor ipv45Tuple bursts))) ∧
      (Sticky (action actor ipv45Tuple bursts).log ∧
          OwnKeys (action actor ipv45Tuple bursts).log ↔
        OwnPorts (handled bursts (action actor ipv45Tuple bursts))) ∧
      ((∀ m ∈ handled bursts (action actor ipv45Tuple bursts), m.IsIpv4 → m.options = []) →
        (Sticky (action actor ipv45Tuple bursts).log ∧
            OwnKeys (action actor ipv45Tuple bursts).log ↔
          ∀ m ∈ handled bursts (action actor ipv45Tuple bursts),
            m.IsIpv4 → m.HasPorts ∧ m.IsFirst)) := by
  -- both actions run the loops from a state without a log
  have hloops : ∀ s : FlowMapper T, s.running = true → s.log = [] → s.keyFull = actor.keyFull →
      s.ipv45Tuple = ipv45Tuple → (bursts.foldl FlowMapper.burst s).keyFull = actor.keyFull →
      (Sticky (bursts.foldl FlowMapper.burst s).log ↔
        PortsAgree ipv45Tuple.ports (handled bursts (bursts.foldl FlowMapper.burst s))) ∧
      (Sticky (bursts.foldl FlowMapper.burst s).log ∧
          OwnKeys (bursts.foldl FlowMapper.burst s).log ↔
        OwnPorts (handled bursts (bursts.foldl FlowMapper.burst s))) := by
    intro s _ hlog hkeyFull htuple hfull
    have hstart : s.Inv ipv45Tuple.ports actor.keyFull := by
      refine ⟨by omega, fun _ ↦ ?_, fun i x hx ↦ ?_, fun _ x hx ↦ ?_⟩
      · rw [htuple, FlowMapper.received, hlog]
        rfl
      · rw [hlog] at hx
        cases hx
      · rw [hlog] at hx
        cases hx
    have hinv := hstart.bursts bursts
    obtain ⟨k, hk, -⟩ := FlowMapper.received_bursts bursts s
    have hhandled : handled bursts (bursts.foldl FlowMapper.burst s) =
        (bursts.foldl FlowMapper.burst s).received := by
      have hlen : (bursts.foldl FlowMapper.burst s).log.length =
          (bursts.foldl FlowMapper.burst s).received.length := (List.length_map _).symm
      rw [handled, hlen, hk, FlowMapper.received, hlog, List.map_nil, List.nil_append,
        List.length_take, List.take_eq_take_iff]
      omega
    rw [hhandled]
    exact ⟨hinv.sticky_iff hfull, hinv.own_iff hfull⟩
  intro action haction hfull
  rcases List.mem_pair.mp haction with rfl | rfl
  · have hall := hloops { actor with ipv45Tuple, running := true, log := [] } rfl rfl rfl rfl hfull
    exact ⟨hall.1, hall.2, fun hoptions ↦ hall.2.trans (ownPorts_iff hoptions)⟩
  · have hall := hloops { actor with rxn := 0, ipv45Tuple, running := true, log := [] } rfl rfl rfl
      rfl hfull
    exact ⟨hall.1, hall.2, fun hoptions ↦ hall.2.trans (ownPorts_iff hoptions)⟩

/-- An actor with an empty table. -/
def freshActor : FlowMapper (List (Ipv4FiveTuple × BitVec 32)) :=
  ⟨[], 0, 0, 0, 0, 0, ⟨0, 0, 0, 0, 0⟩, false, []⟩

/-- A packet of a flow of the protocol ICMP. -/
def icmpPacket : LbPacket := ⟨64, be16toh 0x0800, [], 0, 1, 10, 20, 0, 0, (0, 0)⟩

/-- A TCP packet. -/
def tcpPacket : LbPacket := ⟨64, be16toh 0x0800, [], 0, IPPROTO_TCP, 10, 20, 5, 6, (0, 0)⟩

/-- Two TCP packets of one flow, and two of which one has options. -/
theorem flow_sticky_iff_tcp :
    Sticky (lbDataAction freshActor ⟨0, 0, 0, 0, 0⟩
      [[(tcpPacket, some 1), (tcpPacket, some 2)]]).log ∧
    ¬ Sticky (lbDataAction freshActor ⟨0, 0, 0, 0, 0⟩
      [[(tcpPacket, some 1), ({ tcpPacket with options := [(1, 1)] }, some 2)]]).log := by
  constructor
  · have h := flow_sticky_iff freshActor ⟨0, 0, 0, 0, 0⟩
      [[(tcpPacket, some 1), (tcpPacket, some 2)]] lbDataAction (by simp) (by decide)
    refine ((h.2.2 (by decide)).mpr ?_).1
    decide
  · have h := flow_sticky_iff freshActor ⟨0, 0, 0, 0, 0⟩
      [[(tcpPacket, some 1), ({ tcpPacket with options := [(1, 1)] }, some 2)]] lbDataAction
      (by simp) (by decide)
    rw [h.1]
    intro hagree
    have hports := hagree 0 1 tcpPacket { tcpPacket with options := [(1, 1)] } (by decide)
      (by decide) ⟨rfl, rfl, rfl, rfl, rfl, fun _ ↦ ⟨rfl, rfl⟩⟩
    revert hports
    decide

/-- A TCP packet between two packets of an ICMP flow. -/
def icmpBursts : List (List (LbPacket × Option (BitVec 32))) :=
  [[(icmpPacket, some 1), (tcpPacket, some 2), (icmpPacket, some 3)]]

/-- Two packets of a flow that are sent to different addresses. -/
private theorem not_sticky_of_log {log : List Forwarded}
    (hlog : log.map (fun x ↦ (x.received, x.dstAddr)) =
      [(icmpPacket, 1), (tcpPacket, 2), (icmpPacket, 3)]) : ¬ Sticky log := by
  intro hsticky
  have hentry : ∀ v, (icmpPacket, v) ∈ [(icmpPacket, (1 : BitVec 32)), (tcpPacket, 2),
      (icmpPacket, 3)] → ∃ x ∈ log, x.received = icmpPacket ∧ x.dstAddr = v := by
    intro v hv
    rw [← hlog] at hv
    obtain ⟨x, hx, hxv⟩ := List.mem_map.mp hv
    exact ⟨x, hx, congrArg Prod.fst hxv, congrArg Prod.snd hxv⟩
  obtain ⟨x, hx, hxr, hxd⟩ := hentry 1 (by decide)
  obtain ⟨y, hy, hyr, hyd⟩ := hentry 3 (by decide)
  have hflow : SameFlow x.received y.received := by
    rw [hxr, hyr]
    exact ⟨rfl, rfl, rfl, rfl, rfl, fun _ ↦ ⟨rfl, rfl⟩⟩
  have hdst := (hsticky x hx y hy hflow).2
  rw [hxd, hyd] at hdst
  cases hdst

/-- A TCP packet between two packets of an ICMP flow changes the key of the flow. -/
theorem icmp_flow_not_sticky :
    ((decomposedLBDataAction freshActor ⟨0, 0, 0, 0, 0⟩ icmpBursts).keyFull = 0 ∧
      ¬ Sticky (decomposedLBDataAction freshActor ⟨0, 0, 0, 0, 0⟩ icmpBursts).log) ∧
    (lbDataAction freshActor ⟨0, 0, 0, 0, 0⟩ icmpBursts).keyFull = 0 ∧
      ¬ Sticky (lbDataAction freshActor ⟨0, 0, 0, 0, 0⟩ icmpBursts).log :=
  ⟨⟨by decide, not_sticky_of_log (by decide)⟩, by decide, not_sticky_of_log (by decide)⟩

end Nflambda.Runtime
