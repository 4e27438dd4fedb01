import Mathlib.Data.Fintype.Basic
import Mathlib.Data.List.Perm.Subperm
import Nflambda.Base.Transition
import Nflambda.Runtime.FlowMapper

/-!
# The group of the decomposed load balancer

Library `Runtime`. Source `src/runtime/nf/decomposed_lb.c` and `decomposed_lb.h`: data actors that
ask the control actor over one ring and wait for its reply on another. Nothing in the repository
launches the actors or writes `dp_quit`; both may happen at any time. Requests carry a number that
the program does not have.
-/

namespace Nflambda.Runtime

open Nflambda.Base

/-- The data actors and pairs of rings of a group, `decomposed_lb.h:51–52,85`. -/
abbrev LB_GROUP_SIZE : Nat := 24

/-- What a ring holds that is created for 64 entries, `decomposed_lb.c:273`. -/
abbrev LB_RING_CAPACITY : Nat := 63

/-- `rte_ring_enqueue`, whose result the actors ignore: a full ring stays as it is. -/
def rteRingEnqueue {α : Type} (ring : List α) (obj : α) : List α :=
  if ring.length < LB_RING_CAPACITY then ring ++ [obj] else ring

/-- A reply: the request that it answers and the address it points to. -/
structure LbReply where
  request : Nat
  dstAddr : BitVec 32
  deriving DecidableEq, Repr

/-- `server_ip_map_array`, `decomposed_lb.c:9–22`. -/
def serverIpMapArray (j : Fin 10) : BitVec 32 := BitVec.ofNat 32 (j.val + 1) <<< 24

/-- Where a data actor is, `decomposed_lb.c:79–175`. -/
inductive DataPc where
  /-- The function does not run. -/
  | idle
  /-- Before the test of the main loop. -/
  | loop
  /-- In the loop over a burst, with the packets that are left. -/
  | burst (rest : List LbPacket)
  /-- Before the next `rte_ring_dequeue`, for packet `m` and the request sent for it. -/
  | dequeue (m : LbPacket) (rest : List LbPacket) (request : Nat)
  /-- Before the test of `dp_quit` after a failed `rte_ring_dequeue`. -/
  | testQuit (m : LbPacket) (rest : List LbPacket) (request : Nat)
  deriving DecidableEq, Repr

/-- The request whose reply an actor waits for. -/
def DataPc.request : DataPc → Option Nat
  | .dequeue _ _ request => some request
  | .testQuit _ _ request => some request
  | _ => none

/-- `struct decomposed_LB_data`, `decomposed_lb.h:18–43`: a data actor with its two rings. -/
structure DataActor (T : Type) where
  mapper : FlowMapper T
  pc : DataPc
  sendRing : List Nat
  recvRing : List LbReply

/-- Where the control actor is, `decomposed_lb.c:239–265`. -/
inductive ControlPc where
  /-- The function does not run. -/
  | idle
  /-- Before the test of the main loop. -/
  | loop
  /-- In the loop over the data actors, before `rte_ring_dequeue` on the ring of actor `i`. -/
  | poll (i : Nat)
  /-- Before `rte_ring_enqueue` of the reply to a request of actor `i`. -/
  | reply (i : Fin LB_GROUP_SIZE) (request : Nat)
  /-- Before `rte_ring_reset` on `send_ring_plist[i]`. -/
  | resetSend (i : Nat)
  /-- Before `rte_ring_reset` on `recv_ring_plist[i]`. -/
  | resetRecv (i : Fin LB_GROUP_SIZE)
  deriving DecidableEq, Repr

/-- `struct decomposed_LB_group`, `decomposed_lb.h:82–90`, with `*dp_quit`. The rings of the control
actor are those of the data actors, `decomposed_lb.c:196–197`. `steps` numbers the steps of the
data actors. -/
structure LbGroup (T : Type) where
  dpQuit : Bool
  nDataComponent : Fin (LB_GROUP_SIZE + 1)
  nControlInvocation : Nat
  actor : Fin LB_GROUP_SIZE → DataActor T
  control : ControlPc
  steps : Nat

/-- What happens to a group. -/
inductive LbEvent where
  /-- Data actor `i` takes its next step; `pktsBurst` has arrived if it polls its port. -/
  | data (i : Fin LB_GROUP_SIZE) (pktsBurst : List LbPacket)
  /-- The control actor takes its next step. `j = (j++) % 10` leaves the next server open. -/
  | control (j : Fin 10)
  /-- `*dp_quit` is written. -/
  | dpQuit (value : Bool)
  /-- `decomposed_LB_group_init` is called for `nData` data actors. -/
  | groupInit (nData : Fin (LB_GROUP_SIZE + 1))
  /-- `decomposed_LB_data_action` is launched. -/
  | launchData (i : Fin LB_GROUP_SIZE) (ipv45Tuple : Ipv4FiveTuple)
  /-- `decomposed_LB_control_action` is launched. -/
  | launchControl
  deriving DecidableEq, Repr

/-- `rte_hash_reset`, which empties a table. -/
class RteHashReset (T : Type) where
  reset : T → T

instance : RteHashReset (List (Ipv4FiveTuple × BitVec 32)) where
  reset _ := []

variable {T : Type}

/-- Replace one data actor. -/
def LbGroup.setActor (g : LbGroup T) (i : Fin LB_GROUP_SIZE) (a : DataActor T) : LbGroup T :=
  { g with actor := Function.update g.actor i a }

/-- `decomposed_LB_data_init`, `decomposed_lb.c:200–224`. -/
def dataInit [RteHashReset T] (a : DataActor T) : DataActor T :=
  { a with mapper := { a.mapper with
      rxn := 0
      rxs := 0
      found := 0
      unfound := 0
      keyFull := 0
      htTableFm := RteHashReset.reset a.mapper.htTableFm } }

/-- The next step of `decomposed_LB_data_action`, `decomposed_lb.c:79–175`; `request` is the number
of the request if one is sent. -/
def DataActor.step [RteHashData T] (dpQuit : Bool) (pktsBurst : List LbPacket) (request : Nat)
    (a : DataActor T) : Option (DataActor T) :=
  match a.pc with
  | .idle => none
  | .loop =>
    if dpQuit then some { a with pc := .idle }
    else some { a with
      mapper := { a.mapper with rxn := a.mapper.rxn + pktsBurst.length }
      pc := if pktsBurst = [] then .loop else .burst pktsBurst }
  | .burst [] => some { a with pc := .loop }
  | .burst (m :: rest) =>
    if m.IsIpv4 ∧ RteHashData.lookupData a.mapper.htTableFm (copyTuple a.mapper.ipv45Tuple m) =
        none then
      some { a with sendRing := rteRingEnqueue a.sendRing request, pc := .dequeue m rest request }
    else some { a with mapper := a.mapper.packet m none, pc := .burst rest }
  | .dequeue m rest request =>
    match a.recvRing with
    | [] => some { a with pc := .testQuit m rest request }
    | msg :: recvRing => some { a with
        mapper := a.mapper.packet m (some msg.dstAddr)
        recvRing
        pc := .burst rest }
  | .testQuit m rest request =>
    if dpQuit then some { a with mapper := a.mapper.packet m none, pc := .idle }
    else some { a with pc := .dequeue m rest request }

/-- The next step of `decomposed_LB_control_action`, `decomposed_lb.c:239–265`. -/
def controlStep (g : LbGroup T) (j : Fin 10) : Option (LbGroup T) :=
  match g.control with
  | .idle => none
  | .loop => some { g with control := if g.dpQuit then .resetSend 0 else .poll 0 }
  | .poll i =>
    if h : i < g.nDataComponent.val then
      have hi : i < LB_GROUP_SIZE := Nat.lt_of_lt_of_le h (Nat.le_of_lt_succ g.nDataComponent.isLt)
      let a := g.actor ⟨i, hi⟩
      match a.sendRing with
      | [] => some { g with control := .poll (i + 1) }
      | request :: sendRing => some { g.setActor ⟨i, hi⟩ { a with sendRing } with
          nControlInvocation := g.nControlInvocation + 1
          control := .reply ⟨i, hi⟩ request }
    else some { g with control := .loop }
  | .reply i request =>
    let a := g.actor i
    some { g.setActor i { a with
        recvRing := rteRingEnqueue a.recvRing ⟨request, serverIpMapArray j⟩ } with
      control := .poll (i.val + 1) }
  | .resetSend i =>
    if h : i < LB_GROUP_SIZE then
      some { g.setActor ⟨i, h⟩ { g.actor ⟨i, h⟩ with recvRing := [] } with
        control := .resetRecv ⟨i, h⟩ }
    else some { g with control := .idle }
  | .resetRecv i =>
    some { g.setActor i { g.actor i with sendRing := [] } with control := .resetSend (i.val + 1) }

/-- One event of a group. -/
def lbStep [RteHashData T] [RteHashReset T] (g : LbGroup T) : LbEvent → Option (LbGroup T)
  | .data i pktsBurst =>
    ((g.actor i).step g.dpQuit pktsBurst g.steps).map fun a ↦
      { g.setActor i a with steps := g.steps + 1 }
  | .control j => controlStep g j
  | .dpQuit value => some { g with dpQuit := value }
  | .groupInit nData => some { g with
      nDataComponent := nData
      actor := fun i ↦ if i.val < nData.val then dataInit (g.actor i) else g.actor i }
  | .launchData i ipv45Tuple =>
    let a := g.actor i
    if a.pc = .idle then
      some (g.setActor i { a with
        mapper := { a.mapper with ipv45Tuple, running := true, log := [] }
        pc := .loop })
    else none
  | .launchControl => if g.control = .idle then some { g with control := .loop } else none

/-- The group that `decomposed_LB_group_create`, `decomposed_lb.c:363–368`, creates: all rings are
empty and no actor runs. -/
def groupCreate (dpQuit : Bool) (nDataComponent : Fin (LB_GROUP_SIZE + 1))
    (mapper : Fin LB_GROUP_SIZE → FlowMapper T) : LbGroup T where
  dpQuit := dpQuit
  nDataComponent := nDataComponent
  nControlInvocation := 0
  actor := fun i ↦ ⟨mapper i, .idle, [], []⟩
  control := .idle
  steps := 0

/-! ### Requests and replies -/

/-- The rings of a data actor hold at most one message while it waits, which is its request or the
reply to it, and none while it does not. -/
structure DataActor.Matched (a : DataActor T) : Prop where
  waiting : ∀ request, a.pc.request = some request →
    a.sendRing.length + a.recvRing.length ≤ 1 ∧ (∀ r ∈ a.sendRing, r = request) ∧
      ∀ msg ∈ a.recvRing, msg.request = request
  otherwise : a.pc.request = none → a.sendRing = [] ∧ a.recvRing = []

/-- The requests and replies of all data actors match. -/
def Matched (g : LbGroup T) : Prop := ∀ i, (g.actor i).Matched

/-- A data actor that stops waiting because of `dp_quit` leaves no message in its rings, and the
control actor replies to an actor that waits for the reply. -/
def Awaited (g : LbGroup T) : LbEvent → Prop
  | .data i _ => ∀ m rest request, (g.actor i).pc = .testQuit m rest request → g.dpQuit = true →
      (g.actor i).sendRing = [] ∧ (g.actor i).recvRing = []
  | .control _ => ∀ i request, g.control = .reply i request →
      (g.actor i).pc.request = some request
  | _ => True

/-! ### Steps -/

/-- What a step of a data actor does to its rings and to what it waits for. -/
inductive DataMoved (dpQuit : Bool) (request : Nat) (a a' : DataActor T) : Prop
  | move (hpc : a'.pc.request = a.pc.request) (hsend : a'.sendRing = a.sendRing)
      (hrecv : a'.recvRing = a.recvRing)
      (hleave : ∀ m rest r, a.pc = .testQuit m rest r → dpQuit ≠ true)
  | send (hpc : a.pc.request = none) (hpc' : a'.pc.request = some request)
      (hsend : a'.sendRing = rteRingEnqueue a.sendRing request) (hrecv : a'.recvRing = a.recvRing)
  | receive (m : LbPacket) (rest : List LbPacket) (r : Nat) (msg : LbReply)
      (hpc : a.pc = .dequeue m rest r) (hpc' : a'.pc.request = none)
      (hsend : a'.sendRing = a.sendRing) (hrecv : a.recvRing = msg :: a'.recvRing)
  | leave (m : LbPacket) (rest : List LbPacket) (r : Nat) (hpc : a.pc = .testQuit m rest r)
      (hquit : dpQuit = true) (hpc' : a'.pc.request = none) (hsend : a'.sendRing = a.sendRing)
      (hrecv : a'.recvRing = a.recvRing)

/-- The steps of a data actor. -/
theorem DataActor.moved_of_step [RteHashData T] {dpQuit : Bool} {pktsBurst : List LbPacket}
    {request : Nat} {a a' : DataActor T} (h : a.step dpQuit pktsBurst request = some a') :
    DataMoved dpQuit request a a' := by
  unfold DataActor.step at h
  split at h
  · cases h
  · next hpc =>
    split at h
    · cases h
      exact .move (by rw [hpc]; rfl) rfl rfl (by simp [hpc])
    · cases h
      refine .move ?_ rfl rfl (by simp [hpc])
      rw [hpc]
      by_cases hnil : pktsBurst = [] <;> simp [hnil, DataPc.request]
  · next hpc =>
    cases h
    exact .move (by rw [hpc]; rfl) rfl rfl (by simp [hpc])
  · next m rest hpc =>
    split at h
    · cases h
      exact .send (by rw [hpc]; rfl) rfl rfl rfl
    · cases h
      exact .move (by rw [hpc]; rfl) rfl rfl (by simp [hpc])
  · next m rest r hpc =>
    split at h
    · cases h
      exact .move (by rw [hpc]; rfl) rfl rfl (by simp [hpc])
    · next msg recvRing hrecv =>
      cases h
      exact .receive m rest r msg hpc rfl rfl hrecv
  · next m rest r hpc =>
    split at h
    · next hquit =>
      cases h
      exact .leave m rest r hpc hquit rfl rfl rfl
    · next hquit =>
      cases h
      exact .move (by rw [hpc]; rfl) rfl rfl fun _ _ _ _ ↦ hquit

/-- What a step of the control actor does. -/
inductive ControlMoved (g : LbGroup T) (j : Fin 10) : LbGroup T → Prop
  | move (pc : ControlPc) (hpc : ∀ i request, g.control ≠ .reply i request)
      (hpc' : ∀ i request, pc ≠ .reply i request) : ControlMoved g j { g with control := pc }
  | take (i : Fin LB_GROUP_SIZE) (request : Nat) (sendRing : List Nat)
      (hpc : ∀ i request, g.control ≠ .reply i request)
      (h : (g.actor i).sendRing = request :: sendRing) :
      ControlMoved g j { g.setActor i { g.actor i with sendRing } with
        nControlInvocation := g.nControlInvocation + 1
        control := .reply i request }
  | reply (i : Fin LB_GROUP_SIZE) (request : Nat) (h : g.control = .reply i request) :
      ControlMoved g j { g.setActor i { g.actor i with
          recvRing := rteRingEnqueue (g.actor i).recvRing ⟨request, serverIpMapArray j⟩ } with
        control := .poll (i.val + 1) }
  | resetSend (i : Fin LB_GROUP_SIZE) (hpc : ∀ i request, g.control ≠ .reply i request) :
      ControlMoved g j { g.setActor i { g.actor i with recvRing := [] } with
        control := .resetRecv i }
  | resetRecv (i : Fin LB_GROUP_SIZE) (hpc : ∀ i request, g.control ≠ .reply i request) :
      ControlMoved g j { g.setActor i { g.actor i with sendRing := [] } with
        control := .resetSend (i.val + 1) }

/-- The steps of the control actor. -/
theorem moved_of_controlStep {g g' : LbGroup T} {j : Fin 10} (h : controlStep g j = some g') :
    ControlMoved g j g' := by
  unfold controlStep at h
  split at h
  · cases h
  · next hpc =>
    cases h
    refine .move _ (by simp [hpc]) fun i request ↦ ?_
    split <;> simp
  · next i hpc =>
    split at h
    · dsimp only at h
      split at h
      · cases h
        exact .move _ (by simp [hpc]) (by simp)
      · next request sendRing hsend =>
        cases h
        exact .take _ request sendRing (by simp [hpc]) hsend
    · cases h
      exact .move _ (by simp [hpc]) (by simp)
  · next i request hpc =>
    cases h
    exact .reply i request hpc
  · next i hpc =>
    split at h
    · cases h
      exact .resetSend _ (by simp [hpc])
    · cases h
      exact .move _ (by simp [hpc]) (by simp)
  · next i hpc =>
    cases h
    exact .resetRecv i (by simp [hpc])

/-! ### Requests are answered once -/

/-- The request of data actor `i` that the control actor has taken and not answered. -/
def ControlPc.taken (pc : ControlPc) (i : Fin LB_GROUP_SIZE) : List Nat :=
  match pc with
  | .reply k request => if k = i then [request] else []
  | _ => []

/-- The requests of data actor `i` that have not been answered, and those of the replies that it
has not received. -/
def LbGroup.pending (g : LbGroup T) (i : Fin LB_GROUP_SIZE) : List Nat :=
  (g.actor i).sendRing ++ (g.control.taken i ++ (g.actor i).recvRing.map LbReply.request)

/-- Every request is pending once and was sent before. -/
structure Fresh (g : LbGroup T) : Prop where
  nodup : ∀ i, (g.pending i).Nodup
  lt : ∀ i, ∀ request ∈ g.pending i, request < g.steps

private theorem Fresh.of_subperm {g g' : LbGroup T} (h : Fresh g) (hsteps : g.steps ≤ g'.steps)
    (hpending : ∀ i, (g'.pending i).Subperm (g.pending i)) : Fresh g' where
  nodup i := by
    obtain ⟨l, hperm, hsub⟩ := hpending i
    exact hperm.nodup_iff.mp (hsub.nodup (h.nodup i))
  lt i request hmem := Nat.lt_of_lt_of_le (h.lt i request ((hpending i).subset hmem)) hsteps

private theorem taken_of_not_reply {pc : ControlPc} (h : ∀ i request, pc ≠ .reply i request)
    (i : Fin LB_GROUP_SIZE) : pc.taken i = [] := by
  unfold ControlPc.taken
  split
  · next k request => exact absurd rfl (h k request)
  · rfl

private theorem subperm_enqueue {α β : Type} (l : List α) (x : α) (f : α → β) :
    ((rteRingEnqueue l x).map f).Subperm (f x :: l.map f) := by
  unfold rteRingEnqueue
  split
  · rw [List.map_append]
    exact List.perm_append_comm.subperm
  · exact (List.sublist_cons_self _ _).subperm

@[simp] private theorem setActor_actor (g : LbGroup T) (i : Fin LB_GROUP_SIZE) (a : DataActor T) :
    (g.setActor i a).actor = Function.update g.actor i a := rfl

/-- Messages of other data actors stay pending. -/
private theorem pending_of_ne {g g' : LbGroup T} {i k : Fin LB_GROUP_SIZE} {a : DataActor T}
    (hactor : g'.actor = Function.update g.actor i a) (hk : k ≠ i)
    (htaken : g'.control.taken k = g.control.taken k) : g'.pending k = g.pending k := by
  unfold LbGroup.pending
  rw [hactor, Function.update_of_ne hk, htaken]

/-- Steps of the data actors keep requests pending once. -/
private theorem fresh_data {g : LbGroup T} (h : Fresh g) {i : Fin LB_GROUP_SIZE} {a : DataActor T}
    (hmoved : DataMoved g.dpQuit g.steps (g.actor i) a) :
    Fresh { g.setActor i a with steps := g.steps + 1 } := by
  have hother : ∀ k, k ≠ i →
      ({ g.setActor i a with steps := g.steps + 1 } : LbGroup T).pending k = g.pending k :=
    fun k hk ↦ pending_of_ne rfl hk rfl
  have hself : ({ g.setActor i a with steps := g.steps + 1 } : LbGroup T).pending i =
      a.sendRing ++ (g.control.taken i ++ a.recvRing.map LbReply.request) := by
    unfold LbGroup.pending
    simp only [setActor_actor, Function.update_self]
    rfl
  have hkeep : a.sendRing = (g.actor i).sendRing →
      (a.recvRing.map LbReply.request).Sublist ((g.actor i).recvRing.map LbReply.request) →
      Fresh { g.setActor i a with steps := g.steps + 1 } := by
    intro hsend hrecv
    refine h.of_subperm (Nat.le_succ _) fun k ↦ ?_
    by_cases hk : k = i
    · subst hk
      rw [hself, hsend]
      exact ((hrecv.append_left _).append_left _).subperm
    · rw [hother k hk]
  cases hmoved with
  | move hpc hsend hrecv hleave => exact hkeep hsend (by rw [hrecv])
  | receive m rest r msg hpc hpc' hsend hrecv =>
    refine hkeep hsend ?_
    rw [hrecv, List.map_cons]
    exact List.sublist_cons_self _ _
  | leave m rest r hpc hquit hpc' hsend hrecv => exact hkeep hsend (by rw [hrecv])
  | send hpc hpc' hsend hrecv =>
    have hsub : ({ g.setActor i a with steps := g.steps + 1 } : LbGroup T).pending i |>.Subperm
        (g.steps :: g.pending i) := by
      have henq := subperm_enqueue (g.actor i).sendRing g.steps id
      rw [List.map_id, List.map_id, id] at henq
      rw [hself, hsend, hrecv]
      exact henq.append (List.Subperm.refl _)
    have hnot : g.steps ∉ g.pending i := fun hmem ↦ Nat.lt_irrefl _ (h.lt i _ hmem)
    constructor
    · intro k
      by_cases hk : k = i
      · subst hk
        obtain ⟨l, hperm, hsublist⟩ := hsub
        exact hperm.nodup_iff.mp (hsublist.nodup (List.nodup_cons.mpr ⟨hnot, h.nodup k⟩))
      · rw [hother k hk]
        exact h.nodup k
    · intro k request hmem
      by_cases hk : k = i
      · subst hk
        rcases List.mem_cons.mp (hsub.subset hmem) with rfl | hold
        · exact Nat.lt_succ_self _
        · exact Nat.lt_succ_of_lt (h.lt k request hold)
      · rw [hother k hk] at hmem
        exact Nat.lt_succ_of_lt (h.lt k request hmem)

/-- Steps of the control actor keep requests pending once. -/
private theorem fresh_control {g g' : LbGroup T} {j : Fin 10} (h : Fresh g)
    (hmoved : ControlMoved g j g') : Fresh g' := by
  cases hmoved with
  | move pc hpc hpc' =>
    refine h.of_subperm (Nat.le_refl _) fun k ↦ ?_
    unfold LbGroup.pending
    rw [taken_of_not_reply hpc, taken_of_not_reply hpc']
  | take i request sendRing hpc hsend =>
    refine h.of_subperm (Nat.le_refl _) fun k ↦ ?_
    by_cases hk : k = i
    · subst hk
      unfold LbGroup.pending
      rw [taken_of_not_reply hpc, hsend]
      simp only [setActor_actor, Function.update_self, ControlPc.taken, if_pos]
      exact List.perm_middle.subperm
    · have hki : ¬ i = k := fun heq ↦ hk heq.symm
      rw [pending_of_ne rfl hk]
      rw [taken_of_not_reply hpc]
      exact if_neg hki
  | reply i request hpc =>
    refine h.of_subperm (Nat.le_refl _) fun k ↦ ?_
    by_cases hk : k = i
    · subst hk
      unfold LbGroup.pending
      rw [hpc]
      simp only [setActor_actor, Function.update_self, ControlPc.taken, if_pos]
      exact (List.Subperm.refl _).append (subperm_enqueue _ _ _)
    · have hki : ¬ i = k := fun heq ↦ hk heq.symm
      rw [pending_of_ne rfl hk]
      rw [hpc]
      exact (if_neg hki).symm
  | resetSend i hpc =>
    refine h.of_subperm (Nat.le_refl _) fun k ↦ ?_
    by_cases hk : k = i
    · subst hk
      unfold LbGroup.pending
      rw [taken_of_not_reply hpc]
      simp only [setActor_actor, Function.update_self, ControlPc.taken, List.map_nil]
      exact ((List.nil_sublist _).append_left _).subperm
    · rw [pending_of_ne rfl hk]
      rw [taken_of_not_reply hpc]
      rfl
  | resetRecv i hpc =>
    refine h.of_subperm (Nat.le_refl _) fun k ↦ ?_
    by_cases hk : k = i
    · subst hk
      unfold LbGroup.pending
      rw [taken_of_not_reply hpc]
      simp only [setActor_actor, Function.update_self, ControlPc.taken, List.nil_append]
      exact (List.sublist_append_right _ _).subperm
    · rw [pending_of_ne rfl hk]
      rw [taken_of_not_reply hpc]
      rfl

/-- What happens outside the actors keeps requests pending once. -/
private theorem fresh_of_rings {g g' : LbGroup T} (h : Fresh g) (hsteps : g'.steps = g.steps)
    (hcontrol : ∀ k, g'.control.taken k = g.control.taken k)
    (hrings : ∀ k, (g'.actor k).sendRing = (g.actor k).sendRing ∧
      (g'.actor k).recvRing = (g.actor k).recvRing) : Fresh g' := by
  refine h.of_subperm (Nat.le_of_eq hsteps.symm) fun k ↦ ?_
  unfold LbGroup.pending
  rw [hcontrol, (hrings k).1, (hrings k).2]

section

variable [RteHashData T] [RteHashReset T]

/-- Every event keeps requests pending once. -/
theorem Fresh.step {g g' : LbGroup T} {e : LbEvent} (h : Fresh g) (hs : lbStep g e = some g') :
    Fresh g' := by
  cases e with
  | data i pktsBurst =>
    obtain ⟨a, ha, rfl⟩ := Option.map_eq_some_iff.mp hs
    exact fresh_data h (DataActor.moved_of_step ha)
  | control j => exact fresh_control h (moved_of_controlStep hs)
  | dpQuit value =>
    cases hs
    exact fresh_of_rings h rfl (fun _ ↦ rfl) fun _ ↦ ⟨rfl, rfl⟩
  | groupInit nData =>
    cases hs
    refine fresh_of_rings h rfl (fun _ ↦ rfl) fun k ↦ ?_
    dsimp only
    split <;> exact ⟨rfl, rfl⟩
  | launchData i ipv45Tuple =>
    unfold lbStep at hs
    dsimp only at hs
    split at hs
    · cases hs
      refine fresh_of_rings h rfl (fun _ ↦ rfl) fun k ↦ ?_
      by_cases hk : k = i
      · subst hk
        simp
      · simp [hk]
    · cases hs
  | launchControl =>
    unfold lbStep at hs
    dsimp only at hs
    split at hs
    · next hidle =>
      cases hs
      exact fresh_of_rings h rfl (fun _ ↦ by rw [hidle]; rfl) fun _ ↦ ⟨rfl, rfl⟩
    · cases hs

end

/-- In a group that has just been created, no request is pending. -/
theorem fresh_groupCreate (dpQuit : Bool) (nDataComponent : Fin (LB_GROUP_SIZE + 1))
    (mapper : Fin LB_GROUP_SIZE → FlowMapper T) :
    Fresh (groupCreate dpQuit nDataComponent mapper) where
  nodup _ := List.nodup_nil
  lt _ _ hmem := nomatch hmem

/-! ### What keeps requests and replies matched -/

/-- After one data actor has changed, all match exactly if that one does. -/
private theorem matched_setActor_iff {g : LbGroup T} (h : Matched g) {g' : LbGroup T}
    {i : Fin LB_GROUP_SIZE} {a : DataActor T} (hactor : g'.actor = Function.update g.actor i a) :
    Matched g' ↔ a.Matched := by
  constructor
  · intro h'
    have hi := h' i
    rwa [hactor, Function.update_self] at hi
  · intro ha k
    rw [hactor]
    by_cases hk : k = i
    · subst hk
      rwa [Function.update_self]
    · rw [Function.update_of_ne hk]
      exact h k

private theorem matched_of_empty {a : DataActor T} (hsend : a.sendRing = [])
    (hrecv : a.recvRing = []) : a.Matched where
  waiting request _ := by
    rw [hsend, hrecv]
    exact ⟨by decide, fun _ hmem ↦ (nomatch hmem), fun _ hmem ↦ (nomatch hmem)⟩
  otherwise _ := ⟨hsend, hrecv⟩

/-- A data actor keeps its requests and replies matched, unless it stops waiting while a message is
in its rings. -/
private theorem matched_data_iff {dpQuit : Bool} {request : Nat} {a a' : DataActor T}
    (h : a.Matched) (hmoved : DataMoved dpQuit request a a') :
    a'.Matched ↔ ∀ m rest r, a.pc = .testQuit m rest r → dpQuit = true →
      a.sendRing = [] ∧ a.recvRing = [] := by
  cases hmoved with
  | move hpc hsend hrecv hleave =>
    refine iff_of_true ⟨?_, ?_⟩ fun m rest r htest hquit ↦ absurd hquit (hleave m rest r htest)
    · rw [hpc, hsend, hrecv]
      exact h.waiting
    · rw [hpc, hsend, hrecv]
      exact h.otherwise
  | send hpc hpc' hsend hrecv =>
    obtain ⟨hs, hr⟩ := h.otherwise hpc
    have hone : a'.sendRing = [request] := by rw [hsend, hs]; rfl
    have hnone : a'.recvRing = [] := by rw [hrecv, hr]
    refine iff_of_true ⟨?_, ?_⟩ fun _ _ _ _ _ ↦ ⟨hs, hr⟩
    · intro r hwait
      rw [hpc', Option.some.injEq] at hwait
      rw [hone, hnone]
      exact ⟨Nat.le_refl 1, fun s hmem ↦ (List.mem_singleton.mp hmem).trans hwait,
        fun _ hmem ↦ (nomatch hmem)⟩
    · intro hnowait
      rw [hpc'] at hnowait
      cases hnowait
  | receive m rest r msg hpc hpc' hsend hrecv =>
    obtain ⟨hle, -, -⟩ := h.waiting r (by rw [hpc]; rfl)
    rw [hrecv, List.length_cons] at hle
    have hs : a.sendRing = [] := List.length_eq_zero_iff.mp (by omega)
    have hr : a'.recvRing = [] := List.length_eq_zero_iff.mp (by omega)
    refine iff_of_true (matched_of_empty (hsend.trans hs) hr) ?_
    intro m' rest' r' htest
    rw [hpc] at htest
    cases htest
  | leave m rest r hpc hquit hpc' hsend hrecv =>
    constructor
    · intro h' _ _ _ _ _
      rw [← hsend, ← hrecv]
      exact h'.otherwise hpc'
    · intro hempty
      obtain ⟨hs, hr⟩ := hempty m rest r hpc hquit
      exact matched_of_empty (hsend.trans hs) (hrecv.trans hr)

/-- The control actor keeps requests and replies matched, unless it replies to a data actor that
does not wait for the reply. -/
private theorem matched_control_iff {g g' : LbGroup T} {j : Fin 10} (hf : Fresh g)
    (h : Matched g) (hmoved : ControlMoved g j g') :
    Matched g' ↔ ∀ i request, g.control = .reply i request →
      (g.actor i).pc.request = some request := by
  cases hmoved with
  | move pc hpc hpc' => exact iff_of_true h fun i r hreply ↦ absurd hreply (hpc i r)
  | take i request sendRing hpc hsend =>
    refine iff_of_true ?_ fun i r hreply ↦ absurd hreply (hpc i r)
    refine (matched_setActor_iff h rfl).mpr ⟨?_, ?_⟩
    · intro r hwait
      obtain ⟨hle, hs, hr⟩ := (h i).waiting r hwait
      rw [hsend, List.length_cons] at hle
      refine ⟨?_, fun s hmem ↦ hs s (hsend ▸ List.mem_cons_of_mem _ hmem), hr⟩
      dsimp only
      omega
    · intro hnowait
      have hnil := ((h i).otherwise hnowait).1
      rw [hsend] at hnil
      cases hnil
  | reply i request hpc =>
    rw [matched_setActor_iff h rfl]
    have hlen : (g.actor i).recvRing.length ≤ 1 := by
      cases hwait : (g.actor i).pc.request with
      | none => simp [((h i).otherwise hwait).2]
      | some r =>
        have hle := ((h i).waiting r hwait).1
        omega
    have henq : rteRingEnqueue (g.actor i).recvRing ⟨request, serverIpMapArray j⟩ =
        (g.actor i).recvRing ++ [⟨request, serverIpMapArray j⟩] :=
      if_pos (Nat.lt_of_le_of_lt hlen (by decide))
    constructor
    · intro h' i' request' hreply
      rw [hpc, ControlPc.reply.injEq] at hreply
      obtain ⟨rfl, rfl⟩ := hreply
      have hmem : (⟨request, serverIpMapArray j⟩ : LbReply) ∈
          rteRingEnqueue (g.actor i).recvRing ⟨request, serverIpMapArray j⟩ := by
        rw [henq]
        exact List.mem_append_right _ (List.mem_singleton_self _)
      cases hwait : (g.actor i).pc.request with
      | none =>
        have hnil := (h'.otherwise hwait).2
        dsimp only at hnil
        rw [hnil] at hmem
        cases hmem
      | some r => exact congrArg some ((h'.waiting r hwait).2.2 _ hmem).symm
    · intro hwaits
      have hwait := hwaits i request hpc
      obtain ⟨-, hs, hr⟩ := (h i).waiting request hwait
      -- the request is in the control actor's hands, and so in neither ring
      have hnodup := hf.nodup i
      unfold LbGroup.pending at hnodup
      rw [hpc, ControlPc.taken, if_pos rfl] at hnodup
      have hsend : (g.actor i).sendRing = [] := by
        rw [List.eq_nil_iff_forall_not_mem]
        intro s hmem
        refine (List.nodup_append.mp hnodup).2.2 s hmem s ?_ rfl
        rw [hs s hmem]
        exact List.mem_append_left _ (List.mem_singleton_self _)
      have hrecv : (g.actor i).recvRing = [] := by
        rw [List.eq_nil_iff_forall_not_mem]
        intro msg hmem
        have hrest := (List.nodup_append.mp hnodup).2.1
        refine (List.nodup_append.mp hrest).2.2 request (List.mem_singleton_self _) request ?_ rfl
        exact List.mem_map.mpr ⟨msg, hmem, hr msg hmem⟩
      refine ⟨fun r hr ↦ ?_, fun hnone ↦ ?_⟩
      · have hsame : some request = some r := hwait.symm.trans hr
        rw [Option.some.injEq] at hsame
        subst hsame
        dsimp only
        rw [henq, hsend, hrecv]
        refine ⟨Nat.le_refl 1, fun _ hmem ↦ (nomatch hmem), fun msg hmem ↦ ?_⟩
        rw [List.mem_singleton.mp hmem]
      · have hsame : (g.actor i).pc.request = none := hnone
        rw [hwait] at hsame
        cases hsame
  | resetSend i hpc =>
    refine iff_of_true ?_ fun i r hreply ↦ absurd hreply (hpc i r)
    refine (matched_setActor_iff h rfl).mpr ⟨?_, ?_⟩
    · intro r hwait
      obtain ⟨hle, hs, -⟩ := (h i).waiting r hwait
      refine ⟨?_, hs, fun _ hmem ↦ (nomatch hmem)⟩
      rw [List.length_nil]
      dsimp only
      omega
    · exact fun hnowait ↦ ⟨((h i).otherwise hnowait).1, rfl⟩
  | resetRecv i hpc =>
    refine iff_of_true ?_ fun i r hreply ↦ absurd hreply (hpc i r)
    refine (matched_setActor_iff h rfl).mpr ⟨?_, ?_⟩
    · intro r hwait
      obtain ⟨hle, -, hr⟩ := (h i).waiting r hwait
      refine ⟨?_, fun _ hmem ↦ (nomatch hmem), hr⟩
      rw [List.length_nil]
      dsimp only
      omega
    · exact fun hnowait ↦ ⟨rfl, ((h i).otherwise hnowait).2⟩

/-- What happens outside the actors keeps requests and replies matched. -/
private theorem matched_of_rings {g g' : LbGroup T} (h : Matched g)
    (hactor : ∀ k, (g'.actor k).pc.request = (g.actor k).pc.request ∧
      (g'.actor k).sendRing = (g.actor k).sendRing ∧
      (g'.actor k).recvRing = (g.actor k).recvRing) : Matched g' := by
  intro k
  obtain ⟨hpc, hsend, hrecv⟩ := hactor k
  constructor
  · rw [hpc, hsend, hrecv]
    exact (h k).waiting
  · rw [hpc, hsend, hrecv]
    exact (h k).otherwise

section

variable [RteHashData T] [RteHashReset T]

/-- An event keeps requests and replies matched exactly if messages are awaited. -/
private theorem matched_step_iff {g g' : LbGroup T} {e : LbEvent} (hf : Fresh g) (h : Matched g)
    (hs : lbStep g e = some g') : Matched g' ↔ Awaited g e := by
  cases e with
  | data i pktsBurst =>
    obtain ⟨a, ha, rfl⟩ := Option.map_eq_some_iff.mp hs
    exact (matched_setActor_iff h rfl).trans
      (matched_data_iff (h i) (DataActor.moved_of_step ha))
  | control j => exact matched_control_iff hf h (moved_of_controlStep hs)
  | dpQuit value =>
    cases hs
    exact iff_of_true h trivial
  | groupInit nData =>
    cases hs
    refine iff_of_true (matched_of_rings h fun k ↦ ?_) trivial
    dsimp only
    split <;> exact ⟨rfl, rfl, rfl⟩
  | launchData i ipv45Tuple =>
    unfold lbStep at hs
    dsimp only at hs
    split at hs
    · next hidle =>
      cases hs
      refine iff_of_true (matched_of_rings h fun k ↦ ?_) trivial
      by_cases hk : k = i
      · subst hk
        simp [hidle, DataPc.request]
      · simp [hk]
    · cases hs
  | launchControl =>
    unfold lbStep at hs
    dsimp only at hs
    split at hs
    · cases hs
      exact iff_of_true h trivial
    · cases hs

/-- An event that is not enabled neither leaves a message nor sends one. -/
private theorem awaited_of_none {g : LbGroup T} {e : LbEvent} (hs : lbStep g e = none) :
    Awaited g e := by
  cases e with
  | data i pktsBurst =>
    intro m rest request hpc hquit
    have hstep := Option.map_eq_none_iff.mp hs
    simp [DataActor.step, hpc, hquit] at hstep
  | control j =>
    intro i request hreply
    have hstep : controlStep g j = none := hs
    simp [controlStep, hreply] at hstep
  | dpQuit | groupInit | launchData | launchControl => trivial

/-- In every run of a group that has been created, with any stops and restarts, the requests and
replies of all data actors match in every state exactly when no data actor stops waiting with a
message in its rings and the control actor replies to actors that wait for it only. -/
theorem matched_iff_awaited (dpQuit : Bool) (nDataComponent : Fin (LB_GROUP_SIZE + 1))
    (mapper : Fin LB_GROUP_SIZE → FlowMapper T) (es : List LbEvent) :
    Visits lbStep Matched (groupCreate dpQuit nDataComponent mapper) es ↔
      Along lbStep Awaited (groupCreate dpQuit nDataComponent mapper) es := by
  apply visits_iff_along (fun _ _ _ hf hs ↦ Fresh.step hf hs) _ _
    (fresh_groupCreate dpQuit nDataComponent mapper)
  · exact fun i ↦ matched_of_empty rfl rfl
  · exact fun g e g' hf h hs ↦ matched_step_iff hf h hs
  · exact fun g e _ hs ↦ awaited_of_none hs

/-- Nobody stops, requests and replies match, and the control actor replies to an actor that
waits. -/
private structure Serving (g : LbGroup T) : Prop where
  running : g.dpQuit = false
  fresh : Fresh g
  matched : Matched g
  awaited : ∀ i request, g.control = .reply i request → (g.actor i).pc.request = some request

omit [RteHashReset T] in
/-- The request that the control actor answers is not received before. -/
private theorem Serving.step_data {g : LbGroup T} (h : Serving g) {i : Fin LB_GROUP_SIZE}
    {pktsBurst : List LbPacket} {a : DataActor T}
    (ha : (g.actor i).step g.dpQuit pktsBurst g.steps = some a) {request : Nat}
    (hreply : g.control = .reply i request) : a.pc.request = some request := by
  have hwait := h.awaited i request hreply
  cases DataActor.moved_of_step ha with
  | move hpc hsend hrecv hleave => rw [hpc, hwait]
  | send hpc hpc' hsend hrecv =>
    rw [hpc] at hwait
    cases hwait
  | receive m rest r msg hpc hpc' hsend hrecv =>
    exfalso
    have hmem : msg ∈ (g.actor i).recvRing := hrecv ▸ List.mem_cons_self
    have hmsg := ((h.matched i).waiting request hwait).2.2 msg hmem
    have hnodup := h.fresh.nodup i
    unfold LbGroup.pending at hnodup
    rw [hreply, ControlPc.taken, if_pos rfl] at hnodup
    have hrest := (List.nodup_append.mp hnodup).2.1
    exact (List.nodup_append.mp hrest).2.2 request (List.mem_singleton_self _) request
      (List.mem_map.mpr ⟨msg, hmem, hmsg⟩) rfl
  | leave m rest r hpc hquit hpc' hsend hrecv =>
    rw [h.running] at hquit
    cases hquit

omit [RteHashReset T] [RteHashData T] in
private theorem Serving.awaits_taken {g g' : LbGroup T} (h : Serving g) {j : Fin 10}
    (hmoved : ControlMoved g j g') (i : Fin LB_GROUP_SIZE) (request : Nat)
    (hreply : g'.control = .reply i request) : (g'.actor i).pc.request = some request := by
  cases hmoved with
  | move pc hpc hpc' => exact absurd hreply (hpc' i request)
  | take k r sendRing hpc hsend =>
    rw [ControlPc.reply.injEq] at hreply
    obtain ⟨rfl, rfl⟩ := hreply
    simp only [setActor_actor, Function.update_self]
    cases hwait : (g.actor k).pc.request with
    | none =>
      have hnil := ((h.matched k).otherwise hwait).1
      rw [hsend] at hnil
      cases hnil
    | some r' =>
      have hsame := ((h.matched k).waiting r' hwait).2.1 r (hsend ▸ List.mem_cons_self)
      rw [hsame]
  | reply | resetSend | resetRecv => cases hreply

private theorem Serving.step {g g' : LbGroup T} {e : LbEvent} (h : Serving g)
    (hrun : e ≠ .dpQuit true) (hs : lbStep g e = some g') : Serving g' := by
  have hawaited : Awaited g e := by
    cases e with
    | data i pktsBurst =>
      intro m rest request _ hquit
      rw [h.running] at hquit
      cases hquit
    | control j => exact h.awaited
    | dpQuit | groupInit | launchData | launchControl => trivial
  have hmatched := (matched_step_iff h.fresh h.matched hs).mpr hawaited
  suffices hkeep : g'.dpQuit = false ∧ ∀ i request, g'.control = .reply i request →
      (g'.actor i).pc.request = some request from
    ⟨hkeep.1, h.fresh.step hs, hmatched, hkeep.2⟩
  cases e with
  | data i pktsBurst =>
    obtain ⟨a, ha, rfl⟩ := Option.map_eq_some_iff.mp hs
    refine ⟨h.running, fun k request hreply ↦ ?_⟩
    simp only [setActor_actor]
    by_cases hk : k = i
    · subst hk
      rw [Function.update_self]
      exact h.step_data ha hreply
    · rw [Function.update_of_ne hk]
      exact h.awaited k request hreply
  | control j =>
    have hmoved := moved_of_controlStep hs
    refine ⟨?_, h.awaits_taken hmoved⟩
    cases hmoved <;> exact h.running
  | dpQuit value =>
    cases hs
    refine ⟨?_, h.awaited⟩
    cases value with
    | false => rfl
    | true => exact absurd rfl hrun
  | groupInit nData =>
    cases hs
    refine ⟨h.running, fun k request hreply ↦ ?_⟩
    dsimp only
    split <;> exact h.awaited k request hreply
  | launchData i ipv45Tuple =>
    unfold lbStep at hs
    dsimp only at hs
    split at hs
    · next hidle =>
      cases hs
      refine ⟨h.running, fun k request hreply ↦ ?_⟩
      have hwait := h.awaited k request hreply
      by_cases hk : k = i
      · subst hk
        rw [hidle] at hwait
        cases hwait
      · rw [setActor_actor, Function.update_of_ne hk]
        exact hwait
    · cases hs
  | launchControl =>
    unfold lbStep at hs
    dsimp only at hs
    split at hs
    · cases hs
      exact ⟨h.running, fun _ _ hreply ↦ nomatch hreply⟩
    · cases hs

/-- As long as `dp_quit` is not set, the requests and replies of all data actors match. -/
theorem matched_of_not_quit (nDataComponent : Fin (LB_GROUP_SIZE + 1))
    (mapper : Fin LB_GROUP_SIZE → FlowMapper T) {es : List LbEvent}
    (h : ∀ e ∈ es, e ≠ .dpQuit true) :
    Visits lbStep Matched (groupCreate false nDataComponent mapper) es := by
  have h0 : Serving (groupCreate false nDataComponent mapper) :=
    ⟨rfl, fresh_groupCreate _ _ _, fun _ ↦ matched_of_empty rfl rfl,
      fun _ _ hreply ↦ nomatch hreply⟩
  exact visits_of_invariant (fun _ _ _ hg hrun hs ↦ hg.step hrun hs) (fun _ hg ↦ hg.matched) h0 h

end

/-- Two restarts of one data actor: when `dp_quit` is set first, the control actor resets the rings
before the data actor sends a request. -/
def restartRun : List LbEvent :=
  [.launchData 0 ⟨0, 0, 0, 0, 0⟩, .launchControl, .data 0 [icmpPacket], .dpQuit true] ++
    List.replicate 50 (.control 0) ++ [.data 0 [], .data 0 [], .data 0 []] ++
    [.dpQuit false, .groupInit 1, .launchData 0 ⟨0, 0, 0, 0, 0⟩, .launchControl] ++
    [.data 0 [tcpPacket], .data 0 [], .control 0, .control 0, .control 0]

/-- After the restart, the data actor receives the reply to the request that it sent before. -/
theorem stale_reply : ∃ g msg, run lbStep (groupCreate false 1 fun _ ↦ freshActor) restartRun =
      some g ∧ (g.actor 0).pc.request = some 5 ∧ (g.actor 0).recvRing = [msg] ∧ msg.request = 1 ∧
      ¬ Matched g := by
  have hrun : (run lbStep (groupCreate false 1 fun _ ↦ freshActor) restartRun).isSome := by decide
  obtain ⟨g, hg⟩ := Option.isSome_iff_exists.mp hrun
  have hstate : (run lbStep (groupCreate false 1 fun _ ↦ freshActor) restartRun).map
      (fun g ↦ ((g.actor 0).pc.request, (g.actor 0).recvRing)) =
        some (some 5, [⟨1, serverIpMapArray 0⟩]) := by decide
  rw [hg, Option.map_some, Option.some.injEq, Prod.mk.injEq] at hstate
  obtain ⟨hwait, hrecv⟩ := hstate
  refine ⟨g, _, hg, hwait, hrecv, rfl, fun h ↦ ?_⟩
  have hanswers := ((h 0).waiting 5 hwait).2.2 _ (hrecv ▸ List.mem_singleton_self _)
  exact absurd hanswers (by decide)

end Nflambda.Runtime
