import Nflambda.Runtime.Deadlock
import Nflambda.Runtime.MessageLoop

/-!
# Packets that lie with blocked workers

Library `Runtime`. Source `src/runtime/worker.h:86–108`. Workers that block each other with full
rings never come to their mailboxes again. A packet that lies with one of them, in its mailbox, in
its hands or in its burst, stays there for ever: it is neither transmitted nor freed.
-/

namespace Nflambda.Runtime

open Nflambda.Base

variable {H : Type}

/-- Packet `p` lies with worker `w`: in its burst, in the item it holds, or in its mailbox. -/
def Net.LiesWith (n : Net H) (w : Core) (p : Mbuf) : Prop :=
  p ∈ (n.pc w).pending ∨ ∃ i, (i ∈ (n.pc w).items ∨ i ∈ n.mailbox w) ∧ (n.mem i).m = p

/-- Packet `p` lies with one of some workers that block each other. -/
def Trapped (n : Net H) (p : Mbuf) : Prop :=
  ∃ S, Deadlocked n S ∧ ∃ w ∈ S, n.LiesWith w p

/-- An event of other workers takes no packet away from a worker. -/
theorem Net.LiesWith.taken {n n' : Net H} {ev : Event} {w : Core} {p : Mbuf}
    (hp : n.LiesWith w p) (hi : PacketInvariant n) (ht : Taken n ev n')
    (hw : ev.actor ≠ some w) : n'.LiesWith w p := by
  obtain ⟨hpc, hmail⟩ := taken_other ht w hw
  rcases hp with hp | ⟨i, hplace, rfl⟩
  · left
    rwa [hpc]
  · have hlive : Live n i := hplace.imp (fun h ↦ ⟨w, h⟩) fun h ↦ ⟨w, h⟩
    refine .inr ⟨i, ?_, mem_taken_of_live hi ht hlive⟩
    rw [hpc]
    exact hplace.imp id fun h ↦ hmail.subset h

/-- No event frees a trapped packet. -/
theorem Trapped.taken {n n' : Net H} {ev : Event} {p : Mbuf} (hp : Trapped n p)
    (hi : PacketInvariant n) (ht : Taken n ev n') : Trapped n' p := by
  obtain ⟨S, hS, w, hw, hlies⟩ := hp
  by_cases hv : ev.actor = some w
  · obtain ⟨dest, -, hb⟩ := hS.next w hw
    rw [blocked_stutters hb ht hv]
    exact ⟨S, hS, w, hw, hlies⟩
  · exact ⟨S, hS.taken ht, w, hw, hlies.taken hi ht hv⟩

/-- A trapped packet has not left the network. -/
theorem Trapped.not_out {n : Net H} {p : Mbuf} (hp : Trapped n p) (hi : PacketInvariant n) :
    p ∉ n.hist.transmitted ∧ p ∉ n.hist.freed := by
  obtain ⟨S, hS, w, hw, hlies⟩ := hp
  apply hi.not_out
  rcases hlies with hlies | ⟨i, hplace | hplace, hip⟩
  · exact .inl ⟨w, hlies⟩
  · obtain ⟨dest, -, ⟨j, d, hpc⟩, -⟩ := hS.next w hw
    rw [hpc, items_enqueue, List.mem_singleton] at hplace
    refine .inr ⟨n.mem i, .inl ⟨w, ?_⟩, hip⟩
    rw [hpc, hplace]
    exact List.mem_singleton_self _
  · exact .inr ⟨n.mem i, .inr ⟨w, i, hplace, rfl⟩, hip⟩

/-- A trapped packet stays trapped, whatever the workers do. -/
theorem Trapped.run {c : Config H} {n n' : Net H} {es : List Event} {p : Mbuf}
    (hp : Trapped n p) (hn : Routed c n) (hk : c.KeepsPaths) (hpaths : c.PathsInTable)
    (hes : ∀ ev ∈ es, ev.IsWork) (h : Base.run step n es = some n') : Trapped n' p := by
  have hboth : Routed c n' ∧ Trapped n' p :=
    run_invariant_along (P := fun m ↦ Routed c m ∧ Trapped m p)
      (fun _ _ _ hm hev hs ↦ ⟨hm.1.next hk hpaths hev hs, hm.2.taken hm.1.packets (step_taken hs)⟩)
      ⟨hn, hp⟩ (along_of_forall hes n) h
  exact hboth.2

end Nflambda.Runtime
