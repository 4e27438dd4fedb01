import Nflambda.Runtime.Exhaustion
import Nflambda.Runtime.Fairness

/-!
# Workers that never fault

Library `Runtime`. Source `src/runtime/worker.h:80–185`. A worker in front of `event_handler` goes
on if the entry of its message can be selected and the function has a result on its state. Where the
functions keep a property of their states on which they have results, and every entry on the ways of
the packets can be selected, no worker ever faults, so fair runs go on forever.
-/

namespace Nflambda.Runtime

open Nflambda.Base

variable {H : Type}

/-- The functions of the action table have results on states with the property, and keep it. -/
def Config.Closed (c : Config H) (I : State H → Prop) : Prop :=
  ∀ a e f s, c.entry a = some e → e.action = some (.action f) → e.state = .state s →
    ∀ σ m, I σ → ∃ st path, f σ m = .ok (st, path) ∧ I st

/-- The states on which functions of the action table run have the property. -/
def Config.StatesMeet (c : Config H) (I : State H → Prop)
    (states : Fin STATE_NUM → State H) : Prop :=
  ∀ a e f s, c.entry a = some e → e.action = some (.action f) → e.state = .state s → I (states s)

/-- Every entry on the ways of a packet that worker `w` has received can be selected on some
core. -/
def Config.Selectable (c : Config H) (w : Core) (p : Mbuf) : Prop :=
  ∀ l a, c.Trail (c.firstOf w p) l a →
    ∃ e, ∃ v : Core, c.entry a = some e ∧ e.coreId = (v.val : Int) ∧ e.Runs

/-- What holds while the functions keep the property: every packet is on its trail, and the states
of the functions have the property. -/
structure Faultless (c : Config H) (I : State H → Prop) (n : Net H) : Prop where
  routed : Routed c n
  states : c.StatesMeet I n.config.states

/-- A step of the workers replaces at most the state of the function that ran. -/
theorem statesMeet_taken {c : Config H} {I : State H → Prop} {n n' : Net H} {ev : Event}
    (hc : c.Closed I) (hsame : SameRoutes c n.config) (hev : ev.IsWork)
    (hn : c.StatesMeet I n.config.states) (ht : Taken n ev n') :
    c.StatesMeet I n'.config.states := by
  have hkeep (hs : n'.config.states = n.config.states) : c.StatesMeet I n'.config.states := by
    rwa [hs]
  have hran (w : Core) (h : Held) (e : ActionTableEntry H)
      (f : State H → Message → Except Fault (State H × Int)) (s : Fin STATE_NUM) (st : State H)
      (path : Int) (he : n.config.entry (n.message w h).actionId = some e)
      (ha : e.action = some (.action f)) (hs : e.state = .state s)
      (hf : f (n.config.states s) (n.message w h) = .ok (st, path))
      (hst : n'.config.states = Function.update n.config.states s st) :
      c.StatesMeet I n'.config.states := by
    obtain ⟨e', he', ha', hs', -⟩ := hsame.exists_entry he
    obtain ⟨st', path', hf', hI⟩ := hc _ e' f s he' (ha'.trans ha) (hs'.trans hs) _
      (n.message w h) (hn _ e' f s he' (ha'.trans ha) (hs'.trans hs))
    rw [hf, Except.ok.injEq, Prod.mk.injEq] at hf'
    intro a d g t hd hg hdt
    rw [hst]
    by_cases hts : t = s
    · subst hts
      rw [Function.update_self, hf'.1]
      exact hI
    · rw [Function.update_of_ne hts]
      exact hn a d g t hd hg hdt
  cases ht with
  | act w h e f s st path hpc he hcore ha hs hf =>
    exact hran w h e f s st path he ha hs hf (by rw [Net.store_config]; rfl)
  | actEnd w h e f s st hpc he hcore ha hs hf =>
    exact hran w h e f s st (-1) he ha hs hf (by rw [complete_config, Net.store_config]; rfl)
  | transmit w h e => exact hkeep (by rw [complete_config, transmitPacket, Net.store_config]; rfl)
  | command => exact hev.elim
  | move | pop | begin | relay | push | retry | rxBurst | drop | copy | quit => exact hkeep rfl

/-- The workers run on without faults. -/
theorem Faultless.next {c : Config H} {I : State H → Prop} {n n' : Net H} {ev : Event}
    (hn : Faultless c I n) (hc : c.Closed I) (hk : c.KeepsPaths) (hp : c.PathsInTable)
    (hev : ev.IsWork) (h : step n ev = some n') : Faultless c I n' :=
  ⟨hn.routed.next hk hp hev h,
    statesMeet_taken hc hn.routed.same hev hn.states (step_taken h)⟩

/-- A run without faults. -/
theorem Faultless.run {c : Config H} {I : State H → Prop} {n n' : Net H} {es : List Event}
    (hn : Faultless c I n) (hc : c.Closed I) (hk : c.KeepsPaths) (hp : c.PathsInTable)
    (hes : ∀ ev ∈ es, ev.IsWork) (h : Base.run step n es = some n') : Faultless c I n' :=
  run_invariant_along (fun _ _ _ hm hev hs ↦ hm.next hc hk hp hev hs) hn (along_of_forall hes n) h

/-- Worker `w` in front of `event_handler` can take its next step, and finds a free item if its pool
has one. -/
def Net.Proceeds (n : Net H) (w : Core) : Prop :=
  ∃ ev n', (ev = .work w ∨ ∃ r, ev = .alloc w r) ∧ FindsFree n ev ∧ step n ev = some n'

/-- A worker in front of `event_handler` goes on. -/
theorem Faultless.proceeds {c : Config H} {I : State H → Prop} {n : Net H}
    (hn : Faultless c I n) (hc : c.Closed I) {w : Core} {d : Held}
    (hsel : ∀ v, (v, (n.message w d).m) ∈ n.hist.received → c.Selectable v (n.message w d).m)
    (hpc : n.pc w = .handle d) : n.Proceeds w := by
  have hheld : n.Holds (n.message w d) := .inl ⟨w, by rw [hpc]; exact List.mem_singleton_self _⟩
  obtain ⟨v, hv, htrail⟩ := (hn.routed.trail (n.message w d).m).held _ hheld rfl
  obtain ⟨e, u, he, hcore, hruns⟩ := hsel v hv _ _ htrail
  obtain ⟨e', he', ha, hs, hc'⟩ := exists_entry_of_fields hn.routed.same.entry he
  have hruns' : e'.Runs := by
    unfold ActionTableEntry.Runs at hruns ⊢
    rwa [ha, hs]
  rcases goesOn hn.routed.packets.produced hpc he' (hc'.trans hcore) hruns' with
    ⟨ev, n', rfl | ⟨r, rfl⟩, h⟩ | ⟨k, f, s, fault, hk, hf, hst, hfault⟩
  · exact ⟨.work w, n', .inl rfl, trivial, h⟩
  · obtain ⟨r', n'', hfinds, h'⟩ := exists_findsFree h
    exact ⟨.alloc w r', n'', .inr ⟨r', rfl⟩, hfinds, h'⟩
  · obtain ⟨k', hk', ha', hs', -⟩ := hn.routed.same.exists_entry hk
    obtain ⟨st, path, hok, -⟩ := hc _ k' f s hk' (ha'.trans hf) (hs'.trans hst) _
      (n.message w d) (hn.states _ k' f s hk' (ha'.trans hf) (hs'.trans hst))
    rw [hfault] at hok
    cases hok

/-- Every launched worker can take its next step. -/
theorem Faultless.acts {c : Config H} {I : State H → Prop} {launched : Core → Bool} {n : Net H}
    (hn : Faultless c I n) (hrunning : Running launched n) (hc : c.Closed I)
    (hsel : ∀ w p, (w, p) ∈ n.hist.received → c.Selectable w p) {w : Core}
    (hw : launched w = true) :
    ∃ ev n', ev.actor = some w ∧ (ev.IsInternal ∧ FindsFree n ev) ∧ step n ev = some n' := by
  have hwork (h : (workerAction n w).isSome) : ∃ ev n', Event.actor ev = some w ∧
      (ev.IsInternal ∧ FindsFree n ev) ∧ step n ev = some n' := by
    obtain ⟨n', hn'⟩ := Option.isSome_iff_exists.mp h
    exact ⟨.work w, n', rfl, ⟨trivial, trivial⟩, hn'⟩
  cases hpc : n.pc w with
  | idle => exact absurd hpc (hrunning.active w hw)
  | top => exact hwork (by simp [workerAction, hpc])
  | dequeue =>
    refine hwork ?_
    cases hm : n.mailbox w <;> simp [workerAction, hpc, hm]
  | rx =>
    refine ⟨.rxBurst w [], receive n w [], rfl, ⟨rfl, trivial⟩, ?_⟩
    exact enabled_rxBurst hpc ⟨by simp, List.nodup_nil, by simp⟩
  | burst rest =>
    refine hwork ?_
    cases rest <;> simp [workerAction, hpc]
  | handle d =>
    obtain ⟨ev, n', rfl | ⟨r, rfl⟩, hfinds, h⟩ := hn.proceeds hc (fun v hv ↦ hsel v _ hv) hpc
    · exact ⟨.work w, n', rfl, ⟨trivial, hfinds⟩, h⟩
    · exact ⟨.alloc w r, n', rfl, ⟨trivial, hfinds⟩, h⟩
  | enqueue dest i d =>
    refine hwork ?_
    simp only [workerAction, hpc]
    split <;> rfl

/-- From every state there are fair runs of any number of rounds, without receptions, in which
`get_free_item` finds what there is. -/
theorem Faultless.exists_fairRun {c : Config H} {I : State H → Prop} {launched : Core → Bool}
    {n : Net H} (hn : Faultless c I n) (hrunning : Running launched n) (hc : c.Closed I)
    (hk : c.KeepsPaths) (hp : c.PathsInTable)
    (hsel : ∀ w p, (w, p) ∈ n.hist.received → c.Selectable w p) (m : Nat) :
    ∃ rounds n', rounds.length = m ∧ (∀ ev ∈ rounds.flatten, ev.IsInternal) ∧
      Along step FindsFree n rounds.flatten ∧ FairRun launched n rounds n' := by
  let P (k : Net H) : Prop :=
    Faultless c I k ∧ Running launched k ∧ k.hist.received = n.hist.received
  have hnext (k : Net H) (ev : Event) (k' : Net H) (hk' : P k)
      (hev : ev.IsInternal ∧ FindsFree k ev) (hs : step k ev = some k') : P k' :=
    ⟨hk'.1.next hc hk hp hev.1.isWork hs, hk'.2.1.next hev.1.keepsRunning.2 hs,
      (received_internal hev.1 (step_taken hs)).trans hk'.2.2⟩
  have hacts (k : Net H) (hk' : P k) : ∀ w ∈ (List.finRange 48).filter launched,
      ∃ ev k', Event.actor ev = some w ∧ (ev.IsInternal ∧ FindsFree k ev) ∧ step k ev = some k' :=
    fun w hw ↦ hk'.1.acts hk'.2.1 hc (by rwa [hk'.2.2]) (List.mem_filter.mp hw).2
  obtain ⟨rounds, n', hlen, halong, hrun, -, hfair⟩ :=
    exists_rounds hnext _ hacts 4 m ⟨hn, hrunning, rfl⟩
  refine ⟨rounds, n', hlen, forall_of_along (halong.mono fun _ _ h ↦ h.1) hrun,
    halong.mono fun _ _ h ↦ h.2, fun r hr w hw ↦ ?_, hrun⟩
  exact hfair r hr w (List.mem_filter.mpr ⟨List.mem_finRange w, hw⟩)

end Nflambda.Runtime
