import Nflambda.Base.Rounds
import Nflambda.Runtime.Draining
import Nflambda.Runtime.Trapped

/-!
# Fair runs

Library `Runtime`. Source `src/runtime/worker.h:80–185`. In a round of a fair run every launched
worker takes at least four steps, so many that a worker that polls looks at its mailbox once. A
round in which no packet moves on leaves the workers where no packet waits for them, so that after
as many rounds as there can be moves every packet received before has left the network.
-/

namespace Nflambda.Runtime

open Nflambda.Base Finset

variable {H : Type}

/-! ### A worker that has something to do -/

/-- How many steps of the loop a worker takes before it looks at its mailbox. -/
def Pc.pollsLeft : Pc → Nat
  | .top => 1
  | .burst [] => 2
  | .rx => 3
  | .idle | .dequeue | .burst (_ :: _) | .handle _ | .enqueue _ _ _ => 0

/-- At a program point, worker `w` has something to do: mail while it polls, a packet of a burst, a
message, or room in the ring it sends to. -/
def Net.HasWork (n : Net H) (w : Core) : Pc → Prop
  | .idle => False
  | .top | .dequeue | .rx | .burst [] => n.mailbox w ≠ []
  | .burst (_ :: _) | .handle _ => True
  | .enqueue dest _ _ => (n.mailbox dest).length < n.config.ringSize - 1

theorem Pc.pollsLeft_le (pc : Pc) : pc.pollsLeft ≤ 3 := by
  unfold pollsLeft
  split <;> omega

/-- Only workers that run take events. -/
theorem not_idle_of_actor {n n' : Net H} {ev : Event} {w : Core} (ht : Taken n ev n')
    (hv : ev.actor = some w) : n.pc w ≠ .idle := by
  have hpc (v : Core) (h : ev.actor = some v) (hne : n.pc v ≠ .idle) : n.pc w ≠ .idle := by
    rw [h, Option.some.injEq] at hv
    exact hv ▸ hne
  cases ht with
  | move v pc hm =>
    refine hpc v rfl ?_
    rcases hm with ⟨h, -⟩ | ⟨h, -⟩ | ⟨h, -⟩ <;> simp [h]
  | pop v _ _ hp | begin v _ _ hp | transmit v _ _ _ hp | act v _ _ _ _ _ _ hp
  | actEnd v _ _ _ _ _ hp | relay v _ _ _ hp | push v _ _ _ hp | retry v _ _ _ hp
  | rxBurst v _ hp | drop v _ _ hp | copy v _ _ _ _ hp =>
    exact hpc v rfl (by simp [hp])
  | command | quit => simp [Event.actor] at hv

/-- Workers that were not launched stay idle. -/
theorem idle_run {n n' : Net H} {es : List Event} {w : Core} (hw : n.pc w = .idle)
    (h : run step n es = some n') : n'.pc w = .idle := by
  refine run_invariant (P := fun m : Net H ↦ m.pc w = .idle) (fun m ev m' hm hs ↦ ?_) hw h
  have ht := step_taken hs
  rw [(taken_other ht w fun hv ↦ not_idle_of_actor ht hv hm).1]
  exact hm

/-- Only launched workers receive packets. -/
theorem launched_of_received {c : Config H} {launched : Core → Bool} {size : Nat}
    {mem : Item → Message} {scratch : Core → Message} {n : Net H} {es : List Event}
    (h : run step (launch c launched size mem scratch) es = some n) {w : Core} {p : Mbuf}
    (hw : (w, p) ∈ n.hist.received) : launched w = true := by
  have hinv : (∀ v, launched v = false → n.pc v = .idle) ∧
      ∀ x ∈ n.hist.received, launched x.1 = true := by
    refine run_invariant (P := fun m : Net H ↦ (∀ v, launched v = false → m.pc v = .idle) ∧
      ∀ x ∈ m.hist.received, launched x.1 = true) (fun m ev m' hm hs ↦ ⟨fun v hv ↦ ?_, ?_⟩)
      ⟨fun v hv ↦ by simp [launch, hv], by simp [launch]⟩ h
    · exact idle_run (hm.1 v hv) (run_cons_iff.mpr ⟨m', hs, run_nil m'⟩)
    · have ht := step_taken hs
      have hkeep (hr : m'.hist.received = m.hist.received) :
          ∀ x ∈ m'.hist.received, launched x.1 = true := by
        rw [hr]
        exact hm.2
      cases ht with
      | rxBurst v pkts hpc =>
        intro x hx
        rcases List.mem_append.mp hx with hx | hx
        · exact hm.2 x hx
        · obtain ⟨q, -, rfl⟩ := List.mem_map.mp hx
          by_contra hv
          have hidle := hm.1 v (by simpa using hv)
          rw [hpc] at hidle
          cases hidle
      | transmit => exact hkeep (received_transmit ..)
      | act => exact hkeep (received_act ..)
      | actEnd => exact hkeep (received_actEnd ..)
      | move | pop | begin | relay | push | retry | drop | copy | command | quit => exact hkeep rfl
  exact hinv.2 (w, p) hw

/-- An event that moves no packet on leaves a worker with what it has to do, and takes the worker
closer to its mailbox if it is its own. -/
theorem hasWork_next {n n' : Net H} {ev : Event} {w : Core} (hq : n.config.dpQuit = false)
    (hev : ev ≠ .quit) (hp : ¬ n.Productive ev) (hw : n.HasWork w (n.pc w))
    (h : step n ev = some n') :
    n'.HasWork w (n'.pc w) ∧
      (if ev.actor = some w then 1 else 0) + (n'.pc w).pollsLeft ≤ (n.pc w).pollsLeft := by
  -- a step after which the worker is where it was
  have hother (k : Net H) (hv : ev.actor ≠ some w) (hpc : k.pc w = n.pc w)
      (hm : k.mailbox = n.mailbox) (hr : k.config.ringSize = n.config.ringSize) :
      k.HasWork w (k.pc w) ∧ (if ev.actor = some w then 1 else 0) + (k.pc w).pollsLeft ≤
        (n.pc w).pollsLeft := by
    rw [hpc, if_neg hv, Nat.zero_add]
    refine ⟨?_, le_rfl⟩
    unfold Net.HasWork at hw ⊢
    rw [hm, hr]
    exact hw
  have ht := step_taken h
  have hring := ringSize_taken ht
  cases ht with
  | move v pc hmove =>
    by_cases hv : v = w
    · subst hv
      have hpc : (n.setPc v pc).pc v = pc := Function.update_self ..
      rw [hpc]
      rcases hmove with ⟨htop, -⟩ | ⟨hdeq, hm, -⟩ | ⟨hburst, rfl⟩
      · have hs : step n (.work v) = some (n.setPc v .dequeue) := by
          simp [step, workerAction, htop, hq]
        rw [hs, Option.some.injEq] at h
        have hdeq : pc = .dequeue := by
          have hsame := congrFun (congrArg Net.pc h) v
          simpa [Net.setPc] using hsame.symm
        subst hdeq
        rw [htop] at hw ⊢
        exact ⟨hw, by simp [Event.actor, Pc.pollsLeft]⟩
      · rw [hdeq] at hw
        exact absurd hm hw
      · rw [hburst] at hw ⊢
        exact ⟨hw, by simp [Event.actor, Pc.pollsLeft]⟩
    · exact hother _ (by simpa [Event.actor] using hv)
        (Function.update_of_ne (Ne.symm hv) ..) rfl rfl
  | retry v dest i d hpc hr =>
    by_cases hv : v = w
    · subst hv
      rw [hpc] at hw
      exact absurd hw hr
    · exact hother n (by simpa [Event.actor] using hv) rfl rfl rfl
  | rxBurst v pkts hpc =>
    by_cases hv : v = w
    · subst hv
      have hpc' : (receive n v pkts).pc v = .burst pkts := Function.update_self ..
      rw [hpc] at hw
      rw [hpc', hpc]
      cases pkts with
      | nil => exact ⟨hw, by simp [Event.actor, Pc.pollsLeft]⟩
      | cons p rest => exact ⟨trivial, by simp [Event.actor, Pc.pollsLeft]⟩
    · exact hother _ (by simpa [Event.actor] using hv)
        (Function.update_of_ne (Ne.symm hv) ..) rfl rfl
  | command => exact hother _ (by simp [Event.actor]) rfl rfl hring
  | pop v i q hpc hm => exact absurd (by simp [Net.Productive, Net.MovesOn, hpc, hm]) hp
  | begin v p rest hpc => exact absurd (by simp [Net.Productive, Net.MovesOn, hpc]) hp
  | transmit v d e u hpc | act v d e f s st path hpc | actEnd v d e f s st hpc
  | relay v i e dest hpc => exact absurd (by simp [Net.Productive, Net.MovesOn, hpc]) hp
  | push v dest i d hpc hr => exact absurd (by simp [Net.Productive, Net.MovesOn, hpc, hr]) hp
  | drop | copy => exact absurd trivial hp
  | quit => exact absurd rfl hev

/-- Nobody is asked to quit in between. -/
theorem dpQuit_next {n n' : Net H} {ev : Event} (hq : n.config.dpQuit = false) (hev : ev ≠ .quit)
    (h : step n ev = some n') : n'.config.dpQuit = false := by
  have hrun : Running (fun _ ↦ false) n := ⟨hq, by simp⟩
  exact (hrun.next hev h).quit

/-- As long as no packet moves on, a worker that has something to do takes at most three steps. -/
theorem acts_le {n n' : Net H} {es : List Event} {w : Core} (hq : n.config.dpQuit = false)
    (hes : ∀ ev ∈ es, ev ≠ .quit) (hidle : countAlong step Net.Productive n es = 0)
    (hwork : n.HasWork w (n.pc w)) (h : run step n es = some n') :
    es.countP (fun ev ↦ ev.actor = some w) ≤ 3 := by
  have halong := (along_of_forall hes n).and (along_of_countAlong_eq_zero hidle)
  have hle : countAlong step (fun _ ev ↦ Event.actor ev = some w) n es + (n'.pc w).pollsLeft + 0 ≤
      (n.pc w).pollsLeft + 0 := by
    refine countAlong_le (Q := fun _ ev ↦ Event.actor ev = some w)
      (I := fun m ↦ m.config.dpQuit = false ∧ m.HasWork w (m.pc w))
      (fun m ↦ (m.pc w).pollsLeft) (fun _ ↦ 0) ?_ ?_ ⟨hq, hwork⟩ halong h
    · intro m ev m' hm hev hs
      exact ⟨dpQuit_next hm.1 hev.1 hs, (hasWork_next hm.1 hev.1 hev.2 hm.2 hs).1⟩
    · intro m ev m' hm hev hs
      exact (hasWork_next hm.1 hev.1 hev.2 hm.2 hs).2
  rw [countAlong_eq_countP h] at hle
  have h3 := (n.pc w).pollsLeft_le
  omega

/-! ### Workers that have nothing to do -/

/-- A worker that has nothing to do is idle, blocked, or looks for packets in vain. -/
theorem cases_of_not_hasWork {n : Net H} {w : Core} (h : ¬ n.HasWork w (n.pc w)) :
    n.pc w = .idle ∨ (∃ dest, n.Blocked w dest) ∨
      (n.mailbox w = [] ∧ (n.pc w).pending = [] ∧ n.messageAt w (n.pc w) = []) := by
  cases hpc : n.pc w with
  | idle => exact .inl rfl
  | top | dequeue | rx =>
    rw [hpc, Net.HasWork, not_not] at h
    exact .inr (.inr ⟨h, rfl, rfl⟩)
  | burst rest =>
    cases rest with
    | nil =>
      rw [hpc, Net.HasWork, not_not] at h
      exact .inr (.inr ⟨h, rfl, rfl⟩)
    | cons p rest =>
      rw [hpc] at h
      exact absurd trivial h
  | handle d =>
    rw [hpc] at h
    exact absurd trivial h
  | enqueue dest i d =>
    rw [hpc] at h
    exact .inr (.inl ⟨dest, ⟨i, d, hpc⟩, h⟩)

/-- Where no worker has anything to do, mail is abandoned, or for a blocked worker. -/
theorem blocked_of_mail {n : Net H} {w : Core} (hrest : ¬ n.HasWork w (n.pc w))
    (hab : ¬ n.Abandoned w) (hm : n.mailbox w ≠ []) : ∃ dest, n.Blocked w dest := by
  rcases cases_of_not_hasWork hrest with h | h | ⟨h, -⟩
  · exact absurd ⟨h, hm⟩ hab
  · exact h
  · exact absurd h hm

/-- Where no worker has anything to do and no mail is abandoned, every received packet has left the
network or lies with workers that block each other. -/
theorem out_of_rest {n : Net H} (hn : PacketInvariant n) (hr : 2 ≤ n.config.ringSize)
    (hrest : ∀ w, ¬ n.HasWork w (n.pc w)) (hab : ∀ w, ¬ n.Abandoned w) {p : Mbuf}
    (hp : p ∈ n.received) : p ∈ n.hist.transmitted ∨ p ∈ n.hist.freed ∨ Trapped n p := by
  have hstuck {w dest : Core} (hb : n.Blocked w dest) (hlies : n.LiesWith w p) :
      p ∈ n.hist.transmitted ∨ p ∈ n.hist.freed ∨ Trapped n p := by
    have hnext (v d : Core) (hvd : n.Blocked v d) : ∃ e, n.Blocked d e := by
      refine blocked_of_mail (hrest d) (hab d) fun he ↦ ?_
      have hfull := hvd.2
      rw [he, List.length_nil] at hfull
      omega
    obtain ⟨S, hS, hw⟩ := exists_waitsWithin hnext hb
    exact .inr (.inr ⟨S, hS, w, hw, hlies⟩)
  rcases hn.somewhere hp with h | h | ⟨w, hw⟩ | ⟨m, ⟨w, hw⟩ | ⟨w, i, hi, rfl⟩, rfl⟩
  · exact .inl h
  · exact .inr (.inl h)
  · rcases cases_of_not_hasWork (hrest w) with h | ⟨dest, h⟩ | ⟨-, h, -⟩
    · simp [h, Pc.pending] at hw
    · exact hstuck h (.inl hw)
    · simp [h] at hw
  · rcases cases_of_not_hasWork (hrest w) with h | ⟨dest, h⟩ | ⟨-, -, h⟩
    · simp [h, Net.messageAt] at hw
    · have hb := h
      obtain ⟨⟨i, d, hpc⟩, -⟩ := h
      rw [hpc] at hw
      obtain rfl := List.mem_singleton.mp hw
      exact hstuck hb (.inr ⟨i, .inl (by rw [hpc]; exact List.mem_singleton_self i), rfl⟩)
    · simp [h] at hw
  · obtain ⟨dest, h⟩ := blocked_of_mail (hrest w) (hab w) (List.ne_nil_of_mem hi)
    exact hstuck h (.inr ⟨i, .inr hi, rfl⟩)

/-! ### Fair runs -/

/-- The workers are those that the packets inside need: every packet is accounted for, mail is for
workers that run, nobody sends to itself, and the rings have room. -/
structure Staffed (launched : Core → Bool) (n : Net H) : Prop where
  packets : PacketInvariant n
  running : Running launched n
  off : ∀ w, launched w = false → n.pc w = .idle
  mail : ∀ w, ¬ n.Abandoned w
  aim : ∀ w, ¬ n.Blocked w w
  ring : 2 ≤ n.config.ringSize

/-- Workers with few packets inside do not block each other. -/
theorem Staffed.not_deadlocked {launched : Core → Bool} {n : Net H} (hn : Staffed launched n)
    (hfew : n.received.length <
      n.hist.transmitted.length + n.hist.freed.length + 2 * n.config.ringSize)
    (S : Finset Core) : ¬ Deadlocked n S := by
  intro hS
  have hneeds := (hS.inFlight fun w _ ↦ hn.aim w).2
  have hle := hn.packets.inFlight_le
  omega

/-- After a round in which no packet moves on, although every launched worker takes four steps, all
packets received before have left the network or lie with workers that block each other. -/
theorem Staffed.out_of_idle_round {launched : Core → Bool} {n n' : Net H} {r : List Event}
    (hn : Staffed launched n) (hes : ∀ ev ∈ r, ev ≠ .quit)
    (hfair : ∀ w, launched w = true → 4 ≤ r.countP fun ev ↦ ev.actor = some w)
    (hidle : countAlong step Net.Productive n r = 0) (h : run step n r = some n') {p : Mbuf}
    (hrec : p ∈ n.received) : p ∈ n.hist.transmitted ∨ p ∈ n.hist.freed ∨ Trapped n p := by
  refine out_of_rest hn.packets hn.ring (fun w hw ↦ ?_) hn.mail hrec
  cases hw' : launched w with
  | true =>
    have h3 := acts_le hn.running.quit hes hidle hw h
    have h4 := hfair w hw'
    omega
  | false =>
    rw [hn.off w hw'] at hw
    exact hw

/-- A run in rounds, in each of which every launched worker takes at least four steps. -/
structure FairRun (launched : Core → Bool) (n : Net H) (rounds : List (List Event)) (n' : Net H) :
    Prop where
  fair : ∀ r ∈ rounds, ∀ w, launched w = true → 4 ≤ r.countP fun ev ↦ ev.actor = some w
  run : Base.run step n rounds.flatten = some n'

/-- No run changes the size of the rings. -/
theorem ringSize_run {n n' : Net H} {es : List Event} (h : run step n es = some n') :
    n'.config.ringSize = n.config.ringSize :=
  run_invariant (P := fun m : Net H ↦ m.config.ringSize = n.config.ringSize)
    (fun _ _ _ hm hs ↦ (ringSize_taken (step_taken hs)).trans hm) rfl h

/-- A fair run of more rounds than moves, in which the workers are those that the packets need,
comes to a state in which every packet received before has left the network or lies with workers
that block each other. -/
theorem FairRun.exists_rest {launched : Core → Bool} {n n' : Net H} {rounds : List (List Event)}
    (hf : FairRun launched n rounds n') (hev : ∀ ev ∈ rounds.flatten, ev ≠ .quit)
    (hst : ∀ es fs u, rounds.flatten = es ++ fs → Base.run step n es = some u →
      u.Before n' → Staffed launched u)
    (hlong : countAlong step Net.Productive n rounds.flatten < rounds.length) :
    ∃ es fs u, rounds.flatten = es ++ fs ∧ Base.run step n es = some u ∧
      Base.run step u fs = some n' ∧ Staffed launched u ∧
      ∀ p ∈ n.received, p ∈ u.hist.transmitted ∨ p ∈ u.hist.freed ∨ Trapped u p := by
  obtain ⟨pre, r, post, hrs, u, v, hu, hv, hpost, hzero⟩ := exists_idle_round hf.run hlong
  have hmem : r ∈ rounds := by
    rw [hrs]
    exact List.mem_append_right pre List.mem_cons_self
  have hr : ∀ ev ∈ r, ev ∈ rounds.flatten := fun ev hev ↦ List.mem_flatten.mpr ⟨r, hmem, hev⟩
  have hsplit : rounds.flatten = pre.flatten ++ (r :: post).flatten := by
    rw [hrs, List.flatten_append]
  have hrest : Base.run step u (r :: post).flatten = some n' := by
    rw [List.flatten_cons]
    exact run_append_iff.mpr ⟨v, hv, hpost⟩
  have hun := hst _ _ u hsplit hu (before_run hrest)
  refine ⟨_, _, u, hsplit, hu, hrest, hun, fun p hrec ↦ ?_⟩
  exact hun.out_of_idle_round (fun ev h ↦ hev ev (hr ev h)) (hf.fair r hmem) hzero hv
    (((before_run hu).received.map Prod.snd).subset hrec)

/-- In a fair run of more rounds than moves, in which the workers are those that the packets need,
every packet received before leaves the network. -/
theorem FairRun.drains {launched : Core → Bool} {n n' : Net H} {rounds : List (List Event)}
    (hf : FairRun launched n rounds n') (hev : ∀ ev ∈ rounds.flatten, ev ≠ .quit)
    (hst : ∀ es fs u, rounds.flatten = es ++ fs → Base.run step n es = some u →
      u.Before n' → Staffed launched u)
    (hlong : countAlong step Net.Productive n rounds.flatten < rounds.length)
    (hfew : n'.received.length <
      n.hist.transmitted.length + n.hist.freed.length + 2 * n.config.ringSize) :
    ∀ p ∈ n.received, p ∈ n'.hist.transmitted ∨ p ∈ n'.hist.freed := by
  obtain ⟨es, fs, u, -, hu, hafter, hun, hout⟩ := hf.exists_rest hev hst hlong
  have hfewu : u.received.length <
      u.hist.transmitted.length + u.hist.freed.length + 2 * u.config.ringSize := by
    have h1 := (before_run hafter).received.length_le
    have h2 := (before_run hu).transmitted.length_le
    have h3 := (before_run hu).freed.length_le
    rw [ringSize_run hu]
    simp only [Net.received, List.length_map] at hfew ⊢
    omega
  intro p hrec
  rcases hout p hrec with h | h | ⟨S, hS, -⟩
  · exact (before_run hafter).out (.inl h)
  · exact (before_run hafter).out (.inr h)
  · exact absurd hS (hun.not_deadlocked hfewu S)

/-- Workers over `c` are those that its packets need. -/
theorem Driven.staffed {c : Config H} {launched : Core → Bool} {n : Net H}
    (hn : Driven c launched n) (hr : 2 ≤ c.ringSize)
    (hoff : ∀ w, launched w = false → n.pc w = .idle)
    (hl : ∀ w p l a v, (w, p) ∈ n.hist.received → c.Trail (c.firstOf w p) l a →
      c.servesAt a = some v → launched v = true) : Staffed launched n where
  packets := hn.routed.packets
  running := hn.running
  off := hoff
  mail := hn.not_abandoned hl
  aim w hb := by
    obtain ⟨⟨i, d, hpc⟩, -⟩ := hb
    exact (hn.working.ordered.sending.dest w w i d hpc).2 rfl
  ring := hn.ring ▸ hr

/-- At most so many packets can move in a run after the workers were launched. -/
theorem countAlong_after_launch_le {c : Config H} {launched : Core → Bool} {size : Nat}
    {mem : Item → Message} {scratch : Core → Message} {rank : Int → Nat} {top : Nat}
    (hd : c.Descends rank top) (hk : c.KeepsPaths) {es fs : List Event} {n n' : Net H}
    (hes : ∀ ev ∈ es, ev.KeepsRunning) (hfs : ∀ ev ∈ fs, ev.KeepsRunning)
    (h : run step (launch c launched size mem scratch) es = some n)
    (h' : run step n fs = some n') :
    countAlong step Net.Productive n fs ≤ (6 * top + 8) * n'.received.length := by
  have hall := countAlong_launch_le hd hk (fun ev hev ↦ ?_) (run_append_iff.mpr ⟨n, h, h'⟩)
  · rw [countAlong_append h] at hall
    omega
  · exact ((List.mem_append.mp hev).elim (hes ev) (hfs ev)).1

/-- Workers that were not launched are idle. -/
theorem idle_of_launch {c : Config H} {launched : Core → Bool} {size : Nat}
    {mem : Item → Message} {scratch : Core → Message} {n : Net H} {es : List Event}
    (h : run step (launch c launched size mem scratch) es = some n) {w : Core}
    (hw : launched w = false) : n.pc w = .idle :=
  idle_run (by simp [launch, hw]) h

section Driven

variable {c : Config H} {launched : Core → Bool} {n n' : Net H} {rounds : List (List Event)}

/-- In a fair run over `c`, the workers are those that the packets need. -/
theorem Driven.staffed_run (hn : Driven c launched n)
    (hev : ∀ ev ∈ rounds.flatten, ev.KeepsRunning)
    (hoff : ∀ w, launched w = false → n.pc w = .idle) (hk : c.KeepsPaths) (hp : c.PathsInTable)
    (hr : 2 ≤ c.ringSize)
    (hl : ∀ w p l a v, (w, p) ∈ n'.hist.received → c.Trail (c.firstOf w p) l a →
      c.servesAt a = some v → launched v = true) (es fs : List Event) (u : Net H)
    (hsplit : rounds.flatten = es ++ fs) (hu : Base.run step n es = some u) (hafter : u.Before n') :
    Staffed launched u := by
  have hes : ∀ ev ∈ es, ev.KeepsRunning := fun ev h ↦
    hev ev (hsplit ▸ List.mem_append_left fs h)
  exact (hn.run hk hp hes hu).staffed hr (fun w hw ↦ idle_run (hoff w hw) hu)
    fun w p l a v hw ↦ hl w p l a v (hafter.received.subset hw)

/-- A fair run of workers over `c` drains the network. -/
theorem FairRun.drains_of_driven (hf : FairRun launched n rounds n')
    (hev : ∀ ev ∈ rounds.flatten, ev.KeepsRunning) (hn : Driven c launched n)
    (hoff : ∀ w, launched w = false → n.pc w = .idle) (hk : c.KeepsPaths) (hp : c.PathsInTable)
    (hr : 2 ≤ c.ringSize)
    (hl : ∀ w p l a v, (w, p) ∈ n'.hist.received → c.Trail (c.firstOf w p) l a →
      c.servesAt a = some v → launched v = true)
    (hlong : countAlong step Net.Productive n rounds.flatten < rounds.length)
    (hfew : n'.received.length <
      n.hist.transmitted.length + n.hist.freed.length + 2 * c.ringSize) :
    ∀ p ∈ n.received, p ∈ n'.hist.transmitted ∨ p ∈ n'.hist.freed :=
  hf.drains (fun ev h ↦ (hev ev h).2) (hn.staffed_run hev hoff hk hp hr hl) hlong (hn.ring ▸ hfew)

/-- After a fair run of workers over `c`, every packet received before has left the network, or lies
with workers that block each other. -/
theorem FairRun.drains_or_traps (hf : FairRun launched n rounds n')
    (hev : ∀ ev ∈ rounds.flatten, ev.KeepsRunning) (hn : Driven c launched n)
    (hoff : ∀ w, launched w = false → n.pc w = .idle) (hk : c.KeepsPaths) (hp : c.PathsInTable)
    (hr : 2 ≤ c.ringSize)
    (hl : ∀ w p l a v, (w, p) ∈ n'.hist.received → c.Trail (c.firstOf w p) l a →
      c.servesAt a = some v → launched v = true)
    (hlong : countAlong step Net.Productive n rounds.flatten < rounds.length) :
    ∀ p ∈ n.received, p ∈ n'.hist.transmitted ∨ p ∈ n'.hist.freed ∨ Trapped n' p := by
  obtain ⟨es, fs, u, hsplit, hu, hafter, -, hout⟩ :=
    hf.exists_rest (fun ev h ↦ (hev ev h).2) (hn.staffed_run hev hoff hk hp hr hl) hlong
  have hes : ∀ ev ∈ es, ev.KeepsRunning := fun ev h ↦
    hev ev (hsplit ▸ List.mem_append_left fs h)
  have hfs : ∀ ev ∈ fs, ev.IsWork := fun ev h ↦
    (hev ev (hsplit ▸ List.mem_append_right es h)).1
  intro p hrec
  rcases hout p hrec with h | h | h
  · exact .inl ((before_run hafter).transmitted.subset h)
  · exact .inr (.inl ((before_run hafter).freed.subset h))
  · exact .inr (.inr (h.run (hn.run hk hp hes hu).routed hk hp hfs hafter))

end Driven

/-- In a run of more rounds than packets can move, in each of which every launched worker takes at
least four steps, every packet received before leaves the network, whatever the interleaving, as
long as fewer packets are inside than fill two rings and all workers on their ways were
launched. -/
theorem fair_runs_drain (c : Config H) (launched : Core → Bool) (size : Nat)
    (mem : Item → Message) (scratch : Core → Message) (rank : Int → Nat) (top : Nat)
    (hd : c.Descends rank top) (hk : c.KeepsPaths) (hp : c.PathsInTable)
    (hq : c.dpQuit = false) (hr : 2 ≤ c.ringSize) (es : List Event) (n : Net H)
    (hes : ∀ ev ∈ es, ev.KeepsRunning)
    (h : run step (launch c launched size mem scratch) es = some n)
    (rounds : List (List Event)) (n' : Net H) (hrounds : ∀ ev ∈ rounds.flatten, ev.KeepsRunning)
    (hf : FairRun launched n rounds n')
    (hl : ∀ w p l a v, (w, p) ∈ n'.hist.received → c.Trail (c.firstOf w p) l a →
      c.servesAt a = some v → launched v = true)
    (hlong : (6 * top + 8) * n'.received.length < rounds.length)
    (hfew : n'.received.length <
      n.hist.transmitted.length + n.hist.freed.length + 2 * c.ringSize) :
    ∀ p ∈ n.received, p ∈ n'.hist.transmitted ∨ p ∈ n'.hist.freed := by
  have hn := (driven_launch c launched size mem scratch hq).run hk hp hes h
  have hmoves := countAlong_after_launch_le hd hk hes hrounds h hf.run
  exact hf.drains_of_driven hrounds hn (fun w ↦ idle_of_launch h) hk hp hr hl (by omega) hfew

/-- Workers 1 and 3 over `relayConfig`. -/
private def relayPair : Net Unit :=
  launch relayConfig (fun w ↦ w == 1 || w == 3) 1 (fun _ ↦ ⟨0, 0, 0, 0, ⟨0, 0⟩, 0⟩)
    (fun _ ↦ ⟨0, 0, 0, 0, ⟨0, 0⟩, 0⟩)

/-- A round in which both poll once and once more. -/
private def pollRound : List Event :=
  [.work 1, .work 3, .work 1, .work 3, .rxBurst 1 [], .work 3, .work 1, .work 3]

/-- After 15 fair rounds the packet that worker 1 has received has left the network. -/
theorem fair_runs_drain_relay : ∃ n n', run step relayPair (relayRun.take 3) = some n ∧
    run step n ((relayRun.drop 3 ++ [.work 3, .work 1]) ::
      List.replicate 14 pollRound).flatten = some n' ∧
      ∀ p ∈ n.received, p ∈ n'.hist.transmitted ∨ p ∈ n'.hist.freed := by
  have hrun : ((run step relayPair (relayRun.take 3)).bind fun n ↦
      (run step n ((relayRun.drop 3 ++ [.work 3, .work 1]) ::
        List.replicate 14 pollRound).flatten).map fun n' ↦
          (n'.received, n.hist.transmitted, n.hist.freed)) = some ([⟨7, 0⟩], [], []) := by
    decide +kernel
  obtain ⟨n, hn, hv⟩ := Option.bind_eq_some_iff.mp hrun
  obtain ⟨n', hn', hv⟩ := Option.map_eq_some_iff.mp hv
  simp only [Prod.mk.injEq] at hv
  obtain ⟨hrec, htr, hfr⟩ := hv
  have hes : ∀ ev ∈ relayRun.take 3, ev.KeepsRunning := by
    simp [relayRun, Event.KeepsRunning, Event.IsWork]
  refine ⟨n, n', hn, hn', fair_runs_drain relayConfig _ 1 _ _ _ 1 relay_descends relay_keepsPaths
    relay_pathsInTable rfl (by decide) _ n hes hn _ n' ?_ ⟨?_, hn'⟩
    (fun _ _ _ _ _ _ ht hv ↦ by rcases relay_served ht hv with rfl | rfl <;> decide) ?_ ?_⟩
  · simp [relayRun, pollRound, Event.KeepsRunning, Event.IsWork]
  · decide +kernel
  · rw [hrec]
    decide
  · rw [hrec, htr, hfr]
    decide

end Nflambda.Runtime
