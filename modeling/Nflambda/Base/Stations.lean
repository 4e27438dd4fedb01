import Mathlib.Data.List.Nodup
import Mathlib.Data.List.Sublists
import Mathlib.Logic.Function.Basic

/-!
# Stations that serve jobs in order

Library `Base`. Every station has a queue, one job in hand and jobs that arrive from outside. A
job in hand is served where its next label belongs, otherwise it is sent to the queue of the
station it belongs to. A service may choose the label that follows. Below: jobs that arrived at
one station and have been served under the same labels were served in the order of their arrival.
-/

namespace Nflambda.Base

variable {σ ι α : Type*}

/-- A job in the network: the labels it has been served under, and the next one. -/
structure Job (ι α : Type*) where
  id : ι
  done : List α
  next : α

/-- What a job has been served under after its next service. -/
def Job.trail (j : Job ι α) : List α := j.done ++ [j.next]

/-- Jobs with the same trail have the same labels. -/
theorem Job.trail_inj {j j' : Job ι α} (h : j'.trail = j.trail) :
    j'.done = j.done ∧ j'.next = j.next := by
  have h' := List.append_inj' h rfl
  exact ⟨h'.1, List.cons.inj h'.2 |>.1⟩

/-- The stations with the history of arrivals and services. -/
@[ext]
structure Stations (σ ι α : Type*) where
  arrived : σ → List ι
  waiting : σ → List ι
  hand : σ → Option (Job ι α)
  queue : σ → List (Job ι α)
  served : List (ι × List α)

namespace Stations

variable [DecidableEq σ] {site : α → Option σ} {follows : α → α → Prop} {s t : Stations σ ι α}

/-- Replace the job in hand. -/
def setHand (s : Stations σ ι α) (v : σ) (o : Option (Job ι α)) : Stations σ ι α :=
  { s with hand := Function.update s.hand v o }

/-- Replace a queue. -/
def setQueue (s : Stations σ ι α) (v : σ) (q : List (Job ι α)) : Stations σ ι α :=
  { s with queue := Function.update s.queue v q }

/-- Replace the jobs that have arrived and wait. -/
def setWaiting (s : Stations σ ι α) (v : σ) (l : List ι) : Stations σ ι α :=
  { s with waiting := Function.update s.waiting v l }

/-- Note arrivals. -/
def arrive (s : Stations σ ι α) (v : σ) (ids : List ι) : Stations σ ι α :=
  { s with arrived := Function.update s.arrived v (s.arrived v ++ ids) }

/-- Note that a job is served under its next label. -/
def log (s : Stations σ ι α) (j : Job ι α) : Stations σ ι α :=
  { s with served := s.served ++ [(j.id, j.trail)] }

/-- The next job of a station is that in hand, then those of the queue. -/
def inbox (s : Stations σ ι α) (v : σ) : List (Job ι α) :=
  (s.hand v).toList ++ s.queue v

/-- One step of one station, where labels belong to the stations that `site` names, and `follows`
says which label may follow a service. -/
inductive Step (site : α → Option σ) (follows : α → α → Prop) (s : Stations σ ι α) :
    Stations σ ι α → Prop
  | arrive (v : σ) (ids : List ι) (hne : ids ≠ []) (hw : s.waiting v = []) (hids : ids.Nodup)
      (hnew : ∀ p ∈ ids, ∀ u, p ∉ s.arrived u) :
      s.Step site follows ((s.arrive v ids).setWaiting v ids)
  | start (v : σ) (p : ι) (rest : List ι) (a : α) (hw : s.waiting v = p :: rest)
      (hh : s.hand v = none) :
      s.Step site follows ((s.setWaiting v rest).setHand v (some ⟨p, [], a⟩))
  | take (v : σ) (j : Job ι α) (q : List (Job ι α)) (hh : s.hand v = none)
      (hq : s.queue v = j :: q) :
      s.Step site follows ((s.setQueue v q).setHand v (some j))
  | serve (v : σ) (j : Job ι α) (b : α) (hh : s.hand v = some j) (hs : site j.next = some v)
      (hb : follows j.next b) : s.Step site follows ((s.log j).setHand v (some ⟨j.id, j.trail, b⟩))
  | finish (v : σ) (j : Job ι α) (hh : s.hand v = some j) (hs : site j.next = some v) :
      s.Step site follows ((s.log j).setHand v none)
  | lose (v : σ) (j : Job ι α) (hh : s.hand v = some j) :
      s.Step site follows (s.setHand v none)
  | send (v d : σ) (j : Job ι α) (hh : s.hand v = some j) (hs : site j.next = some d)
      (hd : d ≠ v) :
      s.Step site follows ((s.setHand v none).setQueue d (s.queue d ++ [j]))

/-! ### The inboxes after a change -/

omit [DecidableEq σ] in
/-- A job of an inbox is in hand or in the queue. -/
theorem mem_inbox {v : σ} {j : Job ι α} :
    j ∈ s.inbox v ↔ s.hand v = some j ∨ j ∈ s.queue v := by
  simp [inbox]

section Inbox

variable (s) (v u : σ) (o : Option (Job ι α)) (q : List (Job ι α)) (l : List ι) (j : Job ι α)

theorem inbox_setHand_self : (s.setHand v o).inbox v = o.toList ++ s.queue v := by
  simp [inbox, setHand]

theorem inbox_setHand_of_ne {u v : σ} (h : u ≠ v) : (s.setHand v o).inbox u = s.inbox u := by
  simp [inbox, setHand, h]

theorem inbox_setQueue_self : (s.setQueue v q).inbox v = (s.hand v).toList ++ q := by
  simp [inbox, setQueue]

theorem inbox_setQueue_of_ne {u v : σ} (h : u ≠ v) : (s.setQueue v q).inbox u = s.inbox u := by
  simp [inbox, setQueue, h]

@[simp] theorem inbox_setWaiting : (s.setWaiting v l).inbox u = s.inbox u := rfl

@[simp] theorem inbox_arrive : (s.arrive v l).inbox u = s.inbox u := rfl

omit [DecidableEq σ] in
@[simp] theorem inbox_log : (s.log j).inbox u = s.inbox u := rfl

end Inbox

/-! ### Every job is in one place -/

/-- The places of a job. -/
inductive Place (σ : Type*) where
  | outside
  | waiting (v : σ)
  | hand (v : σ)
  | queue (v : σ)

/-- A job is in a place; it is outside until it arrives. -/
def Holds (s : Stations σ ι α) (p : ι) : Place σ → Prop
  | .outside => ∀ v, p ∉ s.arrived v
  | .waiting v => p ∈ s.waiting v
  | .hand v => ∃ j, s.hand v = some j ∧ j.id = p
  | .queue v => ∃ j ∈ s.queue v, j.id = p

/-- Every job that is in a place is where `loc` says. -/
def LocatedBy (s : Stations σ ι α) (loc : ι → Place σ) : Prop :=
  ∀ a p, s.Holds p a → loc p = a

/-- Every job has arrived once and is in one place. -/
structure Sound (s : Stations σ ι α) : Prop where
  located : ∃ loc, s.LocatedBy loc
  nodup : ∀ v, ((s.queue v).map Job.id).Nodup
  arrived : ∀ v, (s.arrived v).Nodup
  once : ∀ u v p, p ∈ s.arrived u → p ∈ s.arrived v → u = v
  suffix : ∀ v, s.waiting v <:+ s.arrived v

section Located

variable {loc : ι → Place σ} {a b : Place σ} {p q : ι} {v : σ}

/-- Where the jobs are after a hand has changed. -/
theorem Holds.of_setHand {o : Option (Job ι α)} (h : (s.setHand v o).Holds p a) :
    s.Holds p a ∧ a ≠ .hand v ∨ a = .hand v ∧ ∃ j, o = some j ∧ j.id = p := by
  cases a with
  | hand u =>
    by_cases hu : u = v
    · subst hu
      right
      simpa [Holds, setHand] using h
    · left
      simpa [Holds, setHand, hu] using h
  | outside | waiting u | queue u => exact .inl ⟨h, by simp⟩

/-- Where the jobs are after a queue has changed. -/
theorem Holds.of_setQueue {l : List (Job ι α)} (h : (s.setQueue v l).Holds p a) :
    s.Holds p a ∧ a ≠ .queue v ∨ a = .queue v ∧ ∃ j ∈ l, j.id = p := by
  cases a with
  | queue u =>
    by_cases hu : u = v
    · subst hu
      right
      simpa [Holds, setQueue] using h
    · left
      simpa [Holds, setQueue, hu] using h
  | outside | waiting u | hand u => exact .inl ⟨h, by simp⟩

/-- Where the jobs are after the waiting ones have changed. -/
theorem Holds.of_setWaiting {l : List ι} (h : (s.setWaiting v l).Holds p a) :
    s.Holds p a ∧ a ≠ .waiting v ∨ a = .waiting v ∧ p ∈ l := by
  cases a with
  | waiting u =>
    by_cases hu : u = v
    · subst hu
      right
      simpa [Holds, setWaiting] using h
    · left
      simpa [Holds, setWaiting, hu] using h
  | outside | queue u | hand u => exact .inl ⟨h, by simp⟩

/-- After an arrival the new jobs are not outside. -/
theorem Holds.of_arrive {l : List ι} (h : (s.arrive v l).Holds p a) :
    s.Holds p a ∧ (a = .outside → p ∉ l) := by
  cases a with
  | outside =>
    have hv := h v
    simp only [arrive, Function.update_self, List.mem_append, not_or] at hv
    refine ⟨fun u ↦ ?_, fun _ ↦ hv.2⟩
    by_cases hu : u = v
    · exact hu ▸ hv.1
    · simpa [arrive, hu] using h u
  | waiting u | queue u | hand u => exact ⟨h, by simp⟩

omit [DecidableEq σ] in
/-- A job in one place is not a job in another. -/
theorem LocatedBy.ne (h : s.LocatedBy loc) (hp : s.Holds p a) (hq : s.Holds q b) (hab : a ≠ b) :
    p ≠ q := by
  rintro rfl
  exact hab ((h a p hp).symm.trans (h b p hq))

omit [DecidableEq σ] in
/-- Moving one job from a place to another one. -/
theorem LocatedBy.move [DecidableEq ι] (h : s.LocatedBy loc) (hq : s.Holds q a)
    (hm : ∀ c p, t.Holds p c → s.Holds p c ∧ (c = a → p ≠ q) ∨ p = q ∧ c = b) :
    t.LocatedBy (Function.update loc q b) := by
  intro c p hp
  obtain ⟨ho, hne⟩ | ⟨rfl, rfl⟩ := hm c p hp
  · have hpq : p ≠ q := by
      by_cases hc : c = a
      · exact hne hc
      · exact h.ne ho hq hc
    rw [Function.update_of_ne hpq]
    exact h c p ho
  · rw [Function.update_self]

omit [DecidableEq σ] in
/-- Where fewer jobs are in places, the others stay where they are. -/
theorem LocatedBy.mono (h : s.LocatedBy loc) (hm : ∀ c p, t.Holds p c → s.Holds p c) :
    t.LocatedBy loc :=
  fun c p hp ↦ h c p (hm c p hp)

end Located

omit [DecidableEq σ] in
theorem Sound.waiting_nodup (h : s.Sound) (v : σ) : (s.waiting v).Nodup :=
  (h.arrived v).sublist (h.suffix v).sublist

/-- Every step keeps every job in one place. -/
theorem Sound.located_next (h : s.Sound) (hs : Step site follows s t) : ∃ loc, t.LocatedBy loc := by
  classical
  obtain ⟨loc, hl⟩ := h.located
  cases hs with
  | arrive v ids hne hw hids hnew =>
    refine ⟨fun p ↦ if p ∈ ids then .waiting v else loc p, fun a p hp ↦ ?_⟩
    obtain ⟨ho, -⟩ | ⟨rfl, hm⟩ := hp.of_setWaiting
    · obtain ⟨hs, hout⟩ := ho.of_arrive
      have hp : p ∉ ids := by
        intro hm
        exact hout ((hl a p hs).symm.trans (hl .outside p (hnew p hm))) hm
      exact (if_neg hp).trans (hl a p hs)
    · exact if_pos hm
  | start v p rest a hw hh =>
    have hn := h.waiting_nodup v
    rw [hw, List.nodup_cons] at hn
    have hp : s.Holds p (.waiting v) := by simp [Holds, hw]
    refine ⟨_, hl.move (b := .hand v) hp fun c r hr ↦ ?_⟩
    obtain ⟨hr, -⟩ | ⟨rfl, j, hj, rfl⟩ := hr.of_setHand
    · obtain ⟨hr, hc⟩ | ⟨rfl, hm⟩ := hr.of_setWaiting
      · exact .inl ⟨hr, fun hcv ↦ absurd hcv hc⟩
      · refine .inl ⟨?_, ?_⟩
        · simp [Holds, hw, hm]
        · rintro - rfl
          exact hn.1 hm
    · rw [Option.some.injEq] at hj
      exact .inr ⟨by rw [← hj], rfl⟩
  | take v j q hh hq =>
    have hn := h.nodup v
    rw [hq, List.map_cons, List.nodup_cons] at hn
    have hp : s.Holds j.id (.queue v) := ⟨j, by simp [hq], rfl⟩
    refine ⟨_, hl.move (b := .hand v) hp fun c r hr ↦ ?_⟩
    obtain ⟨hr, -⟩ | ⟨rfl, j', hj, rfl⟩ := hr.of_setHand
    · obtain ⟨hr, hc⟩ | ⟨rfl, j', hm, rfl⟩ := hr.of_setQueue
      · exact .inl ⟨hr, fun hcv ↦ absurd hcv hc⟩
      · refine .inl ⟨⟨j', by simp [hq, hm], rfl⟩, fun _ he ↦ hn.1 ?_⟩
        rw [← he]
        exact List.mem_map_of_mem hm
    · rw [Option.some.injEq] at hj
      exact .inr ⟨by rw [← hj], rfl⟩
  | serve v j b hh hs =>
    refine ⟨loc, hl.mono fun c r hr ↦ ?_⟩
    obtain ⟨hr, -⟩ | ⟨rfl, j', hj, rfl⟩ := hr.of_setHand
    · exact hr
    · rw [Option.some.injEq] at hj
      exact ⟨j, hh, by rw [← hj]⟩
  | finish v j hh hs =>
    refine ⟨loc, hl.mono fun c r hr ↦ ?_⟩
    obtain ⟨hr, -⟩ | ⟨-, j', hj, -⟩ := hr.of_setHand
    · exact hr
    · simp at hj
  | lose v j hh =>
    refine ⟨loc, hl.mono fun c r hr ↦ ?_⟩
    obtain ⟨hr, -⟩ | ⟨-, j', hj, -⟩ := hr.of_setHand
    · exact hr
    · simp at hj
  | send v d j hh hs hd =>
    have hp : s.Holds j.id (.hand v) := ⟨j, hh, rfl⟩
    refine ⟨_, hl.move (b := .queue d) hp fun c r hr ↦ ?_⟩
    obtain ⟨hr, -⟩ | ⟨rfl, j', hj, rfl⟩ := hr.of_setQueue
    · obtain ⟨hr, hc⟩ | ⟨-, j', hj, -⟩ := hr.of_setHand
      · exact .inl ⟨hr, fun hcv ↦ absurd hcv hc⟩
      · simp at hj
    · rcases List.mem_append.mp hj with hj | hj
      · exact .inl ⟨⟨j', hj, rfl⟩, by simp⟩
      · rw [List.mem_singleton] at hj
        exact .inr ⟨by rw [hj], rfl⟩

/-- Every step keeps every job in one place, once. -/
theorem Sound.next (h : s.Sound) (hs : Step site follows s t) : t.Sound := by
  refine ⟨h.located_next hs, ?_, ?_, ?_, ?_⟩
  · intro u
    cases hs with
    | take v j q hh hq =>
      by_cases hu : u = v
      · subst hu
        have hn := h.nodup u
        rw [hq, List.map_cons, List.nodup_cons] at hn
        simpa [setHand, setQueue] using hn.2
      · simpa [setHand, setQueue, hu] using h.nodup u
    | send v d j hh hs hd =>
      by_cases hu : u = d
      · subst hu
        obtain ⟨loc, hl⟩ := h.located
        have hj : ∀ i ∈ s.queue u, i.id ≠ j.id := fun i hi ↦
          hl.ne (a := .queue u) (b := .hand v) ⟨i, hi, rfl⟩ ⟨j, hh, rfl⟩ (by simp)
        simp only [setQueue, Function.update_self, List.map_append, List.map_cons, List.map_nil]
        refine List.nodup_append.mpr ⟨h.nodup u, List.nodup_singleton _, ?_⟩
        simpa using hj
      · simpa [setHand, setQueue, hu] using h.nodup u
    | arrive | start | serve | finish | lose => exact h.nodup u
  · intro u
    cases hs with
    | arrive v ids hne hw hids hnew =>
      by_cases hu : u = v
      · subst hu
        simp only [arrive, setWaiting, Function.update_self]
        refine List.nodup_append.mpr ⟨h.arrived u, hids, ?_⟩
        rintro a ha b hb rfl
        exact hnew a hb u ha
      · simpa [arrive, setWaiting, hu] using h.arrived u
    | start | take | serve | finish | lose | send => exact h.arrived u
  · intro u w p hu hw
    cases hs with
    | arrive v ids hne hwait hids hnew =>
      have hmem {x : σ} (hx : p ∈ ((s.arrive v ids).setWaiting v ids).arrived x) :
          p ∈ s.arrived x ∨ x = v ∧ p ∈ ids := by
        by_cases hxv : x = v
        · subst hxv
          simpa [arrive, setWaiting] using hx
        · left
          simpa [arrive, setWaiting, hxv] using hx
      rcases hmem hu with hou | ⟨rfl, hi⟩ <;> rcases hmem hw with how | ⟨rfl, hj⟩
      · exact h.once u w p hou how
      · exact absurd hou (hnew p hj u)
      · exact absurd how (hnew p hi w)
      · rfl
    | start | take | serve | finish | lose | send => exact h.once u w p hu hw
  · intro u
    cases hs with
    | arrive v ids hne hw hids hnew =>
      by_cases hu : u = v
      · subst hu
        simp [arrive, setWaiting]
      · simpa [arrive, setWaiting, hu] using h.suffix u
    | start v p rest a hw hh =>
      by_cases hu : u = v
      · subst hu
        have hx := h.suffix u
        rw [hw] at hx
        simpa [setWaiting, setHand] using (List.suffix_cons p rest).trans hx
      · simpa [setWaiting, setHand, hu] using h.suffix u
    | take | serve | finish | lose | send => exact h.suffix u

omit [DecidableEq σ] in
/-- A job of an inbox is in hand or in the queue of that station. -/
theorem holds_of_mem_inbox {u : σ} {j : Job ι α} (hj : j ∈ s.inbox u) :
    s.Holds j.id (.hand u) ∨ s.Holds j.id (.queue u) := by
  rcases mem_inbox.mp hj with hj | hj
  · exact .inl ⟨j, hj, rfl⟩
  · exact .inr ⟨j, hj, rfl⟩

omit [DecidableEq σ] in
/-- The job of an inbox has arrived. -/
theorem Sound.exists_arrived (h : s.Sound) {u : σ} {j : Job ι α} (hj : j ∈ s.inbox u) :
    ∃ v, j.id ∈ s.arrived v := by
  obtain ⟨loc, hl⟩ := h.located
  by_contra hn
  have ho : s.Holds j.id .outside := not_exists.mp hn
  rcases holds_of_mem_inbox hj with hj | hj
  · exact hl.ne ho hj (by simp) rfl
  · exact hl.ne ho hj (by simp) rfl

omit [DecidableEq σ] in
/-- A waiting job is in no inbox. -/
theorem Sound.not_waiting (h : s.Sound) {u v : σ} {j : Job ι α} (hj : j ∈ s.inbox u) :
    j.id ∉ s.waiting v := by
  obtain ⟨loc, hl⟩ := h.located
  intro hw
  have hw' : s.Holds j.id (.waiting v) := hw
  rcases holds_of_mem_inbox hj with hj | hj
  · exact hl.ne hw' hj (by simp) rfl
  · exact hl.ne hw' hj (by simp) rfl

omit [DecidableEq σ] in
/-- A job is in one inbox, once. -/
theorem Sound.eq_of_id (h : s.Sound) {u v : σ} {j j' : Job ι α} (hj : j ∈ s.inbox u)
    (hj' : j' ∈ s.inbox v) (hid : j'.id = j.id) : v = u ∧ j' = j := by
  obtain ⟨loc, hl⟩ := h.located
  rcases mem_inbox.mp hj with hu | hu <;> rcases mem_inbox.mp hj' with hv | hv
  · have he := hl (.hand v) _ ⟨j', hv, rfl⟩
    rw [hid, hl (.hand u) _ ⟨j, hu, rfl⟩, Place.hand.injEq] at he
    subst he
    exact ⟨rfl, Option.some.inj (hv.symm.trans hu)⟩
  · exact absurd hid (hl.ne (a := .queue v) (b := .hand u) ⟨j', hv, rfl⟩ ⟨j, hu, rfl⟩ (by simp))
  · exact absurd hid (hl.ne (a := .hand v) (b := .queue u) ⟨j', hv, rfl⟩ ⟨j, hu, rfl⟩ (by simp))
  · have he := hl (.queue v) _ ⟨j', hv, rfl⟩
    rw [hid, hl (.queue u) _ ⟨j, hu, rfl⟩, Place.queue.injEq] at he
    subst he
    exact ⟨rfl, List.inj_on_of_nodup_map (h.nodup u) hv hu hid⟩

/-! ### The record of the services -/

/-- The services a job has had are on record, each after the shorter ones, and a job that still
waits has had none. -/
structure Recorded (s : Stations σ ι α) : Prop where
  done : ∀ v, ∀ j ∈ s.inbox v, j.done ≠ [] → (j.id, j.done) ∈ s.served
  before : ∀ v, ∀ j ∈ s.inbox v, ∀ l, (j.id, l) ∈ s.served → l <+: j.done
  shorter : ∀ p l a, (p, l ++ [a]) ∈ s.served → l ≠ [] → (p, l) ∈ s.served
  arrived : ∀ e ∈ s.served, ∃ v, e.1 ∈ s.arrived v
  started : ∀ e ∈ s.served, ∀ v, e.1 ∉ s.waiting v

/-- The inboxes after a hand has changed. -/
theorem mem_inbox_setHand {u v : σ} {o : Option (Job ι α)} {j : Job ι α}
    (h : j ∈ (s.setHand v o).inbox u) :
    u = v ∧ o = some j ∨ j ∈ s.inbox u ∧ (u = v → j ∈ s.queue v) := by
  by_cases hu : u = v
  · subst hu
    rw [inbox_setHand_self, List.mem_append, Option.mem_toList] at h
    rcases h with h | h
    · exact .inl ⟨rfl, h⟩
    · exact .inr ⟨mem_inbox.mpr (.inr h), fun _ ↦ h⟩
  · rw [inbox_setHand_of_ne s o hu] at h
    exact .inr ⟨h, fun he ↦ absurd he hu⟩

/-- The inboxes after a hand has been emptied. -/
theorem mem_inbox_of_none {u v : σ} {j : Job ι α} (h : j ∈ (s.setHand v none).inbox u) :
    j ∈ s.inbox u := by
  obtain ⟨-, hn⟩ | ⟨hj, -⟩ := mem_inbox_setHand h
  · simp at hn
  · exact hj

/-- The inboxes after a job has been put into a hand. -/
theorem mem_inbox_setHand_some {u v : σ} {i j : Job ι α}
    (h : j ∈ (s.setHand v (some i)).inbox u) :
    u = v ∧ j = i ∨ j ∈ (s.setHand v none).inbox u := by
  obtain ⟨hu, hi⟩ | ⟨hj, hq⟩ := mem_inbox_setHand h
  · exact .inl ⟨hu, (Option.some.inj hi).symm⟩
  · right
    by_cases hu : u = v
    · subst hu
      rw [inbox_setHand_self]
      exact hq rfl
    · rwa [inbox_setHand_of_ne s none hu]

/-- Taking a job from the queue into an empty hand leaves the inboxes as they are. -/
theorem inbox_take {v : σ} {j : Job ι α} {q : List (Job ι α)} (hh : s.hand v = none)
    (hq : s.queue v = j :: q) (u : σ) :
    ((s.setQueue v q).setHand v (some j)).inbox u = s.inbox u := by
  by_cases hu : u = v
  · subst hu
    rw [inbox_setHand_self]
    simp [setQueue, inbox, hh, hq]
  · rw [inbox_setHand_of_ne _ _ hu, inbox_setQueue_of_ne _ _ hu]

/-- The inboxes after a queue has been extended. -/
theorem mem_inbox_setQueue {u d : σ} {i j : Job ι α}
    (h : j ∈ (s.setQueue d (s.queue d ++ [i])).inbox u) : u = d ∧ j = i ∨ j ∈ s.inbox u := by
  by_cases hu : u = d
  · subst hu
    rw [inbox_setQueue_self, ← List.append_assoc, List.mem_append, List.mem_singleton] at h
    rcases h with h | h
    · exact .inr h
    · exact .inl ⟨rfl, h⟩
  · rw [inbox_setQueue_of_ne s _ hu] at h
    exact .inr h

omit [DecidableEq σ] in
/-- A job that is not the one in hand has another id. -/
theorem Sound.ne_of_setHand (h : s.Sound) {u v : σ} {i j : Job ι α}
    (hh : s.hand v = some i) (hj : j ∈ s.inbox u) (hq : u = v → j ∈ s.queue v) : j.id ≠ i.id := by
  intro hid
  obtain ⟨loc, hl⟩ := h.located
  obtain ⟨rfl, rfl⟩ := h.eq_of_id (mem_inbox.mpr (.inl hh)) hj hid
  exact hl.ne (a := .queue u) (b := .hand u) ⟨j, hq rfl, rfl⟩ ⟨j, hh, rfl⟩ (by simp) rfl

/-- What has arrived stays arrived. -/
theorem mem_arrive {u v : σ} {ids l : List ι} {p : ι} (h : p ∈ s.arrived u) :
    p ∈ ((s.arrive v ids).setWaiting v l).arrived u := by
  by_cases hv : u = v
  · subst hv
    simp [arrive, setWaiting, h]
  · simpa [arrive, setWaiting, hv] using h

omit [DecidableEq σ] in
/-- What is on record after a service. -/
theorem mem_log {j : Job ι α} {e : ι × List α} (h : e ∈ (s.log j).served) :
    e ∈ s.served ∨ e = (j.id, j.trail) := by
  simpa [log] using h

/-- The record after a service of the job in hand, for the jobs that are left. -/
private theorem Recorded.log (hr : s.Recorded) (h : s.Sound) {v : σ} {j : Job ι α}
    (hh : s.hand v = some j) : ((s.log j).setHand v none).Recorded := by
  have hold {u : σ} {i : Job ι α} (hi : i ∈ ((s.log j).setHand v none).inbox u) :
      i ∈ s.inbox u ∧ i.id ≠ j.id := by
    obtain ⟨-, hn⟩ | ⟨hi, hq⟩ := mem_inbox_setHand hi
    · simp at hn
    · exact ⟨hi, h.ne_of_setHand hh hi hq⟩
  have hj : j ∈ s.inbox v := mem_inbox.mpr (.inl hh)
  refine ⟨fun u i hi hd ↦ ?_, fun u i hi l hl ↦ ?_, fun p l a hl hne ↦ ?_, fun e he ↦ ?_,
    fun e he u ↦ ?_⟩
  · exact List.mem_append_left _ (hr.done u i (hold hi).1 hd)
  · obtain ⟨hi, hne⟩ := hold hi
    rcases mem_log hl with hl | hl
    · exact hr.before u i hi l hl
    · exact absurd (congrArg Prod.fst hl) hne
  · apply List.mem_append_left
    rcases mem_log hl with hl | hl
    · exact hr.shorter p l a hl hne
    · rw [Prod.mk.injEq] at hl
      obtain ⟨rfl, ht⟩ := hl
      rw [(List.append_inj' ht rfl).1] at hne ⊢
      exact hr.done v j hj hne
  · rcases mem_log he with he | rfl
    · exact hr.arrived e he
    · exact h.exists_arrived hj
  · rcases mem_log he with he | rfl
    · exact hr.started e he u
    · exact h.not_waiting hj

/-- Every step keeps the record. -/
theorem Recorded.next (hr : s.Recorded) (h : s.Sound) (hs : Step site follows s t) :
    t.Recorded := by
  cases hs with
  | arrive v ids hne hw hids hnew =>
    refine ⟨hr.done, hr.before, hr.shorter, fun e he ↦ ?_, fun e he u hu ↦ ?_⟩
    · obtain ⟨w, hold⟩ := hr.arrived e he
      exact ⟨w, mem_arrive hold⟩
    · by_cases hv : u = v
      · subst hv
        simp only [setWaiting, Function.update_self] at hu
        obtain ⟨w, hold⟩ := hr.arrived e he
        exact hnew e.1 hu w hold
      · simp only [setWaiting, Function.update_of_ne hv] at hu
        exact hr.started e he u hu
  | start v p rest a hw hh =>
    have hp : p ∈ s.waiting v := by simp [hw]
    refine ⟨fun u j hj hd ↦ ?_, fun u j hj l hl ↦ ?_, hr.shorter, hr.arrived, fun e he u hu ↦ ?_⟩
    · obtain ⟨-, rfl⟩ | hj := mem_inbox_setHand_some hj
      · exact absurd rfl hd
      · exact hr.done u j (mem_inbox_of_none hj) hd
    · obtain ⟨-, rfl⟩ | hj := mem_inbox_setHand_some hj
      · exact absurd hp (hr.started _ hl v)
      · exact hr.before u j (mem_inbox_of_none hj) l hl
    · by_cases hv : u = v
      · subst hv
        simp only [setWaiting, setHand, Function.update_self] at hu
        exact hr.started e he u (by rw [hw]; exact List.mem_cons_of_mem p hu)
      · simp only [setWaiting, setHand, Function.update_of_ne hv] at hu
        exact hr.started e he u hu
  | take v j q hh hq =>
    have hin := inbox_take hh hq
    refine ⟨fun u i hi ↦ ?_, fun u i hi ↦ ?_, hr.shorter, hr.arrived, hr.started⟩
    · rw [hin] at hi
      exact hr.done u i hi
    · rw [hin] at hi
      exact hr.before u i hi
  | serve v j b hh hs =>
    have hl := hr.log h hh
    refine ⟨fun u i hi hd ↦ ?_, fun u i hi l hm ↦ ?_, hl.shorter, hl.arrived, hl.started⟩
    · obtain ⟨-, rfl⟩ | hi := mem_inbox_setHand_some hi
      · simp [Stations.log, setHand]
      · exact hl.done u i hi hd
    · obtain ⟨-, rfl⟩ | hi := mem_inbox_setHand_some hi
      · rcases mem_log hm with hm | hm
        · exact (hr.before v j (mem_inbox.mpr (.inl hh)) l hm).trans (List.prefix_append _ _)
        · exact (Prod.mk.inj hm).2 ▸ List.prefix_rfl
      · exact hl.before u i hi l hm
  | finish v j hh hs => exact hr.log h hh
  | lose v j hh =>
    exact ⟨fun u i hi ↦ hr.done u i (mem_inbox_of_none hi),
      fun u i hi ↦ hr.before u i (mem_inbox_of_none hi), hr.shorter, hr.arrived, hr.started⟩
  | send v d j hh hs hd => 
    have hold {u : σ} {i : Job ι α}
        (hi : i ∈ ((s.setHand v none).setQueue d (s.queue d ++ [j])).inbox u) :
        ∃ w, i ∈ s.inbox w := by
      obtain ⟨-, rfl⟩ | hi := mem_inbox_setQueue (s := s.setHand v none) hi
      · exact ⟨v, mem_inbox.mpr (.inl hh)⟩
      · exact ⟨u, mem_inbox_of_none hi⟩
    refine ⟨fun u i hi ↦ ?_, fun u i hi ↦ ?_, hr.shorter, hr.arrived, hr.started⟩
    · obtain ⟨w, hw⟩ := hold hi
      exact hr.done w i hw
    · obtain ⟨w, hw⟩ := hold hi
      exact hr.before w i hw

/-! ### Where a job comes from -/

/-- The station that has served a job last, or at which it has arrived. -/
def Home (site : α → Option σ) (s : Stations σ ι α) (j : Job ι α) (v : σ) : Prop :=
  match j.done.getLast? with
  | none => j.id ∈ s.arrived v
  | some a => site a = some v

/-- A job in hand is at home or where it is to be served; a job in a queue is where it is to be
served, away from home. -/
structure Placed (site : α → Option σ) (s : Stations σ ι α) : Prop where
  hand : ∀ v j, s.hand v = some j → site j.next = some v ∨ s.Home site j v
  queue : ∀ v, ∀ j ∈ s.queue v, site j.next = some v ∧ ¬ s.Home site j v

omit [DecidableEq σ] in
/-- A job has one home. -/
theorem Sound.home_inj (h : s.Sound) {j : Job ι α} {u v : σ} (hu : s.Home site j u)
    (hv : s.Home site j v) : u = v := by
  unfold Home at hu hv
  cases hl : j.done.getLast? with
  | none =>
    simp only [hl] at hu hv
    exact h.once u v _ hu hv
  | some a =>
    simp only [hl] at hu hv
    exact Option.some.inj (hu.symm.trans hv)

omit [DecidableEq σ] in
/-- The home of a job that has been served. -/
theorem home_trail {p : ι} {l : List α} {a b : α} {v : σ} :
    s.Home site ⟨p, l ++ [a], b⟩ v ↔ site a = some v := by
  simp [Home]

/-- An arrival is the home of no job that is in the network already. -/
theorem home_arrive (h : s.Sound) {u v w : σ} {ids : List ι} {j : Job ι α}
    (hnew : ∀ p ∈ ids, ∀ x, p ∉ s.arrived x) (hj : j ∈ s.inbox w) :
    ((s.arrive v ids).setWaiting v ids).Home site j u ↔ s.Home site j u := by
  unfold Home
  split
  · refine ⟨fun hu ↦ ?_, mem_arrive⟩
    obtain ⟨x, hx⟩ := h.exists_arrived hj
    by_cases hv : u = v
    · subst hv
      have hu' : j.id ∈ s.arrived u ∨ j.id ∈ ids := by simpa [arrive, setWaiting] using hu
      exact hu'.resolve_right fun hm ↦ hnew _ hm x hx
    · simpa [arrive, setWaiting, hv] using hu
  · exact Iff.rfl

/-- Every step keeps the jobs where they belong. -/
theorem Placed.next (hp : s.Placed site) (h : s.Sound) (hs : Step site follows s t) :
    t.Placed site := by
  cases hs with
  | arrive v ids hne hw hids hnew =>
    refine ⟨fun u j hj ↦ ?_, fun u j hj ↦ ?_⟩
    · rw [home_arrive h hnew (mem_inbox.mpr (.inl hj))]
      exact hp.hand u j hj
    · rw [home_arrive h hnew (mem_inbox.mpr (.inr hj))]
      exact hp.queue u j hj
  | start v p rest a hw hh =>
    refine ⟨fun u j hj ↦ ?_, hp.queue⟩
    by_cases hu : u = v
    · subst hu
      simp only [setHand, Function.update_self, Option.some.injEq] at hj
      subst hj
      right
      exact (h.suffix u).subset (by rw [hw]; exact List.mem_cons_self)
    · simp only [setHand, Function.update_of_ne hu] at hj
      exact hp.hand u j hj
  | take v j q hh hq =>
    refine ⟨fun u i hi ↦ ?_, fun u i hi ↦ ?_⟩
    · by_cases hu : u = v
      · subst hu
        simp only [setHand, Function.update_self, Option.some.injEq] at hi
        subst hi
        exact .inl (hp.queue u j (by rw [hq]; exact List.mem_cons_self)).1
      · simp only [setHand, Function.update_of_ne hu] at hi
        exact hp.hand u i hi
    · apply hp.queue u i
      by_cases hu : u = v
      · subst hu
        simp only [setHand, setQueue, Function.update_self] at hi
        rw [hq]
        exact List.mem_cons_of_mem j hi
      · simpa [setHand, setQueue, hu] using hi
  | serve v j b hh hs =>
    refine ⟨fun u i hi ↦ ?_, hp.queue⟩
    by_cases hu : u = v
    · subst hu
      simp only [setHand, Function.update_self, Option.some.injEq] at hi
      subst hi
      exact .inr (home_trail.mpr hs)
    · simp only [setHand, Function.update_of_ne hu] at hi
      exact hp.hand u i hi
  | finish v j hh | lose v j hh =>
    refine ⟨fun u i hi ↦ ?_, hp.queue⟩
    by_cases hu : u = v
    · subst hu
      simp [setHand] at hi
    · simp only [setHand, Function.update_of_ne hu] at hi
      exact hp.hand u i hi
  | send v d j hh hs hd =>
    refine ⟨fun u i hi ↦ ?_, fun u i hi ↦ ?_⟩
    · by_cases hu : u = v
      · subst hu
        simp [setHand, setQueue] at hi
      · simp only [setHand, setQueue, Function.update_of_ne hu] at hi
        exact hp.hand u i hi
    · by_cases hu : u = d
      · subst hu
        simp only [setQueue, Function.update_self, List.mem_append, List.mem_singleton] at hi
        rcases hi with hi | rfl
        · exact hp.queue u i hi
        · refine ⟨hs, fun hhome ↦ ?_⟩
          have hv : s.Home site i v := by
            refine (hp.hand v i hh).resolve_left fun hv ↦ hd ?_
            exact Option.some.inj (hs.symm.trans hv)
          exact hd (h.home_inj hhome hv)
      · simp only [setQueue, Function.update_of_ne hu] at hi
        exact hp.queue u i hi

end Stations

end Nflambda.Base
