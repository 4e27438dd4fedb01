import Nflambda.Base.Stations

/-!
# Jobs do not overtake each other

Library `Base`. Of two jobs that arrived at one station, the later one has not been served under
labels under which the earlier one is still to be served. The case that matters is that both are
to be served next under the same labels: then the earlier one is in the inbox of the station that
serves it, and the later one is not in front of it.
-/

namespace Nflambda.Base

variable {σ ι α : Type*}

/-- An element of a list extends a sublist that does not hold it and holds nothing from behind
it. -/
theorem sublist_snoc {l L : List ι} {x : ι} (h : l.Sublist L) (hx : x ∈ L) (hxl : x ∉ l)
    (hord : ∀ y ∈ l, ¬ [x, y].Sublist L) : (l ++ [x]).Sublist L := by
  obtain ⟨A, B, rfl⟩ := List.append_of_mem hx
  obtain ⟨l₁, l₂, rfl, h₁, h₂⟩ := List.sublist_append_iff.mp h
  have hnil : l₂ = [] := by
    rw [List.eq_nil_iff_forall_not_mem]
    intro y hy
    have hyx : y ≠ x := by
      rintro rfl
      exact hxl (List.mem_append_right _ hy)
    have hyB : y ∈ B := (List.mem_cons.mp (h₂.subset hy)).resolve_left hyx
    apply hord y (List.mem_append_right _ hy)
    exact (((List.singleton_sublist.mpr hyB).cons_cons x).trans (List.sublist_append_right A _))
  subst hnil
  rw [List.append_nil]
  exact h₁.append (List.singleton_sublist.mpr List.mem_cons_self)

namespace Stations

variable [DecidableEq σ] {site : α → Option σ} {follows : α → α → Prop} {s t : Stations σ ι α}

/-- The job is in the inbox of a station, and `q` is not in front of it. -/
def Ahead (s : Stations σ ι α) (u : σ) (j : Job ι α) (q : ι) : Prop :=
  ∃ l₁ l₂, s.inbox u = l₁ ++ j :: l₂ ∧ ∀ i ∈ l₁, i.id ≠ q

/-- A job in the inbox of `u` comes before `q`: `q` has not been served under its trail, and if
it is to be served under that trail next, it is behind the job. -/
structure Before (site : α → Option σ) (s : Stations σ ι α) (j : Job ι α) (u : σ) (q : ι) :
    Prop where
  unserved : (q, j.trail) ∉ s.served
  ahead : ∀ w, ∀ i ∈ s.inbox w, i.id = q → i.trail = j.trail →
    site j.next = some u ∧ s.Ahead u j q

/-- Every job in an inbox comes before the jobs that arrived after it at the same station. -/
def InOrder (site : α → Option σ) (s : Stations σ ι α) : Prop :=
  ∀ w u, ∀ j ∈ s.inbox u, ∀ q, [j.id, q].Sublist (s.arrived w) → s.Before site j u q

/-- The job has arrived and is in no place any more. -/
def Gone (s : Stations σ ι α) (p : ι) : Prop :=
  (∃ v, p ∈ s.arrived v) ∧ ∀ a, a ≠ .outside → ¬ s.Holds p a

section Ahead

variable {u v d : σ} {i j x : Job ι α} {q : ι}

omit [DecidableEq σ] in
/-- If `q` is in no inbox of the station, it is not in front of a job there. -/
theorem ahead_of_absent (hj : j ∈ s.inbox u) (hq : ∀ i ∈ s.inbox u, i.id ≠ q) :
    s.Ahead u j q := by
  obtain ⟨l₁, l₂, he⟩ := List.append_of_mem hj
  exact ⟨l₁, l₂, he, fun i hi ↦ hq i (he ▸ List.mem_append_left _ hi)⟩

/-- Emptying a hand that holds another job. -/
theorem Ahead.dropHand (h : s.Ahead u j q) (hh : s.hand v = some i) (hne : j ≠ i) :
    (s.setHand v none).Ahead u j q := by
  obtain ⟨l₁, l₂, he, hq⟩ := h
  by_cases hu : u = v
  · subst hu
    rw [inbox, hh, Option.toList_some, List.singleton_append] at he
    cases l₁ with
    | nil => exact absurd (List.cons.inj he).1.symm hne
    | cons k l₁ =>
      refine ⟨l₁, l₂, ?_, fun x hx ↦ hq x (List.mem_cons_of_mem k hx)⟩
      rw [inbox_setHand_self]
      exact (List.cons.inj he).2
  · exact ⟨l₁, l₂, by rw [inbox_setHand_of_ne s none hu, he], hq⟩

/-- Putting a job other than `q` into an empty hand. -/
theorem Ahead.putHand (h : s.Ahead u j q) (hh : s.hand v = none) (hx : x.id ≠ q) :
    (s.setHand v (some x)).Ahead u j q := by
  obtain ⟨l₁, l₂, he, hq⟩ := h
  by_cases hu : u = v
  · subst hu
    rw [inbox, hh, Option.toList_none, List.nil_append] at he
    refine ⟨x :: l₁, l₂, by rw [inbox_setHand_self, he]; rfl, ?_⟩
    exact List.forall_mem_cons.mpr ⟨hx, hq⟩
  · exact ⟨l₁, l₂, by rw [inbox_setHand_of_ne s _ hu, he], hq⟩

/-- Putting a job behind a queue. -/
theorem Ahead.putQueue (h : s.Ahead u j q) : (s.setQueue d (s.queue d ++ [x])).Ahead u j q := by
  obtain ⟨l₁, l₂, he, hq⟩ := h
  by_cases hu : u = d
  · subst hu
    refine ⟨l₁, l₂ ++ [x], ?_, hq⟩
    rw [inbox_setQueue_self, ← List.append_assoc]
    rw [inbox] at he
    rw [he, List.append_assoc, List.cons_append]
  · exact ⟨l₁, l₂, by rw [inbox_setQueue_of_ne s _ hu, he], hq⟩

end Ahead

omit [DecidableEq σ] in
/-- The order is about the inboxes, the record and the arrivals only. -/
theorem InOrder.congr (ho : s.InOrder site) (hi : ∀ u, t.inbox u = s.inbox u)
    (hs : t.served = s.served) (ha : t.arrived = s.arrived) : t.InOrder site := by
  intro w u j hj q hq
  rw [hi] at hj
  rw [ha] at hq
  have hb := ho w u j hj q hq
  refine ⟨by rw [hs]; exact hb.unserved, fun w' i hi' hid ht ↦ ?_⟩
  rw [hi] at hi'
  rw [Ahead, hi]
  exact hb.ahead w' i hi' hid ht

/-- Taking the job in hand out of the network keeps the order. -/
theorem InOrder.lose (ho : s.InOrder site) (h : s.Sound) {v : σ} {j : Job ι α}
    (hh : s.hand v = some j) : (s.setHand v none).InOrder site := by
  intro w u i hi q hq
  obtain ⟨-, hn⟩ | ⟨hi, hqueue⟩ := mem_inbox_setHand hi
  · simp at hn
  have hne : i ≠ j := fun he ↦ h.ne_of_setHand hh hi hqueue (by rw [he])
  have hb := ho w u i hi q hq
  refine ⟨hb.unserved, fun w' x hx hid ht ↦ ?_⟩
  obtain ⟨hsite, ha⟩ := hb.ahead w' x (mem_inbox_of_none hx) hid ht
  exact ⟨hsite, ha.dropHand hh hne⟩

/-- The service of the job in hand keeps the order. -/
theorem InOrder.log (ho : s.InOrder site) (h : s.Sound) {v : σ} {j : Job ι α}
    (hh : s.hand v = some j) (hs : site j.next = some v) :
    ((s.log j).setHand v none).InOrder site := by
  intro w u i hi q hq
  have hl := ho.lose h hh w u i hi q hq
  refine ⟨fun hm ↦ ?_, hl.ahead⟩
  rcases mem_log hm with hm | hm
  · exact hl.unserved hm
  -- the later job would have been in hand, in front of the earlier one
  · rw [Prod.mk.injEq] at hm
    obtain ⟨rfl, ht⟩ := hm
    obtain ⟨-, hn⟩ | ⟨hi', hqueue⟩ := mem_inbox_setHand hi
    · simp at hn
    obtain ⟨hsite, l₁, l₂, he, hne⟩ := (ho w u i hi' j.id hq).ahead v j
      (mem_inbox.mpr (.inl hh)) rfl ht.symm
    rw [(Job.trail_inj ht).2, hs, Option.some.injEq] at hsite
    subst hsite
    rw [inbox, hh, Option.toList_some, List.singleton_append] at he
    cases l₁ with
    | nil =>
      refine h.ne_of_setHand hh hi' hqueue ?_
      rw [(List.cons.inj he).1]
    | cons k l₁ =>
      refine hne k List.mem_cons_self ?_
      rw [← (List.cons.inj he).1]

/-- Putting a job into an empty hand at its home keeps the order, if no later job has been or is
to be served under its trail. -/
theorem InOrder.putHand (ho : s.InOrder site) {v : σ} {x : Job ι α} (hh : s.hand v = none)
    (h : (s.setHand v (some x)).Sound) (hp : (s.setHand v (some x)).Placed site)
    (hun : ∀ w q, [x.id, q].Sublist (s.arrived w) →
      (q, x.trail) ∉ s.served ∧ ∀ u, ∀ i ∈ s.inbox u, i.id = q → i.trail ≠ x.trail)
    (hhome : ∀ w u, ∀ i ∈ s.inbox u, [i.id, x.id].Sublist (s.arrived w) → i.trail = x.trail →
      s.Home site i v) : (s.setHand v (some x)).InOrder site := by
  have hold {u : σ} {i : Job ι α} (hi : i ∈ (s.setHand v (some x)).inbox u) :
      i = x ∨ i ∈ s.inbox u := by
    obtain ⟨-, hi⟩ | ⟨hi, -⟩ := mem_inbox_setHand hi
    · exact .inl (Option.some.inj hi).symm
    · exact .inr hi
  have hv : (s.setHand v (some x)).hand v = some x := by simp [setHand]
  have hid {u : σ} {i : Job ι α} (hi : i ∈ s.inbox u) : i.id ≠ x.id := by
    by_cases hu : u = v
    · subst hu
      have hq : i ∈ s.queue u := by simpa [inbox, hh] using hi
      exact h.ne_of_setHand hv (mem_inbox.mpr (.inr hq)) fun _ ↦ hq
    · have hi' : i ∈ (s.setHand v (some x)).inbox u := by
        rwa [inbox_setHand_of_ne s _ hu]
      exact h.ne_of_setHand hv hi' fun he ↦ absurd he hu
  intro w u j hj q hq
  rcases hold hj with rfl | hjo
  · obtain ⟨hn, hnot⟩ := hun w q hq
    refine ⟨hn, fun w' i hi hiq ht ↦ ?_⟩
    rcases hold hi with rfl | hio
    · subst hiq
      exact absurd ((h.arrived w).sublist hq) (by simp)
    · exact absurd ht (hnot w' i hio hiq)
  · have hb := ho w u j hjo q hq
    refine ⟨hb.unserved, fun w' i hi hiq ht ↦ ?_⟩
    rcases hold hi with rfl | hio
    -- the job at home has left it for the station that is to serve it, where the new one is not
    · subst hiq
      have hjv := hhome w u j hjo hq ht.symm
      have huv : u ≠ v := by
        rintro rfl
        have hjq : j ∈ s.queue u := by simpa [inbox, hh] using hjo
        exact (hp.queue u j hjq).2 hjv
      refine ⟨?_, ?_⟩
      · rcases mem_inbox.mp hj with hj' | hj'
        · exact (hp.hand u j hj').resolve_right fun hu ↦ huv (h.home_inj hu hjv)
        · exact (hp.queue u j hj').1
      · rw [Ahead, inbox_setHand_of_ne s _ huv]
        exact ahead_of_absent hjo fun k hk ↦ hid hk
    · obtain ⟨hsite, ha⟩ := hb.ahead w' i hio hiq ht
      exact ⟨hsite, ha.putHand hh fun he ↦ hid hio (hiq.trans he.symm)⟩

/-- Putting a job behind a queue keeps the order, if no later job has been or is to be served
under its trail. -/
theorem InOrder.putQueue (ho : s.InOrder site) (h : s.Sound) {d : σ} {x : Job ι α}
    (hun : ∀ w q, [x.id, q].Sublist (s.arrived w) →
      (q, x.trail) ∉ s.served ∧ ∀ u, ∀ i ∈ s.inbox u, i.id = q → i.trail ≠ x.trail)
    (hfront : ∀ w u, ∀ i ∈ s.inbox u, [i.id, x.id].Sublist (s.arrived w) → i.trail = x.trail →
      site i.next = some u ∧ s.Ahead u i x.id) :
    (s.setQueue d (s.queue d ++ [x])).InOrder site := by
  have hold {u : σ} {i : Job ι α} (hi : i ∈ (s.setQueue d (s.queue d ++ [x])).inbox u) :
      i = x ∨ i ∈ s.inbox u := (mem_inbox_setQueue hi).imp_left And.right
  intro w u j hj q hq
  rcases hold hj with rfl | hjo
  · obtain ⟨hn, hnot⟩ := hun w q hq
    refine ⟨hn, fun w' i hi hid ht ↦ ?_⟩
    rcases hold hi with rfl | hio
    · subst hid
      exact absurd ((h.arrived w).sublist hq) (by simp)
    · exact absurd ht (hnot w' i hio hid)
  · have hb := ho w u j hjo q hq
    refine ⟨hb.unserved, fun w' i hi hid ht ↦ ?_⟩
    rcases hold hi with rfl | hio
    · subst hid
      obtain ⟨hsite, ha⟩ := hfront w u j hjo hq ht.symm
      exact ⟨hsite, ha.putQueue⟩
    · obtain ⟨hsite, ha⟩ := hb.ahead w' i hio hid ht
      exact ⟨hsite, ha.putQueue⟩

/-- An arrival keeps the order. -/
theorem InOrder.arrive (ho : s.InOrder site) (h : s.Sound) (hr : s.Recorded) {v : σ}
    {ids : List ι} (hnew : ∀ p ∈ ids, ∀ u, p ∉ s.arrived u) :
    ((s.arrive v ids).setWaiting v ids).InOrder site := by
  intro w u j hj q hq
  have hj : j ∈ s.inbox u := hj
  have hold : ∀ p, [j.id, p].Sublist (s.arrived w) →
      ((s.arrive v ids).setWaiting v ids).Before site j u p := by
    intro p hp
    have hb := ho w u j hj p hp
    exact ⟨hb.unserved, hb.ahead⟩
  by_cases hw : w = v
  · subst hw
    simp only [Stations.arrive, setWaiting, Function.update_self] at hq
    obtain ⟨x, hx⟩ := h.exists_arrived hj
    have hjn : j.id ∉ ids := fun hm ↦ hnew _ hm x hx
    by_cases hqn : q ∈ ids
    · refine ⟨fun hm ↦ ?_, fun w' i hi hid ht ↦ ?_⟩
      · obtain ⟨y, hy⟩ := hr.arrived _ hm
        exact absurd hy (hnew q hqn y)
      · obtain ⟨y, hy⟩ := h.exists_arrived hi
        exact absurd hy (hnew _ (hid ▸ hqn) y)
    · obtain ⟨l₁, l₂, he, h₁, h₂⟩ := List.sublist_append_iff.mp hq
      have hnil : l₂ = [] := by
        rw [List.eq_nil_iff_forall_not_mem]
        intro y hy
        have hy' : y ∈ [j.id, q] := he ▸ List.mem_append_right l₁ hy
        simp only [List.mem_cons, List.not_mem_nil, or_false] at hy'
        rcases hy' with rfl | rfl
        · exact hjn (h₂.subset hy)
        · exact hqn (h₂.subset hy)
      rw [hnil, List.append_nil] at he
      exact hold q (he ▸ h₁)
  · simp only [Stations.arrive, setWaiting, Function.update_of_ne hw] at hq
    exact hold q hq

/-- The stations work as they should, and no job has overtaken another. -/
structure Orderly (site : α → Option σ) (s : Stations σ ι α) : Prop where
  sound : s.Sound
  recorded : s.Recorded
  placed : s.Placed site
  inOrder : s.InOrder site

omit [DecidableEq σ] in
/-- A job that is behind a waiting job of its station waits itself. -/
theorem Sound.waiting_of_sublist (h : s.Sound) {v w : σ} {p q : ι} {rest : List ι}
    (hw : s.waiting v = p :: rest) (hq : [p, q].Sublist (s.arrived w)) :
    w = v ∧ q ∈ s.waiting v := by
  obtain ⟨l, hl⟩ := h.suffix v
  have hpv : p ∈ s.arrived v := by
    rw [← hl, hw]
    simp
  have hwv : w = v := h.once w v p (hq.subset List.mem_cons_self) hpv
  subst hwv
  refine ⟨rfl, ?_⟩
  have hn := h.arrived w
  rw [← hl] at hq hn
  obtain ⟨l₁, l₂, he, h₁, h₂⟩ := List.sublist_append_iff.mp hq
  have hpl : p ∉ l := fun hp ↦ (List.nodup_append.mp hn).2.2 p hp p (by simp [hw]) rfl
  cases l₁ with
  | nil =>
    rw [List.nil_append] at he
    exact h₂.subset (he ▸ by simp)
  | cons x l₁ =>
    rw [List.cons_append, List.cons.injEq] at he
    exact absurd (h₁.subset (he.1 ▸ List.mem_cons_self)) hpl

omit [DecidableEq σ] in
/-- A job has been served under the part of its trail that a later job has been served under, or
is to be served under next. -/
theorem Recorded.served_of_trail (hr : s.Recorded) {u : σ} {i : Job ι α} {l : List α} {a : α}
    (hi : i ∈ s.inbox u) (ht : i.trail = l ++ [a]) (hl : l ≠ []) : (i.id, l) ∈ s.served := by
  have hd : i.done = l := (List.append_inj' ht rfl).1
  rw [← hd] at hl ⊢
  exact hr.done u i hi hl

/-- Every step keeps the order. -/
theorem InOrder.next (ho : s.InOrder site) (h : s.Sound) (hr : s.Recorded)
    (hp : s.Placed site) (hs : Step site follows s t) : t.InOrder site := by
  have ht := h.next hs
  have htp := hp.next h hs
  cases hs with
  | arrive v ids hne hw hids hnew => exact ho.arrive h hr hnew
  | start v p rest a hw hh =>
    have hwo : (s.setWaiting v rest).InOrder site := ho.congr (fun _ ↦ rfl) rfl rfl
    refine hwo.putHand hh ht htp (fun w q hq ↦ ?_) fun w u i hi hq hit ↦ ?_
    · obtain ⟨-, hqw⟩ := h.waiting_of_sublist hw hq
      refine ⟨fun hm ↦ hr.started _ hm v hqw, fun u i hi hid ↦ ?_⟩
      exact absurd (hid ▸ hqw) (h.not_waiting hi)
    · have hd : i.done = [] := (Job.trail_inj hit).1
      have hpw : p ∈ s.arrived v := (h.suffix v).subset (by rw [hw]; exact List.mem_cons_self)
      have hwv : w = v := h.once w v p (hq.subset (by simp)) hpw
      simp only [Home, hd, List.getLast?_nil]
      exact hwv ▸ hq.subset List.mem_cons_self
  | take v j q hh hq => exact ho.congr (inbox_take hh hq) rfl rfl
  | serve v j b hh hs =>
    have hf : Step site follows s ((s.log j).setHand v none) := .finish v j hh hs
    have hrf := hr.next h hf
    have hj : j ∈ s.inbox v := mem_inbox.mpr (.inl hh)
    have hlater (w : σ) (q : ι) (hq : [j.id, q].Sublist (s.arrived w)) :
        (q, j.trail) ∉ (s.log j).served := by
      intro hm
      rcases mem_log hm with hm | hm
      · exact (ho w v j hj q hq).unserved hm
      · rw [(Prod.mk.inj hm).1] at hq
        exact absurd ((h.arrived w).sublist hq) (by simp)
    have hset : ((s.log j).setHand v none).setHand v (some ⟨j.id, j.trail, b⟩) =
        (s.log j).setHand v (some ⟨j.id, j.trail, b⟩) := by
      simp [setHand]
    have hne : j.trail ≠ [] := by simp [Job.trail]
    rw [← hset] at ht htp ⊢
    refine (ho.log h hh hs).putHand (by simp [setHand]) ht htp (fun w q hq ↦ ⟨?_, ?_⟩)
      fun w u i hi hq hit ↦ ?_
    · exact fun hm ↦ hlater w q hq (hrf.shorter q j.trail b hm hne)
    · intro u i hi hid hit
      have := hrf.served_of_trail hi hit hne
      exact hlater w q hq (hid ▸ this)
    · have hd : i.done = j.trail := (Job.trail_inj hit).1
      simp only [Home, hd, Job.trail, List.getLast?_append, List.getLast?_singleton,
        Option.some_or]
      exact hs
  | finish v j hh hs => exact ho.log h hh hs
  | lose v j hh => exact ho.lose h hh
  | send v d j hh hs hd =>
    have hj : j ∈ s.inbox v := mem_inbox.mpr (.inl hh)
    have hl : Step site follows s (s.setHand v none) := .lose v j hh
    refine (ho.lose h hh).putQueue (h.next hl) (fun w q hq ↦ ⟨?_, ?_⟩)
      fun w u i hi hq hit ↦ ?_
    · exact (ho w v j hj q hq).unserved
    · intro u i hi hid hit
      have ha := ((ho w v j hj q hq).ahead u i (mem_inbox_of_none hi) hid hit).1
      exact hd (Option.some.inj (hs.symm.trans ha))
    · obtain ⟨-, hn⟩ | ⟨hi, hqueue⟩ := mem_inbox_setHand hi
      · simp at hn
      have hne : i ≠ j := fun he ↦ h.ne_of_setHand hh hi hqueue (by rw [he])
      obtain ⟨hsite, ha⟩ := (ho w u i hi j.id hq).ahead v j hj rfl hit.symm
      exact ⟨hsite, ha.dropHand hh hne⟩

/-- Every step keeps the stations orderly. -/
theorem Orderly.next (h : s.Orderly site) (hs : Step site follows s t) : t.Orderly site :=
  ⟨h.sound.next hs, h.recorded.next h.sound hs, h.placed.next h.sound hs,
    h.inOrder.next h.sound h.recorded h.placed hs⟩

/-- A job that has left the network does not come back. -/
theorem Gone.next {p : ι} (hg : s.Gone p) (hs : Step site follows s t) : t.Gone p := by
  obtain ⟨⟨x, hx⟩, hn⟩ := hg
  cases hs with
  | arrive v ids hne hw hids hnew =>
    refine ⟨⟨x, mem_arrive hx⟩, fun a ha hp ↦ ?_⟩
    obtain ⟨hp, -⟩ | ⟨-, hm⟩ := hp.of_setWaiting
    · exact hn a ha hp.of_arrive.1
    · exact hnew p hm x hx
  | start v q rest b hw hh =>
    have hq : q ≠ p := by
      rintro rfl
      exact hn (.waiting v) (by simp) (by simp [Holds, hw])
    refine ⟨⟨x, hx⟩, fun a ha hp ↦ ?_⟩
    obtain ⟨hp, -⟩ | ⟨-, j, hj, rfl⟩ := hp.of_setHand
    · obtain ⟨hp, -⟩ | ⟨-, hm⟩ := hp.of_setWaiting
      · exact hn a ha hp
      · exact hn (.waiting v) (by simp) (by simp [Holds, hw, hm])
    · rw [← Option.some.inj hj] at hq
      exact hq rfl
  | take v j q hh hq =>
    have hj : ∀ i ∈ j :: q, i.id ≠ p := fun i hi he ↦
      hn (.queue v) (by simp) ⟨i, by rw [hq]; exact hi, he⟩
    refine ⟨⟨x, hx⟩, fun a ha hp ↦ ?_⟩
    obtain ⟨hp, -⟩ | ⟨-, i, hi, hid⟩ := hp.of_setHand
    · obtain ⟨hp, -⟩ | ⟨-, i, hi, hid⟩ := hp.of_setQueue
      · exact hn a ha hp
      · exact hj i (List.mem_cons_of_mem j hi) hid
    · rw [← Option.some.inj hi] at hid
      exact hj j List.mem_cons_self hid
  | serve v j b hh hs =>
    refine ⟨⟨x, hx⟩, fun a ha hp ↦ ?_⟩
    obtain ⟨hp, -⟩ | ⟨-, i, hi, hid⟩ := hp.of_setHand
    · exact hn a ha hp
    · rw [← Option.some.inj hi] at hid
      exact hn (.hand v) (by simp) ⟨j, hh, hid⟩
  | finish v j hh | lose v j hh =>
    refine ⟨⟨x, hx⟩, fun a ha hp ↦ ?_⟩
    obtain ⟨hp, -⟩ | ⟨-, i, hi, -⟩ := hp.of_setHand
    · exact hn a ha hp
    · simp at hi
  | send v d j hh hs hd =>
    refine ⟨⟨x, hx⟩, fun a ha hp ↦ ?_⟩
    obtain ⟨hp, -⟩ | ⟨-, i, hi, hid⟩ := hp.of_setQueue
    · obtain ⟨hp, -⟩ | ⟨-, i, hi, -⟩ := hp.of_setHand
      · exact hn a ha hp
      · simp at hi
    · rcases List.mem_append.mp hi with hi | hi
      · exact hn (.queue d) (by simp) ⟨i, hi, hid⟩
      · rw [List.mem_singleton] at hi
        exact hn (.hand v) (by simp) ⟨j, hh, hi ▸ hid⟩

/-- The job in hand has left the network once the hand is empty. -/
theorem Sound.gone (h : s.Sound) {v : σ} {j : Job ι α} (hh : s.hand v = some j) :
    (s.setHand v none).Gone j.id := by
  refine ⟨h.exists_arrived (mem_inbox.mpr (.inl hh)), fun a ha hp ↦ ?_⟩
  obtain ⟨loc, hl⟩ := h.located
  obtain ⟨hp, hav⟩ | ⟨-, i, hi, -⟩ := hp.of_setHand
  · exact hl.ne hp (b := .hand v) ⟨j, hh, rfl⟩ hav rfl
  · simp at hi

/-! ### The order of the services -/

section Served

variable [DecidableEq ι] [DecidableEq α]

/-- The jobs that have been served under a list of labels, in the order of these services. -/
def servedUnder (s : Stations σ ι α) (l : List α) : List ι :=
  (s.served.filter (fun e ↦ e.2 = l)).map Prod.fst

/-- Of the jobs that arrived at one station, those served under a list of labels were served in
the order of their arrival. -/
def ServedInOrder (s : Stations σ ι α) : Prop :=
  ∀ w l, ((s.servedUnder l).filter (fun p ↦ p ∈ s.arrived w)).Sublist (s.arrived w)

omit [DecidableEq σ] [DecidableEq ι] in
/-- Who has been served under a list of labels. -/
theorem mem_servedUnder {p : ι} {l : List α} : p ∈ s.servedUnder l ↔ (p, l) ∈ s.served := by
  simp [servedUnder]

omit [DecidableEq σ] [DecidableEq ι] in
/-- A service adds the job to those served under its trail. -/
theorem servedUnder_log (j : Job ι α) (l : List α) :
    (s.log j).servedUnder l = s.servedUnder l ++ if j.trail = l then [j.id] else [] := by
  by_cases hl : j.trail = l <;> simp [servedUnder, log, List.filter_append, hl]

omit [DecidableEq σ] in
/-- The service of the job in hand comes after those of the earlier jobs. -/
theorem ServedInOrder.log (hv : s.ServedInOrder) (h : s.Orderly site) {v : σ} {j : Job ι α}
    (hh : s.hand v = some j) : (s.log j).ServedInOrder := by
  intro w l
  have hj : j ∈ s.inbox v := mem_inbox.mpr (.inl hh)
  rw [servedUnder_log, List.filter_append]
  by_cases hw : j.trail = l ∧ j.id ∈ s.arrived w
  · obtain ⟨rfl, hw⟩ := hw
    have hone : [j.id].filter (fun p ↦ p ∈ (s.log j).arrived w) = [j.id] := by
      simp [Stations.log, hw]
    rw [if_pos rfl, hone]
    refine sublist_snoc (hv w j.trail) hw (fun hm ↦ ?_) fun y hy hsub ↦ ?_
    · have hm' := (mem_servedUnder.mp (List.mem_filter.mp hm).1)
      have hle := (h.recorded.before v j hj _ hm').length_le
      rw [Job.trail, List.length_append, List.length_singleton] at hle
      omega
    · exact (h.inOrder w v j hj y hsub).unserved (mem_servedUnder.mp (List.mem_filter.mp hy).1)
  · have hnone : (if j.trail = l then [j.id] else []).filter
        (fun p ↦ p ∈ (s.log j).arrived w) = [] := by
      by_cases hl : j.trail = l
      · have hn : j.id ∉ s.arrived w := fun hm ↦ hw ⟨hl, hm⟩
        simp [Stations.log, hl, hn]
      · simp [hl]
    rw [hnone, List.append_nil]
    exact hv w l

/-- Every step keeps the order of the services. -/
theorem ServedInOrder.next (hv : s.ServedInOrder) (h : s.Orderly site)
    (hs : Step site follows s t) : t.ServedInOrder := by
  cases hs with
  | arrive v ids hne hw hids hnew =>
    intro w l
    by_cases hwv : w = v
    · subst hwv
      have hold : (s.servedUnder l).filter (fun p ↦ p ∈ s.arrived w ++ ids) =
          (s.servedUnder l).filter (fun p ↦ p ∈ s.arrived w) := by
        apply List.filter_congr
        intro p hp
        obtain ⟨x, hx⟩ := h.recorded.arrived _ (mem_servedUnder.mp hp)
        have hn : p ∉ ids := fun hm ↦ hnew p hm x hx
        simp [hn]
      have he : ((s.arrive w ids).setWaiting w ids).arrived w = s.arrived w ++ ids := by
        simp [arrive, setWaiting]
      have hl : ((s.arrive w ids).setWaiting w ids).servedUnder l = s.servedUnder l := rfl
      rw [he, hl, hold]
      exact (hv w l).trans (List.sublist_append_left _ _)
    · have he : ((s.arrive v ids).setWaiting v ids).arrived w = s.arrived w := by
        simp [arrive, setWaiting, hwv]
      rw [he]
      exact hv w l
  | serve v j b hh hs => exact hv.log h hh
  | finish v j hh hs => exact hv.log h hh
  | start | take | lose | send => exact hv

end Served

omit [DecidableEq σ] in
/-- Stations at which nothing has arrived are orderly. -/
theorem orderly_of_empty (ha : ∀ v, s.arrived v = []) (hw : ∀ v, s.waiting v = [])
    (hh : ∀ v, s.hand v = none) (hq : ∀ v, s.queue v = []) (hs : s.served = []) :
    s.Orderly site := by
  have hin (v : σ) : s.inbox v = [] := by simp [inbox, hh, hq]
  refine ⟨⟨⟨fun _ ↦ .outside, fun a p hp ↦ ?_⟩, ?_, ?_, ?_, ?_⟩, ⟨?_, ?_, ?_, ?_, ?_⟩, ⟨?_, ?_⟩, ?_⟩
  · cases a with
    | outside => rfl
    | waiting v => simp [Holds, hw] at hp
    | hand v => simp [Holds, hh] at hp
    | queue v => simp [Holds, hq] at hp
  all_goals simp [ha, hw, hh, hq, hs, hin, InOrder]

end Stations

end Nflambda.Base
