import Mathlib.Algebra.Ring.Nat
import Nflambda.Base.Ledger
import Nflambda.Base.Stations

/-!
# Bounded service

Library `Base`. Where the labels that can follow each other go down in a rank, every job is served
at most so often. A potential counts what is left to do for the jobs in the network: it grows with
the arrivals and goes down with every other step.
-/

namespace Nflambda.Base.Stations

open Finset

variable {σ ι α : Type*} [DecidableEq σ] {site : α → Option σ} {follows : α → α → Prop}
  {s t : Stations σ ι α}

/-- What is left to do for the job in the hand of station `v`: less when it is served there. -/
def handCost (site : α → Option σ) (rank : α → Nat) (v : σ) : Option (Job ι α) → Nat
  | none => 0
  | some j => 3 * rank j.next + if site j.next = some v then 1 else 3

/-- What is left to do for the jobs of a queue. -/
def queueCost (rank : α → Nat) (q : List (Job ι α)) : Nat :=
  (q.map (fun j ↦ 3 * rank j.next + 2)).sum

/-- What is left to do at one station, if no label has a rank above `top`. -/
def stationCost (site : α → Option σ) (rank : α → Nat) (top : Nat) (s : Stations σ ι α) (v : σ) :
    Nat :=
  (s.waiting v).length * (3 * top + 4) + handCost site rank v (s.hand v) +
    queueCost rank (s.queue v)

/-- What is left to do for all jobs in the network. -/
def cost [Fintype σ] (site : α → Option σ) (rank : α → Nat) (top : Nat) (s : Stations σ ι α) :
    Nat :=
  ∑ v, s.stationCost site rank top v

section Cost

variable {rank : α → Nat} {top : Nat}

theorem queueCost_cons (j : Job ι α) (q : List (Job ι α)) :
    queueCost rank (j :: q) = 3 * rank j.next + 2 + queueCost rank q := rfl

theorem queueCost_snoc (q : List (Job ι α)) (j : Job ι α) :
    queueCost rank (q ++ [j]) = queueCost rank q + (3 * rank j.next + 2) := by
  simp [queueCost]

variable (site rank top)

/-- A job in hand costs at most what it costs away from the station that serves it. -/
theorem handCost_le (v : σ) (j : Job ι α) :
    handCost site rank v (some j) ≤ 3 * rank j.next + 3 := by
  simp only [handCost]
  split <;> omega

/-- A job in hand costs something. -/
theorem handCost_pos (v : σ) (j : Job ι α) : 0 < handCost site rank v (some j) := by
  simp only [handCost]
  split <;> omega

variable [Fintype σ]

/-- A change at one station changes the cost by what it changes there. -/
theorem cost_change (v : σ) (h : ∀ u, u ≠ v →
    t.stationCost site rank top u = s.stationCost site rank top u) :
    t.cost site rank top + s.stationCost site rank top v =
      s.cost site rank top + t.stationCost site rank top v :=
  sum_change _ _ v h

/-- Replacing the job in hand changes the cost by that of the two jobs. -/
theorem cost_setHand (s : Stations σ ι α) (v : σ) (o : Option (Job ι α)) :
    (s.setHand v o).cost site rank top + handCost site rank v (s.hand v) =
      s.cost site rank top + handCost site rank v o := by
  have hc := cost_change site rank top (s := s) (t := s.setHand v o) v
    (fun u hu ↦ by simp [stationCost, setHand, hu])
  simp only [stationCost, setHand, Function.update_self] at hc ⊢
  omega

/-- Replacing a queue changes the cost by that of the two queues. -/
theorem cost_setQueue (s : Stations σ ι α) (v : σ) (q : List (Job ι α)) :
    (s.setQueue v q).cost site rank top + queueCost rank (s.queue v) =
      s.cost site rank top + queueCost rank q := by
  have hc := cost_change site rank top (s := s) (t := s.setQueue v q) v
    (fun u hu ↦ by simp [stationCost, setQueue, hu])
  simp only [stationCost, setQueue, Function.update_self] at hc ⊢
  omega

/-- Replacing the waiting jobs changes the cost by that of their numbers. -/
theorem cost_setWaiting (s : Stations σ ι α) (v : σ) (l : List ι) :
    (s.setWaiting v l).cost site rank top + (s.waiting v).length * (3 * top + 4) =
      s.cost site rank top + l.length * (3 * top + 4) := by
  have hc := cost_change site rank top (s := s) (t := s.setWaiting v l) v
    (fun u hu ↦ by simp [stationCost, setWaiting, hu])
  simp only [stationCost, setWaiting, Function.update_self] at hc ⊢
  omega

/-- An arrival adds to what is left to do. -/
theorem cost_arrive {v : σ} (ids : List ι) (hw : s.waiting v = []) :
    ((s.arrive v ids).setWaiting v ids).cost site rank top =
      s.cost site rank top + ids.length * (3 * top + 4) := by
  have hc := cost_setWaiting site rank top (s.arrive v ids) v ids
  have ha : (s.arrive v ids).cost site rank top = s.cost site rank top := rfl
  have hz : (s.arrive v ids).waiting v = [] := hw
  rwa [hz, ha, List.length_nil, Nat.zero_mul] at hc

variable {site rank top}

/-- Every step but an arrival takes something off what is left to do. -/
theorem cost_step (hp : s.Placed site) (hrank : ∀ a b, follows a b → rank b < rank a)
    (htop : ∀ a, rank a ≤ top) (hs : Step site follows s t) (ha : t.arrived = s.arrived) :
    t.cost site rank top < s.cost site rank top := by
  cases hs with
  | arrive v ids hne hw hids hnew =>
    have hv : s.arrived v ++ ids = s.arrived v := by
      simpa [Stations.arrive, setWaiting] using congrFun ha v
    exact absurd (List.append_right_eq_self.mp hv) hne
  | start v p rest a hw hh =>
    have hc := cost_setWaiting site rank top s v rest
    have hj := cost_setHand site rank top (s.setWaiting v rest) v
      (some ⟨p, [], a⟩)
    have hn : (s.setWaiting v rest).hand v = none := hh
    have hle := handCost_le site rank v (⟨p, [], a⟩ : Job ι α)
    have hr := htop a
    rw [hw, List.length_cons, Nat.succ_mul] at hc
    simp only [hn, handCost] at hj hle
    omega
  | take v j q hh hq =>
    have hc := cost_setQueue site rank top s v q
    have hj := cost_setHand site rank top (s.setQueue v q) v (some j)
    have hn : (s.setQueue v q).hand v = none := hh
    have hsite := (hp.queue v j (by rw [hq]; exact List.mem_cons_self)).1
    rw [hq, queueCost_cons] at hc
    simp only [hn, handCost, hsite, if_true] at hj
    omega
  | serve v j b hh hs hb =>
    have hj := cost_setHand site rank top (s.log j) v
      (some ⟨j.id, j.trail, b⟩)
    have hl : (s.log j).cost site rank top = s.cost site rank top := rfl
    have hn : (s.log j).hand v = some j := hh
    have hle := handCost_le site rank v (⟨j.id, j.trail, b⟩ : Job ι α)
    have hr := hrank j.next b hb
    simp only [hn, hl, handCost, hs, if_true] at hj hle
    omega
  | finish v j hh hs =>
    have hj := cost_setHand site rank top (s.log j) v none
    have hl : (s.log j).cost site rank top = s.cost site rank top := rfl
    have hn : (s.log j).hand v = some j := hh
    have hpos := handCost_pos site rank v j
    rw [hn, hl, handCost] at hj
    omega
  | lose v j hh =>
    have hj := cost_setHand site rank top s v none
    have hpos := handCost_pos site rank v j
    rw [hh, handCost] at hj
    omega
  | send v d j hh hs hd =>
    have hj := cost_setHand site rank top s v none
    have hq := cost_setQueue site rank top (s.setHand v none) d
      (s.queue d ++ [j])
    have hold : (s.setHand v none).queue d = s.queue d := rfl
    have hne : site j.next ≠ some v := by simpa [hs] using hd
    rw [hold, queueCost_snoc] at hq
    simp only [hh, handCost, if_neg hne] at hj
    omega

end Cost

end Nflambda.Base.Stations
