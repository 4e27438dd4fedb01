import Nflambda.Runtime.DecomposedLb

/-!
# The turns of the servers

Library `Runtime`. `decomposed_LB_control_action`, `src/runtime/nf/decomposed_lb.c:232–266`, answers
a request with entry `j` of `server_ip_map_array` and then evaluates `j = (j++) % 10`. C leaves open
which of the two side effects on `j` comes last. Neither order lets the servers take turns.
-/

namespace Nflambda.Runtime

open Nflambda.Base

/-- The side effect of `j = (j++) % 10` on `j` that comes last. -/
inductive LastEffect where
  | assignment
  | increment
  deriving DecidableEq, Repr

/-- `j = (j++) % 10`, `decomposed_lb.c:255`: both effects are computed from the old value. -/
def nextServer (last : LastEffect) (j : Nat) : Nat :=
  match last with
  | .assignment => j % 10
  | .increment => j + 1

/-- A group with the variable `j` of its control actor, `decomposed_lb.c:236`, and the data actors
that have been answered since the control actor was launched, each with the entry of
`server_ip_map_array` that it was given. -/
structure ServerGroup (T : Type) where
  group : LbGroup T
  j : Nat
  served : List (Fin LB_GROUP_SIZE × Nat)

variable {T : Type} [RteHashData T] [RteHashReset T]

/-- One event of a group whose control actor answers with the entry that `j` names. There is none
beyond the array. -/
def serverStep (last : LastEffect) (s : ServerGroup T) : LbEvent → Option (ServerGroup T)
  | .control j =>
    match s.group.control with
    | .reply i _ =>
      if s.j = j.val then
        (controlStep s.group j).map fun group ↦
          { group, j := nextServer last s.j, served := s.served ++ [(i, s.j)] }
      else none
    | _ => (controlStep s.group j).map fun group ↦ { s with group }
  | .launchControl =>
    (lbStep s.group .launchControl).map fun group ↦ { group, j := 0, served := [] }
  | e => (lbStep s.group e).map fun group ↦ { s with group }

/-- A group that has just been created. -/
def ServerGroup.create (dpQuit : Bool) (nDataComponent : Fin (LB_GROUP_SIZE + 1))
    (mapper : Fin LB_GROUP_SIZE → FlowMapper T) : ServerGroup T :=
  { group := groupCreate dpQuit nDataComponent mapper, j := 0, served := [] }

/-- The servers take turns: request `k` is answered with entry `k % 10`, any two servers have been
given to almost equally many requests, and `j` stays inside the array. -/
structure TurnsTaken (s : ServerGroup T) : Prop where
  answers : ∀ (k : Nat) (x : Fin LB_GROUP_SIZE × Nat), s.served[k]? = some x → x.2 = k % 10
  fair : ∀ a b, a < 10 → b < 10 →
    (s.served.map Prod.snd).count a ≤ (s.served.map Prod.snd).count b + 1
  index : s.j < 10

/-- How many requests can be answered before the turns of the servers are lost. -/
def turns (last : LastEffect) : Nat :=
  match last with
  | .assignment => 1
  | .increment => 9

/-! ### The entries that are used -/

/-- The entry with which request `k` is answered. -/
def entryAt (last : LastEffect) (k : Nat) : Nat :=
  match last with
  | .assignment => 0
  | .increment => k

/-- The next entry is the one of the next request. -/
theorem nextServer_entryAt (last : LastEffect) (k : Nat) :
    nextServer last (entryAt last k) = entryAt last (k + 1) := by
  cases last <;> rfl

/-- What has been answered since the control actor was launched. -/
structure Answered (last : LastEffect) (s : ServerGroup T) : Prop where
  j : s.j = entryAt last s.served.length
  served : s.served.map Prod.snd = (List.range s.served.length).map (entryAt last)

/-- Every event keeps account of the answers. -/
theorem Answered.step {last : LastEffect} {s s' : ServerGroup T} {e : LbEvent}
    (h : Answered last s) (hs : serverStep last s e = some s') : Answered last s' := by
  have hkeep : ∀ x : Option (LbGroup T),
      x.map (fun group ↦ { s with group }) = some s' → Answered last s' := by
    intro x hx
    obtain ⟨g, -, rfl⟩ := Option.map_eq_some_iff.mp hx
    exact ⟨h.j, h.served⟩
  cases e with
  | data i pktsBurst => exact hkeep _ hs
  | dpQuit value => exact hkeep (lbStep s.group (.dpQuit value)) hs
  | groupInit nData => exact hkeep (lbStep s.group (.groupInit nData)) hs
  | launchData i ipv45Tuple => exact hkeep _ hs
  | launchControl =>
    obtain ⟨g, -, rfl⟩ := Option.map_eq_some_iff.mp hs
    exact ⟨by cases last <;> rfl, rfl⟩
  | control j =>
    unfold serverStep at hs
    dsimp only at hs
    split at hs
    · split at hs
      · next hj =>
        obtain ⟨g, -, rfl⟩ := Option.map_eq_some_iff.mp hs
        have hlen : ∀ x : Fin LB_GROUP_SIZE × Nat,
            (s.served ++ [x]).length = s.served.length + 1 := fun _ ↦ List.length_append
        constructor
        · rw [hlen, ← nextServer_entryAt, ← h.j]
        · rw [hlen, List.range_succ, List.map_append, List.map_append, h.served, h.j]
          rfl
      · cases hs
    · exact hkeep _ hs

/-- In every run of a group that has been created, with any stops and restarts. -/
theorem answered_of_run {last : LastEffect} {dpQuit : Bool}
    {nDataComponent : Fin (LB_GROUP_SIZE + 1)} {mapper : Fin LB_GROUP_SIZE → FlowMapper T}
    {es : List LbEvent} {s : ServerGroup T}
    (h : run (serverStep last) (ServerGroup.create dpQuit nDataComponent mapper) es = some s) :
    Answered last s :=
  run_invariant (fun _ _ _ ha hs ↦ Answered.step ha hs)
    ⟨by cases last <;> rfl, rfl⟩ h

/-! ### How long the servers take turns -/

omit [RteHashData T] [RteHashReset T] in
private theorem answer_eq {last : LastEffect} {s : ServerGroup T} (h : Answered last s) {k : Nat}
    {x : Fin LB_GROUP_SIZE × Nat} (hx : s.served[k]? = some x) : x.2 = entryAt last k := by
  have hmap : (s.served.map Prod.snd)[k]? = some x.2 := by
    rw [List.getElem?_map, hx]
    rfl
  rw [h.served, List.getElem?_map, Option.map_eq_some_iff] at hmap
  obtain ⟨i, hi, hentry⟩ := hmap
  obtain ⟨hlt, hik⟩ := List.getElem?_eq_some_iff.mp hi
  rw [List.getElem_range] at hik
  rw [← hentry, hik]

omit [RteHashData T] [RteHashReset T] in
private theorem nodup_answers {last : LastEffect} {s : ServerGroup T} (h : Answered last s)
    (hle : s.served.length ≤ turns last) : (s.served.map Prod.snd).Nodup := by
  rw [h.served]
  cases last with
  | assignment =>
    change s.served.length ≤ 1 at hle
    rcases Nat.le_one_iff_eq_zero_or_eq_one.mp hle with hlen | hlen <;> simp [hlen]
  | increment =>
    have hid : entryAt .increment = id := rfl
    rw [hid, List.map_id]
    exact List.nodup_range

omit [RteHashData T] [RteHashReset T] in
/-- The servers take turns exactly until too many requests have been answered. -/
theorem turnsTaken_iff_of_answered {last : LastEffect} {s : ServerGroup T}
    (h : Answered last s) : TurnsTaken s ↔ s.served.length ≤ turns last := by
  constructor
  · intro ht
    cases last with
    | assignment =>
      by_contra hlong
      have hlt : 1 < s.served.length := Nat.not_le.mp hlong
      have hget : s.served[1]? = some s.served[1] := List.getElem?_eq_getElem hlt
      have hzero : s.served[1].2 = 0 := answer_eq h hget
      have hone := ht.answers 1 _ hget
      omega
    | increment =>
      have hj : s.j = s.served.length := h.j
      have hindex := ht.index
      change s.served.length ≤ 9
      omega
  · intro hle
    constructor
    · intro k x hx
      have hk := (List.getElem?_eq_some_iff.mp hx).1
      rw [answer_eq h hx]
      cases last with
      | assignment =>
        change s.served.length ≤ 1 at hle
        have hk0 : k = 0 := by omega
        rw [hk0]
        rfl
      | increment =>
        change s.served.length ≤ 9 at hle
        have hk10 : k < 10 := by omega
        exact (Nat.mod_eq_of_lt hk10).symm
    · intro a b _ _
      have hone := List.nodup_iff_count_le_one.mp (nodup_answers h hle) a
      omega
    · rw [h.j]
      cases last with
      | assignment => exact Nat.zero_lt_succ 9
      | increment => exact Nat.lt_succ_of_le hle

/-- In every run of a group, for any number of data actors and any order in which their requests
are served, the servers take turns exactly as long as no more than one request has been answered,
if the assignment comes last, or no more than nine, if the increment does. -/
theorem turnsTaken_iff (last : LastEffect) (dpQuit : Bool)
    (nDataComponent : Fin (LB_GROUP_SIZE + 1)) (mapper : Fin LB_GROUP_SIZE → FlowMapper T)
    (es : List LbEvent) (s : ServerGroup T)
    (h : run (serverStep last) (ServerGroup.create dpQuit nDataComponent mapper) es = some s) :
    TurnsTaken s ↔ s.served.length ≤ turns last :=
  turnsTaken_iff_of_answered (answered_of_run h)

/-- One data actor that asks for `n` flows in turn. -/
def requestRun (last : LastEffect) (n : Nat) : List LbEvent :=
  let actor : Fin LB_GROUP_SIZE := ⟨0, Nat.zero_lt_succ 23⟩
  let server (j : Nat) : Fin 10 := ⟨j % 10, Nat.mod_lt j (Nat.zero_lt_succ 9)⟩
  [.launchData actor ⟨0, 0, 0, 0, 0⟩, .launchControl,
    .data actor ((List.range n).map fun k ↦ { tcpPacket with srcPort := BitVec.ofNat 16 k })] ++
  (List.range n).flatMap fun k ↦
    [.data actor [], .control (server 0), .control (server 0), .control (server (entryAt last k)),
      .control (server 0), .data actor []]

private theorem requestRun_served (last : LastEffect) :
    (run (serverStep last) (ServerGroup.create false 1 fun _ ↦ freshActor)
      (requestRun last (turns last + 1))).map (fun s ↦ s.served) =
      some ((List.range (turns last + 1)).map fun k ↦ (0, entryAt last k)) := by
  cases last <;> decide

/-- A single request is answered in turn. -/
theorem turnsTaken_iff_one : ∃ s : ServerGroup (List (Ipv4FiveTuple × BitVec 32)),
    run (serverStep .assignment) (ServerGroup.create false 1 fun _ ↦ freshActor)
      (requestRun .assignment 1) = some s ∧ (TurnsTaken s ↔ s.served.length ≤ 1) := by
  have hsome : (run (serverStep .assignment) (ServerGroup.create false 1 fun _ ↦ freshActor)
      (requestRun .assignment 1)).isSome := by decide
  obtain ⟨s, hs⟩ := Option.isSome_iff_exists.mp hsome
  exact ⟨s, hs, turnsTaken_iff .assignment false 1 (fun _ ↦ freshActor) _ s hs⟩

/-- After the second request, or the tenth, the servers do not take turns. -/
theorem turns_lost :
    (∃ s : ServerGroup (List (Ipv4FiveTuple × BitVec 32)),
      run (serverStep .assignment) (ServerGroup.create false 1 fun _ ↦ freshActor)
        (requestRun .assignment 2) = some s ∧ s.served = [(0, 0), (0, 0)] ∧ ¬ TurnsTaken s) ∧
    ∃ s : ServerGroup (List (Ipv4FiveTuple × BitVec 32)),
      run (serverStep .increment) (ServerGroup.create false 1 fun _ ↦ freshActor)
        (requestRun .increment 10) = some s ∧ s.j = 10 ∧ ¬ TurnsTaken s := by
  have hserved := requestRun_served
  constructor
  · obtain ⟨s, hs, hx⟩ := Option.map_eq_some_iff.mp (hserved .assignment)
    refine ⟨s, hs, hx, fun h ↦ ?_⟩
    have hone := h.answers 1 (0, 0) (by rw [hx]; rfl)
    exact absurd hone (by decide)
  · obtain ⟨s, hs, hx⟩ := Option.map_eq_some_iff.mp (hserved .increment)
    have hj : s.j = 10 := by
      rw [(answered_of_run hs).j, hx]
      rfl
    exact ⟨s, hs, hj, fun h ↦ absurd h.index (by omega)⟩

end Nflambda.Runtime
