import Mathlib.Data.List.Basic
import Nflambda.Director.Nfunctor

/-!
# Merging two NF instances

Library `Director`. Source `src/director/em/nfunctor.py:163–305`. Instances and the relationships
between them are compared by identity, so that each carries a number of its own. Functions raise
the exceptions that Python raises.
-/

namespace Nflambda.Director

/-- The exceptions that can arise. -/
inductive PyError where
  /-- `UnboundLocalError`: a loop has assigned no value to a local variable. -/
  | unboundLocal
  /-- `IndexError` -/
  | index
  /-- `KeyError` -/
  | key (key : String)
  /-- `ValueError`: the element to be removed is not in the list. -/
  | value
  deriving DecidableEq, Repr

/-- A `Nfunctor_instance` object, `nfunctor.py:163–167`. -/
structure InstanceObject where
  oid : Nat
  nfunctorInstance : NfunctorInstance
  deriving DecidableEq, Repr

/-- `i.action.name`, by way of the nfunctor of the instance. -/
def InstanceObject.actionName (i : InstanceObject) : String :=
  i.nfunctorInstance.nfunctor.action.name

/-- `Nfunctor_relationship_instance`, `nfunctor.py:176–181`. -/
structure NfunctorRelationshipInstance where
  oid : Nat
  predecessor : InstanceObject
  successor : InstanceObject
  pathId : Int
  deriving DecidableEq, Repr

/-- The keyword arguments of a call of `Nfunctor_relationship_instance`. -/
structure RelationshipKwargs where
  predecessor : Option InstanceObject
  successor : Option InstanceObject
  pathId : Option Int

/-- `kwargs[key]`. -/
def kwarg {α : Type} (key : String) : Option α → Except PyError α
  | some a => .ok a
  | none => .error (.key key)

/-- `Nfunctor_relationship_instance.__init__`, `nfunctor.py:177–181`. -/
def NfunctorRelationshipInstance.init (oid : Nat) (kwargs : RelationshipKwargs) :
    Except PyError NfunctorRelationshipInstance := do
  let predecessor ← kwarg "predecessor" kwargs.predecessor
  let successor ← kwarg "successor" kwargs.successor
  let pathId ← kwarg "path_id" kwargs.pathId
  return { oid, predecessor, successor, pathId }

/-- `NF_Instance`, `nfunctor.py:198–215`. -/
structure NfInstance where
  nfunctorInstanceList : List InstanceObject
  nfunctorRelationshipInstanceList : List NfunctorRelationshipInstance

/-- `NF_Instance.__init__`, `nfunctor.py:199–215`, for objects numbered from `oid` on. -/
def NfInstance.ofNf (nf : Nf) (oid : Nat) : NfInstance :=
  let nfunctorInstanceList :=
    ((Director.nfunctorInstanceList nf).zipIdx oid).map fun (i, oid) ↦ ⟨oid, i⟩
  let related := nfunctorInstanceList.flatMap fun i ↦ nfunctorInstanceList.flatMap fun j ↦
    (nf.nfunctorRelationshipList.filter fun k ↦
      k.predecessor = i.nfunctorInstance.nfunctor ∧ k.successor = j.nfunctorInstance.nfunctor).map
        fun k ↦ (i, j, k.pathId)
  { nfunctorInstanceList
    nfunctorRelationshipInstanceList :=
      (related.zipIdx oid).map fun ((i, j, pathId), oid) ↦ ⟨oid, i, j, pathId⟩ }

/-- The loops that look for an instance by the name of its action keep the last one. -/
def NfInstance.named (n : NfInstance) (name : String) : Except PyError InstanceObject :=
  match n.nfunctorInstanceList.reverse.find? (fun i ↦ i.actionName = name) with
  | some i => .ok i
  | none => .error .unboundLocal

/-- `packet_in`, `nfunctor.py:223–227`. -/
def NfInstance.packetIn (n : NfInstance) : Except PyError InstanceObject := n.named "packet_in"

/-- `packet_out`, `nfunctor.py:229–233`. -/
def NfInstance.packetOut (n : NfInstance) : Except PyError InstanceObject := n.named "packet_out"

/-- `first_action_instances`, `nfunctor.py:235–243`. -/
def NfInstance.firstActionInstances (n : NfInstance) : Except PyError (List InstanceObject) :=
  if n.nfunctorRelationshipInstanceList = [] then .ok []
  else do
    let packetInInstance ← n.named "packet_in"
    return (n.nfunctorRelationshipInstanceList.filter (packetInInstance = ·.predecessor)).map
      NfunctorRelationshipInstance.successor

/-- `last_action_instances`, `nfunctor.py:245–253`. -/
def NfInstance.lastActionInstances (n : NfInstance) : Except PyError (List InstanceObject) :=
  if n.nfunctorRelationshipInstanceList = [] then .ok []
  else do
    let packetOutInstance ← n.named "packet_out"
    return (n.nfunctorRelationshipInstanceList.filter (packetOutInstance = ·.successor)).map
      NfunctorRelationshipInstance.predecessor

/-- `list.remove`. -/
def pyRemove {α : Type} [DecidableEq α] (l : List α) (a : α) : Except PyError (List α) :=
  if a ∈ l then .ok (l.erase a) else .error .value

/-- The loops of `merge` over the relationships of one instance, `nfunctor.py:269–283`: every one
is added to `merged_relation_set`, those at the first of the `actions` are taken out again and
collected. -/
def sortRelations (endpoint : NfunctorRelationshipInstance → InstanceObject)
    (actions : List InstanceObject) :
    List NfunctorRelationshipInstance × List NfunctorRelationshipInstance →
      List NfunctorRelationshipInstance →
      Except PyError (List NfunctorRelationshipInstance × List NfunctorRelationshipInstance)
  | sets, [] => .ok sets
  | (merged, collected), i :: rest => do
    let merged := merged ++ [i]
    let action ←
      match actions with
      | [] => .error .index
      | action :: _ => .ok action
    if action = endpoint i then
      let merged ← pyRemove merged i
      sortRelations endpoint actions (merged, collected ++ [i]) rest
    else sortRelations endpoint actions (merged, collected) rest

/-- The loops of `merge` that join the collected relationships, `nfunctor.py:292–301`. New
relationship instances are numbered from `oid` on; the call passes no path id. -/
def joinRelations (relationSetPrevious relationSetNext : List NfunctorRelationshipInstance)
    (oid : Nat) : Except PyError (List NfunctorRelationshipInstance) :=
  let pairs := relationSetPrevious.flatMap fun i ↦ relationSetNext.map fun j ↦ (i, j)
  (pairs.zipIdx oid).mapM fun ((i, j), oid) ↦
    NfunctorRelationshipInstance.init oid
      { predecessor := some i.predecessor, successor := some j.successor, pathId := none }

/-- `merge`, `nfunctor.py:255–305`: what the lists of `self` become. -/
def NfInstance.merge (nfi1 nfi2 : NfInstance) (oid : Nat) : Except PyError NfInstance := do
  let packetOut ← nfi1.packetOut
  let packetIn ← nfi2.packetIn
  let actions1 ← nfi1.lastActionInstances
  let actions2 ← nfi2.firstActionInstances
  let (mergedRelationSet, relationSetPrevious) ←
    sortRelations NfunctorRelationshipInstance.predecessor actions1 ([], [])
      nfi1.nfunctorRelationshipInstanceList
  let (mergedRelationSet, relationSetNext) ←
    sortRelations NfunctorRelationshipInstance.successor actions2 (mergedRelationSet, [])
      nfi2.nfunctorRelationshipInstanceList
  let mergedNfunctorInstanceSet := nfi1.nfunctorInstanceList ++ nfi2.nfunctorInstanceList
  let mergedNfunctorInstanceSet ← pyRemove mergedNfunctorInstanceSet packetOut
  let mergedNfunctorInstanceSet ← pyRemove mergedNfunctorInstanceSet packetIn
  let joinedRelation ← joinRelations relationSetPrevious relationSetNext oid
  return { nfunctorInstanceList := mergedNfunctorInstanceSet
           nfunctorRelationshipInstanceList := mergedRelationSet ++ joinedRelation }

/-- An NF instance with one `packet_in` and one `packet_out`, at least one action after the first
and at least one before the second. -/
structure NfInstance.WellFormed (n : NfInstance) : Prop where
  packetIn : ∃ p, n.nfunctorInstanceList.filter (·.actionName = "packet_in") = [p] ∧
    ∃ r ∈ n.nfunctorRelationshipInstanceList, r.predecessor = p
  packetOut : ∃ p, n.nfunctorInstanceList.filter (·.actionName = "packet_out") = [p] ∧
    ∃ r ∈ n.nfunctorRelationshipInstanceList, r.successor = p

/-- The sequential composition of two NF instances. -/
structure NfInstance.Composes (nfi1 nfi2 merged : NfInstance) : Prop where
  instances : ∀ i, i ∈ merged.nfunctorInstanceList ↔
    (i ∈ nfi1.nfunctorInstanceList ∧ i.actionName ≠ "packet_out") ∨
      (i ∈ nfi2.nfunctorInstanceList ∧ i.actionName ≠ "packet_in")
  kept : ∀ r ∈ nfi1.nfunctorRelationshipInstanceList ++ nfi2.nfunctorRelationshipInstanceList,
    r.predecessor ∈ merged.nfunctorInstanceList → r.successor ∈ merged.nfunctorInstanceList →
      r ∈ merged.nfunctorRelationshipInstanceList
  joined : ∀ r ∈ nfi1.nfunctorRelationshipInstanceList, r.successor.actionName = "packet_out" →
    ∀ s ∈ nfi2.nfunctorRelationshipInstanceList, s.predecessor.actionName = "packet_in" →
      ∃ t ∈ merged.nfunctorRelationshipInstanceList, t.predecessor = r.predecessor ∧
        t.successor = s.successor ∧ t.pathId = r.pathId
  closed : ∀ r ∈ merged.nfunctorRelationshipInstanceList,
    r.predecessor ∈ merged.nfunctorInstanceList ∧ r.successor ∈ merged.nfunctorInstanceList

/-! ### The relationships without a path id -/

private theorem named_of_filter {n : NfInstance} {name : String} {p : InstanceObject}
    (h : n.nfunctorInstanceList.filter (·.actionName = name) = [p]) : n.named name = .ok p := by
  unfold NfInstance.named
  have hfind : n.nfunctorInstanceList.reverse.find? (fun i ↦ i.actionName = name) = some p := by
    rw [← List.head?_filter, List.filter_reverse, h]
    rfl
  rw [hfind]

private theorem pyRemove_of_mem {α : Type} [DecidableEq α] {l : List α} {a : α} (h : a ∈ l) :
    pyRemove l a = .ok (l.erase a) := if_pos h

/-- With an action at hand, the loop collects the relationships at it. -/
theorem sortRelations_eq (endpoint : NfunctorRelationshipInstance → InstanceObject)
    (action : InstanceObject) (actions : List InstanceObject)
    (l merged collected : List NfunctorRelationshipInstance) :
    ∃ merged', sortRelations endpoint (action :: actions) (merged, collected) l =
      .ok (merged', collected ++ l.filter (action = endpoint ·)) := by
  induction l generalizing merged collected with
  | nil => exact ⟨merged, by rw [List.filter_nil, List.append_nil]; rfl⟩
  | cons i rest ih =>
    by_cases hi : action = endpoint i
    · obtain ⟨merged', h⟩ := ih ((merged ++ [i]).erase i) (collected ++ [i])
      refine ⟨merged', ?_⟩
      rw [List.filter_cons_of_pos (by simpa using hi), ← List.append_cons] at *
      show (if action = endpoint i then
        (do let merged ← pyRemove (merged ++ [i]) i
            sortRelations endpoint (action :: actions) (merged, collected ++ [i]) rest) else _) = _
      rw [if_pos hi, pyRemove_of_mem (List.mem_append_right _ (List.mem_singleton_self i))]
      exact h
    · obtain ⟨merged', h⟩ := ih (merged ++ [i]) collected
      refine ⟨merged', ?_⟩
      rw [List.filter_cons_of_neg (by simpa using hi)]
      show (if action = endpoint i then _ else
        sortRelations endpoint (action :: actions) (merged ++ [i], collected) rest) = _
      rw [if_neg hi]
      exact h

/-- Joining raises `KeyError` as soon as there is a relationship on both sides. -/
theorem joinRelations_keyError (i j : NfunctorRelationshipInstance)
    (previous next : List NfunctorRelationshipInstance) (oid : Nat) :
    joinRelations (i :: previous) (j :: next) oid = .error (.key "path_id") := by
  unfold joinRelations
  rw [List.flatMap_cons, List.map_cons, List.cons_append]
  show List.mapM _ (List.zipIdx (_ :: _) oid) = _
  rw [List.zipIdx_cons, List.mapM_cons]
  rfl

private theorem exists_lastAction {n : NfInstance} (h : n.WellFormed) :
    ∃ p action actions, n.packetOut = .ok p ∧ p ∈ n.nfunctorInstanceList ∧
      n.lastActionInstances = .ok (action :: actions) ∧
      ∃ r ∈ n.nfunctorRelationshipInstanceList, action = r.predecessor := by
  obtain ⟨p, hp, r, hr, hsucc⟩ := h.packetOut
  have hmem : p ∈ n.nfunctorInstanceList :=
    (List.mem_filter.mp (hp ▸ List.mem_singleton_self p)).1
  have hlast : n.lastActionInstances =
      .ok ((n.nfunctorRelationshipInstanceList.filter (p = ·.successor)).map
        NfunctorRelationshipInstance.predecessor) := by
    rw [NfInstance.lastActionInstances, if_neg (List.ne_nil_of_mem hr), named_of_filter hp]
    rfl
  cases hf : n.nfunctorRelationshipInstanceList.filter (p = ·.successor) with
  | nil => exact absurd hsucc.symm (by simpa using List.filter_eq_nil_iff.mp hf r hr)
  | cons s rest =>
    have hs : s ∈ n.nfunctorRelationshipInstanceList :=
      (List.mem_filter.mp (hf ▸ List.mem_cons_self)).1
    rw [hf, List.map_cons] at hlast
    exact ⟨p, _, _, named_of_filter hp, hmem, hlast, s, hs, rfl⟩

private theorem exists_firstAction {n : NfInstance} (h : n.WellFormed) :
    ∃ p action actions, n.packetIn = .ok p ∧ p ∈ n.nfunctorInstanceList ∧
      n.firstActionInstances = .ok (action :: actions) ∧
      ∃ r ∈ n.nfunctorRelationshipInstanceList, action = r.successor := by
  obtain ⟨p, hp, r, hr, hpred⟩ := h.packetIn
  have hmem : p ∈ n.nfunctorInstanceList :=
    (List.mem_filter.mp (hp ▸ List.mem_singleton_self p)).1
  have hfirst : n.firstActionInstances =
      .ok ((n.nfunctorRelationshipInstanceList.filter (p = ·.predecessor)).map
        NfunctorRelationshipInstance.successor) := by
    rw [NfInstance.firstActionInstances, if_neg (List.ne_nil_of_mem hr), named_of_filter hp]
    rfl
  cases hf : n.nfunctorRelationshipInstanceList.filter (p = ·.predecessor) with
  | nil => exact absurd hpred.symm (by simpa using List.filter_eq_nil_iff.mp hf r hr)
  | cons s rest =>
    have hs : s ∈ n.nfunctorRelationshipInstanceList :=
      (List.mem_filter.mp (hf ▸ List.mem_cons_self)).1
    rw [hf, List.map_cons] at hfirst
    exact ⟨p, _, _, named_of_filter hp, hmem, hfirst, s, hs, rfl⟩

private theorem filter_eq_cons {α : Type} {l : List α} {q : α → Bool} {a : α} (ha : a ∈ l)
    (hq : q a = true) : ∃ b rest, l.filter q = b :: rest :=
  List.exists_cons_of_ne_nil (List.ne_nil_of_mem (List.mem_filter.mpr ⟨ha, hq⟩))

/-- Merging two NF instances raises `KeyError`, whatever the instances are: the edge to
`packet_out` and the edge from `packet_in` are always joined, and no path id is passed. -/
theorem merge_keyError {nfi1 nfi2 : NfInstance} (h1 : nfi1.WellFormed) (h2 : nfi2.WellFormed)
    (oid : Nat) : nfi1.merge nfi2 oid = .error (.key "path_id") := by
  obtain ⟨packetOut, action1, actions1, hout, houtMem, hlast, r, hr, hpred⟩ := exists_lastAction h1
  obtain ⟨packetIn, action2, actions2, hin, hinMem, hfirst, s, hs, hsucc⟩ :=
    exists_firstAction h2
  obtain ⟨merged, hprevious⟩ := sortRelations_eq NfunctorRelationshipInstance.predecessor
    action1 actions1 nfi1.nfunctorRelationshipInstanceList [] []
  obtain ⟨merged', hnext⟩ := sortRelations_eq NfunctorRelationshipInstance.successor
    action2 actions2 nfi2.nfunctorRelationshipInstanceList merged []
  obtain ⟨r', previous, hprev⟩ := filter_eq_cons (q := (action1 = ·.predecessor)) hr
    (by simpa using hpred)
  obtain ⟨s', next, hnxt⟩ := filter_eq_cons (q := (action2 = ·.successor)) hs
    (by simpa using hsucc)
  rw [List.nil_append, hprev] at hprevious
  rw [List.nil_append, hnxt] at hnext
  -- `packet_in` is still there after `packet_out` has been removed from the first instance
  have hrest : ∃ l, pyRemove ((nfi1.nfunctorInstanceList ++ nfi2.nfunctorInstanceList).erase
      packetOut) packetIn = .ok l := by
    refine ⟨_, pyRemove_of_mem ?_⟩
    rw [List.erase_append_left _ houtMem]
    exact List.mem_append_right _ hinMem
  obtain ⟨l, hl⟩ := hrest
  unfold NfInstance.merge
  rw [hout, hin, hlast, hfirst]
  show (sortRelations _ (action1 :: actions1) ([], []) _ >>= _) = _
  rw [hprevious]
  show (sortRelations _ (action2 :: actions2) (merged, []) _ >>= _) = _
  rw [hnext]
  show (pyRemove _ packetOut >>= _) = _
  rw [pyRemove_of_mem (List.mem_append_left _ houtMem)]
  show (pyRemove _ packetIn >>= _) = _
  rw [hl, joinRelations_keyError]
  rfl

/-- No two NF instances are merged into their sequential composition. -/
theorem merge_never_composes {nfi1 nfi2 : NfInstance} (h1 : nfi1.WellFormed)
    (h2 : nfi2.WellFormed) (oid : Nat) :
    nfi1.merge nfi2 oid = .error (.key "path_id") ∧
      ¬ ∃ merged, nfi1.merge nfi2 oid = .ok merged ∧ nfi1.Composes nfi2 merged := by
  have herror := merge_keyError h1 h2 oid
  refine ⟨herror, ?_⟩
  rintro ⟨merged, hok, -⟩
  rw [herror] at hok
  cases hok

/-- Instances of `gd` meet the conditions of a merge. -/
theorem wellFormed_gd (oid : Nat) : (NfInstance.ofNf gd oid).WellFormed where
  packetIn := ⟨⟨oid, nfunctor1, 0⟩, rfl, ⟨oid, ⟨oid, nfunctor1, 0⟩, ⟨oid + 1, nfunctor2, 0⟩, 0⟩,
    List.mem_cons_self, rfl⟩
  packetOut := ⟨⟨oid + 4, nfunctor5, 0⟩, rfl,
    ⟨oid + 3, ⟨oid + 2, nfunctor3, 0⟩, ⟨oid + 4, nfunctor5, 0⟩, 2⟩,
    List.mem_of_getElem? (i := 3) rfl, rfl⟩

/-- Two instances of `gd`. -/
theorem merge_never_composes_gd :
    (NfInstance.ofNf gd 0).merge (NfInstance.ofNf gd 10) 20 = .error (.key "path_id") :=
  (merge_never_composes (wellFormed_gd 0) (wellFormed_gd 10) 20).1

/-- Merging two instances of `gd` does not complete. -/
theorem merge_gd_fails :
    ¬ ∃ merged, (NfInstance.ofNf gd 0).merge (NfInstance.ofNf gd 10) 20 = .ok merged ∧
      (NfInstance.ofNf gd 0).Composes (NfInstance.ofNf gd 10) merged := by
  rintro ⟨merged, hok, -⟩
  rw [merge_keyError (wellFormed_gd 0) (wellFormed_gd 10) 20] at hok
  cases hok

end Nflambda.Director
