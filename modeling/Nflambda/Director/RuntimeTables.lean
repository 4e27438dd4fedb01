import Nflambda.Director.Buckets

/-!
# Consistency of the runtime tables

Library `Director`. What `Nfunctor_graph.__init__`,
`src/director/em/__init__.py:210–251`, leaves in its two tables for any list of
nfunctor instances: one entry for each key, indices that stay valid while the
tables grow, references from actions to states, and ranges of buckets.
-/

namespace Nflambda.Director

open Nflambda.Base

/-- The key of an entry of the state table: state, `nf_id` and execution. -/
abbrev StateKey := State × Nat × Nat

/-- The keys of the state table, in order. -/
def NfunctorGraph.stateKeys (g : NfunctorGraph) : List StateKey := g.states.map StateRuntime.key

/-- The key that a visit inserts into the state table, if its nfunctor has a state. -/
def Visit.stateKey (c : Visit) : Option StateKey :=
  c.2.nfunctor.state.map fun state ↦ (state, c.2.nfId, c.1)

/-- The visits of the loops, `__init__.py:222–224`, in order. -/
def visits (l : List NfunctorInstance) (n : Nat) : List Visit := grid n l Prod.mk

/-- The tables after some visits, with `num` buckets for each `packet_in`. -/
def fillTables (num : Nat) (cs : List Visit) : NfunctorGraph :=
  cs.foldl (fun g c ↦ g.add c.1 c.2) ⟨num, 0, [], []⟩

/-- The number of visits of `packet_in` nfunctors. -/
def packetInVisits (cs : List Visit) : Nat := cs.countP fun c ↦ c.2.nfunctor.IsPacketIn

/-- The two loops are one loop over the visits. -/
theorem buildTables_eq_fill (l : List NfunctorInstance) (n : Nat) :
    buildTables l n = fillTables (512 / n) (visits l n) := by
  unfold buildTables fillTables visits grid
  rw [List.foldl_flatMap]
  simp only [List.foldl_map]

/-- The state reference of an action entry: none, or the entry with the state of its nfunctor, its
`nf_id` and its execution. -/
structure RefersTo (keys : List StateKey) (a : ActionRuntime) : Prop where
  none_iff : a.stateId = -1 ↔ a.action.state = none
  index : ∀ state, a.action.state = some state →
    ∃ k : Nat, a.stateId = k ∧ keys[k]? = some (state, a.nfId, a.executionId)

/-- References stay valid while the state table grows. -/
theorem RefersTo.mono {keys keys' : List StateKey} {a : ActionRuntime} (h : RefersTo keys a)
    (hp : keys <+: keys') : RefersTo keys' a := by
  refine ⟨h.none_iff, fun state hs ↦ ?_⟩
  obtain ⟨k, hid, hk⟩ := h.index state hs
  exact ⟨k, hid, getElem?_of_prefix hp hk⟩

/-- The range of buckets of the entry of a visit, if `before` visits of `packet_in` came before. -/
def rangeGiven (num before : Nat) (f : Nfunctor) : Nat × Nat :=
  if f.IsPacketIn then (before * num, num) else (0, 0)

/-! ### One visit -/

/-- The state table after one visit. -/
theorem states_add (g : NfunctorGraph) (c : Visit) :
    (g.add c.1 c.2).states = (g.stateOf c).1 := by
  rw [add_eq]
  split <;> rfl

/-- What one visit adds to the keys of the state table. -/
theorem stateKeys_add (g : NfunctorGraph) (c : Visit) :
    (g.add c.1 c.2).stateKeys =
      match c.stateKey with
      | none => g.stateKeys
      | some k => addNew g.stateKeys k := by
  unfold NfunctorGraph.stateKeys
  rw [states_add]
  unfold NfunctorGraph.stateOf Visit.stateKey
  cases c.2.nfunctor.state with
  | none => rfl
  | some state => exact map_intern StateRuntime.key g.states rfl

/-- The state table only grows at its end. -/
theorem stateKeys_prefix_add (g : NfunctorGraph) (c : Visit) :
    g.stateKeys <+: (g.add c.1 c.2).stateKeys := by
  rw [stateKeys_add]
  cases c.stateKey with
  | none => exact List.prefix_rfl
  | some k => exact prefix_addNew g.stateKeys k

/-- What the search for the action adds to the keys of the action table. -/
theorem map_key_actionsOf (g : NfunctorGraph) (c : Visit) :
    (g.actionsOf c).map ActionRuntime.key = addNew g.actionKeys c.actionKey :=
  map_intern ActionRuntime.key g.actions rfl

/-- What one visit adds to the keys of the action table. -/
theorem actionKeys_add (g : NfunctorGraph) (c : Visit) :
    (g.add c.1 c.2).actionKeys = addNew g.actionKeys c.actionKey := by
  rw [← map_key_actionsOf, add_eq]
  unfold NfunctorGraph.actionKeys
  split
  · apply map_modify_of_eq
    intro a
    rfl
  · rfl

/-- The state index of a visit refers to its state. -/
theorem refersTo_add (g : NfunctorGraph) (c : Visit) {a : ActionRuntime}
    (hk : a.key = c.actionKey) (hid : a.stateId = (g.stateOf c).2) :
    RefersTo (g.add c.1 c.2).stateKeys a := by
  have haction : a.action = c.2.nfunctor := congrArg (·.1) hk
  have hnf : a.nfId = c.2.nfId := congrArg (·.2.1) hk
  have hexec : a.executionId = c.1 := congrArg (·.2.2) hk
  unfold NfunctorGraph.stateKeys
  rw [states_add]
  unfold NfunctorGraph.stateOf at hid ⊢
  cases hs : c.2.nfunctor.state with
  | none =>
    rw [hs] at hid
    refine ⟨by simp [haction, hs, hid], fun state hstate ↦ ?_⟩
    rw [haction, hs] at hstate
    cases hstate
  | some state =>
    rw [hs] at hid
    refine ⟨?_, fun state' hstate ↦ ?_⟩
    · rw [hid, haction, hs]
      simp
    · rw [haction, hs, Option.some.injEq] at hstate
      subst hstate
      refine ⟨_, hid, ?_⟩
      rw [hnf, hexec]
      exact getElem?_intern StateRuntime.key g.states rfl

/-- A visit whose key is new adds one entry, with its reference and its range of buckets. -/
theorem exists_entry_add {g : NfunctorGraph} {c : Visit} (hnew : c.actionKey ∉ g.actionKeys) :
    ∃ a, (g.add c.1 c.2).actions = g.actions ++ [a] ∧ a.stateId = (g.stateOf c).2 ∧
      a.key = c.actionKey ∧ (a.startingBucket, a.numBucket) =
        if c.2.nfunctor.IsPacketIn then (g.startingBucket, g.numBuckets) else (0, 0) := by
  have hactions := actionsOf_new hnew
  rw [add_eq]
  by_cases hin : c.2.nfunctor.IsPacketIn
  · rw [if_pos hin, if_pos hin, hactions, modify_last]
    exact ⟨_, rfl, rfl, rfl, rfl⟩
  · rw [if_neg hin, if_neg hin, hactions]
    exact ⟨_, rfl, rfl, rfl, rfl⟩

/-! ### All visits -/

/-- The tables after the visits `cs`. -/
structure Filled (num : Nat) (cs : List Visit) (g : NfunctorGraph) : Prop where
  each : g.numBuckets = num
  next : g.startingBucket = packetInVisits cs * num
  states_nodup : g.stateKeys.Nodup
  mem_states : ∀ k, k ∈ g.stateKeys ↔ ∃ c ∈ cs, c.stateKey = some k
  actions : g.actionKeys = cs.map Visit.actionKey
  refers : ∀ a ∈ g.actions, RefersTo g.stateKeys a
  range : ∀ (k : Nat) (c : Visit) (a : ActionRuntime), cs[k]? = some c → g.actions[k]? = some a →
    (a.startingBucket, a.numBucket) = rangeGiven num (packetInVisits (cs.take k)) c.2.nfunctor

/-- The empty tables. -/
theorem Filled.nil (num : Nat) : Filled num [] ⟨num, 0, [], []⟩ where
  each := rfl
  next := by simp [packetInVisits]
  states_nodup := List.nodup_nil
  mem_states k := by simp [NfunctorGraph.stateKeys]
  actions := rfl
  refers a ha := by cases ha
  range k c a hc := by simp at hc

private theorem Filled.add_mem_states {num : Nat} {cs : List Visit} {g : NfunctorGraph}
    (h : Filled num cs g) (c : Visit) (k : StateKey) :
    k ∈ (g.add c.1 c.2).stateKeys ↔ ∃ c' ∈ cs ++ [c], c'.stateKey = some k := by
  have hsplit : (∃ c' ∈ cs ++ [c], c'.stateKey = some k) ↔
      k ∈ g.stateKeys ∨ c.stateKey = some k := by
    rw [h.mem_states]
    simp [or_and_right, exists_or]
  rw [hsplit, stateKeys_add]
  cases c.stateKey with
  | none => simp
  | some k' =>
    simp only [mem_addNew, Option.some.injEq]
    rw [eq_comm]

private theorem Filled.add_states_nodup {num : Nat} {cs : List Visit} {g : NfunctorGraph}
    (h : Filled num cs g) (c : Visit) : (g.add c.1 c.2).stateKeys.Nodup := by
  rw [stateKeys_add]
  cases c.stateKey with
  | none => exact h.states_nodup
  | some k => exact nodup_addNew h.states_nodup k

private theorem packetInVisits_snoc (cs : List Visit) (c : Visit) :
    packetInVisits (cs ++ [c]) =
      packetInVisits cs + if c.2.nfunctor.IsPacketIn then 1 else 0 := by
  unfold packetInVisits
  rw [List.countP_append, List.countP_singleton]
  simp

private theorem buckets_add (g : NfunctorGraph) (c : Visit) :
    (g.add c.1 c.2).numBuckets = g.numBuckets ∧ (g.add c.1 c.2).startingBucket =
      g.startingBucket + if c.2.nfunctor.IsPacketIn then g.numBuckets else 0 := by
  rw [add_eq]
  by_cases hin : c.2.nfunctor.IsPacketIn
  · rw [if_pos hin, if_pos hin]
    exact ⟨rfl, rfl⟩
  · rw [if_neg hin, if_neg hin]
    exact ⟨rfl, rfl⟩

/-- One visit whose action key is new. -/
theorem Filled.add {num : Nat} {cs : List Visit} {g : NfunctorGraph} (h : Filled num cs g)
    {c : Visit} (hnew : c.actionKey ∉ cs.map Visit.actionKey) :
    Filled num (cs ++ [c]) (g.add c.1 c.2) := by
  rw [← h.actions] at hnew
  obtain ⟨a, hactions, hid, hkey, hrange⟩ := exists_entry_add hnew
  obtain ⟨hnum, hstart⟩ := buckets_add g c
  have hlen : g.actions.length = cs.length := by
    have hmap := congrArg List.length h.actions
    rwa [NfunctorGraph.actionKeys, List.length_map, List.length_map] at hmap
  refine ⟨hnum.trans h.each, ?_, h.add_states_nodup c, h.add_mem_states c, ?_, ?_, ?_⟩
  · rw [hstart, h.next, h.each, packetInVisits_snoc, Nat.add_mul]
    split <;> simp
  · rw [actionKeys_add, addNew, if_neg hnew, h.actions, List.map_append, List.map_singleton]
  · intro b hb
    rw [hactions, List.mem_append, List.mem_singleton] at hb
    rcases hb with hb | rfl
    · exact (h.refers b hb).mono (stateKeys_prefix_add g c)
    · exact refersTo_add g c hkey hid
  · intro k c' b hc' hb
    rw [hactions] at hb
    by_cases hk : k < cs.length
    · rw [List.getElem?_append_left hk] at hc'
      rw [List.getElem?_append_left (by omega)] at hb
      rw [List.take_append_of_le_length (by omega)]
      exact h.range k c' b hc' hb
    · -- Only the new entry stands here.
      have hkc : k = cs.length := by
        obtain ⟨hlt, -⟩ := List.getElem?_eq_some_iff.mp hc'
        rw [List.length_append, List.length_singleton] at hlt
        omega
      subst hkc
      rw [List.getElem?_concat_length, Option.some.injEq] at hc'
      rw [← hlen, List.getElem?_concat_length, Option.some.injEq] at hb
      subst hc' hb
      rw [hrange, List.take_left, h.next, h.each]
      rfl

/-- The tables after any visits with distinct action keys. -/
theorem filled_fill (num : Nat) {cs : List Visit} (hn : (cs.map Visit.actionKey).Nodup) :
    Filled num cs (fillTables num cs) := by
  induction cs using List.reverseRecOn with
  | nil => exact Filled.nil num
  | append_singleton cs c ih =>
    rw [List.map_append, List.map_singleton, List.nodup_append] at hn
    obtain ⟨hcs, -, hdisj⟩ := hn
    unfold fillTables
    rw [List.foldl_append]
    apply (ih hcs).add
    intro hmem
    exact hdisj _ hmem _ (List.mem_singleton_self _) rfl

/-! ### Indices that were returned -/

/-- The indices that the two calls of `insert` in a visit after the visits `cs` return are the
positions of the inserted keys in the tables of `g`. -/
structure IndicesValid (num : Nat) (cs : List Visit) (c : Visit) (g : NfunctorGraph) : Prop where
  state : ∀ state, c.2.nfunctor.state = some state →
    g.stateKeys[(stateInsert (fillTables num cs).states state c.2.nfId c.1).2]? =
      some (state, c.2.nfId, c.1)
  action : g.actionKeys[(actionInsert (fillTables num cs).actions c.2.nfunctor c.2.nfId c.1
    ((fillTables num cs).stateOf c).2).2]? = some c.actionKey

private theorem fill_snoc (num : Nat) (cs : List Visit) (c : Visit) :
    fillTables num (cs ++ [c]) = (fillTables num cs).add c.1 c.2 := by
  unfold fillTables
  rw [List.foldl_append]
  rfl

/-- Later visits only add keys at the ends of the tables. -/
theorem keys_prefix_fill (num : Nat) (cs ds : List Visit) :
    (fillTables num cs).stateKeys <+: (fillTables num (cs ++ ds)).stateKeys ∧
      (fillTables num cs).actionKeys <+: (fillTables num (cs ++ ds)).actionKeys := by
  induction ds using List.reverseRecOn with
  | nil =>
    rw [List.append_nil]
    exact ⟨List.prefix_rfl, List.prefix_rfl⟩
  | append_singleton ds d ih =>
    rw [← List.append_assoc, fill_snoc, actionKeys_add]
    exact ⟨ih.1.trans (stateKeys_prefix_add _ d), ih.2.trans (prefix_addNew _ _)⟩

/-- The indices stay valid, whatever is inserted later. -/
theorem indicesValid_fill (num : Nat) (cs : List Visit) (c : Visit) (ds : List Visit) :
    IndicesValid num cs c (fillTables num (cs ++ c :: ds)) := by
  obtain ⟨hstates, hactions⟩ := keys_prefix_fill num (cs ++ [c]) ds
  rw [List.append_assoc, List.singleton_append, fill_snoc] at hstates hactions
  constructor
  · intro state hs
    apply getElem?_of_prefix hstates
    unfold NfunctorGraph.stateKeys
    rw [states_add]
    unfold NfunctorGraph.stateOf
    rw [hs]
    exact getElem?_intern StateRuntime.key (fillTables num cs).states rfl
  · apply getElem?_of_prefix hactions
    rw [actionKeys_add, ← map_key_actionsOf]
    exact getElem?_intern ActionRuntime.key (fillTables num cs).actions rfl

/-! ### The wiring -/

/-- The wiring keeps the keys of the state table. -/
theorem stateKeys_wired (r : List NfunctorRelationship) (g : NfunctorGraph)
    (ps : List (Placed × Placed)) : (wired r g ps).stateKeys = g.stateKeys := by
  unfold NfunctorGraph.stateKeys wired
  apply List.ext_getElem?
  intro k
  rw [List.getElem?_map, List.getElem?_mapIdx, List.getElem?_map, Option.map_map]
  rfl

/-- The wiring keeps the keys of the action table. -/
theorem actionKeys_wired (r : List NfunctorRelationship) (g : NfunctorGraph)
    (ps : List (Placed × Placed)) : (wired r g ps).actionKeys = g.actionKeys := by
  unfold NfunctorGraph.actionKeys wired
  apply List.ext_getElem?
  intro k
  rw [List.getElem?_map, List.getElem?_mapIdx, List.getElem?_map, Option.map_map]
  rfl

/-- The wiring only changes the next action of an entry. -/
theorem exists_of_actions_wired {r : List NfunctorRelationship} {g : NfunctorGraph}
    {ps : List (Placed × Placed)} {k : Nat} {a : ActionRuntime}
    (h : (wired r g ps).actions[k]? = some a) :
    ∃ b next, g.actions[k]? = some b ∧ a = { b with nextAction := next } := by
  unfold wired at h
  dsimp only at h
  rw [List.getElem?_mapIdx, Option.map_eq_some_iff] at h
  obtain ⟨b, hb, rfl⟩ := h
  exact ⟨b, _, hb, rfl⟩

/-- The wiring keeps what the visits achieve. -/
theorem Filled.wired {num : Nat} {cs : List Visit} {g : NfunctorGraph} (h : Filled num cs g)
    (r : List NfunctorRelationship) (ps : List (Placed × Placed)) :
    Filled num cs (wired r g ps) := by
  refine ⟨h.each, h.next, ?_, ?_, ?_, ?_, ?_⟩
  · rw [stateKeys_wired]
    exact h.states_nodup
  · rw [stateKeys_wired]
    exact h.mem_states
  · rw [actionKeys_wired]
    exact h.actions
  · intro a ha
    obtain ⟨k, hk⟩ := List.mem_iff_getElem?.mp ha
    obtain ⟨b, next, hb, rfl⟩ := exists_of_actions_wired hk
    have href := h.refers b (List.mem_of_getElem? hb)
    rw [stateKeys_wired]
    exact ⟨href.none_iff, href.index⟩
  · intro k c a hc ha
    obtain ⟨b, next, hb, rfl⟩ := exists_of_actions_wired ha
    exact h.range k c b hc hb

/-! ### The finished tables -/

/-- The number of `packet_in` nfunctors of an instance. -/
def packetInCount (l : List NfunctorInstance) : Nat := l.countP fun i ↦ i.nfunctor.IsPacketIn

/-- The tables of a finished graph for the nfunctor instances `l` in `n` executions. -/
structure Consistent (l : List NfunctorInstance) (n : Nat) (g : NfunctorGraph) : Prop where
  /-- One entry for each state, `nf_id` and execution. -/
  states_nodup : g.stateKeys.Nodup
  mem_states : ∀ state nfId e, (state, nfId, e) ∈ g.stateKeys ↔
    e < n ∧ ∃ i ∈ l, i.nfunctor.state = some state ∧ i.nfId = nfId
  /-- One entry for each nfunctor and execution, execution by execution. -/
  actions : g.actionKeys = grid n l fun e i ↦ (i.nfunctor, i.nfId, e)
  actions_nodup : g.actionKeys.Nodup
  /-- Every entry refers to its state, or to none. -/
  refers : ∀ a ∈ g.actions, RefersTo g.stateKeys a
  /-- The indices that `insert` returned are valid after all later calls and in the end. -/
  indices : ∀ (cs : List Visit) (c : Visit) (ds : List Visit), visits l n = cs ++ c :: ds →
    (∀ later, later <+: ds →
      IndicesValid (512 / n) cs c (fillTables (512 / n) (cs ++ c :: later))) ∧
      IndicesValid (512 / n) cs c g
  /-- `packet_in` entries have successive ranges of buckets, and other entries have none. -/
  range : ∀ (e k : Nat) (i : NfunctorInstance) (a : ActionRuntime), e < n → l[k]? = some i →
    g.actions[e * l.length + k]? = some a → (a.startingBucket, a.numBucket) =
      rangeGiven (512 / n) (e * packetInCount l + packetInCount (l.take k)) i.nfunctor
  /-- With one `packet_in`, its entry has the range of its execution. -/
  range_one : packetInCount l = 1 → ∀ a ∈ g.actions,
    (a.startingBucket, a.numBucket) = rangeGiven (512 / n) a.executionId a.action

private theorem visits_actionKeys (l : List NfunctorInstance) (n : Nat) :
    (visits l n).map Visit.actionKey = grid n l fun e i ↦ (i.nfunctor, i.nfId, e) := by
  unfold visits grid
  rw [List.map_flatMap]
  simp only [List.map_map]
  rfl

private theorem nodup_actionKeys {l : List NfunctorInstance}
    (hl : (l.map NfunctorInstance.nfunctor).Nodup) (n : Nat) :
    (grid n l fun e i ↦ ((i.nfunctor, i.nfId, e) : ActionKey)).Nodup := by
  induction n with
  | zero => exact List.nodup_nil
  | succ n ih =>
    rw [grid_succ, List.nodup_append]
    refine ⟨ih, ?_, ?_⟩
    · apply List.Nodup.of_map (·.1)
      rw [List.map_map]
      exact hl
    · intro a ha b hb hab
      subst hab
      obtain ⟨e, he, i, -, rfl⟩ := mem_grid.mp ha
      obtain ⟨j, -, hj⟩ := List.mem_map.mp hb
      have hexec : n = e := congrArg (·.2.2) hj
      omega

private theorem packetInVisits_grid (l : List NfunctorInstance) (n : Nat) :
    packetInVisits (grid n l Prod.mk) = n * packetInCount l :=
  countP_grid fun _ _ ↦ rfl

private theorem packetInVisits_row (l : List NfunctorInstance) (e : Nat) :
    packetInVisits (l.map (Prod.mk e)) = packetInCount l := by
  unfold packetInVisits packetInCount
  rw [List.countP_map]
  rfl

/-- The entries before the entry of `k` in execution `e`. -/
private theorem packetInVisits_take {l : List NfunctorInstance} {n e k : Nat} (he : e < n)
    (hk : k ≤ l.length) : packetInVisits ((visits l n).take (e * l.length + k)) =
      e * packetInCount l + packetInCount (l.take k) := by
  unfold visits
  rw [take_grid he hk]
  unfold packetInVisits
  rw [List.countP_append]
  exact congrArg₂ (· + ·) (packetInVisits_grid l e) (packetInVisits_row (l.take k) e)

private theorem Filled.range_at {l : List NfunctorInstance} {n num : Nat} {g : NfunctorGraph}
    (h : Filled num (visits l n) g) {e k : Nat} {i : NfunctorInstance} {a : ActionRuntime}
    (he : e < n) (hi : l[k]? = some i) (ha : g.actions[e * l.length + k]? = some a) :
    (a.startingBucket, a.numBucket) =
      rangeGiven num (e * packetInCount l + packetInCount (l.take k)) i.nfunctor := by
  obtain ⟨hk, -⟩ := List.getElem?_eq_some_iff.mp hi
  have hc : (visits l n)[e * l.length + k]? = some (e, i) := by
    unfold visits
    rw [getElem?_grid he hk, hi, Option.map_some]
  rw [← packetInVisits_take he (Nat.le_of_lt hk)]
  exact h.range _ _ a hc ha

private theorem no_packetIn_before {l : List NfunctorInstance} (h1 : packetInCount l = 1)
    {k : Nat} {i : NfunctorInstance} (hi : l[k]? = some i) (hin : i.nfunctor.IsPacketIn) :
    packetInCount (l.take k) = 0 := by
  have hsplit : packetInCount l = packetInCount (l.take k) + packetInCount (l.drop k) := by
    unfold packetInCount
    rw [← List.countP_append, List.take_append_drop]
  have hpos : 0 < packetInCount (l.drop k) := by
    apply List.countP_pos_iff.mpr
    refine ⟨i, ?_, by simpa using hin⟩
    apply List.mem_of_getElem? (i := 0)
    rw [List.getElem?_drop]
    exact hi
  omega

/-- With one `packet_in`, no range depends on the position of its entry. -/
private theorem rangeGiven_one {l : List NfunctorInstance} (h1 : packetInCount l = 1) {k : Nat}
    {i : NfunctorInstance} (hi : l[k]? = some i) (num e : Nat) :
    rangeGiven num (e * packetInCount l + packetInCount (l.take k)) i.nfunctor =
      rangeGiven num e i.nfunctor := by
  unfold rangeGiven
  by_cases hin : i.nfunctor.IsPacketIn
  · rw [if_pos hin, if_pos hin, no_packetIn_before h1 hi hin, h1, Nat.mul_one, Nat.add_zero]
  · rw [if_neg hin, if_neg hin]

private theorem Filled.range_one {l : List NfunctorInstance} {n num : Nat} {g : NfunctorGraph}
    (h : Filled num (visits l n) g) (h1 : packetInCount l = 1) {a : ActionRuntime}
    (ha : a ∈ g.actions) :
    (a.startingBucket, a.numBucket) = rangeGiven num a.executionId a.action := by
  obtain ⟨j, hj⟩ := List.mem_iff_getElem?.mp ha
  have hkey := congrArg (·[j]?) (h.actions.trans (visits_actionKeys l n))
  rw [NfunctorGraph.actionKeys, List.getElem?_map, hj, Option.map_some] at hkey
  obtain ⟨e, k, i, he, hi, rfl, hak⟩ := getElem?_grid_eq_some hkey.symm
  have haction : a.action = i.nfunctor := congrArg (·.1) hak
  have hexec : a.executionId = e := congrArg (·.2.2) hak
  rw [h.range_at he hi hj, haction, hexec]
  exact rangeGiven_one h1 hi num e

private theorem Filled.mem_stateKeys {l : List NfunctorInstance} {n num : Nat}
    {g : NfunctorGraph} (h : Filled num (visits l n) g) (state : State) (nfId e : Nat) :
    (state, nfId, e) ∈ g.stateKeys ↔
      e < n ∧ ∃ i ∈ l, i.nfunctor.state = some state ∧ i.nfId = nfId := by
  rw [h.mem_states]
  unfold visits Visit.stateKey
  constructor
  · rintro ⟨c, hc, hk⟩
    obtain ⟨e', he', i, hi, rfl⟩ := mem_grid.mp hc
    rw [Option.map_eq_some_iff] at hk
    obtain ⟨s, hs, hsk⟩ := hk
    cases hsk
    exact ⟨he', i, hi, hs, rfl⟩
  · rintro ⟨he, i, hi, hs, rfl⟩
    refine ⟨(e, i), mem_grid.mpr ⟨e, he, i, hi, rfl⟩, ?_⟩
    rw [hs]
    rfl

/-- The indices stay valid through the wiring as well. -/
private theorem IndicesValid.wired {num : Nat} {cs : List Visit} {c : Visit} {g : NfunctorGraph}
    (h : IndicesValid num cs c g) (r : List NfunctorRelationship) (ps : List (Placed × Placed)) :
    IndicesValid num cs c (wired r g ps) := by
  refine ⟨?_, ?_⟩
  · rw [stateKeys_wired]
    exact h.state
  · rw [actionKeys_wired]
    exact h.action

/-- The tables of every finished graph are consistent, for any list of distinct nfunctors and any
number of executions. -/
theorem runtime_tables_consistent (l : List NfunctorInstance) (n : Nat) (g : NfunctorGraph)
    (hl : (l.map NfunctorInstance.nfunctor).Nodup) (hg : nfunctorGraphOf l n = some g) :
    Consistent l n g := by
  have hwire : wire nfunctorRelationshipList (buildTables l n) = some g := by
    unfold nfunctorGraphOf at hg
    split at hg
    · cases hg
    · exact hg
  obtain ⟨-, rfl⟩ := (wire_eq_some_iff _ _ _).mp hwire
  have hkeys : ((visits l n).map Visit.actionKey).Nodup := by
    rw [visits_actionKeys]
    exact nodup_actionKeys hl n
  rw [buildTables_eq_fill]
  have h := (filled_fill (512 / n) hkeys).wired nfunctorRelationshipList
    (pairsOf (fillTables (512 / n) (visits l n)))
  constructor
  · exact h.states_nodup
  · exact h.mem_stateKeys
  · exact h.actions.trans (visits_actionKeys l n)
  · rw [h.actions]
    exact hkeys
  · exact h.refers
  · intro cs c ds hsplit
    refine ⟨fun later _ ↦ indicesValid_fill _ cs c later, ?_⟩
    apply IndicesValid.wired
    rw [hsplit]
    exact indicesValid_fill _ cs c ds
  · intro e k i a he hi ha
    exact h.range_at he hi ha
  · intro h1 a ha
    exact h.range_one h1 ha

/-- The tables of the generic decomposed network function in two executions. -/
theorem runtime_tables_consistent_gd : ∃ g, nfunctorGraphOf (nfunctorInstanceList gd) 2 = some g ∧
    Consistent (nfunctorInstanceList gd) 2 g := by
  have hsome : (nfunctorGraphOf (nfunctorInstanceList gd) 2).isSome := by decide +kernel
  obtain ⟨g, hg⟩ := Option.isSome_iff_exists.mp hsome
  exact ⟨g, hg, runtime_tables_consistent _ 2 g (by decide) hg⟩

/-- Two ways into one network function: two nfunctors with the action `packet_in`. -/
def twoEntrances : List NfunctorInstance :=
  [⟨nfunctor1, 0⟩, ⟨⟨5, packetIn, none⟩, 0⟩, ⟨nfunctor2, 0⟩]

/-- With two `packet_in` nfunctors, an entry of the only execution has buckets from 512 on. -/
theorem second_entrance_out_of_range : ∃ g, nfunctorGraphOf twoEntrances 1 = some g ∧
    (twoEntrances.map NfunctorInstance.nfunctor).Nodup ∧
    ∃ a ∈ g.actions, a.action.IsPacketIn ∧ a.executionId = 0 ∧
      (a.startingBucket, a.numBucket) = (512, 512) ∧
      (a.startingBucket, a.numBucket) ≠ (a.executionId * (512 / 1), 512 / 1) := by
  have hactions : (nfunctorGraphOf twoEntrances 1).map (fun g ↦ g.actions[1]?) =
      some (some ⟨⟨5, packetIn, none⟩, 0, 0, -1, 1, 512, 512, 2⟩) := by decide +kernel
  obtain ⟨g, hg, ha⟩ := Option.map_eq_some_iff.mp hactions
  exact ⟨g, hg, by decide, _, List.mem_of_getElem? ha, by decide⟩

end Nflambda.Director
