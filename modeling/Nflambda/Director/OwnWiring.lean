import Nflambda.Director.Wiring

/-!
# Which network functions the planner wires

Library `Director`. `Nfunctor_graph` looks relationships up in the list of the
module `src/director/em/__init__.py:37`, by action, and writes the state entry
`-1` for nfunctors without state. Here the slots of the finished tables are
expressed by the nfunctors of the network function, and compared with the
relationships of the network function itself.
-/

namespace Nflambda.Director

open Nflambda.Base

/-- `v` is the table index of the copy of `f` in execution `executionId`. -/
def IndexOf (g : NfunctorGraph) (f : Nfunctor) (executionId : Nat) (v : Int) : Prop :=
  ∃ (j : Nat) (a : ActionRuntime), g.actions[j]? = some a ∧ a.action = f ∧
    a.executionId = executionId ∧ v = (j : Int)

/-- Network functions of the form the planner expects: one `packet_in`, one `packet_out`, and
relationships between its nfunctors whose path ids are below 10 and differ if their predecessors
share a state. -/
structure Nf.Valid (nf : Nf) : Prop where
  packetIn : (nf.nfunctorList.filter fun f ↦ f.action.name = "packet_in").length = 1
  packetOut : (nf.nfunctorList.filter fun f ↦ f.action.name = "packet_out").length = 1
  members : ∀ r ∈ nf.nfunctorRelationshipList,
    r.predecessor ∈ nf.nfunctorList ∧ r.successor ∈ nf.nfunctorList
  pathId : ∀ r ∈ nf.nfunctorRelationshipList, 0 ≤ r.pathId ∧ r.pathId < 10
  distinct : nf.nfunctorRelationshipList.Pairwise fun r r' ↦
    r.predecessor.state ≠ none → r.predecessor.state = r'.predecessor.state →
      r.pathId ≠ r'.pathId

/-- The tables of `g` are wired by the relationships of `nf`. -/
structure WiresItself (nf : Nf) (g : NfunctorGraph) : Prop where
  successor : ∀ s ∈ g.states, ∀ p : Fin 10, ∀ r ∈ nf.nfunctorRelationshipList,
    r.pathId = (p.val : Int) → r.predecessor.state = some s.state →
      IndexOf g r.successor s.executionId (s.path p)
  unset : ∀ s ∈ g.states, ∀ p : Fin 10,
    (∀ r ∈ nf.nfunctorRelationshipList, r.pathId = (p.val : Int) →
      r.predecessor.state ≠ some s.state) → s.path p = -1
  next : ∀ a ∈ g.actions, a.action.action.name = "packet_in" →
    ∀ r ∈ nf.nfunctorRelationshipList, r.predecessor = a.action →
      IndexOf g r.successor a.executionId a.nextAction

/-- The state entry of `x` in execution `e` of `n` is the one that `f` writes, in its own
execution or, without a state, as the last of the table. -/
def Writes (l : List Nfunctor) (n e : Nat) (x : State) (f : Nfunctor) : Prop :=
  f.state = some x ∨ f.state = none ∧ e + 1 = n ∧ (stateList l).getLast? = some x

instance (l : List Nfunctor) (n e : Nat) (x : State) (f : Nfunctor) :
    Decidable (Writes l n e x f) := by
  unfold Writes
  infer_instance

/-- The last of the pairs of nfunctors, in the order of the table, that the list of the module
joins with path id `p` and whose first one writes the state entry of `x`: its second one. -/
def lastJoined (l : List Nfunctor) (n e : Nat) (x : State) (p : Fin 10) : Option Nfunctor :=
  lastWrite (fun q : Nfunctor × Nfunctor ↦
    if Writes l n e x q.1 ∧
        inRelationshipList nfunctorRelationshipList q.1.action q.2.action = (p.val : Int) then
      some q.2
    else none) (distinctNfunctors l ×ˢ distinctNfunctors l)

/-- The last nfunctor that the list of the module joins `f` to. -/
def lastNext (l : List Nfunctor) (f : Nfunctor) : Option Nfunctor :=
  lastWrite (fun q : Nfunctor × Nfunctor ↦
    if q.1 = f ∧ inRelationshipList nfunctorRelationshipList q.1.action q.2.action ≠ -1 then
      some q.2
    else none) (distinctNfunctors l ×ˢ distinctNfunctors l)

/-- The relationships of the module, looked up by action, wire the nfunctors of `nf` as its own
relationships do. -/
structure WiringMatches (nf : Nf) (n : Nat) : Prop where
  noException : ∀ f ∈ nf.nfunctorList, ∀ g ∈ nf.nfunctorList,
    inRelationshipList nfunctorRelationshipList f.action g.action ≠ -1 →
      ∃ f ∈ nf.nfunctorList, f.state ≠ none
  successor : ∀ e, e < n → ∀ x ∈ stateList nf.nfunctorList, ∀ p : Fin 10,
    ∀ r ∈ nf.nfunctorRelationshipList, r.pathId = (p.val : Int) → r.predecessor.state = some x →
      lastJoined nf.nfunctorList n e x p = some r.successor
  unset : ∀ e, e < n → ∀ x ∈ stateList nf.nfunctorList, ∀ p : Fin 10,
    (∀ r ∈ nf.nfunctorRelationshipList, r.pathId = (p.val : Int) →
      r.predecessor.state ≠ some x) → lastJoined nf.nfunctorList n e x p = none
  next : ∀ f ∈ nf.nfunctorList, f.action.name = "packet_in" →
    ∀ r ∈ nf.nfunctorRelationshipList, r.predecessor = f →
      lastNext nf.nfunctorList f = some r.successor

/-- The table index of the copy of `f` in execution `e`. -/
def indexIn (l : List Nfunctor) (e : Nat) (f : Nfunctor) : Int :=
  ((e * (distinctNfunctors l).length + (distinctNfunctors l).idxOf f : Nat) : Int)

/-- The path ids of the module name slots of a path. -/
theorem inRelationshipList_range (a b : Action) :
    inRelationshipList nfunctorRelationshipList a b = -1 ∨
      ∃ i : Fin 10, inRelationshipList nfunctorRelationshipList a b = (i.val : Int) := by
  unfold inRelationshipList
  cases h : nfunctorRelationshipList.find?
      (fun i ↦ a = i.predecessor.action ∧ b = i.successor.action) with
  | none => exact Or.inl rfl
  | some r =>
    have hall : ∀ r ∈ nfunctorRelationshipList, ∃ i : Fin 10, r.pathId = (i.val : Int) := by
      decide
    exact Or.inr (hall r (List.mem_of_find?_eq_some h))

private theorem pyIdx?_inRelationshipList (a b : Action) (p : Fin 10) :
    inRelationshipList nfunctorRelationshipList a b ≠ -1 ∧
        pyIdx? 10 (inRelationshipList nfunctorRelationshipList a b) = some p ↔
      inRelationshipList nfunctorRelationshipList a b = (p.val : Int) := by
  rcases inRelationshipList_range a b with hr | ⟨i, hi⟩
  · rw [hr]
    constructor
    · rintro ⟨h, -⟩
      exact absurd rfl h
    · intro h
      omega
  · rw [hi, pyIdx?_natCast i.val i.isLt]
    constructor
    · rintro ⟨-, h⟩
      have hip : i = p := Option.some.inj h
      rw [hip]
    · intro h
      exact ⟨by omega, congrArg some (Fin.ext (Int.ofNat_inj.mp h))⟩

private theorem lastWrite_bare {V : Type} (write : Placed × Placed → Option V)
    (hbare : ∀ q : Placed × Placed,
      write ((q.1.1.bare, q.1.2), (q.2.1.bare, q.2.2)) = write q)
    (g : NfunctorGraph) {n : Nat} {l : List Nfunctor}
    (hg : g.actions.map ActionRuntime.bare = grid n (distinctNfunctors l) (entryOf l)) :
    lastWrite write (pairsOf g) =
      lastWrite write
        (grid n (distinctNfunctors l).zipIdx
            (fun e p ↦ (entryOf l e p.1, e * (distinctNfunctors l).length + p.2)) ×ˢ
          grid n (distinctNfunctors l).zipIdx
            (fun e p ↦ (entryOf l e p.1, e * (distinctNfunctors l).length + p.2))) := by
  have hzip : g.actions.zipIdx.map (Prod.map ActionRuntime.bare id) =
      grid n (distinctNfunctors l).zipIdx
        (fun e p ↦ (entryOf l e p.1, e * (distinctNfunctors l).length + p.2)) := by
    rw [← zipIdx_grid, ← hg, List.zipIdx_map]
  rw [← hzip, ← map_product, lastWrite_comp]
  apply lastWrite_congr
  intro q _
  exact (hbare q).symm

private theorem mem_distinct_of_zipIdx {l : List Nfunctor} {q : Nfunctor × Nat}
    (h : q ∈ (distinctNfunctors l).zipIdx) :
    q.1 ∈ l ∧ q.2 = (distinctNfunctors l).idxOf q.1 := by
  have hget := List.mem_zipIdx_iff_getElem?.mp h
  have hmem := List.mem_of_getElem? hget
  obtain ⟨hlt, hget⟩ := List.getElem?_eq_some_iff.mp hget
  refine ⟨List.mem_eraseDups.mp hmem, ?_⟩
  rw [← hget]
  exact ((nodup_eraseDups l).idxOf_getElem q.2 hlt).symm

/-- A loop over the pairs of one execution goes through the pairs of nfunctors. -/
private theorem lastWrite_execution (l : List Nfunctor) (e : Nat)
    (cond : Nfunctor × Nfunctor → Prop) [DecidablePred cond] :
    lastWrite (fun q : (Nfunctor × Nat) × (Nfunctor × Nat) ↦
        if cond (q.1.1, q.2.1) then
          some ((e * (distinctNfunctors l).length + q.2.2 : Nat) : Int)
        else none)
      ((distinctNfunctors l).zipIdx ×ˢ (distinctNfunctors l).zipIdx) =
    (lastWrite (fun q ↦ if cond q then some q.2 else none)
      (distinctNfunctors l ×ˢ distinctNfunctors l)).map (indexIn l e) := by
  have hfst : (distinctNfunctors l).zipIdx.map Prod.fst = distinctNfunctors l :=
    List.zipIdx_map_fst 0 _
  have hprod : ((distinctNfunctors l).zipIdx ×ˢ (distinctNfunctors l).zipIdx).map
      (Prod.map Prod.fst Prod.fst) = distinctNfunctors l ×ˢ distinctNfunctors l := by
    rw [map_product, hfst]
  rw [← lastWrite_map, ← hprod, lastWrite_comp]
  apply lastWrite_congr
  intro q hq
  have hpos := (mem_distinct_of_zipIdx (List.mem_product.mp hq).2).2
  change (if cond (q.1.1, q.2.1) then _ else none) =
    (if cond (q.1.1, q.2.1) then some q.2.1 else none).map (indexIn l e)
  by_cases hc : cond (q.1.1, q.2.1)
  · rw [if_pos hc, if_pos hc, hpos]
    rfl
  · rw [if_neg hc, if_neg hc]
    rfl

private theorem getLast?_eq_some_iff {α : Type} {l : List α} (hl : l.Nodup) {i : Nat} {x : α}
    (hx : l[i]? = some x) : l.getLast? = some x ↔ i + 1 = l.length := by
  obtain ⟨hlt, hget⟩ := List.getElem?_eq_some_iff.mp hx
  rw [List.getLast?_eq_getElem?]
  constructor
  · intro h
    obtain ⟨hlt', hget'⟩ := List.getElem?_eq_some_iff.mp h
    have hi : l.length - 1 = i := hl.getElem_inj_iff.mp (hget'.trans hget.symm)
    omega
  · intro h
    have hi : l.length - 1 = i := by omega
    rw [hi, hx]

/-- The state entry that an nfunctor writes. -/
private theorem slot_stateIdOf {l : List Nfunctor} {n e e' i : Nat} {x : State} {f : Nfunctor}
    (hf : f ∈ l) (he : e < n) (he' : e' < n) (hx : (stateList l)[i]? = some x) :
    (pyIdx? (n * (stateList l).length) (stateIdOf l e' f)).map Fin.val =
        some (e * (stateList l).length + i) ↔
      e' = e ∧ f.state = some x ∨
        f.state = none ∧ e + 1 = n ∧ (stateList l).getLast? = some x := by
  obtain ⟨hi, hget⟩ := List.getElem?_eq_some_iff.mp hx
  have hnodup : (stateList l).Nodup := nodup_eraseDups _
  cases hs : f.state with
  | none =>
    have hid : stateIdOf l e' f = -1 := by simp [stateIdOf, stateIdFrom, hs]
    have hpos : 0 < n * (stateList l).length := Nat.mul_pos (by omega) (by omega)
    have hlast : n * (stateList l).length - 1 =
        (n - 1) * (stateList l).length + ((stateList l).length - 1) := by
      have hn : n = n - 1 + 1 := by omega
      have hmul : n * (stateList l).length =
          (n - 1) * (stateList l).length + (stateList l).length := by
        conv_lhs => rw [hn, Nat.succ_mul]
      omega
    rw [hid, pyIdx?_neg_one hpos, getLast?_eq_some_iff hnodup hx]
    simp only [Option.map_some, Option.some.injEq, hlast, reduceCtorEq, and_false, false_or,
      true_and]
    rw [pos_inj (by omega) hi]
    omega
  | some y =>
    have hy := mem_stateList hf hs
    have hlt : (stateList l).idxOf y < (stateList l).length := List.idxOf_lt_length_of_mem hy
    have hid : stateIdOf l e' f =
        ((e' * (stateList l).length + (stateList l).idxOf y : Nat) : Int) := by
      simp [stateIdOf, stateIdFrom, hs]
    rw [hid, pyIdx?_natCast _ (pos_lt he' hlt)]
    simp only [Option.map_some, Option.some.injEq, reduceCtorEq, false_and, or_false]
    rw [pos_inj hlt hi]
    constructor
    · rintro ⟨rfl, rfl⟩
      refine ⟨rfl, ?_⟩
      rw [← hget]
      exact (List.getElem_idxOf hlt).symm
    · rintro ⟨rfl, rfl⟩
      exact ⟨rfl, by rw [← hget, hnodup.idxOf_getElem]⟩

/-- The last write to a slot of the state entry of `x` in execution `e`. -/
private theorem lastWrite_pathWrite {l : List Nfunctor} {g : NfunctorGraph} {n e i : Nat}
    {x : State} (hg : g.actions.map ActionRuntime.bare =
      grid n (distinctNfunctors l) (entryOf l)) (he : e < n)
    (hx : (stateList l)[i]? = some x) (p : Fin 10) :
    lastWrite (pathWrite nfunctorRelationshipList (n * (stateList l).length)
        (e * (stateList l).length + i) p) (pairsOf g) =
      (lastJoined l n e x p).map (indexIn l e) := by
  have hblock : ∀ e', e' < n → ∀ q ∈ (distinctNfunctors l).zipIdx ×ˢ (distinctNfunctors l).zipIdx,
      pathWrite nfunctorRelationshipList (n * (stateList l).length)
          (e * (stateList l).length + i) p
          ((entryOf l e' q.1.1, e' * (distinctNfunctors l).length + q.1.2),
            (entryOf l e' q.2.1, e' * (distinctNfunctors l).length + q.2.2)) =
        if (e' = e ∧ q.1.1.state = some x ∨
              q.1.1.state = none ∧ e + 1 = n ∧ (stateList l).getLast? = some x) ∧
            inRelationshipList nfunctorRelationshipList q.1.1.action q.2.1.action =
              (p.val : Int) then
          some ((e' * (distinctNfunctors l).length + q.2.2 : Nat) : Int)
        else none := by
    intro e' he' q hq
    have hmem := (mem_distinct_of_zipIdx (List.mem_product.mp hq).1).1
    unfold pathWrite Joined
    apply if_congr _ rfl rfl
    rw [← slot_stateIdOf hmem he he' hx, ← pyIdx?_inRelationshipList]
    constructor
    · rintro ⟨⟨hj, -⟩, hs, hp⟩
      exact ⟨hs, hj, hp⟩
    · rintro ⟨hs, hj, hp⟩
      exact ⟨⟨hj, rfl⟩, hs, hp⟩
  rw [lastWrite_bare _ (fun q ↦ rfl) g hg, lastWrite_product_grid _ _ _ _ he]
  · rw [lastWrite_congr (hblock e he)]
    simp only [true_and]
    exact lastWrite_execution l e fun q ↦ Writes l n e x q.1 ∧
      inRelationshipList nfunctorRelationshipList q.1.action q.2.action = (p.val : Int)
  · intro e' he' hne hw
    obtain ⟨v, hv⟩ := Option.ne_none_iff_exists'.mp hw
    obtain ⟨q, hq, hqv⟩ := exists_of_lastWrite_eq_some hv
    rw [hblock e' he' q hq] at hqv
    split at hqv
    · next hc =>
      obtain ⟨⟨rfl, -⟩ | ⟨hnone, hn, hlast⟩, hp⟩ := hc
      · exact absurd rfl hne
      · refine ⟨hn, fun hno ↦ ?_⟩
        have hwe := (lastWrite_eq_none_iff _ _).mp hno q hq
        rw [hblock e he q hq, if_pos ⟨Or.inr ⟨hnone, hn, hlast⟩, hp⟩] at hwe
        cases hwe
    · cases hqv
  · intro e₁ e₂ a b hne
    simp [pathWrite, Joined, entryOf, hne]

/-- The last write to the next action of an entry in execution `e`. -/
private theorem lastWrite_nextWrite {l : List Nfunctor} {g : NfunctorGraph} {n e i : Nat}
    {f : Nfunctor} (hg : g.actions.map ActionRuntime.bare =
      grid n (distinctNfunctors l) (entryOf l)) (he : e < n)
    (hf : (distinctNfunctors l)[i]? = some f) (hin : f.action.name = "packet_in") :
    lastWrite (nextWrite nfunctorRelationshipList (e * (distinctNfunctors l).length + i))
        (pairsOf g) = (lastNext l f).map (indexIn l e) := by
  obtain ⟨hi, hget⟩ := List.getElem?_eq_some_iff.mp hf
  have hnodup : (distinctNfunctors l).Nodup := nodup_eraseDups l
  have hblock : ∀ e', ∀ q ∈ (distinctNfunctors l).zipIdx ×ˢ (distinctNfunctors l).zipIdx,
      nextWrite nfunctorRelationshipList (e * (distinctNfunctors l).length + i)
          ((entryOf l e' q.1.1, e' * (distinctNfunctors l).length + q.1.2),
            (entryOf l e' q.2.1, e' * (distinctNfunctors l).length + q.2.2)) =
        if e' = e ∧ q.1.1 = f ∧
            inRelationshipList nfunctorRelationshipList q.1.1.action q.2.1.action ≠ -1 then
          some ((e' * (distinctNfunctors l).length + q.2.2 : Nat) : Int)
        else none := by
    intro e' q hq
    have hq1 := List.mem_zipIdx_iff_getElem?.mp (List.mem_product.mp hq).1
    obtain ⟨hlt, hq1⟩ := List.getElem?_eq_some_iff.mp hq1
    unfold nextWrite Joined
    apply if_congr _ rfl rfl
    dsimp only
    rw [pos_inj hlt hi]
    constructor
    · rintro ⟨⟨hj, -⟩, -, he, rfl⟩
      exact ⟨he, hq1.symm.trans hget, hj⟩
    · rintro ⟨he, hq, hj⟩
      refine ⟨⟨hj, rfl⟩, ?_, he, ?_⟩
      · change q.1.1.action.name = "packet_in"
        rw [hq, hin]
      · exact hnodup.getElem_inj_iff.mp (hq1.trans (hq.trans hget.symm))
  rw [lastWrite_bare _ (fun q ↦ rfl) g hg, lastWrite_product_grid _ _ _ _ he]
  · rw [lastWrite_congr (hblock e)]
    simp only [true_and]
    exact lastWrite_execution l e fun q ↦ q.1 = f ∧
      inRelationshipList nfunctorRelationshipList q.1.action q.2.action ≠ -1
  · intro e' he' hne hw
    exfalso
    apply hw
    rw [lastWrite_eq_none_iff]
    intro q hq
    rw [hblock e' q hq, if_neg fun hc ↦ hne hc.1]
  · intro e₁ e₂ a b hne
    simp [nextWrite, Joined, entryOf, hne]

private theorem isSome_pyIdx?_stateIdOf {l : List Nfunctor} {n e : Nat} {f f' : Nfunctor}
    (he : e < n) (hf : f ∈ l) (hf' : f' ∈ l) (hs' : f'.state ≠ none) :
    (pyIdx? (n * (stateList l).length) (stateIdOf l e f)).isSome := by
  obtain ⟨y, hy⟩ := Option.ne_none_iff_exists'.mp hs'
  have hpos : 0 < (stateList l).length := List.length_pos_of_mem (mem_stateList hf' hy)
  cases hs : f.state with
  | none =>
    have hid : stateIdOf l e f = -1 := by simp [stateIdOf, stateIdFrom, hs]
    rw [hid, pyIdx?_neg_one (Nat.mul_pos (by omega) hpos)]
    rfl
  | some x =>
    have hlt := List.idxOf_lt_length_of_mem (mem_stateList hf hs)
    have hid : stateIdOf l e f =
        ((e * (stateList l).length + (stateList l).idxOf x : Nat) : Int) := by
      simp [stateIdOf, stateIdFrom, hs]
    rw [hid, pyIdx?_natCast _ (pos_lt he hlt)]
    rfl

/-- The pairs of the wiring loop raise no exception if some nfunctor has a state, or no pair is
joined. -/
private theorem pairOk_iff {nf : Nf} {n : Nat} (hn : 0 < n) :
    (∀ q ∈ pairsOf (buildTables (nfunctorInstanceList nf) n),
        PairOk nfunctorRelationshipList
          (buildTables (nfunctorInstanceList nf) n).states.length q) ↔
      ∀ f ∈ nf.nfunctorList, ∀ g ∈ nf.nfunctorList,
        inRelationshipList nfunctorRelationshipList f.action g.action ≠ -1 →
          ∃ f ∈ nf.nfunctorList, f.state ≠ none := by
  obtain ⟨hstates, hactions⟩ := buildTables_eq nf n
  have hmem : ∀ e, e < n → ∀ f ∈ nf.nfunctorList, ∃ a k,
      (a, k) ∈ (buildTables (nfunctorInstanceList nf) n).actions.zipIdx ∧
        a.bare = entryOf nf.nfunctorList e f := by
    intro e he f hf
    have hgrid : entryOf nf.nfunctorList e f ∈
        (buildTables (nfunctorInstanceList nf) n).actions.map ActionRuntime.bare := by
      rw [hactions, mem_grid]
      exact ⟨e, he, f, List.mem_eraseDups.mpr hf, rfl⟩
    obtain ⟨a, ha, hbare⟩ := List.mem_map.mp hgrid
    obtain ⟨k, hk⟩ := List.mem_iff_getElem?.mp ha
    exact ⟨a, k, List.mk_mem_zipIdx_iff_getElem?.mpr hk, hbare⟩
  have hentry : ∀ q ∈ (buildTables (nfunctorInstanceList nf) n).actions.zipIdx,
      ∃ e, e < n ∧ ∃ f ∈ nf.nfunctorList, q.1.bare = entryOf nf.nfunctorList e f := by
    intro q hq
    have hq1 := List.mem_of_getElem? (List.mem_zipIdx_iff_getElem?.mp hq)
    have hbare := List.mem_map_of_mem (f := ActionRuntime.bare) hq1
    rw [hactions, mem_grid] at hbare
    obtain ⟨e, he, f, hf, hef⟩ := hbare
    exact ⟨e, he, f, List.mem_eraseDups.mp hf, hef.symm⟩
  rw [hstates, length_grid]
  constructor
  · intro h f hf g hg hj
    obtain ⟨a, k, ha, hab⟩ := hmem 0 hn f hf
    obtain ⟨b, m, hb, hbb⟩ := hmem 0 hn g hg
    have haction : a.action = f := congrArg ActionRuntime.action hab
    have haction' : b.action = g := congrArg ActionRuntime.action hbb
    have hexec : a.executionId = b.executionId :=
      (congrArg ActionRuntime.executionId hab).trans
        (congrArg ActionRuntime.executionId hbb).symm
    have hok := (h ((a, k), (b, m)) (List.mem_product.mpr ⟨ha, hb⟩)
      ⟨by rw [haction, haction']; exact hj, hexec⟩).1
    by_contra hnone
    push Not at hnone
    have hempty : stateList nf.nfunctorList = [] := by
      rw [List.eq_nil_iff_forall_not_mem]
      intro x hx
      obtain ⟨f, hf, hs⟩ := exists_of_mem_stateList hx
      rw [hnone f hf] at hs
      cases hs
    rw [hempty] at hok
    simp only [List.length_nil, Nat.mul_zero, pyIdx?] at hok
    obtain ⟨j, -⟩ := Option.isSome_iff_exists.mp hok
    exact j.elim0
  · intro h q hq hj
    obtain ⟨hq1, hq2⟩ := List.mem_product.mp hq
    obtain ⟨e, he, f, hf, hef⟩ := hentry q.1 hq1
    obtain ⟨e', he', g, hg, heg⟩ := hentry q.2 hq2
    have haction : q.1.1.action = f := congrArg ActionRuntime.action hef
    have haction' : q.2.1.action = g := congrArg ActionRuntime.action heg
    have hid : q.1.1.stateId = stateIdOf nf.nfunctorList e f :=
      congrArg ActionRuntime.stateId hef
    have hjoin := hj.1
    constructor
    · rw [hid]
      rw [haction, haction'] at hjoin
      obtain ⟨f', hf', hs'⟩ := h f hf g hg hjoin
      exact isSome_pyIdx?_stateIdOf he hf hf' hs'
    · rcases inRelationshipList_range q.1.1.action.action q.2.1.action.action with hr | ⟨i, hi⟩
      · exact absurd hr hjoin
      · rw [hi, pyIdx?_natCast i.val i.isLt]
        rfl

/-- The planner ends if some nfunctor has a state, or no two are joined. -/
private theorem nfunctorGraph_eq_some_iff {nf : Nf} {n : Nat} (hn : 0 < n) (g : NfunctorGraph) :
    nfunctorGraph nf n = some g ↔
      (∀ f ∈ nf.nfunctorList, ∀ f' ∈ nf.nfunctorList,
        inRelationshipList nfunctorRelationshipList f.action f'.action ≠ -1 →
          ∃ f ∈ nf.nfunctorList, f.state ≠ none) ∧
        g = wired nfunctorRelationshipList (buildTables (nfunctorInstanceList nf) n)
          (pairsOf (buildTables (nfunctorInstanceList nf) n)) := by
  have hne : ¬ n = 0 := by omega
  unfold nfunctorGraph nfunctorGraphOf
  rw [if_neg hne, wire_eq_some_iff, pairOk_iff hn]

/-- The planner raises no exception if some nfunctor has a state, or no two are joined. -/
theorem exists_nfunctorGraph_iff {nf : Nf} {n : Nat} (hn : 0 < n) :
    (∃ g, nfunctorGraph nf n = some g) ↔
      ∀ f ∈ nf.nfunctorList, ∀ f' ∈ nf.nfunctorList,
        inRelationshipList nfunctorRelationshipList f.action f'.action ≠ -1 →
          ∃ f ∈ nf.nfunctorList, f.state ≠ none := by
  constructor
  · rintro ⟨g, h⟩
    exact ((nfunctorGraph_eq_some_iff hn g).mp h).1
  · intro h
    exact ⟨_, (nfunctorGraph_eq_some_iff hn _).mpr ⟨h, rfl⟩⟩

/-- The planner raises an exception for no execution at all. -/
theorem pos_of_nfunctorGraph {nf : Nf} {n : Nat} {g : NfunctorGraph}
    (h : nfunctorGraph nf n = some g) : 0 < n := by
  by_contra h0
  have hz : n = 0 := by omega
  rw [nfunctorGraph, nfunctorGraphOf, if_pos hz] at h
  cases h

/-- The path of the state entry of `x` in execution `e`. -/
def pathOf (l : List Nfunctor) (n e : Nat) (x : State) (p : Fin 10) : Int :=
  ((lastJoined l n e x p).map (indexIn l e)).getD (-1)

/-- The next action of the entry of `f` in execution `e`. -/
def nextActionOf (l : List Nfunctor) (e : Nat) (f : Nfunctor) : Int :=
  if f.action.name = "packet_in" then ((lastNext l f).map (indexIn l e)).getD (-1) else -1

/-- The state table of a finished graph. -/
theorem states_nfunctorGraph {nf : Nf} {n : Nat} {g : NfunctorGraph}
    (h : nfunctorGraph nf n = some g) :
    g.states = grid n (stateList nf.nfunctorList)
      (fun e x ↦ ⟨x, 0, e, pathOf nf.nfunctorList n e x⟩) := by
  have hn := pos_of_nfunctorGraph h
  obtain ⟨-, rfl⟩ := (nfunctorGraph_eq_some_iff hn g).mp h
  obtain ⟨hstates, hactions⟩ := buildTables_eq nf n
  apply List.ext_getElem?
  intro k
  unfold wired
  dsimp only
  rw [List.getElem?_mapIdx, hstates]
  cases hk : (grid n (stateList nf.nfunctorList) stateEntryOf)[k]? with
  | none =>
    rw [List.getElem?_eq_none_iff, length_grid] at hk
    symm
    rw [Option.map_none, List.getElem?_eq_none_iff, length_grid]
    exact hk
  | some s =>
    obtain ⟨e, i, x, he, hx, rfl, rfl⟩ := getElem?_grid_eq_some hk
    obtain ⟨hi, -⟩ := List.getElem?_eq_some_iff.mp hx
    rw [getElem?_grid he hi, hx, Option.map_some, Option.map_some]
    apply congrArg some
    simp only [stateEntryOf, StateRuntime.mk.injEq, true_and]
    funext p
    rw [length_grid, lastWrite_pathWrite hactions he hx p]
    rfl

/-- The action table of a finished graph, but for the ranges of buckets. -/
theorem actions_nfunctorGraph {nf : Nf} {n : Nat} {g : NfunctorGraph}
    (h : nfunctorGraph nf n = some g) :
    g.actions.map ActionRuntime.bare = grid n (distinctNfunctors nf.nfunctorList)
      (fun e f ↦ { entryOf nf.nfunctorList e f with
        nextAction := nextActionOf nf.nfunctorList e f }) := by
  have hn := pos_of_nfunctorGraph h
  obtain ⟨-, rfl⟩ := (nfunctorGraph_eq_some_iff hn g).mp h
  obtain ⟨-, hactions⟩ := buildTables_eq nf n
  apply List.ext_getElem?
  intro k
  have hk := List.ext_getElem?_iff.mp hactions k
  rw [List.getElem?_map] at hk
  unfold wired
  dsimp only
  rw [List.getElem?_map, List.getElem?_mapIdx]
  cases ha : (buildTables (nfunctorInstanceList nf) n).actions[k]? with
  | none =>
    rw [ha, Option.map_none] at hk
    symm
    rw [Option.map_none, Option.map_none, List.getElem?_eq_none_iff, length_grid]
    rw [eq_comm, List.getElem?_eq_none_iff, length_grid] at hk
    exact hk
  | some a =>
    rw [ha, Option.map_some] at hk
    obtain ⟨e, i, f, he, hf, rfl, hbare⟩ := getElem?_grid_eq_some hk.symm
    obtain ⟨hi, -⟩ := List.getElem?_eq_some_iff.mp hf
    rw [getElem?_grid he hi, hf, Option.map_some, Option.map_some, Option.map_some]
    apply congrArg some
    have hnext : a.nextAction = -1 := congrArg ActionRuntime.nextAction hbare
    have haction : a.action = f := congrArg ActionRuntime.action hbare
    rw [← hbare]
    simp only [ActionRuntime.bare, ActionRuntime.mk.injEq, true_and]
    unfold nextActionOf
    by_cases hin : f.action.name = "packet_in"
    · rw [if_pos hin, lastWrite_nextWrite hactions he hf hin, hnext]
    · have hnone : lastWrite (nextWrite nfunctorRelationshipList
          (e * (distinctNfunctors nf.nfunctorList).length + i))
          (pairsOf (buildTables (nfunctorInstanceList nf) n)) = none := by
        rw [lastWrite_eq_none_iff]
        intro q hq
        apply if_neg
        rintro ⟨-, hname, hpos⟩
        have hq1 := List.mem_zipIdx_iff_getElem?.mp (List.mem_product.mp hq).1
        rw [hpos, ha, Option.some.injEq] at hq1
        rw [← hq1, haction] at hname
        exact hin hname
      rw [if_neg hin, hnone, hnext]
      rfl

/-- The copy of an nfunctor in an execution has one index in a finished graph. -/
theorem indexOf_iff {nf : Nf} {n : Nat} {g : NfunctorGraph} (h : nfunctorGraph nf n = some g)
    {e : Nat} (he : e < n) (f : Nfunctor) (v : Int) :
    IndexOf g f e v ↔ f ∈ nf.nfunctorList ∧ v = indexIn nf.nfunctorList e f := by
  have hactions := actions_nfunctorGraph h
  constructor
  · rintro ⟨j, a, ha, rfl, rfl, rfl⟩
    have hj := List.ext_getElem?_iff.mp hactions j
    rw [List.getElem?_map, ha, Option.map_some] at hj
    obtain ⟨e, i, f, -, hf, rfl, hbare⟩ := getElem?_grid_eq_some hj.symm
    have haction : a.action = f := congrArg ActionRuntime.action hbare
    have hexec : a.executionId = e := congrArg ActionRuntime.executionId hbare
    obtain ⟨hi, hget⟩ := List.getElem?_eq_some_iff.mp hf
    have hidx : (distinctNfunctors nf.nfunctorList).idxOf f = i := by
      rw [← hget]
      exact (nodup_eraseDups nf.nfunctorList).idxOf_getElem i hi
    rw [haction, hexec, indexIn, hidx]
    exact ⟨List.mem_eraseDups.mp (List.mem_of_getElem? hf), rfl⟩
  · rintro ⟨hf, rfl⟩
    have hmem : f ∈ distinctNfunctors nf.nfunctorList := List.mem_eraseDups.mpr hf
    have hi := List.idxOf_lt_length_of_mem hmem
    have hj := List.ext_getElem?_iff.mp hactions
      (e * (distinctNfunctors nf.nfunctorList).length +
        (distinctNfunctors nf.nfunctorList).idxOf f)
    rw [getElem?_grid he hi, List.getElem?_idxOf hmem, Option.map_some, List.getElem?_map,
      Option.map_eq_some_iff] at hj
    obtain ⟨a, ha, hbare⟩ := hj
    exact ⟨_, a, ha, congrArg ActionRuntime.action hbare,
      congrArg ActionRuntime.executionId hbare, rfl⟩

/-- An action entry of a finished graph is the copy of an nfunctor in an execution. -/
theorem exists_of_mem_actions {nf : Nf} {n : Nat} {g : NfunctorGraph}
    (h : nfunctorGraph nf n = some g) {a : ActionRuntime} (ha : a ∈ g.actions) :
    ∃ e, e < n ∧ a.action ∈ nf.nfunctorList ∧ a.bare =
      { entryOf nf.nfunctorList e a.action with
        nextAction := nextActionOf nf.nfunctorList e a.action } := by
  have hbare := List.mem_map_of_mem (f := ActionRuntime.bare) ha
  rw [actions_nfunctorGraph h, mem_grid] at hbare
  obtain ⟨e, he, f, hf, hef⟩ := hbare
  have haction : a.action = f := (congrArg ActionRuntime.action hef).symm
  rw [haction]
  exact ⟨e, he, List.mem_eraseDups.mp hf, hef.symm⟩

/-- The wiring keeps the executions and buckets of action entries. -/
theorem exists_of_mem_nfunctorGraph {nf : Nf} {n : Nat} {g : NfunctorGraph}
    (h : nfunctorGraph nf n = some g) {a : ActionRuntime} (ha : a ∈ g.actions) :
    ∃ b ∈ (buildTables (nfunctorInstanceList nf) n).actions, a.executionId = b.executionId ∧
      a.startingBucket = b.startingBucket ∧ a.numBucket = b.numBucket ∧ a.action = b.action := by
  obtain ⟨-, rfl⟩ := (nfunctorGraph_eq_some_iff (pos_of_nfunctorGraph h) g).mp h
  obtain ⟨k, hk⟩ := List.mem_iff_getElem?.mp ha
  unfold wired at hk
  dsimp only at hk
  rw [List.getElem?_mapIdx, Option.map_eq_some_iff] at hk
  obtain ⟨b, hb, rfl⟩ := hk
  exact ⟨b, List.mem_of_getElem? hb, rfl, rfl, rfl, rfl⟩

/-- The index of an nfunctor in an execution determines it. -/
theorem indexIn_inj {l : List Nfunctor} {e : Nat} {f f' : Nfunctor} (hf : f ∈ l)
    (h : indexIn l e f = indexIn l e f') : f = f' := by
  unfold indexIn at h
  have hidx : (distinctNfunctors l).idxOf f = (distinctNfunctors l).idxOf f' := by omega
  exact (List.idxOf_inj (List.mem_eraseDups.mpr hf)).mp hidx

/-- A slot of a finished graph that holds the index of an nfunctor or `-1`. -/
private theorem indexOf_getD_iff {nf : Nf} {n : Nat} {g : NfunctorGraph}
    (h : nfunctorGraph nf n = some g) {e : Nat} (he : e < n) (f : Nfunctor)
    {o : Option Nfunctor} (ho : ∀ f', o = some f' → f' ∈ nf.nfunctorList) :
    IndexOf g f e ((o.map (indexIn nf.nfunctorList e)).getD (-1)) ↔ o = some f := by
  rw [indexOf_iff h he]
  cases o with
  | none =>
    constructor
    · rintro ⟨-, hv⟩
      simp only [Option.map_none, Option.getD_none, indexIn] at hv
      omega
    · intro hnone
      cases hnone
  | some f' =>
    simp only [Option.map_some, Option.getD_some, Option.some.injEq]
    constructor
    · rintro ⟨-, hv⟩
      exact indexIn_inj (ho f' rfl) hv
    · rintro rfl
      exact ⟨ho f' rfl, rfl⟩

private theorem getD_indexIn_eq_neg_one_iff (l : List Nfunctor) (e : Nat) (o : Option Nfunctor) :
    (o.map (indexIn l e)).getD (-1) = -1 ↔ o = none := by
  cases o with
  | none => simp
  | some f =>
    have hne : indexIn l e f ≠ -1 := by
      unfold indexIn
      omega
    simp [hne]

/-- What the module joins to an nfunctor of a network function is one of its nfunctors. -/
theorem mem_of_lastJoined {l : List Nfunctor} {n e : Nat} {x : State} {p : Fin 10}
    (f : Nfunctor) (h : lastJoined l n e x p = some f) : f ∈ l := by
  obtain ⟨q, hq, hv⟩ := exists_of_lastWrite_eq_some h
  split at hv
  · have hf : q.2 = f := Option.some.inj hv
    rw [← hf]
    exact List.mem_eraseDups.mp (List.mem_product.mp hq).2
  · cases hv

private theorem mem_of_lastNext {l : List Nfunctor} {f : Nfunctor} (f' : Nfunctor)
    (h : lastNext l f = some f') : f' ∈ l := by
  obtain ⟨q, hq, hv⟩ := exists_of_lastWrite_eq_some h
  split at hv
  · have hf : q.2 = f' := Option.some.inj hv
    rw [← hf]
    exact List.mem_eraseDups.mp (List.mem_product.mp hq).2
  · cases hv

/-- The number of action entries of a finished graph. -/
theorem length_nfunctorGraph {nf : Nf} {n : Nat} {g : NfunctorGraph}
    (h : nfunctorGraph nf n = some g) :
    g.actions.length = n * (distinctNfunctors nf.nfunctorList).length := by
  rw [← length_grid n (distinctNfunctors nf.nfunctorList), ← actions_nfunctorGraph h,
    List.length_map]

/-- A next action is `-1` or a table index. -/
theorem nextActionOf_range {l : List Nfunctor} {e n : Nat} (he : e < n) (f : Nfunctor) :
    -1 ≤ nextActionOf l e f ∧
      nextActionOf l e f < ((n * (distinctNfunctors l).length : Nat) : Int) := by
  have hneg : -1 ≤ (-1 : Int) ∧ (-1 : Int) < ((n * (distinctNfunctors l).length : Nat) : Int) :=
    ⟨Int.le_refl _, by omega⟩
  unfold nextActionOf
  split
  · cases hf : lastNext l f with
    | none => exact hneg
    | some f' =>
      have hmem : f' ∈ distinctNfunctors l := List.mem_eraseDups.mpr (mem_of_lastNext f' hf)
      have hlt := pos_lt he (List.idxOf_lt_length_of_mem hmem)
      change -1 ≤ indexIn l e f' ∧ indexIn l e f' < _
      unfold indexIn
      omega
  · exact hneg

/-- A `packet_in` has a next action if the module joins it to an nfunctor of the network
function. -/
theorem nextActionOf_nonneg_iff {l : List Nfunctor} {f : Nfunctor} (e : Nat) (hf : f ∈ l)
    (hin : f.action.name = "packet_in") :
    0 ≤ nextActionOf l e f ↔
      ∃ f' ∈ l, inRelationshipList nfunctorRelationshipList f.action f'.action ≠ -1 := by
  have hnone : 0 ≤ nextActionOf l e f ↔ lastNext l f ≠ none := by
    unfold nextActionOf
    rw [if_pos hin]
    cases lastNext l f with
    | none => simp
    | some f' =>
      have hnonneg : 0 ≤ indexIn l e f' := Int.natCast_nonneg _
      simpa using hnonneg
  rw [hnone]
  unfold lastNext
  rw [Ne, lastWrite_eq_none_iff]
  push Not
  constructor
  · rintro ⟨q, hq, hw⟩
    rw [ne_eq, ite_eq_right_iff] at hw
    push Not at hw
    obtain ⟨⟨h1, hj⟩, -⟩ := hw
    refine ⟨q.2, List.mem_eraseDups.mp (List.mem_product.mp hq).2, ?_⟩
    rw [← h1]
    exact hj
  · rintro ⟨f', hf', hj⟩
    refine ⟨(f, f'), List.mem_product.mpr ⟨List.mem_eraseDups.mpr hf,
      List.mem_eraseDups.mpr hf'⟩, ?_⟩
    rw [if_pos ⟨rfl, hj⟩]
    exact Option.some_ne_none f'

/-- The planner ends without an exception and wires exactly the relationships of the network
function if and only if the relationships of the module, looked up by action, say the same,
`__init__.py:209–251`. -/
theorem nfunctorGraph_wires_iff (nf : Nf) (n : Nat) (hn : 0 < n) :
    (∃ g, nfunctorGraph nf n = some g ∧ WiresItself nf g) ↔ WiringMatches nf n := by
  constructor
  · rintro ⟨g, hg, hw⟩
    have hstates := states_nfunctorGraph hg
    have hentry : ∀ e, e < n → ∀ x ∈ stateList nf.nfunctorList,
        (⟨x, 0, e, pathOf nf.nfunctorList n e x⟩ : StateRuntime) ∈ g.states := by
      intro e he x hx
      rw [hstates, mem_grid]
      exact ⟨e, he, x, hx, rfl⟩
    refine ⟨((nfunctorGraph_eq_some_iff hn g).mp hg).1, ?_, ?_, ?_⟩
    · intro e he x hx p r hr hp hs
      have h := hw.successor _ (hentry e he x hx) p r hr hp hs
      exact (indexOf_getD_iff hg he _ mem_of_lastJoined).mp h
    · intro e he x hx p hnone
      have h := hw.unset _ (hentry e he x hx) p hnone
      exact (getD_indexIn_eq_neg_one_iff _ _ _).mp h
    · intro f hf hin r hr hpred
      obtain ⟨j, a, ha, rfl, he, -⟩ := (indexOf_iff hg hn f _).mpr ⟨hf, rfl⟩
      have h := hw.next a (List.mem_of_getElem? ha) hin r hr hpred
      obtain ⟨e, -, -, hbare⟩ := exists_of_mem_actions hg (List.mem_of_getElem? ha)
      have hexec : a.executionId = e := congrArg ActionRuntime.executionId hbare
      have hnext : a.nextAction = nextActionOf nf.nfunctorList e a.action :=
        congrArg ActionRuntime.nextAction hbare
      rw [hnext, ← hexec, he, nextActionOf, if_pos hin] at h
      exact (indexOf_getD_iff hg hn _ mem_of_lastNext).mp h
  · intro hm
    refine ⟨_, (nfunctorGraph_eq_some_iff hn _).mpr ⟨hm.noException, rfl⟩, ?_⟩
    have hg := (nfunctorGraph_eq_some_iff hn _).mpr ⟨hm.noException, rfl⟩
    refine ⟨?_, ?_, ?_⟩
    · intro s hs p r hr hp hx
      rw [states_nfunctorGraph hg, mem_grid] at hs
      obtain ⟨e, he, x, hxs, rfl⟩ := hs
      exact (indexOf_getD_iff hg he _ mem_of_lastJoined).mpr
        (hm.successor e he x hxs p r hr hp hx)
    · intro s hs p hnone
      rw [states_nfunctorGraph hg, mem_grid] at hs
      obtain ⟨e, he, x, hxs, rfl⟩ := hs
      exact (getD_indexIn_eq_neg_one_iff _ _ _).mpr (hm.unset e he x hxs p hnone)
    · intro a ha hin r hr hpred
      obtain ⟨e, he, hf, hbare⟩ := exists_of_mem_actions hg ha
      have hexec : a.executionId = e := congrArg ActionRuntime.executionId hbare
      have hnext : a.nextAction = nextActionOf nf.nfunctorList e a.action :=
        congrArg ActionRuntime.nextAction hbare
      rw [hnext, hexec, nextActionOf, if_pos hin]
      exact (indexOf_getD_iff hg he _ mem_of_lastNext).mpr
        (hm.next _ hf hin r hr hpred)

/-- The generic decomposed network function is wired by its own relationships. -/
theorem nfunctorGraph_wires_gd : gd.Valid ∧
    ∃ g, nfunctorGraph gd 2 = some g ∧ WiresItself gd g := by
  refine ⟨⟨by decide, by decide, by decide, by decide, by decide⟩, ?_⟩
  refine (nfunctorGraph_wires_iff gd 2 (by decide)).mpr ⟨?_, ?_, ?_, ?_⟩
  · decide
  · decide
  · decide
  · decide

/-- A network function with one action of its own between `packet_in` and `packet_out`. -/
def forwarder : Nf :=
  let state : State := ⟨2, "fwd_state"⟩
  let action : Action := ⟨5, "fwd", [some pPerPacketOperation], 2⟩
  let first : Nfunctor := ⟨5, packetIn, none⟩
  let fwd : Nfunctor := ⟨6, action, some state⟩
  let last : Nfunctor := ⟨7, packetOut, none⟩
  ⟨"fwd", [first, fwd, last], [⟨first, fwd, 0⟩, ⟨fwd, last, 0⟩]⟩

/-- The planner leaves a network function with relationships of its own unwired. -/
theorem forwarder_not_wired : forwarder.Valid ∧
    ¬ ∃ g, nfunctorGraph forwarder 1 = some g ∧ WiresItself forwarder g := by
  refine ⟨⟨by decide, by decide, by decide, by decide, by decide⟩, ?_⟩
  rintro ⟨g, hg, hw⟩
  have hpath : (nfunctorGraph forwarder 1).map (fun g ↦ g.states.map fun s ↦ (s.state, s.path 0)) =
      some [(⟨2, "fwd_state"⟩, -1)] := by decide
  rw [hg, Option.map_some, Option.some.injEq, List.map_eq_singleton_iff] at hpath
  obtain ⟨s, hs, hsp⟩ := hpath
  have hstate : s.state = ⟨2, "fwd_state"⟩ := congrArg Prod.fst hsp
  have hslot : s.path 0 = -1 := congrArg Prod.snd hsp
  have hmem : s ∈ g.states := by
    rw [hs]
    exact List.mem_singleton_self s
  obtain ⟨j, -, -, -, -, hj⟩ := hw.successor s hmem 0
    ⟨⟨6, ⟨5, "fwd", [some pPerPacketOperation], 2⟩, some ⟨2, "fwd_state"⟩⟩, ⟨7, packetOut, none⟩, 0⟩
    (by decide) rfl (by rw [hstate])
  omega

end Nflambda.Director
