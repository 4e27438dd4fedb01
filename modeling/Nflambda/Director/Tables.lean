import Mathlib.Data.List.Induction
import Nflambda.Director.Graph

/-!
# What the runtime tables contain

Library `Director`. The loops of `Nfunctor_graph.__init__`,
`src/director/em/__init__.py:222–239`, in closed form: every execution has one
state entry for each state and one action entry for each nfunctor of the
network function, in the order of their first occurrence.
-/

namespace Nflambda.Director

open Nflambda.Base

/-- The nfunctors of a network function without repetitions. -/
def distinctNfunctors (l : List Nfunctor) : List Nfunctor := l.eraseDups

/-- The states of a network function without repetitions. -/
def stateList (l : List Nfunctor) : List State := (l.filterMap Nfunctor.state).eraseDups

/-- The state index of an nfunctor if the states of its execution start at `offset`, or `-1`. -/
def stateIdFrom (offset : Nat) (l : List Nfunctor) (f : Nfunctor) : Int :=
  match f.state with
  | none => -1
  | some s => ((offset + (stateList l).idxOf s : Nat) : Int)

/-- The state index of an nfunctor in an execution, or `-1`. -/
def stateIdOf (l : List Nfunctor) (executionId : Nat) (f : Nfunctor) : Int :=
  stateIdFrom (executionId * (stateList l).length) l f

/-- The action entry of an nfunctor in an execution, before buckets and paths are set. -/
def entryOf (l : List Nfunctor) (executionId : Nat) (f : Nfunctor) : ActionRuntime :=
  ⟨f, 0, executionId, stateIdOf l executionId f, 1, 0, 0, -1⟩

/-- The state entry of a state in an execution, before paths are set. -/
def stateEntryOf (executionId : Nat) (s : State) : StateRuntime :=
  ⟨s, 0, executionId, fun _ ↦ -1⟩

/-- An action entry without its range of buckets. -/
def ActionRuntime.bare (a : ActionRuntime) : ActionRuntime :=
  { a with startingBucket := 0, numBucket := 0 }

/-- The state of an nfunctor is in the list of states. -/
theorem mem_stateList {l : List Nfunctor} {f : Nfunctor} {s : State} (hf : f ∈ l)
    (hs : f.state = some s) : s ∈ stateList l := by
  unfold stateList
  rw [List.mem_eraseDups, List.mem_filterMap]
  exact ⟨f, hf, hs⟩

/-- Every state in the list is used. -/
theorem exists_of_mem_stateList {l : List Nfunctor} {s : State} (h : s ∈ stateList l) :
    ∃ f ∈ l, f.state = some s := by
  unfold stateList at h
  rwa [List.mem_eraseDups, List.mem_filterMap] at h

private theorem stateList_snoc_none {l : List Nfunctor} {f : Nfunctor} (h : f.state = none) :
    stateList (l ++ [f]) = stateList l := by
  unfold stateList
  rw [List.filterMap_append]
  simp [h]

private theorem stateList_snoc_some {l : List Nfunctor} {f : Nfunctor} {s : State}
    (h : f.state = some s) : stateList (l ++ [f]) = addNew (stateList l) s := by
  unfold stateList
  rw [List.filterMap_append]
  have hf : [f].filterMap Nfunctor.state = [s] := by simp [h]
  rw [hf, eraseDups_snoc]

private theorem stateIdFrom_snoc (offset : Nat) {l : List Nfunctor} {f g : Nfunctor}
    (hg : g ∈ l) : stateIdFrom offset (l ++ [f]) g = stateIdFrom offset l g := by
  unfold stateIdFrom
  cases hs : g.state with
  | none => rfl
  | some s =>
    cases hf : f.state with
    | none => rw [stateList_snoc_none hf]
    | some t =>
      dsimp only
      rw [stateList_snoc_some hf, idxOf_addNew (mem_stateList hg hs)]

private theorem map_bare_modify (l : List ActionRuntime) (i start num : Nat) :
    (l.modify i (fun a ↦ { a with startingBucket := start, numBucket := num })).map
      ActionRuntime.bare = l.map ActionRuntime.bare := by
  apply map_modify_of_eq
  intro a
  rfl

/-- The tables while execution `e` is filled, after the nfunctors `l`. -/
private structure Filling (all : List Nfunctor) (e : Nat) (l : List Nfunctor)
    (g : NfunctorGraph) : Prop where
  states : g.states =
    grid e (stateList all) stateEntryOf ++ (stateList l).map (stateEntryOf e)
  actions : g.actions.map ActionRuntime.bare =
    grid e (distinctNfunctors all) (entryOf all) ++ (distinctNfunctors l).map fun f ↦
      ⟨f, 0, e, stateIdFrom (e * (stateList all).length) l f, 1, 0, 0, -1⟩

private theorem Filling.add_states {all l : List Nfunctor} {e : Nat} {g : NfunctorGraph}
    (h : Filling all e l g) {f : Nfunctor} {s : State} (hs : f.state = some s) :
    stateInsert g.states s 0 e =
      (grid e (stateList all) stateEntryOf ++ (stateList (l ++ [f])).map (stateEntryOf e),
        e * (stateList all).length + (stateList (l ++ [f])).idxOf s) := by
  have hinj : Function.Injective (fun s : State ↦ (s, 0, e)) := fun a b hab ↦ by
    simpa using hab
  have hold : ∀ b ∈ grid e (stateList all) stateEntryOf, StateRuntime.key b ≠ (s, 0, e) := by
    intro b hb hk
    obtain ⟨e', he', t, -, rfl⟩ := mem_grid.mp hb
    have hee : e' = e := by simpa [StateRuntime.key, stateEntryOf] using (congrArg (·.2.2) hk)
    omega
  unfold stateInsert
  rw [h.states]
  refine (intern_append StateRuntime.key (stateEntryOf e) (fun s ↦ (s, 0, e)) (fun _ ↦ rfl) hinj
    _ _ s hold).trans ?_
  rw [length_grid, stateList_snoc_some hs]

private theorem Filling.add_actions {all l : List Nfunctor} {e : Nat} {g : NfunctorGraph}
    (h : Filling all e l g) (f : Nfunctor) :
    (actionInsert g.actions f 0 e
        (stateIdFrom (e * (stateList all).length) (l ++ [f]) f)).1.map ActionRuntime.bare =
      grid e (distinctNfunctors all) (entryOf all) ++ (distinctNfunctors (l ++ [f])).map fun f' ↦
        ⟨f', 0, e, stateIdFrom (e * (stateList all).length) (l ++ [f]) f', 1, 0, 0, -1⟩ := by
  have hinj : Function.Injective (fun f : Nfunctor ↦ (f, 0, e)) := fun a b hab ↦ by
    simpa using hab
  have hold : ∀ b ∈ grid e (distinctNfunctors all) (entryOf all),
      ActionRuntime.key b ≠ (f, 0, e) := by
    intro b hb hk
    obtain ⟨e', he', t, -, rfl⟩ := mem_grid.mp hb
    have hee : e' = e := by simpa [ActionRuntime.key, entryOf] using (congrArg (·.2.2) hk)
    omega
  have hl : (distinctNfunctors l).map (fun f' ↦ (⟨f', 0, e,
        stateIdFrom (e * (stateList all).length) l f', 1, 0, 0, -1⟩ : ActionRuntime)) =
      (distinctNfunctors l).map fun f' ↦
        ⟨f', 0, e, stateIdFrom (e * (stateList all).length) (l ++ [f]) f', 1, 0, 0, -1⟩ := by
    apply List.map_congr_left
    intro f' hf'
    rw [stateIdFrom_snoc _ (List.mem_eraseDups.mp hf')]
  have hmap := intern_map ActionRuntime.key ActionRuntime.bare (fun _ ↦ rfl) g.actions
    (f, 0, e) ⟨f, 0, e, stateIdFrom (e * (stateList all).length) (l ++ [f]) f, 1, 0, 0, -1⟩
  have happ := intern_append ActionRuntime.key (fun f' : Nfunctor ↦
    ⟨f', 0, e, stateIdFrom (e * (stateList all).length) (l ++ [f]) f', 1, 0, 0, -1⟩)
    (fun f ↦ (f, 0, e)) (fun _ ↦ rfl) hinj _ (distinctNfunctors l) f hold
  rw [h.actions, hl] at hmap
  have hfst := congrArg Prod.fst (hmap.symm.trans happ)
  unfold actionInsert
  have hd : distinctNfunctors (l ++ [f]) = addNew (distinctNfunctors l) f := eraseDups_snoc l f
  refine hfst.trans ?_
  rw [hd]

private theorem Filling.add {all l : List Nfunctor} {e : Nat} {g : NfunctorGraph}
    (h : Filling all e l g) (f : Nfunctor) : Filling all e (l ++ [f]) (g.add e ⟨f, 0⟩) := by
  have ha := h.add_actions f
  unfold NfunctorGraph.add
  cases hs : f.state with
  | none =>
    have hid : stateIdFrom (e * (stateList all).length) (l ++ [f]) f = -1 := by
      simp [stateIdFrom, hs]
    rw [hid] at ha
    have hst : g.states = grid e (stateList all) stateEntryOf ++
        (stateList (l ++ [f])).map (stateEntryOf e) := by
      rw [stateList_snoc_none hs]
      exact h.states
    dsimp only
    split
    · exact ⟨hst, (map_bare_modify _ _ _ _).trans ha⟩
    · exact ⟨hst, ha⟩
  | some s =>
    have hid : stateIdFrom (e * (stateList all).length) (l ++ [f]) f =
        ((e * (stateList all).length + (stateList (l ++ [f])).idxOf s : Nat) : Int) := by
      simp [stateIdFrom, hs]
    rw [hid] at ha
    dsimp only
    rw [h.add_states hs]
    split
    · exact ⟨rfl, (map_bare_modify _ _ _ _).trans ha⟩
    · exact ⟨rfl, ha⟩

private theorem Filling.fill {all l : List Nfunctor} {e : Nat} {g : NfunctorGraph}
    (h : Filling all e [] g) :
    Filling all e l
      ((l.map (fun f ↦ (⟨f, 0⟩ : NfunctorInstance))).foldl (fun g f ↦ g.add e f) g) := by
  induction l using List.reverseRecOn with
  | nil => exact h
  | append_singleton l f ih =>
    rw [List.map_append, List.foldl_append]
    exact ih.add f

private theorem Filling.next {all : List Nfunctor} {e : Nat} {g : NfunctorGraph}
    (h : Filling all e all g) : Filling all (e + 1) [] g := by
  refine ⟨?_, ?_⟩
  · rw [h.states, grid_succ]
    simp [stateList]
  · rw [h.actions, grid_succ]
    simp [distinctNfunctors, entryOf, stateIdOf]

/-- The tables before the wiring, but for the ranges of buckets. -/
theorem buildTables_eq (nf : Nf) (n : Nat) :
    (buildTables (nfunctorInstanceList nf) n).states =
        grid n (stateList nf.nfunctorList) stateEntryOf ∧
      (buildTables (nfunctorInstanceList nf) n).actions.map ActionRuntime.bare =
        grid n (distinctNfunctors nf.nfunctorList) (entryOf nf.nfunctorList) := by
  have hfill : ∀ m, Filling nf.nfunctorList m []
      ((List.range m).foldl (fun g i ↦ (nfunctorInstanceList nf).foldl (fun g f ↦ g.add i f) g)
        ⟨512 / n, 0, [], []⟩) := by
    intro m
    induction m with
    | zero => exact ⟨rfl, rfl⟩
    | succ m ih =>
      rw [List.range_succ, List.foldl_append]
      exact ih.fill.next
  have h := hfill n
  have hs0 : stateList [] = [] := rfl
  have hd0 : distinctNfunctors [] = [] := rfl
  constructor
  · have hs := h.states
    rwa [hs0, List.map_nil, List.append_nil] at hs
  · have ha := h.actions
    rwa [hd0, List.map_nil, List.append_nil] at ha

/-- Two nfunctors with the same state index use the same state in the same execution. -/
theorem stateIdOf_inj {l : List Nfunctor} {e e' : Nat} {f f' : Nfunctor} (hf : f ∈ l)
    (hf' : f' ∈ l) (h : stateIdOf l e f = stateIdOf l e' f') (h0 : 0 ≤ stateIdOf l e f) :
    e = e' ∧ f.state ≠ none ∧ f.state = f'.state := by
  have hnone (e : Nat) (f : Nfunctor) (hs : f.state = none) : stateIdOf l e f = -1 := by
    simp [stateIdOf, stateIdFrom, hs]
  have hsome (e : Nat) (f : Nfunctor) (x : State) (hs : f.state = some x) :
      stateIdOf l e f = ((e * (stateList l).length + (stateList l).idxOf x : Nat) : Int) := by
    simp [stateIdOf, stateIdFrom, hs]
  cases hs : f.state with
  | none =>
    rw [hnone e f hs] at h0
    omega
  | some x =>
    cases hs' : f'.state with
    | none =>
      rw [h, hnone e' f' hs'] at h0
      omega
    | some y =>
      have hx := mem_stateList hf hs
      have hy := mem_stateList hf' hs'
      rw [hsome e f x hs, hsome e' f' y hs', Int.ofNat_inj,
        pos_inj (List.idxOf_lt_length_of_mem hx) (List.idxOf_lt_length_of_mem hy)] at h
      obtain ⟨he, hxy⟩ := h
      rw [(List.idxOf_inj hx).mp hxy]
      exact ⟨he, Option.some_ne_none y, rfl⟩

end Nflambda.Director
