import Nflambda.Director.OwnWiring

/-!
# The ranges of buckets

Library `Director`. The part of the loops of `Nfunctor_graph.__init__`,
`src/director/em/__init__.py:217–240`, that deals out the buckets: with one
`packet_in`, execution `e` has `512 / n` buckets from `e * (512 / n)` on.
-/

namespace Nflambda.Director

open Nflambda.Base

/-- The nfunctor is a `packet_in`. -/
def Nfunctor.IsPacketIn (f : Nfunctor) : Prop := f.action.name = "packet_in"

instance (f : Nfunctor) : Decidable f.IsPacketIn := by
  unfold Nfunctor.IsPacketIn
  infer_instance

/-- The number of `packet_in` nfunctors in a list. -/
def packetIns (l : List Nfunctor) : Nat := l.countP fun f ↦ f.IsPacketIn

/-! ### One visit of an nfunctor -/

/-- The key of an entry of the action table: nfunctor, `nf_id` and execution. -/
abbrev ActionKey := Nfunctor × Nat × Nat

/-- An execution and the nfunctor instance that the inner loop handles in it. -/
abbrev Visit := Nat × NfunctorInstance

/-- The keys of the action table, in order. -/
def NfunctorGraph.actionKeys (g : NfunctorGraph) : List ActionKey :=
  g.actions.map ActionRuntime.key

/-- The key that a visit inserts into the action table. -/
def Visit.actionKey (c : Visit) : ActionKey := (c.2.nfunctor, c.2.nfId, c.1)

/-- The state table and the state index that a visit passes on, `__init__.py:225–230`. -/
def NfunctorGraph.stateOf (g : NfunctorGraph) (c : Visit) : List StateRuntime × Int :=
  match c.2.nfunctor.state with
  | none => (g.states, -1)
  | some state =>
    ((stateInsert g.states state c.2.nfId c.1).1, (stateInsert g.states state c.2.nfId c.1).2)

/-- The action table of a visit before buckets are given, `__init__.py:233–235`. -/
def NfunctorGraph.actionsOf (g : NfunctorGraph) (c : Visit) : List ActionRuntime :=
  (actionInsert g.actions c.2.nfunctor c.2.nfId c.1 (g.stateOf c).2).1

/-- One visit, with the search for the state and the search for the action set apart. -/
theorem add_eq (g : NfunctorGraph) (c : Visit) :
    g.add c.1 c.2 =
      if c.2.nfunctor.IsPacketIn then
        { g with
          states := (g.stateOf c).1
          actions := (g.actionsOf c).modify ((g.actionsOf c).length - 1) (fun a ↦
            { a with startingBucket := g.startingBucket, numBucket := g.numBuckets })
          startingBucket := g.startingBucket + g.numBuckets }
      else { g with states := (g.stateOf c).1, actions := g.actionsOf c } := by
  unfold NfunctorGraph.add NfunctorGraph.actionsOf NfunctorGraph.stateOf Nfunctor.IsPacketIn
  cases c.2.nfunctor.state with
  | none => rfl
  | some state => rfl

/-- The action table of a visit whose key is new. -/
theorem actionsOf_new {g : NfunctorGraph} {c : Visit} (h : c.actionKey ∉ g.actionKeys) :
    g.actionsOf c =
      g.actions ++ [⟨c.2.nfunctor, c.2.nfId, c.1, (g.stateOf c).2, 1, 0, 0, -1⟩] :=
  congrArg Prod.fst (intern_of_notMem ActionRuntime.key h _)

/-- The entries of the action table of a visit. -/
theorem mem_actionsOf {g : NfunctorGraph} {c : Visit} {a : ActionRuntime}
    (h : a ∈ g.actionsOf c) :
    a ∈ g.actions ∨ a = ⟨c.2.nfunctor, c.2.nfId, c.1, (g.stateOf c).2, 1, 0, 0, -1⟩ := by
  unfold NfunctorGraph.actionsOf actionInsert intern at h
  split at h
  · rw [List.mem_append, List.mem_singleton] at h
    exact h
  · exact Or.inl h

/-- The tables while execution `e` is filled, after the nfunctors `l`, with `num` buckets for each
execution. -/
private structure Dealing (num e : Nat) (l : List Nfunctor) (g : NfunctorGraph) : Prop where
  each : g.numBuckets = num
  next : g.startingBucket = (e + packetIns l) * num
  old : ∀ a ∈ g.actions, a.executionId < e ∨ a.executionId = e ∧ a.action ∈ l
  range : ∀ a ∈ g.actions, a.action.IsPacketIn →
    a.startingBucket = a.executionId * num ∧ a.numBucket = num

/-- Changing the last element of a list. -/
theorem modify_last {α : Type} (l : List α) (a : α) (h : α → α) :
    (l ++ [a]).modify ((l ++ [a]).length - 1) h = l ++ [h a] := by
  apply List.ext_getElem?
  intro k
  rw [List.length_append, List.length_singleton, Nat.add_sub_cancel, List.getElem?_modify]
  by_cases hk : l.length = k
  · subst hk
    simp
  · by_cases hlt : k < l.length
    · rw [List.getElem?_append_left hlt, List.getElem?_append_left hlt]
      simp [hk]
    · have hnone (x : α) : (l ++ [x])[k]? = none := by
        rw [List.getElem?_eq_none_iff, List.length_append, List.length_singleton]
        omega
      rw [hnone, hnone]
      rfl

private theorem Dealing.add {num e : Nat} {l : List Nfunctor} {g : NfunctorGraph}
    (h : Dealing num e l g) (f : Nfunctor) (hl : packetIns (l ++ [f]) ≤ 1) :
    Dealing num e (l ++ [f]) (g.add e ⟨f, 0⟩) := by
  have hcount : packetIns (l ++ [f]) = packetIns l + if f.IsPacketIn then 1 else 0 := by
    unfold packetIns
    rw [List.countP_append, List.countP_singleton]
    simp
  have hadd : g.add e ⟨f, 0⟩ = _ := add_eq g (e, ⟨f, 0⟩)
  rw [hadd]
  split
  · next hp =>
    rw [if_pos hp] at hcount
    have hzero : packetIns l = 0 := by omega
    have hnew := actionsOf_new (g := g) (c := (e, ⟨f, 0⟩)) (by
      intro hkey
      obtain ⟨a, ha, hak⟩ := List.mem_map.mp hkey
      have he : a.executionId = e := congrArg (·.2.2) hak
      have haf : a.action = f := congrArg (·.1) hak
      have hmem : f ∈ l := by
        rcases h.old a ha with hlt | ⟨-, hm⟩
        · omega
        · exact haf ▸ hm
      have hpos : 0 < packetIns l := List.countP_pos_iff.mpr ⟨f, hmem, by simpa using hp⟩
      omega)
    rw [hnew, modify_last]
    refine ⟨h.each, ?_, ?_, ?_⟩
    · rw [h.next, h.each, hcount, ← Nat.add_assoc, Nat.succ_mul]
    · intro a ha
      rcases List.mem_append.mp ha with ha | ha
      · rcases h.old a ha with hlt | ⟨he, hm⟩
        · exact Or.inl hlt
        · exact Or.inr ⟨he, List.mem_append_left _ hm⟩
      · rw [List.mem_singleton.mp ha]
        exact Or.inr ⟨rfl, by simp⟩
    · intro a ha hap
      rcases List.mem_append.mp ha with ha | ha
      · exact h.range a ha hap
      · rw [List.mem_singleton.mp ha]
        rw [h.next, hzero]
        exact ⟨rfl, h.each⟩
  · next hp =>
    rw [if_neg hp] at hcount
    refine ⟨h.each, ?_, ?_, ?_⟩
    · rw [h.next, hcount, Nat.add_zero]
    · intro a ha
      rcases mem_actionsOf ha with ha | rfl
      · rcases h.old a ha with hlt | ⟨he, hm⟩
        · exact Or.inl hlt
        · exact Or.inr ⟨he, List.mem_append_left _ hm⟩
      · exact Or.inr ⟨rfl, by simp⟩
    · intro a ha hap
      rcases mem_actionsOf ha with ha | rfl
      · exact h.range a ha hap
      · exact absurd hap hp

private theorem Dealing.deal {num e : Nat} {l : List Nfunctor} {g : NfunctorGraph}
    (h : Dealing num e [] g) (hl : packetIns l ≤ 1) :
    Dealing num e l ((l.map (fun f ↦ (⟨f, 0⟩ : NfunctorInstance))).foldl
      (fun g f ↦ g.add e f) g) := by
  induction l using List.reverseRecOn with
  | nil => exact h
  | append_singleton l f ih =>
    have hle : packetIns l ≤ packetIns (l ++ [f]) := by
      unfold packetIns
      rw [List.countP_append]
      omega
    rw [List.map_append, List.foldl_append]
    exact (ih (by omega)).add f hl

private theorem Dealing.next_execution {num e : Nat} {l : List Nfunctor} {g : NfunctorGraph}
    (h : Dealing num e l g) (hl : packetIns l = 1) : Dealing num (e + 1) [] g := by
  refine ⟨h.each, ?_, ?_, h.range⟩
  · rw [h.next, hl]
    rfl
  · intro a ha
    rcases h.old a ha with hlt | ⟨he, -⟩
    · exact Or.inl (by omega)
    · exact Or.inl (by omega)

/-- With one `packet_in`, execution `e` is given the buckets from `e * (512 / n)` on. -/
theorem buckets_nfunctorGraph {nf : Nf} {n : Nat} {g : NfunctorGraph}
    (h : nfunctorGraph nf n = some g) (h1 : packetIns nf.nfunctorList = 1) :
    ∀ a ∈ g.actions, a.action.IsPacketIn →
      a.startingBucket = a.executionId * (512 / n) ∧ a.numBucket = 512 / n := by
  have hdeal : ∀ m, Dealing (512 / n) m []
      ((List.range m).foldl (fun g i ↦ (nfunctorInstanceList nf).foldl (fun g f ↦ g.add i f) g)
        ⟨512 / n, 0, [], []⟩) := by
    intro m
    induction m with
    | zero => exact ⟨rfl, by simp [packetIns], by simp, by simp⟩
    | succ m ih =>
      rw [List.range_succ, List.foldl_append]
      exact (ih.deal (Nat.le_of_eq h1)).next_execution h1
  intro a ha hin
  obtain ⟨b, hb, he, hs, hnum, haction⟩ := exists_of_mem_nfunctorGraph h ha
  rw [he, hs, hnum]
  exact (hdeal n).range b hb (by rw [← haction]; exact hin)

private theorem eq_singleton {α : Type} {l : List α} {a : α} (hn : l.Nodup) (ha : a ∈ l)
    (hall : ∀ b ∈ l, b = a) : l = [a] := by
  cases l with
  | nil => cases ha
  | cons b l =>
    have hb := hall b List.mem_cons_self
    subst hb
    have hl : l = [] := by
      rw [List.eq_nil_iff_forall_not_mem]
      intro c hc
      have hcb := hall c (List.mem_cons_of_mem b hc)
      rw [hcb] at hc
      exact (List.nodup_cons.mp hn).1 hc
    rw [hl]

/-- The only `packet_in` of a network function stands once in its list without repetitions. -/
theorem exists_packetIn {l : List Nfunctor} (h1 : packetIns l = 1) :
    ∃ f ∈ l, f.IsPacketIn ∧ (distinctNfunctors l).filter (fun f ↦ f.IsPacketIn) = [f] := by
  unfold packetIns at h1
  rw [List.countP_eq_length_filter, List.length_eq_one_iff] at h1
  obtain ⟨f, hf⟩ := h1
  have hmem : f ∈ l.filter (fun f ↦ f.IsPacketIn) := by
    rw [hf]
    exact List.mem_singleton_self f
  obtain ⟨hfl, hin⟩ := List.mem_filter.mp hmem
  refine ⟨f, hfl, by simpa using hin, eq_singleton ?_ ?_ ?_⟩
  · exact (nodup_eraseDups l).filter _
  · exact List.mem_filter.mpr ⟨List.mem_eraseDups.mpr hfl, hin⟩
  · intro b hb
    obtain ⟨hb1, hb2⟩ := List.mem_filter.mp hb
    have hbl : b ∈ l.filter (fun f ↦ f.IsPacketIn) :=
      List.mem_filter.mpr ⟨List.mem_eraseDups.mp hb1, hb2⟩
    rw [hf] at hbl
    exact List.mem_singleton.mp hbl

/-- There is only one `packet_in`. -/
theorem eq_of_isPacketIn {l : List Nfunctor} (h1 : packetIns l = 1) {f f' : Nfunctor}
    (hf : f ∈ l) (hin : f.IsPacketIn) (hf' : f' ∈ l) (hin' : f'.IsPacketIn) : f' = f := by
  obtain ⟨f0, -, -, hfilter⟩ := exists_packetIn h1
  have heq {f : Nfunctor} (hf : f ∈ l) (hin : f.IsPacketIn) : f = f0 := by
    rw [← List.mem_singleton, ← hfilter]
    exact List.mem_filter.mpr ⟨List.mem_eraseDups.mpr hf, by simpa using hin⟩
  rw [heq hf hin, heq hf' hin']

/-- An entry with the range of buckets of its execution. -/
def ActionRuntime.dealt (n : Nat) (a : ActionRuntime) : ActionRuntime :=
  { a with startingBucket := a.executionId * (512 / n), numBucket := 512 / n }

/-- The `packet_in` entry of an execution. -/
def packetInEntry (l : List Nfunctor) (n : Nat) (f : Nfunctor) (e : Nat) : ActionRuntime :=
  ActionRuntime.dealt n { entryOf l e f with nextAction := nextActionOf l e f }

/-- With one `packet_in`, the table has one `packet_in` entry for each execution, in order. -/
theorem filter_nfunctorGraph {nf : Nf} {n : Nat} {g : NfunctorGraph}
    (h : nfunctorGraph nf n = some g) (h1 : packetIns nf.nfunctorList = 1) :
    ∃ f ∈ nf.nfunctorList, f.IsPacketIn ∧
      g.actions.filter (fun a ↦ a.action.IsPacketIn) =
        (List.range n).map (packetInEntry nf.nfunctorList n f) := by
  obtain ⟨f, hf, hin, hfilter⟩ := exists_packetIn h1
  refine ⟨f, hf, hin, ?_⟩
  -- The ranges of `packet_in` entries are determined by the rest of the entries.
  have hrange : ∀ a ∈ g.actions.filter (fun a ↦ a.action.IsPacketIn),
      a = (ActionRuntime.dealt n ∘ ActionRuntime.bare) a := by
    intro a ha
    obtain ⟨ha, hain⟩ := List.mem_filter.mp ha
    obtain ⟨hs, hnum⟩ := buckets_nfunctorGraph h h1 a ha (by simpa using hain)
    change a = { a with startingBucket := a.executionId * (512 / n), numBucket := 512 / n }
    rw [← hs, ← hnum]
  have hbare : (g.actions.filter (fun a ↦ a.action.IsPacketIn)).map ActionRuntime.bare =
      (List.range n).map (fun e ↦ { entryOf nf.nfunctorList e f with
        nextAction := nextActionOf nf.nfunctorList e f }) := by
    have hcomm : (g.actions.filter (fun a ↦ a.action.IsPacketIn)).map ActionRuntime.bare =
        (g.actions.map ActionRuntime.bare).filter (fun a ↦ a.action.IsPacketIn) := by
      rw [List.filter_map]
      rfl
    rw [hcomm, actions_nfunctorGraph h,
      filter_grid (q := fun f : Nfunctor ↦ decide f.IsPacketIn) (fun _ _ ↦ rfl), hfilter,
      grid_singleton]
  calc g.actions.filter (fun a ↦ a.action.IsPacketIn)
      = ((g.actions.filter (fun a ↦ a.action.IsPacketIn)).map ActionRuntime.bare).map
          (ActionRuntime.dealt n) := by
        rw [List.map_map]
        symm
        rw [List.map_congr_left (g := id) fun a ha ↦ (hrange a ha).symm, List.map_id]
    _ = (List.range n).map (packetInEntry nf.nfunctorList n f) := by
        rw [hbare, List.map_map]
        rfl

end Nflambda.Director
