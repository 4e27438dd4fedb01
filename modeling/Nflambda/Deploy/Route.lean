import Nflambda.Deploy.Confinement
import Nflambda.Deploy.Planned
import Nflambda.Runtime.MessageLoop

/-!
# The route of the generic decomposed network function

Library `Deploy`. The planner's table indices,
`src/director/em/__init__.py:209–251`, the slots that the commands of
`src/RL_agent/rl_orchestrator.ipynb:252–357` write, and the slots that the
actions of `src/runtime/nf/generic_decomposed.h:20–89` read lead every packet
through its execution, in every interleaving of the workers.
-/

namespace Nflambda.Deploy

open Nflambda.Base Nflambda.Runtime Nflambda.Director

variable {H : Type}

/-! ### The plan -/

private theorem distinct_gd : distinctNfunctors gd.nfunctorList = nfunctorList := by decide

private theorem stateList_gd : stateList gd.nfunctorList = [gdDataState, gdControlState] := by
  decide

private theorem lastJoined_congr (l : List Nfunctor) {n e n' e' : Nat}
    (h : e + 1 = n ↔ e' + 1 = n') (x : State) (p : Fin 10) :
    lastJoined l n e x p = lastJoined l n' e' x p := by
  unfold lastJoined Writes
  simp only [h]

private theorem lastJoined_gd {P : (Fin 10 → Option Nfunctor) → Prop} {x : State}
    (hlast : P (lastJoined gd.nfunctorList 1 0 x)) (hother : P (lastJoined gd.nfunctorList 2 0 x))
    (n e : Nat) : P (lastJoined gd.nfunctorList n e x) := by
  by_cases he : e + 1 = n
  · have hcongr : lastJoined gd.nfunctorList n e x = lastJoined gd.nfunctorList 1 0 x :=
      funext fun p ↦ lastJoined_congr _ (iff_of_true he rfl) x p
    rwa [hcongr]
  · have hcongr : lastJoined gd.nfunctorList n e x = lastJoined gd.nfunctorList 2 0 x :=
      funext fun p ↦ lastJoined_congr _ (iff_of_false he (by decide)) x p
    rwa [hcongr]

/-- The path of the data state of every execution. -/
theorem lastJoined_data (n e : Nat) :
    lastJoined gd.nfunctorList n e gdDataState 0 = some nfunctor3 ∧
      lastJoined gd.nfunctorList n e gdDataState 1 = some nfunctor4 ∧
      lastJoined gd.nfunctorList n e gdDataState 2 = some nfunctor5 :=
  lastJoined_gd (P := fun path ↦ path 0 = some nfunctor3 ∧ path 1 = some nfunctor4 ∧
    path 2 = some nfunctor5) (by decide) (by decide) n e

/-- The path of the control state of every execution: in the last one, `packet_in` writes it, too,
but the control action does so later. -/
theorem lastJoined_control (n e : Nat) :
    lastJoined gd.nfunctorList n e gdControlState 0 = some nfunctor3 :=
  lastJoined_gd (P := fun path ↦ path 0 = some nfunctor3) (by decide) (by decide) n e

private theorem lastJoined_inj (n e : Nat) : ∀ x ∈ stateList gd.nfunctorList, ∀ p q : Fin 10,
    lastJoined gd.nfunctorList n e x p ≠ none →
      lastJoined gd.nfunctorList n e x p = lastJoined gd.nfunctorList n e x q → p = q := by
  intro x hx
  rw [stateList_gd, List.mem_pair] at hx
  rcases hx with rfl | rfl
  · exact lastJoined_gd (P := fun path ↦ ∀ p q : Fin 10, path p ≠ none → path p = path q → p = q)
      (by decide) (by decide) n e
  · exact lastJoined_gd (P := fun path ↦ ∀ p q : Fin 10, path p ≠ none → path p = path q → p = q)
      (by decide) (by decide) n e

private theorem pathOf_inj {n e : Nat} {x : State} (hx : x ∈ stateList gd.nfunctorList)
    (p q : Fin 10) (hne : pathOf gd.nfunctorList n e x p ≠ -1)
    (h : pathOf gd.nfunctorList n e x p = pathOf gd.nfunctorList n e x q) : p = q := by
  apply lastJoined_inj n e x hx p q
  · intro hp
    rw [pathOf, hp] at hne
    exact hne rfl
  · unfold pathOf at h hne
    cases hp : lastJoined gd.nfunctorList n e x p with
    | none =>
      rw [hp] at hne
      exact absurd rfl hne
    | some f =>
      cases hq : lastJoined gd.nfunctorList n e x q with
      | none =>
        rw [h, hq] at hne
        exact absurd rfl hne
      | some f' =>
        rw [hp, hq] at h
        rw [indexIn_inj (mem_of_lastJoined f hp) h]

/-! ### The deployment -/

/-- The function that the runtime has for an action's name, `generic_decomposed.h:20–89` and
`worker.h:71`. -/
def functionOf [RteHash H] (name : String) : Option (Handler H) :=
  if name = "gd_classifier" then some (.action genericDecomposedClassifier)
  else if name = "gd_data" then some (.action genericDecomposedDataAction)
  else if name = "gd_control" then some (.action genericDecomposedControlAction)
  else if name = "packet_out" then some .transmitPacket
  else none

/-- `c` is a fresh runtime after a deployment of the plan for `n` executions, with the entries on
the given cores. -/
structure Deployed [RteHash H] (n : Nat) (g : NfunctorGraph) (placed : List ActionRuntime)
    (c : Config H) : Prop where
  plan : nfunctorGraph gd n = some g
  cores : placed.map ActionRuntime.unplaced = g.actions.map ActionRuntime.unplaced
  onCore : ∀ a ∈ placed, 0 ≤ a.coreId ∧ a.coreId < 48
  fits : Fits g.states placed
  installed : ∃ (memory : Config H) (create : Fin STATE_NUM → H),
    Installed g.states placed (configInit memory create) c

/-- The index of the entry of an nfunctor in an execution. -/
def gdIndex (e : Nat) (f : Nfunctor) : Int := indexIn gd.nfunctorList e f

/-- The index of a state in an execution. -/
def gdStateIndex (e : Nat) (x : State) : Nat := e * 2 + (stateList gd.nfunctorList).idxOf x

/-- The bucket of a packet, `worker.h:175`. -/
def bucketOf (p : Mbuf) : Fin RSS_I_TABLE_SIZE := ⟨p.rss.toNat % 512, p.bucket_lt⟩

section Deployed

variable [RteHash H] {n : Nat} {g : NfunctorGraph} {placed : List ActionRuntime} {c : Config H}

/-- The entry of an nfunctor in an execution. -/
theorem Deployed.getElem? (h : Deployed n g placed c) {e : Nat} (he : e < n)
    {f : Nfunctor} (hf : f ∈ nfunctorList) :
    ∃ a, placed[e * 5 + nfunctorList.idxOf f]? = some a ∧
      planned a = (f, e, stateIdOf gd.nfunctorList e f, nextActionOf gd.nfunctorList e f) := by
  have hi : nfunctorList.idxOf f < nfunctorList.length := List.idxOf_lt_length_of_mem hf
  have hmap := List.ext_getElem?_iff.mp (map_planned h.plan h.cores)
    (e * nfunctorList.length + nfunctorList.idxOf f)
  rw [distinct_gd, getElem?_grid he hi, List.getElem?_idxOf hf, Option.map_some,
    List.getElem?_map, Option.map_eq_some_iff] at hmap
  exact hmap

/-- Every entry is the one of an nfunctor in an execution. -/
theorem Deployed.exists_getElem? (h : Deployed n g placed c) {i : Nat}
    {a : ActionRuntime} (ha : placed[i]? = some a) :
    ∃ e, e < n ∧ a.action ∈ nfunctorList ∧ i = e * 5 + nfunctorList.idxOf a.action ∧
      a.executionId = e ∧ a.stateId = stateIdOf gd.nfunctorList e a.action ∧
      a.nextAction = nextActionOf gd.nfunctorList e a.action := by
  have hmap := List.ext_getElem?_iff.mp (map_planned h.plan h.cores) i
  rw [distinct_gd, List.getElem?_map, ha, Option.map_some] at hmap
  obtain ⟨e, j, f, he, hf, rfl, hplanned⟩ := getElem?_grid_eq_some hmap.symm
  obtain ⟨hj, hget⟩ := List.getElem?_eq_some_iff.mp hf
  have haction : a.action = f := congrArg (·.1) hplanned
  have hidx : nfunctorList.idxOf f = j := by
    rw [← hget]
    exact (by decide : nfunctorList.Nodup).idxOf_getElem j hj
  rw [haction, hidx]
  exact ⟨e, he, List.mem_of_getElem? hf, rfl, congrArg (·.2.1) hplanned,
    congrArg (·.2.2.1) hplanned, congrArg (·.2.2.2) hplanned⟩

/-- Every entry runs the function of its action's name. -/
private theorem Deployed.action (h : Deployed n g placed c) (i : Fin ACTION_TABLE_SIZE) :
    (c.actionTable i).action =
      (placed[i.val]?).bind fun a ↦ functionOf a.action.action.name := by
  obtain ⟨memory, create, hi⟩ := h.installed
  have he := congrArg (·.1) (hi.entry i)
  change (c.actionTable i).action = _ at he
  rw [he]
  cases ha : placed[i.val]? with
  | none => rfl
  | some a =>
    obtain ⟨e, -, hmem, -⟩ := h.exists_getElem? ha
    rw [Option.bind_some, Option.bind_some]
    unfold entryWritten
    revert hmem
    generalize a.action = f
    intro hmem
    simp only [nfunctorList, List.mem_cons, List.not_mem_nil, or_false] at hmem
    rcases hmem with rfl | rfl | rfl | rfl | rfl <;> rfl

/-- Every entry is on its core. -/
private theorem Deployed.coreId (h : Deployed n g placed c) {i : Fin ACTION_TABLE_SIZE}
    {a : ActionRuntime} (ha : placed[i.val]? = some a) (hne : a.action ≠ nfunctor1) :
    (c.actionTable i).coreId = a.coreId := by
  obtain ⟨memory, create, hi⟩ := h.installed
  have hc := congrArg (·.2.2) (hi.entry i)
  change (c.actionTable i).coreId = _ at hc
  rw [hc, ha, Option.bind_some]
  have hcore := h.onCore a (List.mem_of_getElem? ha)
  have hin : ¬ a.action.action.name = "packet_in" := by
    obtain ⟨e, -, hmem, -⟩ := h.exists_getElem? ha
    exact (by decide : ∀ f ∈ nfunctorList, f ≠ nfunctor1 → ¬ f.action.name = "packet_in") _ hmem hne
  unfold entryWritten
  rw [if_neg hin]
  split
  · exact val_coreIndex hcore
  · rfl

/-- The state objects of the classifier, the data and the control action. -/
theorem Deployed.state (h : Deployed n g placed c) {i : Fin ACTION_TABLE_SIZE}
    {a : ActionRuntime} (ha : placed[i.val]? = some a) {x : Director.State}
    (hx : a.action.state = some x) {s : Fin STATE_NUM}
    (hs : (c.actionTable i).state = .state s) : s.val = gdStateIndex a.executionId x := by
  obtain ⟨memory, create, hi⟩ := h.installed
  obtain ⟨e, he, hmem, -, hexec, hid, -⟩ := h.exists_getElem? ha
  have hst := congrArg (·.2.1) (hi.entry i)
  change (c.actionTable i).state = _ at hst
  have hname := (by decide : ∀ f ∈ nfunctorList, f.state ≠ none →
    ¬ f.action.name = "packet_in" ∧ ¬ f.action.name = "packet_out") _ hmem (by rw [hx]; simp)
  rw [hst, ha, Option.bind_some, entryWritten, if_neg hname.1, if_neg hname.2] at hs
  have hval : a.stateId = (s.val : Int) := stateRefOf_eq_state hs
  have hdef : stateIdOf gd.nfunctorList e a.action =
      ((e * (stateList gd.nfunctorList).length +
        (stateList gd.nfunctorList).idxOf x : Nat) : Int) := by
    rw [stateIdOf, stateIdFrom, hx]
  have hlen : (stateList gd.nfunctorList).length = 2 := by decide
  rw [hid, hdef, hlen, Int.ofNat_inj] at hval
  rw [gdStateIndex, hexec]
  exact hval.symm

/-- The slots that the deployment writes. -/
private theorem Deployed.slot (h : Deployed n g placed c) {e : Nat} (he : e < n)
    {x : Director.State} (hx : x ∈ stateList gd.nfunctorList) {p : Fin 10} {f : Nfunctor}
    (hf : lastJoined gd.nfunctorList n e x p = some f) {s : Fin STATE_NUM}
    (hs : s.val = gdStateIndex e x) : (c.states s).simplePath p = gdIndex e f := by
  obtain ⟨memory, create, hi⟩ := h.installed
  have hpath : pathOf gd.nfunctorList n e x p = gdIndex e f := by
    rw [pathOf, hf]
    rfl
  have hget : g.states[s.val]? = some ⟨x, 0, e, pathOf gd.nfunctorList n e x⟩ := by
    have hgrid := getElem?_grid (f := fun e x ↦
      (⟨x, 0, e, pathOf gd.nfunctorList n e x⟩ : StateRuntime)) he
      (List.idxOf_lt_length_of_mem hx)
    have hlen : (stateList gd.nfunctorList).length = 2 := by decide
    rw [← states_nfunctorGraph h.plan, List.getElem?_idxOf hx, Option.map_some, hlen] at hgrid
    rw [hs]
    exact hgrid
  have hne : pathOf gd.nfunctorList n e x p ≠ -1 := by
    rw [hpath, gdIndex, indexIn]
    omega
  have hwrite := (slotWritten_iff ⟨x, 0, e, pathOf gd.nfunctorList n e x⟩).mpr (pathOf_inj hx) p hne
  rw [hi.simplePath, hget, Option.bind_some, hwrite]
  exact hpath

/-- The index of an entry by its position in the list of nfunctors. -/
theorem gdIndex_eq (e : Nat) (f : Nfunctor) :
    gdIndex e f = ((e * 5 + nfunctorList.idxOf f : Nat) : Int) := by
  rw [gdIndex, indexIn, distinct_gd]
  rfl

private theorem gdIndex_inj {e e' : Nat} {f f' : Nfunctor} (hf : f ∈ nfunctorList)
    (hf' : f' ∈ nfunctorList) (h : gdIndex e f = gdIndex e' f') : e = e' ∧ f = f' := by
  have hi : nfunctorList.idxOf f < 5 := List.idxOf_lt_length_of_mem hf
  have hi' : nfunctorList.idxOf f' < 5 := List.idxOf_lt_length_of_mem hf'
  rw [gdIndex_eq, gdIndex_eq, Int.ofNat_inj, pos_inj hi hi'] at h
  exact ⟨h.1, (List.idxOf_inj hf).mp h.2⟩

/-- An entry that has a function is the one of an nfunctor with a function. -/
theorem Deployed.exists_entry (h : Deployed n g placed c) {i : Int}
    {en : ActionTableEntry H} (hen : c.entry i = some en) {F : Handler H}
    (hF : en.action = some F) :
    ∃ (j : Fin ACTION_TABLE_SIZE) (a : ActionRuntime), en = c.actionTable j ∧
      placed[j.val]? = some a ∧ a.executionId < n ∧ a.action ∈ nfunctorList ∧
      i = gdIndex a.executionId a.action ∧ functionOf a.action.action.name = some F := by
  obtain ⟨j, hj, rfl⟩ := Option.map_eq_some_iff.mp hen
  rw [h.action j, Option.bind_eq_some_iff] at hF
  obtain ⟨a, ha, hfun⟩ := hF
  obtain ⟨e, he, hmem, hidx, rfl, -⟩ := h.exists_getElem? ha
  refine ⟨j, a, rfl, ha, he, hmem, ?_, hfun⟩
  rw [idx?_eq_some_iff.mp hj, gdIndex_eq, hidx]

/-- Where the actions send packets. -/
inductive GdNext (e : Nat) : Int → Int → Prop
  | data : GdNext e (gdIndex e nfunctor2) (gdIndex e nfunctor3)
  | control : GdNext e (gdIndex e nfunctor2) (gdIndex e nfunctor4)
  | back : GdNext e (gdIndex e nfunctor4) (gdIndex e nfunctor3)
  | out : GdNext e (gdIndex e nfunctor3) (gdIndex e nfunctor5)

/-- The actions send packets nowhere else. -/
theorem Deployed.next (h : Deployed n g placed c) {i j : Int} (hij : c.Next i j) :
    ∃ e, e < n ∧ GdNext e i j := by
  obtain ⟨en, F, s, σ, m, st, hen, hF, hs, hσ, hok⟩ := hij
  obtain ⟨k, a, rfl, ha, he, hmem, rfl, hfun⟩ := h.exists_entry hen hF
  refine ⟨a.executionId, he, ?_⟩
  have hdata : gdDataState ∈ stateList gd.nfunctorList := by decide
  have hcontrol : gdControlState ∈ stateList gd.nfunctorList := by decide
  have hstate (x : Director.State) (hx : a.action.state = some x) := h.state ha hx hs
  have hslot {x : Director.State} (hx : x ∈ stateList gd.nfunctorList)
      (hst : a.action.state = some x) {p : Fin 10} {f : Nfunctor}
      (hf : lastJoined gd.nfunctorList n a.executionId x p = some f) :
      σ.simplePath p = gdIndex a.executionId f := by
    rw [hσ]
    exact h.slot he hx hf (hstate x hst)
  obtain ⟨h0, h1, h2⟩ := lastJoined_data n a.executionId
  generalize haction : a.action = f at *
  simp only [nfunctorList, List.mem_cons, List.not_mem_nil, or_false] at hmem
  rcases hmem with rfl | rfl | rfl | rfl | rfl
  · cases hfun
  · cases hfun
    rcases (genericDecomposedClassifier_path hok).2 with rfl | rfl
    · rw [hslot hdata rfl h0]
      exact .data
    · rw [hslot hdata rfl h1]
      exact .control
  · cases hfun
    rw [(genericDecomposedDataAction_path hok).2, hslot hdata rfl h2]
    exact .out
  · cases hfun
    rw [(genericDecomposedControlAction_path hok).2,
      hslot hcontrol rfl (lastJoined_control n a.executionId)]
    exact .back
  · cases hfun

/-- The actions leave their paths alone. -/
theorem Deployed.keepsPaths (h : Deployed n g placed c) : c.KeepsPaths := by
  intro i en F hen hF σ m st b hok
  obtain ⟨k, a, -, -, -, hmem, -, hfun⟩ := h.exists_entry hen hF
  generalize a.action = f at *
  simp only [nfunctorList, List.mem_cons, List.not_mem_nil, or_false] at hmem
  rcases hmem with rfl | rfl | rfl | rfl | rfl <;> cases hfun
  · exact (genericDecomposedClassifier_path hok).1
  · exact (genericDecomposedDataAction_path hok).1
  · exact (genericDecomposedControlAction_path hok).1

private theorem Deployed.index_lt (h : Deployed n g placed c) {e : Nat} (he : e < n)
    {f : Nfunctor} (hf : f ∈ nfunctorList) :
    e * 5 + nfunctorList.idxOf f < ACTION_TABLE_SIZE := by
  obtain ⟨a, ha, -⟩ := h.getElem? he hf
  exact lt_of_getElem? h.fits.numActions ha

/-- Paths lead to entries of the table. -/
theorem Deployed.pathsInTable (h : Deployed n g placed c) : c.PathsInTable := by
  intro i j hij
  have hin {e : Nat} (he : e < n) {f : Nfunctor} (hf : f ∈ nfunctorList) :
      (idx? ACTION_TABLE_SIZE (gdIndex e f)).isSome := by
    rw [gdIndex_eq, idx?_natCast _ (h.index_lt he hf)]
    rfl
  obtain ⟨e, he, hnext⟩ := h.next hij
  cases hnext with
  | data | back => exact hin he (by decide)
  | control => exact hin he (by decide)
  | out => exact hin he (by decide)

/-- Entry `i` transmits packets only if it is a `packet_out`. -/
private theorem Deployed.last (h : Deployed n g placed c) {i : Int} (hi : c.Last i) :
    ∃ e, i = gdIndex e nfunctor5 := by
  obtain ⟨en, hen, hF⟩ := hi
  obtain ⟨k, a, -, -, -, hmem, rfl, hfun⟩ := h.exists_entry hen hF
  refine ⟨a.executionId, ?_⟩
  generalize a.action = f at *
  simp only [nfunctorList, List.mem_cons, List.not_mem_nil, or_false] at hmem
  rcases hmem with rfl | rfl | rfl | rfl | rfl <;> cases hfun
  rfl

end Deployed

/-! ### Routes -/

/-- A route of an execution: the classifier, the control action or not, the data action and
`packet_out`, by their indices in the plan. -/
def IsRoute (g : NfunctorGraph) (e : Nat) (r : List Int) : Prop :=
  ∃ classifier control data out, IndexOf g nfunctor2 e classifier ∧
    IndexOf g nfunctor4 e control ∧ IndexOf g nfunctor3 e data ∧ IndexOf g nfunctor5 e out ∧
    (r = [classifier, data, out] ∨ r = [classifier, control, data, out])

/-- The actions executed so far, and the next one. -/
inductive OnRoute (e : Nat) : List Int → Int → Prop
  | classifier : OnRoute e [] (gdIndex e nfunctor2)
  | data : OnRoute e [gdIndex e nfunctor2] (gdIndex e nfunctor3)
  | control : OnRoute e [gdIndex e nfunctor2] (gdIndex e nfunctor4)
  | back : OnRoute e [gdIndex e nfunctor2, gdIndex e nfunctor4] (gdIndex e nfunctor3)
  | out : OnRoute e [gdIndex e nfunctor2, gdIndex e nfunctor3] (gdIndex e nfunctor5)
  | outBack : OnRoute e [gdIndex e nfunctor2, gdIndex e nfunctor4, gdIndex e nfunctor3]
      (gdIndex e nfunctor5)

private theorem GdNext.cases_eq {e e' : Nat} {f : Nfunctor} {j : Int} (hf : f ∈ nfunctorList)
    (h : GdNext e' (gdIndex e f) j) :
    f = nfunctor2 ∧ (j = gdIndex e nfunctor3 ∨ j = gdIndex e nfunctor4) ∨
      f = nfunctor4 ∧ j = gdIndex e nfunctor3 ∨ f = nfunctor3 ∧ j = gdIndex e nfunctor5 := by
  generalize hi : gdIndex e f = i at h
  cases h with
  | data =>
    obtain ⟨rfl, rfl⟩ := gdIndex_inj hf (by decide) hi
    exact .inl ⟨rfl, .inl rfl⟩
  | control =>
    obtain ⟨rfl, rfl⟩ := gdIndex_inj hf (by decide) hi
    exact .inl ⟨rfl, .inr rfl⟩
  | back =>
    obtain ⟨rfl, rfl⟩ := gdIndex_inj hf (by decide) hi
    exact .inr (.inl ⟨rfl, rfl⟩)
  | out =>
    obtain ⟨rfl, rfl⟩ := gdIndex_inj hf (by decide) hi
    exact .inr (.inr ⟨rfl, rfl⟩)

/-- One action takes a packet one entry further on its route. -/
private theorem OnRoute.step {e e' : Nat} {l : List Int} {i j : Int} (h : OnRoute e l i)
    (hnext : GdNext e' i j) : OnRoute e (l ++ [i]) j := by
  cases h with
  | classifier =>
    rcases hnext.cases_eq (by decide) with ⟨-, rfl | rfl⟩ | ⟨h, -⟩ | ⟨h, -⟩
    · exact .data
    · exact .control
    · exact absurd h (by decide)
    · exact absurd h (by decide)
  | data =>
    rcases hnext.cases_eq (by decide) with ⟨h, -⟩ | ⟨h, -⟩ | ⟨-, rfl⟩
    · exact absurd h (by decide)
    · exact absurd h (by decide)
    · exact .out
  | back =>
    rcases hnext.cases_eq (by decide) with ⟨h, -⟩ | ⟨h, -⟩ | ⟨-, rfl⟩
    · exact absurd h (by decide)
    · exact absurd h (by decide)
    · exact .outBack
  | control =>
    rcases hnext.cases_eq (by decide) with ⟨h, -⟩ | ⟨-, rfl⟩ | ⟨h, -⟩
    · exact absurd h (by decide)
    · exact .back
    · exact absurd h (by decide)
  | out | outBack =>
    rcases hnext.cases_eq (by decide) with ⟨h, -⟩ | ⟨h, -⟩ | ⟨h, -⟩ <;> exact absurd h (by decide)

section Deployed

variable [RteHash H] {n : Nat} {g : NfunctorGraph} {placed : List ActionRuntime} {c : Config H}

/-- A trail that starts at the classifier stays on a route. -/
theorem Deployed.trail (h : Deployed n g placed c) {e : Nat} {l : List Int} {i : Int}
    (ht : c.Trail (gdIndex e nfunctor2) l i) : OnRoute e l i := by
  induction ht with
  | start => exact .classifier
  | next _ hnext ih =>
    obtain ⟨e', -, hgd⟩ := h.next hnext
    exact ih.step hgd

private theorem Deployed.isRoute (h : Deployed n g placed c) {e : Nat} (he : e < n)
    {r : List Int}
    (hr : r = [gdIndex e nfunctor2, gdIndex e nfunctor3, gdIndex e nfunctor5] ∨
      r = [gdIndex e nfunctor2, gdIndex e nfunctor4, gdIndex e nfunctor3, gdIndex e nfunctor5]) :
    IsRoute g e r := by
  have hindex {f : Nfunctor} (hf : f ∈ gd.nfunctorList) : IndexOf g f e (gdIndex e f) :=
    (indexOf_iff h.plan he f _).mpr ⟨hf, rfl⟩
  exact ⟨_, _, _, _, hindex (by decide), hindex (by decide), hindex (by decide),
    hindex (by decide), hr⟩

private theorem Deployed.eq_of_isRoute (h : Deployed n g placed c) {e : Nat} (he : e < n)
    {r : List Int} (hr : IsRoute g e r) :
    r = [gdIndex e nfunctor2, gdIndex e nfunctor3, gdIndex e nfunctor5] ∨
      r = [gdIndex e nfunctor2, gdIndex e nfunctor4, gdIndex e nfunctor3, gdIndex e nfunctor5] := by
  obtain ⟨cl, ctl, d, o, hcl, hctl, hd, ho, hr⟩ := hr
  have hindex {f : Nfunctor} {v : Int} (hf : IndexOf g f e v) : v = gdIndex e f :=
    ((indexOf_iff h.plan he f v).mp hf).2
  rwa [hindex hcl, hindex hctl, hindex hd, hindex ho] at hr

/-- What is on a route can be completed. -/
theorem Deployed.exists_route (h : Deployed n g placed c) {e : Nat} (he : e < n)
    {l : List Int} {i : Int} (hl : OnRoute e l i) :
    ∃ r, IsRoute g e r ∧ l ++ [i] <+: r ∧ l.length ≤ 3 := by
  cases hl with
  | classifier =>
    exact ⟨_, h.isRoute he (.inl rfl), ⟨_, rfl⟩, by decide⟩
  | data => exact ⟨_, h.isRoute he (.inl rfl), ⟨_, rfl⟩, by simp⟩
  | control => exact ⟨_, h.isRoute he (.inr rfl), ⟨_, rfl⟩, by simp⟩
  | back => exact ⟨_, h.isRoute he (.inr rfl), ⟨_, rfl⟩, by simp⟩
  | out => exact ⟨_, h.isRoute he (.inl rfl), ⟨[], rfl⟩, by simp⟩
  | outBack => exact ⟨_, h.isRoute he (.inr rfl), ⟨[], rfl⟩, by simp⟩

private theorem Deployed.complete (h : Deployed n g placed c) {e : Nat} (he : e < n)
    {l : List Int} (hl : c.Complete (gdIndex e nfunctor2) l) : IsRoute g e l := by
  obtain ⟨l', i, rfl, ht, hlast⟩ := hl
  obtain ⟨e', hi⟩ := h.last hlast
  have hnot {f : Nfunctor} (hf : f ∈ nfunctorList) (hne : f ≠ nfunctor5) :
      gdIndex e f ≠ gdIndex e' nfunctor5 :=
    fun heq ↦ hne (gdIndex_inj hf (by decide) heq).2
  cases h.trail ht with
  | out => exact h.isRoute he (.inl rfl)
  | outBack => exact h.isRoute he (.inr rfl)
  | classifier => exact absurd hi (hnot (by decide) (by decide))
  | data | back => exact absurd hi (hnot (by decide) (by decide))
  | control => exact absurd hi (hnot (by decide) (by decide))

/-- Packets start at the classifier of the execution that their bucket belongs to. -/
theorem Deployed.first (h : Deployed n g placed c) {a : ActionRuntime} (ha : a ∈ placed)
    {p : Mbuf} (hb : Serves a (bucketOf p)) :
    a.executionId < n ∧ c.firstOf (coreIndex a) p = gdIndex a.executionId nfunctor2 := by
  obtain ⟨memory, create, hi⟩ := h.installed
  obtain ⟨i, hget⟩ := List.mem_iff_getElem?.mp ha
  obtain ⟨e, he, hmem, -, hexec, -, hnext⟩ := h.exists_getElem? hget
  subst hexec
  refine ⟨he, (hi.bucket h.fits.disjoint a ha _ hb).trans ?_⟩
  have haction : a.action = nfunctor1 :=
    (by decide : ∀ f ∈ nfunctorList, f.action.name = "packet_in" → f = nfunctor1) _ hmem hb.packetIn
  have hlast : lastNext gd.nfunctorList nfunctor1 = some nfunctor2 := by decide
  have hname : nfunctor1.action.name = "packet_in" := rfl
  rw [hnext, haction, nextActionOf, if_pos hname, hlast]
  rfl

end Deployed

section Deployed

variable [RteHash H] {n : Nat} {g : NfunctorGraph} {placed : List ActionRuntime} {c : Config H}

/-- The trails of a packet that was received in a bucket of execution `e`. -/
theorem Deployed.onRoute (h : Deployed n g placed c) {a : ActionRuntime} (ha : a ∈ placed)
    {p : Mbuf} (hb : Serves a (bucketOf p)) {N : Net H} (hN : Routed c N)
    (hrec : (coreIndex a, p) ∈ N.hist.received) :
    (∀ m, N.Holds m → m.m = p → OnRoute a.executionId (N.actionsOf p) m.actionId) ∧
      (∀ w, p ∈ (N.pc w).pending → N.actionsOf p = []) ∧
      (p ∈ N.hist.transmitted → IsRoute g a.executionId (N.actionsOf p)) ∧
      (p ∈ N.hist.freed → ∃ i, OnRoute a.executionId (N.actionsOf p) i) := by
  obtain ⟨he, hfirst⟩ := h.first ha hb
  -- a packet is received once, so its trails start at the worker that received it
  have hsame {w : Core} (hw : (w, p) ∈ N.hist.received) : w = coreIndex a := by
    have heq := List.inj_on_of_nodup_map hN.packets.fresh hw hrec rfl
    exact congrArg Prod.fst heq
  have ht := hN.trail p
  refine ⟨fun m hm hmp ↦ ?_, fun w hw ↦ (ht.pending w hw).2, fun hp ↦ ?_, fun hp ↦ ?_⟩
  · obtain ⟨w, hw, htrail⟩ := ht.held m hm hmp
    rw [hsame hw, hfirst] at htrail
    exact h.trail htrail
  · obtain ⟨w, hw, hdone⟩ := ht.transmitted hp
    rw [hsame hw, hfirst] at hdone
    exact h.complete he hdone
  · obtain ⟨w, i, hw, htrail⟩ := ht.freed hp
    rw [hsame hw, hfirst] at htrail
    exact ⟨i, h.trail htrail⟩

/-- What a packet has executed is the beginning of a route. -/
theorem Deployed.begun (h : Deployed n g placed c) {a : ActionRuntime} (ha : a ∈ placed)
    {p : Mbuf} (hb : Serves a (bucketOf p)) {N : Net H} (hN : Routed c N)
    (hrec : (coreIndex a, p) ∈ N.hist.received) :
    ∃ r, IsRoute g a.executionId r ∧ N.actionsOf p <+: r := by
  obtain ⟨he, -⟩ := h.first ha hb
  obtain ⟨hheld, hpend, htrans, hfreed⟩ := h.onRoute ha hb hN hrec
  have hbegin {i : Int} (hi : OnRoute a.executionId (N.actionsOf p) i) :
      ∃ r, IsRoute g a.executionId r ∧ N.actionsOf p <+: r := by
    obtain ⟨r, hr, hpre, -⟩ := h.exists_route he hi
    exact ⟨r, hr, (List.prefix_append _ _).trans hpre⟩
  rcases hN.packets.somewhere (List.mem_map_of_mem hrec) with hp | hp | ⟨w, hp⟩ | ⟨m, hm, hmp⟩
  · exact ⟨_, htrans hp, List.prefix_refl _⟩
  · obtain ⟨i, hi⟩ := hfreed hp
    exact hbegin hi
  · rw [hpend w hp]
    exact ⟨_, h.isRoute he (.inl rfl), List.nil_prefix⟩
  · exact hbegin (hheld m hm hmp)

/-- The indices on a route belong to entries of its execution. -/
theorem Deployed.mem_route (h : Deployed n g placed c) {e : Nat} (he : e < n)
    {r : List Int} (hr : IsRoute g e r) {i : Int} (hi : i ∈ r) :
    ∃ f ∈ nfunctorList, f ≠ nfunctor1 ∧ i = gdIndex e f := by
  rcases h.eq_of_isRoute he hr with rfl | rfl
  · simp only [List.mem_cons, List.not_mem_nil, or_false] at hi
    rcases hi with rfl | rfl | rfl
    · exact ⟨nfunctor2, by decide, by decide, rfl⟩
    · exact ⟨nfunctor3, by decide, by decide, rfl⟩
    · exact ⟨nfunctor5, by decide, by decide, rfl⟩
  · simp only [List.mem_cons, List.not_mem_nil, or_false] at hi
    rcases hi with rfl | rfl | rfl | rfl
    · exact ⟨nfunctor2, by decide, by decide, rfl⟩
    · exact ⟨nfunctor4, by decide, by decide, rfl⟩
    · exact ⟨nfunctor3, by decide, by decide, rfl⟩
    · exact ⟨nfunctor5, by decide, by decide, rfl⟩

/-- The entries on routes can be selected. -/
private theorem Deployed.runs (h : Deployed n g placed c) {i : Fin ACTION_TABLE_SIZE}
    {a : ActionRuntime} (ha : placed[i.val]? = some a) (hne : a.action ≠ nfunctor1) :
    (c.actionTable i).Runs := by
  have hfun := h.action i
  rw [ha, Option.bind_some] at hfun
  obtain ⟨memory, create, hi⟩ := h.installed
  obtain ⟨e, he, hmem, -, -, hid, -⟩ := h.exists_getElem? ha
  have hst := congrArg (·.2.1) (hi.entry i)
  change (c.actionTable i).state = _ at hst
  rw [ha, Option.bind_some, entryWritten] at hst
  have hlt {k : Nat} (hk : k < 2) : e * 2 + k < STATE_NUM := by
    have hnum := h.fits.numStates
    have hlen : (stateList gd.nfunctorList).length = 2 := by decide
    rw [states_nfunctorGraph h.plan, length_grid, hlen] at hnum
    exact Nat.lt_of_lt_of_le (pos_lt he hk) hnum
  have href (k : Nat) (hk : k < 2) :
      ∃ s, stateRefOf ((e * 2 + k : Nat) : Int) = .state s := by
    refine ⟨⟨_, hlt hk⟩, ?_⟩
    unfold stateRefOf
    rw [idx?_natCast _ (hlt hk)]
  rw [hid] at hst
  generalize a.action = f at *
  simp only [nfunctorList, List.mem_cons, List.not_mem_nil, or_false] at hmem
  rcases hmem with rfl | rfl | rfl | rfl | rfl
  · exact absurd rfl hne
  · obtain ⟨s, hs⟩ := href 0 (by decide)
    exact .inr ⟨_, s, hfun, hst.trans hs⟩
  · obtain ⟨s, hs⟩ := href 0 (by decide)
    exact .inr ⟨_, s, hfun, hst.trans hs⟩
  · obtain ⟨s, hs⟩ := href 1 (by decide)
    exact .inr ⟨_, s, hfun, hst.trans hs⟩
  · exact .inl ⟨coreIndex a, hfun, hst⟩

/-- The entry of an action on a route. -/
theorem Deployed.routeEntry (h : Deployed n g placed c) {e : Nat} (he : e < n)
    {f : Nfunctor} (hf : f ∈ nfunctorList) (hne : f ≠ nfunctor1) :
    ∃ (j : Nat) (a : ActionRuntime) (en : ActionTableEntry H), gdIndex e f = (j : Int) ∧
      placed[j]? = some a ∧ a.action = f ∧ a.executionId = e ∧ c.entry (j : Int) = some en ∧
      en.action = functionOf a.action.action.name ∧ en.coreId = a.coreId ∧ en.Runs := by
  obtain ⟨a, ha, hplanned⟩ := h.getElem? he hf
  have hj := h.index_lt he hf
  have haction : a.action = f := congrArg (·.1) hplanned
  refine ⟨_, a, c.actionTable ⟨_, hj⟩, gdIndex_eq e f, ha, haction, congrArg (·.2.1) hplanned, ?_,
    ?_, ?_, ?_⟩
  · rw [Config.entry, idx?_natCast _ hj, Option.map_some]
  · rw [h.action, ha, Option.bind_some]
  · exact h.coreId ha (by rw [haction]; exact hne)
  · exact h.runs ha (by rw [haction]; exact hne)

/-- The entry of an action that has a state, and the slots of the state. -/
theorem Deployed.stateEntry (h : Deployed n g placed c) {e : Nat} (he : e < n) {f : Nfunctor}
    (hf : f ∈ nfunctorList) {x : Director.State} (hx : f.state = some x) :
    ∃ (a : ActionRuntime) (en : ActionTableEntry H) (s : Fin STATE_NUM), a ∈ placed ∧
      a.action = f ∧ a.executionId = e ∧ c.entry (gdIndex e f) = some en ∧
      en.action = functionOf f.action.name ∧ en.coreId = a.coreId ∧ en.state = .state s ∧
      s.val = gdStateIndex e x ∧ ∀ p f', lastJoined gd.nfunctorList n e x p = some f' →
        (c.states s).simplePath p = gdIndex e f' := by
  have hstates : ∀ f ∈ nfunctorList, ∀ x, f.state = some x → x ∈ stateList gd.nfunctorList ∧
      f ≠ nfunctor1 ∧ functionOf (H := H) f.action.name ≠ some .transmitPacket := by
    intro f hf x hx
    simp only [nfunctorList, List.mem_cons, List.not_mem_nil, or_false] at hf
    rcases hf with rfl | rfl | rfl | rfl | rfl
    · cases hx
    · exact ⟨Option.some.inj hx ▸ by decide, by decide, fun hfun ↦ by cases hfun⟩
    · exact ⟨Option.some.inj hx ▸ by decide, by decide, fun hfun ↦ by cases hfun⟩
    · exact ⟨Option.some.inj hx ▸ by decide, by decide, fun hfun ↦ by cases hfun⟩
    · cases hx
  obtain ⟨hxm, hne, hfun⟩ := hstates f hf x hx
  obtain ⟨j, a, en, hj, hget, rfl, rfl, hen, hact, hcore, hruns⟩ := h.routeEntry he hf hne
  obtain ⟨i, hi, rfl⟩ := Option.map_eq_some_iff.mp hen
  have hij : (i.val : Int) = j := (idx?_eq_some_iff.mp hi).symm
  have hgeti : placed[i.val]? = some a := by
    rw [Int.ofNat_inj.mp hij]
    exact hget
  rcases hruns with ⟨u, ht, -⟩ | ⟨F, s, -, hs⟩
  · exact absurd (hact.symm.trans ht) hfun
  · have hval := h.state hgeti hx hs
    exact ⟨a, _, s, List.mem_of_getElem? hget, rfl, rfl, hj ▸ hen, hact, hcore, hs, hval,
      fun p f' hp ↦ h.slot he hxm hp hval⟩

end Deployed

/-! ### What an execution runs -/

/-- The routes of an execution whose entries `index` finds by the names of their actions. -/
def routesOf (index : String → Int) : List (List Int) :=
  [[index "gd_classifier", index "gd_data", index "packet_out"],
    [index "gd_classifier", index "gd_control", index "gd_data", index "packet_out"]]

/-- The entries of an execution run the functions of their own names, the classifier sends packets
to the data and to the control action, and every packet takes a route from the classifier to
`packet_out`. -/
structure RunsGd [RteHash H] (c : Config H) (index : String → Int) : Prop where
  functions : ∀ name ∈ ["gd_classifier", "gd_control", "gd_data", "packet_out"],
    ∃ e, c.entry (index name) = some e ∧ e.action = functionOf name
  decisions : c.Next (index "gd_classifier") (index "gd_data") ∧
    c.Next (index "gd_classifier") (index "gd_control")
  trails : ∀ l i, c.Trail (index "gd_classifier") l i → ∃ r ∈ routesOf index, l ++ [i] <+: r
  complete : ∀ l, c.Complete (index "gd_classifier") l → l ∈ routesOf index

/-- The entry of an action in execution `e` of the plan, by its name. -/
def graphEntry (e : Nat) (name : String) : Int :=
  ((e * 5 + nfunctorList.findIdx (fun f ↦ f.action.name = name) : Nat) : Int)

section Deployed

variable [RteHash H] {n : Nat} {g : NfunctorGraph} {placed : List ActionRuntime} {c : Config H}

private theorem graphEntry_eq (e : Nat) {f : Nfunctor} (hf : f ∈ nfunctorList) :
    graphEntry e f.action.name = gdIndex e f := by
  have hidx : ∀ f ∈ nfunctorList,
      nfunctorList.findIdx (fun f' ↦ f'.action.name = f.action.name) = nfunctorList.idxOf f := by
    decide
  rw [graphEntry, gdIndex_eq, hidx f hf]

/-- The classifier's state decides between the data and the control action. -/
private theorem Deployed.decisions (h : Deployed n g placed c) {e : Nat} (he : e < n) :
    c.Next (gdIndex e nfunctor2) (gdIndex e nfunctor3) ∧
      c.Next (gdIndex e nfunctor2) (gdIndex e nfunctor4) := by
  obtain ⟨a, en, s, -, -, -, hen, hact, -, hs, -, hslot⟩ :=
    h.stateEntry he (f := nfunctor2) (by decide) (x := gdDataState) rfl
  obtain ⟨h0, h1, -⟩ := lastJoined_data n e
  obtain ⟨⟨σ, st, hσ, hok⟩, σ', st', hσ', hok'⟩ :=
    exists_genericDecomposedClassifier (c.states s) ⟨0, 0, 0, 0, ⟨0, 0⟩, 0⟩
  rw [hslot 0 nfunctor3 h0] at hok
  rw [hslot 1 nfunctor4 h1] at hok'
  exact ⟨⟨_, _, s, σ, _, st, hen, hact, hs, hσ, hok⟩, _, _, s, σ', _, st', hen, hact, hs, hσ', hok'⟩

/-- Every execution of the plan runs the network function. -/
theorem Deployed.runsGd (h : Deployed n g placed c) {e : Nat} (he : e < n) :
    RunsGd c (graphEntry e) := by
  have hclassifier : graphEntry e "gd_classifier" = gdIndex e nfunctor2 :=
    graphEntry_eq e (f := nfunctor2) (by decide)
  have hdata : graphEntry e "gd_data" = gdIndex e nfunctor3 :=
    graphEntry_eq e (f := nfunctor3) (by decide)
  have hcontrol : graphEntry e "gd_control" = gdIndex e nfunctor4 :=
    graphEntry_eq e (f := nfunctor4) (by decide)
  have hout : graphEntry e "packet_out" = gdIndex e nfunctor5 :=
    graphEntry_eq e (f := nfunctor5) (by decide)
  have hroutes : routesOf (graphEntry e) =
      [[gdIndex e nfunctor2, gdIndex e nfunctor3, gdIndex e nfunctor5],
        [gdIndex e nfunctor2, gdIndex e nfunctor4, gdIndex e nfunctor3, gdIndex e nfunctor5]] := by
    rw [routesOf, hclassifier, hdata, hcontrol, hout]
  refine ⟨fun name hname ↦ ?_, ?_, fun l i ht ↦ ?_, fun l hl ↦ ?_⟩
  · have hf : ∃ f ∈ nfunctorList, f ≠ nfunctor1 ∧ f.action.name = name :=
      (by decide : ∀ name ∈ ["gd_classifier", "gd_control", "gd_data", "packet_out"],
        ∃ f ∈ nfunctorList, f ≠ nfunctor1 ∧ f.action.name = name) name hname
    obtain ⟨f, hf, hne, rfl⟩ := hf
    obtain ⟨j, a, en, hj, -, haction, -, hen, hact, -⟩ := h.routeEntry he hf hne
    rw [haction] at hact
    exact ⟨en, by rw [graphEntry_eq e hf, hj, hen], hact⟩
  · rw [hclassifier, hdata, hcontrol]
    exact h.decisions he
  · rw [hclassifier] at ht
    rw [hroutes]
    cases h.trail ht with
    | classifier => exact ⟨_, List.mem_cons_self, ⟨_, rfl⟩⟩
    | data => exact ⟨_, List.mem_cons_self, ⟨_, rfl⟩⟩
    | control => exact ⟨_, List.mem_cons_of_mem _ List.mem_cons_self, ⟨_, rfl⟩⟩
    | back => exact ⟨_, List.mem_cons_of_mem _ List.mem_cons_self, ⟨_, rfl⟩⟩
    | out => exact ⟨_, List.mem_cons_self, ⟨[], rfl⟩⟩
    | outBack => exact ⟨_, List.mem_cons_of_mem _ List.mem_cons_self, ⟨[], rfl⟩⟩
  · rw [hclassifier] at hl
    rw [hroutes]
    rcases h.eq_of_isRoute he (h.complete he hl) with rfl | rfl
    · exact List.mem_cons_self
    · exact List.mem_cons_of_mem _ List.mem_cons_self

end Deployed

/-- The planning and the deployment of the generic decomposed network function succeed for every
number of executions whose tables fit the runtime, every split of the cores and every control
frequency. -/
private theorem exists_deployed [RteHash H] (memory : Config H) (create : Fin STATE_NUM → H)
    {scalingN : Nat} (hn : 0 < scalingN) (hs : 2 * scalingN ≤ STATE_NUM)
    (ha : 5 * scalingN ≤ ACTION_TABLE_SIZE) {numExecutionCore : Int} (h1 : 1 ≤ numExecutionCore)
    (h2 : numExecutionCore ≤ 23) {controlFrequency : Int} (hf : IsInt controlFrequency) :
    ∃ g placed c, nfunctorGraph gd scalingN = some g ∧
      place numExecutionCore g.actions = some placed ∧
      sendCommands (configInit memory create)
        (deploymentCommands (deploymentParameter.set "control_frequency" controlFrequency)
          g.states placed) = .ok c ∧ Deployed scalingN g placed c := by
  obtain ⟨g, hg⟩ : ∃ g, nfunctorGraph gd scalingN = some g :=
    (exists_nfunctorGraph_iff hn).mpr (by decide)
  obtain ⟨placed, hp⟩ := exists_place h1 h2 g.actions
  have hfits : Fits g.states g.actions := by
    apply fits_nfunctorGraph hg (by decide)
    · rw [stateList_gd, Nat.mul_comm]
      exact hs
    · rw [distinct_gd, Nat.mul_comm]
      exact ha
    · decide
  obtain ⟨c, hc, hi⟩ := sendCommands_deployment (hfits.place hp).toDeployable (core_of_place hp)
    (isInt_set isInt_deploymentParameter hf "control_frequency") (configInit memory create)
  exact ⟨g, placed, c, hg, hp, hc,
    ⟨hg, place_unplaced hp, core_of_place hp, hfits.place hp, memory, create, hi⟩⟩

/-- After the planning and the deployment, every execution runs the network function. -/
theorem graph_runsGd [RteHash H] (memory : Config H) (create : Fin STATE_NUM → H)
    {scalingN : Nat} (hn : 0 < scalingN) (hs : 2 * scalingN ≤ STATE_NUM)
    (ha : 5 * scalingN ≤ ACTION_TABLE_SIZE) {numExecutionCore : Int} (h1 : 1 ≤ numExecutionCore)
    (h2 : numExecutionCore ≤ 23) {controlFrequency : Int} (hf : IsInt controlFrequency) :
    ∃ g placed c, nfunctorGraph gd scalingN = some g ∧
      place numExecutionCore g.actions = some placed ∧
      sendCommands (configInit memory create)
        (deploymentCommands (deploymentParameter.set "control_frequency" controlFrequency)
          g.states placed) = .ok c ∧ ∀ e, e < scalingN → RunsGd c (graphEntry e) := by
  obtain ⟨g, placed, c, hg, hp, hc, hd⟩ := exists_deployed memory create hn hs ha h1 h2 hf
  exact ⟨g, placed, c, hg, hp, hc, fun e he ↦ hd.runsGd he⟩

end Nflambda.Deploy
