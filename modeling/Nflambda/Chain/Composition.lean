import Nflambda.Base.Intern
import Nflambda.Base.Loops
import Nflambda.Chain.NfModel

/-!
# Composition of network functions

Library `Chain`. Source `src/director/em/nf_model.py`: `Sfc` makes an instance of every network
function of a list, and connects the last actions of each one with the first actions of the next.
-/

namespace Nflambda.Chain

open Nflambda.Base

/-- The body of the loop over the actions of a network function, `nf_model.py:284–297`. -/
def addActionInstance (o : Objects) (nf : Nf) (nfId base : Nat) (previous : List Nat)
    (lastAction : Bool) (r : List ActionInstance × List Nat) (action : Nat) :
    Option (List ActionInstance × List Nat) := do
  let a ← o.actions[action]?
  if previous ≠ [] ∧ a.isPacketIn then return r
  else if lastAction = false ∧ a.isPacketOut then return r
  else if action ∈ nf.firstActions then return (r.1, r.2 ++ [base + nf.firstActions.idxOf action])
  else return (r.1 ++ [⟨action, nfId, none, []⟩], r.2 ++ [r.1.length])

/-- What the constructor of `Sfc` has built: all instances that were created, the lists of those of
the chain, and the last actions of the network function that was added last. -/
structure Building where
  instances : List ActionInstance
  actionInstanceList : List Nat
  stateInstanceList : List StateInstance
  lastActionInstances : List Nat
  deriving DecidableEq, Repr

/-- `get_packet_out_previous_actions`, `nf_model.py:326–332`. -/
def packetOutPreviousActions (nf : Nf) (instances : List ActionInstance) (list : List Nat) :
    Option (List Nat) :=
  list.filterM fun i ↦ do
    let a ← instances[i]?
    return a.action ∈ nf.lastActionsBeforePacketOut

/-- `Nf_instance(nf, nf_id, previous_actions, last_actions)`, `nf_model.py:271–318`, where `n` is
the number of network functions of the chain. -/
def Building.addNfInstance (o : Objects) (n : Nat) (b : Building) (p : Nat × Nat) :
    Option Building := do
  let nf ← o.nfs[p.1]?
  let first := nf.firstActions.map fun action ↦ ⟨action, p.2, none, b.lastActionInstances⟩
  let (instances, list) ← nf.actionList.foldlM
    (addActionInstance o nf p.2 b.instances.length b.lastActionInstances (p.2 + 1 = n))
    (b.instances ++ first, [])
  let (instances, states) ← nf.stateList.foldlM (addStateInstance o p.2 list)
    (instances, b.stateInstanceList)
  let instances ← connect o list instances
  let last ← packetOutPreviousActions nf instances list
  return ⟨instances, b.actionInstanceList ++ list, states, last⟩

/-- `Sfc(nf_list)`, `nf_model.py:192–231`. -/
def Sfc.new (o : Objects) (nfs : List Nat) : Option Sfc := do
  let b ← nfs.zipIdx.foldlM (Building.addNfInstance o nfs.length) ⟨[], [], [], []⟩
  return ⟨o, b.instances, b.actionInstanceList, b.stateInstanceList⟩

/-! ### Objects -/

/-- The objects that exist after constructors have been called and dependencies have been added to
actions, `nf_registry.py:14–71`. -/
inductive Objects.Created : Objects → Prop
  | empty : Objects.Created ⟨[], [], []⟩
  | state {o : Objects} (s : State) (h : o.Created) :
      Objects.Created { o with states := o.states ++ [s] }
  | action {o : Objects} (a : Action) (h : o.Created) (hnf : a.nf = none)
      (hstate : ∀ s ∈ a.state, s < o.states.length)
      (hdeps : ∀ i ∈ a.dependenciesActionList, i < o.actions.length) :
      Objects.Created { o with actions := o.actions ++ [a] }
  | dependencies {o : Objects} (i : Nat) (deps : List Nat) (h : o.Created)
      (hdeps : ∀ j ∈ deps, j < o.actions.length) :
      Objects.Created { o with actions := o.actions.modify i fun a ↦
        { a with dependenciesActionList := a.dependenciesActionList ++ deps } }
  | nf {o o' : Objects} (name : String) (actionList : List Nat) (paths : List (String × String))
      (k : Nat) (h : o.Created) (hnf : o.newNf name actionList paths = some (o', k)) :
      Objects.Created o'

/-- The lists of a network function are those of actions that exist. -/
structure Nf.Built (o : Objects) (nf : Nf) : Prop where
  action_mem : ∀ i ∈ nf.actionList, ∃ a, o.actions[i]? = some a
  first_mem : ∀ i ∈ nf.firstActions, i ∈ nf.actionList
  last_mem : ∀ i ∈ nf.lastActionsBeforePacketOut, i ∈ nf.actionList
  nodup_states : nf.stateList.Nodup
  state_mem_iff : ∀ s, s ∈ nf.stateList ↔
    ∃ i ∈ nf.actionList, ∃ a, o.actions[i]? = some a ∧ a.state = some s

/-- Actions keep their names and states. -/
def Objects.Keeps (o o' : Objects) : Prop :=
  ∀ (i : Nat) (a : Action), o.actions[i]? = some a →
    ∃ a', o'.actions[i]? = some a' ∧ a'.name = a.name ∧ a'.state = a.state

private theorem Nf.Built.mono {o o' : Objects} {nf : Nf} (h : nf.Built o) (hk : o.Keeps o') :
    nf.Built o' where
  action_mem i hi := by
    obtain ⟨a, ha⟩ := h.action_mem i hi
    obtain ⟨a', ha', -⟩ := hk i a ha
    exact ⟨a', ha'⟩
  first_mem := h.first_mem
  last_mem := h.last_mem
  nodup_states := h.nodup_states
  state_mem_iff s := by
    rw [h.state_mem_iff]
    constructor
    · rintro ⟨i, hi, a, ha, hs⟩
      obtain ⟨a', ha', -, hs'⟩ := hk i a ha
      exact ⟨i, hi, a', ha', hs'.trans hs⟩
    · rintro ⟨i, hi, a', ha', hs⟩
      obtain ⟨a, ha⟩ := h.action_mem i hi
      obtain ⟨a'', ha'', -, hs'⟩ := hk i a ha
      rw [ha', Option.some.injEq] at ha''
      subst ha''
      exact ⟨i, hi, a, ha, hs'.symm.trans hs⟩

/-- Collecting references erases the repeated ones. -/
theorem collect_eq (refs : List Nat) : collect refs = refs.eraseDups := by
  induction refs using List.reverseRecOn with
  | nil => rfl
  | append_singleton refs r ih =>
    rw [eraseDups_snoc, ← ih, collect, List.foldl_append]
    rfl

/-- A reference is collected exactly if it occurs. -/
@[simp] theorem mem_collect_iff {refs : List Nat} {r : Nat} : r ∈ collect refs ↔ r ∈ refs := by
  rw [collect_eq, List.mem_eraseDups]

private theorem nodup_collect (refs : List Nat) : (collect refs).Nodup := by
  rw [collect_eq]
  exact nodup_eraseDups refs

/-- What the constructor of a network function collects: the actions that depend on an action
called `packet_in`, those that an action called `packet_out` depends on, and the states. -/
theorem Objects.newNf_eq_some {o o' : Objects} {name : String} {actionList : List Nat}
    {paths : List (String × String)} {k : Nat}
    (h : o.newNf name actionList paths = some (o', k)) :
    ∃ nf : Nf, nf.Built o ∧ nf.actionList = actionList ∧
      (∀ i, i ∈ nf.firstActions ↔ i ∈ actionList ∧ ∃ a, o.actions[i]? = some a ∧
        ∃ d ∈ a.dependenciesActionList, ∃ p, o.actions[d]? = some p ∧ p.isPacketIn = true) ∧
      (∀ i, i ∈ nf.lastActionsBeforePacketOut ↔ i ∈ actionList ∧ ∃ j ∈ actionList, ∃ out,
        o.actions[j]? = some out ∧ out.isPacketOut = true ∧ i ∈ out.dependenciesActionList) ∧
      o' = { o with
        actions := o.actions.mapIdx fun i a ↦
          if i ∈ actionList then { a with nf := some o.nfs.length } else a
        nfs := o.nfs ++ [nf] } ∧ k = o.nfs.length := by
  unfold Objects.newNf at h
  obtain ⟨members, hmembers, hbody⟩ := Option.bind_eq_some_iff.mp h
  have hmem : ∀ {a}, a ∈ members ↔ ∃ i ∈ actionList, o.actions[i]? = some a := mem_of_mapM hmembers
  have hzip : ∀ {i a}, (i, a) ∈ actionList.zip members ↔
      i ∈ actionList ∧ o.actions[i]? = some a := by
    intro i a
    constructor
    · intro hia
      obtain ⟨n, hn⟩ := List.getElem?_of_mem hia
      rw [List.getElem?_zip_eq_some] at hn
      have heq := congrArg (·[n]?) (mapM_eq_some_iff.mp hmembers)
      simp only [List.getElem?_map, hn.1, hn.2, Option.map_some, Option.some.injEq] at heq
      exact ⟨List.mem_of_getElem? hn.1, heq⟩
    · rintro ⟨hi, hget⟩
      obtain ⟨n, hn, rfl⟩ := List.mem_iff_getElem.mp hi
      have heq := congrArg (·[n]?) (mapM_eq_some_iff.mp hmembers)
      simp only [List.getElem?_map, List.getElem?_eq_getElem hn, Option.map_some, hget] at heq
      obtain ⟨b, hb, hab⟩ := Option.map_eq_some_iff.mp heq.symm
      cases hab
      exact List.mem_of_getElem? (List.getElem?_zip_eq_some.mpr
        ⟨List.getElem?_eq_getElem hn, hb⟩)
  obtain ⟨first, hfirst, hrest⟩ := Option.bind_eq_some_iff.mp hbody
  cases hrest
  refine ⟨⟨paths, name, actionList, first.map Prod.fst, _, _⟩, ⟨?_, ?_, ?_, nodup_collect _, ?_⟩,
    rfl, ?_, ?_, rfl, rfl⟩
  · intro i hi
    have hsome : o.actions[i]? ∈ members.map some :=
      mapM_eq_some_iff.mp hmembers ▸ List.mem_map_of_mem hi
    obtain ⟨a, -, ha⟩ := List.mem_map.mp hsome
    exact ⟨a, ha.symm⟩
  · intro i hi
    obtain ⟨⟨i', a⟩, hia, rfl⟩ := List.mem_map.mp hi
    exact (hzip.mp (((mem_of_filterM hfirst).2 _).mp hia).1).1
  · intro i hi
    obtain ⟨out, -, hi⟩ := List.mem_flatMap.mp hi
    exact (List.mem_filter.mp hi).1
  · intro s
    show s ∈ collect (members.filterMap Action.state) ↔ _
    rw [mem_collect_iff, List.mem_filterMap]
    constructor
    · rintro ⟨a, ha, hs⟩
      obtain ⟨i, hi, hget⟩ := hmem.mp ha
      exact ⟨i, hi, a, hget, hs⟩
    · rintro ⟨i, hi, a, hget, hs⟩
      exact ⟨a, hmem.mpr ⟨i, hi, hget⟩, hs⟩
  · intro i
    have htest : ∀ a, i ∈ actionList → o.actions[i]? = some a → ∃ v, (do
        let dependencies ← a.dependenciesActionList.mapM fun i ↦ o.actions[i]?
        return dependencies.any Action.isPacketIn) = some v ∧ (v = true ↔
          ∃ d ∈ a.dependenciesActionList, ∃ p, o.actions[d]? = some p ∧ p.isPacketIn = true) := by
      intro a hi hget
      obtain ⟨v, hv⟩ := (mem_of_filterM hfirst).1 (i, a) (hzip.mpr ⟨hi, hget⟩)
      refine ⟨v, hv, ?_⟩
      obtain ⟨deps, hdeps, hany⟩ := Option.bind_eq_some_iff.mp hv
      rw [← Option.some.inj hany, List.any_eq_true]
      constructor
      · rintro ⟨p, hp, hin⟩
        obtain ⟨d, hd, hget⟩ := (mem_of_mapM hdeps).mp hp
        exact ⟨d, hd, p, hget, hin⟩
      · rintro ⟨d, hd, p, hget, hin⟩
        exact ⟨p, (mem_of_mapM hdeps).mpr ⟨d, hd, hget⟩, hin⟩
    rw [List.mem_map]
    constructor
    · rintro ⟨⟨i', a⟩, hia, rfl⟩
      obtain ⟨hmemia, htrue⟩ := ((mem_of_filterM hfirst).2 _).mp hia
      obtain ⟨hi, hget⟩ := hzip.mp hmemia
      obtain ⟨v, hv, hiff⟩ := htest a hi hget
      rw [show _ = some true from htrue, Option.some.injEq] at hv
      exact ⟨hi, a, hget, hiff.mp hv.symm⟩
    · rintro ⟨hi, a, hget, hdep⟩
      obtain ⟨v, hv, hiff⟩ := htest a hi hget
      exact ⟨(i, a), ((mem_of_filterM hfirst).2 _).mpr
        ⟨hzip.mpr ⟨hi, hget⟩, hv.trans (by rw [hiff.mpr hdep])⟩, rfl⟩
  · intro i
    simp only [List.mem_flatMap, List.mem_filter, decide_eq_true_eq]
    constructor
    · rintro ⟨out, ⟨hout, hname⟩, hi, hdep⟩
      obtain ⟨j, hj, hget⟩ := hmem.mp hout
      exact ⟨hi, j, hj, out, hget, hname, hdep⟩
    · rintro ⟨hi, j, hj, out, hget, hname, hdep⟩
      exact ⟨out, ⟨hmem.mpr ⟨j, hj, hget⟩, hname⟩, hi, hdep⟩

private theorem Objects.keeps_append (o : Objects) (a : Action) :
    o.Keeps { o with actions := o.actions ++ [a] } := by
  intro i b hb
  refine ⟨b, ?_, rfl, rfl⟩
  show (o.actions ++ [a])[i]? = some b
  rw [List.getElem?_append_left (List.getElem?_eq_some_iff.mp hb).1, hb]

/-- All network functions are made of actions that exist. -/
theorem Objects.Created.built {o : Objects} (h : o.Created) : ∀ nf ∈ o.nfs, nf.Built o := by
  induction h with
  | empty =>
    intro nf hnf
    cases hnf
  | state s _ ih =>
    intro nf hnf
    exact (ih nf hnf).mono fun i a ha ↦ ⟨a, ha, rfl, rfl⟩
  | @action o a _ _ _ _ ih =>
    intro nf hnf
    exact (ih nf hnf).mono (o.keeps_append a)
  | dependencies i deps _ _ ih =>
    intro nf hnf
    refine (ih nf hnf).mono fun j a ha ↦ ?_
    rw [List.getElem?_modify, ha]
    by_cases hij : i = j <;> simp [hij]
  | @nf o o' name actionList paths k _ hnew ih =>
    obtain ⟨nf, hbuilt, -, -, -, rfl, -⟩ := Objects.newNf_eq_some hnew
    have hkeeps : o.Keeps { o with
        actions := o.actions.mapIdx fun i a ↦
          if i ∈ actionList then { a with nf := some o.nfs.length } else a
        nfs := o.nfs ++ [nf] } := by
      intro i a ha
      rw [List.getElem?_mapIdx, ha]
      by_cases hi : i ∈ actionList <;> simp [hi]
    intro nf' hnf'
    rcases List.mem_append.mp hnf' with hold | hnew
    · exact (ih nf' hold).mono hkeeps
    · rw [List.mem_singleton] at hnew
      subst hnew
      exact hbuilt.mono hkeeps

/-- Actions use states that exist. -/
theorem Objects.Created.state_lt {o : Objects} (h : o.Created) :
    ∀ a ∈ o.actions, ∀ s ∈ a.state, s < o.states.length := by
  induction h with
  | empty =>
    intro a ha
    cases ha
  | state s _ ih =>
    intro a ha s hs
    have hlt := ih a ha s hs
    simp only [List.length_append, List.length_singleton]
    omega
  | @action o a _ _ hstate _ ih =>
    intro b hb
    rcases List.mem_append.mp hb with hold | hnew
    · exact ih b hold
    · rw [List.mem_singleton] at hnew
      rwa [hnew]
  | dependencies i deps _ _ ih =>
    intro b hb
    obtain ⟨k, hk⟩ := List.getElem?_of_mem hb
    rw [List.getElem?_modify, Option.map_eq_map, Option.map_eq_some_iff] at hk
    obtain ⟨a, ha, rfl⟩ := hk
    have hold := ih a (List.mem_of_getElem? ha)
    by_cases hik : i = k <;> simpa [hik] using hold
  | @nf o o' name actionList paths k _ hnew ih =>
    obtain ⟨nf, -, -, -, -, rfl, -⟩ := Objects.newNf_eq_some hnew
    intro b hb
    obtain ⟨k, hk, rfl⟩ := List.mem_mapIdx.mp hb
    have hold := ih _ (List.getElem_mem hk)
    by_cases hmem : k ∈ actionList <;> simpa [hmem] using hold

end Nflambda.Chain
