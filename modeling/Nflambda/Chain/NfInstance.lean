import Nflambda.Chain.Composition

/-!
# One network function of a chain

Library `Chain`. What `Nf_instance`, `src/director/em/nf_model.py:271–318`, adds to a chain: the
loops over the actions, over the states and over the pairs of instances.
-/

namespace Nflambda.Chain

open Nflambda.Base

/-- The action is not left out, `nf_model.py:285–290`. -/
def Taken (o : Objects) (previous : List Nat) (lastAction : Bool) (action : Nat) : Prop :=
  ∃ a, o.actions[action]? = some a ∧ ¬ (previous ≠ [] ∧ a.isPacketIn = true) ∧
    ¬ (lastAction = false ∧ a.isPacketOut = true)

/-- The instances of the first actions of a network function, `nf_model.py:280–282`. -/
def firstActionInstances (nf : Nf) (nfId : Nat) (previous : List Nat) : List ActionInstance :=
  nf.firstActions.map fun action ↦ ⟨action, nfId, none, previous⟩

/-- What is known of the instances and of the list after the actions `l`. -/
structure Listed (o : Objects) (nf : Nf) (nfId : Nat) (old : List ActionInstance)
    (previous : List Nat) (lastAction : Bool) (l : List Nat)
    (r : List ActionInstance × List Nat) : Prop where
  heap : ∃ new, r.1 = old ++ (firstActionInstances nf nfId previous ++ new) ∧
    ∀ a ∈ new, a = ⟨a.action, nfId, none, []⟩ ∧ a.action ∉ nf.firstActions
  mem : ∀ i ∈ r.2, old.length ≤ i ∧ ∃ a, r.1[i]? = some a ∧ a.action ∈ l ∧
    Taken o previous lastAction a.action
  complete : ∀ action ∈ l, Taken o previous lastAction action →
    ∃ i ∈ r.2, ∃ a, r.1[i]? = some a ∧ a.action = action
  count_le : ∀ i a, r.1[i]? = some a → r.2.count i ≤
    if a.action ∈ nf.firstActions then l.count a.action else 1

private theorem le_ite_add {P : Prop} [Decidable P] {c m : Nat} (k : Nat)
    (h : c ≤ if P then m else 1) : c ≤ if P then m + k else 1 := by
  by_cases hP : P
  · rw [if_pos hP] at h ⊢
    omega
  · rwa [if_neg hP] at h ⊢

section Listed

variable {o : Objects} {nf : Nf} {nfId : Nat} {old : List ActionInstance} {previous : List Nat}
  {lastAction : Bool} {l : List Nat} {r : List ActionInstance × List Nat}

private theorem listed_nil : Listed o nf nfId old previous lastAction []
    (old ++ firstActionInstances nf nfId previous, []) where
  heap := ⟨[], by rw [List.append_nil], fun a ha ↦ nomatch ha⟩
  mem i hi := nomatch hi
  complete action hi := nomatch hi
  count_le i a _ := Nat.zero_le _

private theorem Listed.first_get (h : Listed o nf nfId old previous lastAction l r) {action : Nat}
    (ha : action ∈ nf.firstActions) :
    r.1[old.length + nf.firstActions.idxOf action]? = some ⟨action, nfId, none, previous⟩ := by
  obtain ⟨new, hr, -⟩ := h.heap
  have hlt : nf.firstActions.idxOf action < (firstActionInstances nf nfId previous).length := by
    rw [firstActionInstances, List.length_map]
    exact List.idxOf_lt_length_of_mem ha
  rw [hr, List.getElem?_append_right (Nat.le_add_right _ _), Nat.add_sub_cancel_left,
    List.getElem?_append_left hlt, firstActionInstances, List.getElem?_map,
    List.getElem?_idxOf ha]
  rfl

private theorem Listed.skip (h : Listed o nf nfId old previous lastAction l r) {action : Nat}
    (hskip : ¬ Taken o previous lastAction action) :
    Listed o nf nfId old previous lastAction (l ++ [action]) r where
  heap := h.heap
  mem i hi := by
    obtain ⟨hle, a, ha, hmem, htaken⟩ := h.mem i hi
    exact ⟨hle, a, ha, List.mem_append_left _ hmem, htaken⟩
  complete b hb htaken := by
    rcases List.mem_append.mp hb with hold | hnew
    · exact h.complete b hold htaken
    · rw [List.mem_singleton.mp hnew] at htaken
      exact absurd htaken hskip
  count_le i a ha := by
    rw [List.count_append]
    exact le_ite_add _ (h.count_le i a ha)

private theorem Listed.addFirst (h : Listed o nf nfId old previous lastAction l r) {action : Nat}
    (htaken : Taken o previous lastAction action) (hfirst : action ∈ nf.firstActions) :
    Listed o nf nfId old previous lastAction (l ++ [action])
      (r.1, r.2 ++ [old.length + nf.firstActions.idxOf action]) where
  heap := h.heap
  mem i hi := by
    rcases List.mem_append.mp hi with hold | hnew
    · obtain ⟨hle, a, ha, hmem, ht⟩ := h.mem i hold
      exact ⟨hle, a, ha, List.mem_append_left _ hmem, ht⟩
    · rw [List.mem_singleton.mp hnew]
      exact ⟨Nat.le_add_right _ _, _, h.first_get hfirst, by simp, htaken⟩
  complete b hb ht := by
    rcases List.mem_append.mp hb with hold | hnew
    · obtain ⟨i, hi, a, ha, hab⟩ := h.complete b hold ht
      exact ⟨i, List.mem_append_left _ hi, a, ha, hab⟩
    · rw [List.mem_singleton.mp hnew]
      exact ⟨_, List.mem_append_right _ (List.mem_singleton_self _), _, h.first_get hfirst, rfl⟩
  count_le i a ha := by
    have hle := h.count_le i a ha
    rw [List.count_append, List.count_append]
    by_cases hi : i = old.length + nf.firstActions.idxOf action
    · subst hi
      have haction : a.action = action := by
        have hget := h.first_get hfirst
        rw [ha, Option.some.injEq] at hget
        rw [hget]
      rw [haction, if_pos hfirst] at hle ⊢
      simp only [List.count_singleton_self]
      omega
    · rw [List.count_eq_zero_of_not_mem (l := [_]) (by simpa using hi)]
      exact le_ite_add _ hle

private theorem Listed.addOther (h : Listed o nf nfId old previous lastAction l r) {action : Nat}
    (htaken : Taken o previous lastAction action) (hfirst : action ∉ nf.firstActions) :
    Listed o nf nfId old previous lastAction (l ++ [action])
      (r.1 ++ [⟨action, nfId, none, []⟩], r.2 ++ [r.1.length]) where
  heap := by
    obtain ⟨new, hr, hnew⟩ := h.heap
    refine ⟨new ++ [⟨action, nfId, none, []⟩], ?_, ?_⟩
    · rw [hr, List.append_assoc, List.append_assoc]
    · intro a ha
      rcases List.mem_append.mp ha with hold | hone
      · exact hnew a hold
      · rw [List.mem_singleton.mp hone]
        exact ⟨rfl, hfirst⟩
  mem i hi := by
    rcases List.mem_append.mp hi with hold | hnew
    · obtain ⟨hle, a, ha, hmem, ht⟩ := h.mem i hold
      refine ⟨hle, a, ?_, List.mem_append_left _ hmem, ht⟩
      rw [List.getElem?_append_left (List.getElem?_eq_some_iff.mp ha).1, ha]
    · rw [List.mem_singleton.mp hnew]
      refine ⟨?_, ⟨action, nfId, none, []⟩, ?_, by simp, htaken⟩
      · obtain ⟨new, hr, -⟩ := h.heap
        rw [hr, List.length_append]
        exact Nat.le_add_right _ _
      · rw [List.getElem?_append_right (Nat.le_refl _), Nat.sub_self]
        rfl
  complete b hb ht := by
    rcases List.mem_append.mp hb with hold | hnew
    · obtain ⟨i, hi, a, ha, hab⟩ := h.complete b hold ht
      refine ⟨i, List.mem_append_left _ hi, a, ?_, hab⟩
      rw [List.getElem?_append_left (List.getElem?_eq_some_iff.mp ha).1, ha]
    · rw [List.mem_singleton.mp hnew]
      refine ⟨_, List.mem_append_right _ (List.mem_singleton_self _),
        ⟨action, nfId, none, []⟩, ?_, rfl⟩
      rw [List.getElem?_append_right (Nat.le_refl _), Nat.sub_self]
      rfl
  count_le i a ha := by
    rw [List.count_append, List.count_append]
    by_cases hi : i = r.1.length
    · subst hi
      rw [List.getElem?_append_right (Nat.le_refl _), Nat.sub_self] at ha
      cases ha
      have hfresh : r.1.length ∉ r.2 := by
        intro hmem
        obtain ⟨-, b, hb, -⟩ := h.mem _ hmem
        exact absurd (List.getElem?_eq_some_iff.mp hb).1 (Nat.lt_irrefl _)
      rw [List.count_eq_zero_of_not_mem hfresh, if_neg hfirst]
      simp
    · have hlt : i < r.1.length := by
        have hlt := (List.getElem?_eq_some_iff.mp ha).1
        rw [List.length_append, List.length_singleton] at hlt
        omega
      rw [List.getElem?_append_left hlt] at ha
      rw [List.count_eq_zero_of_not_mem (l := [_]) (by simpa using hi)]
      exact le_ite_add _ (h.count_le i a ha)

end Listed

/-- The loop over the actions has a result, and lists an instance of every action that is not left
out. -/
theorem exists_addActionInstances {o : Objects} {nf : Nf} (hnf : nf.Built o) (nfId : Nat)
    (old : List ActionInstance) (previous : List Nat) (lastAction : Bool) :
    ∃ r, nf.actionList.foldlM (addActionInstance o nf nfId old.length previous lastAction)
        (old ++ firstActionInstances nf nfId previous, []) = some r ∧
      Listed o nf nfId old previous lastAction nf.actionList r := by
  refine exists_foldlM_eq_some listed_nil fun l action r hpre h ↦ ?_
  have hmem : action ∈ nf.actionList := hpre.subset (by simp)
  obtain ⟨a, ha⟩ := hnf.action_mem action hmem
  unfold addActionInstance
  rw [ha]
  show ∃ r', (if previous ≠ [] ∧ a.isPacketIn = true then _ else _) = some r' ∧ _
  by_cases hin : previous ≠ [] ∧ a.isPacketIn = true
  · rw [if_pos hin]
    refine ⟨r, rfl, h.skip fun ht ↦ ?_⟩
    obtain ⟨a', ha', hnot, -⟩ := ht
    rw [ha, Option.some.injEq] at ha'
    subst ha'
    exact hnot hin
  · rw [if_neg hin]
    by_cases hout : lastAction = false ∧ a.isPacketOut = true
    · rw [if_pos hout]
      refine ⟨r, rfl, h.skip fun ht ↦ ?_⟩
      obtain ⟨a', ha', -, hnot⟩ := ht
      rw [ha, Option.some.injEq] at ha'
      subst ha'
      exact hnot hout
    · rw [if_neg hout]
      have htaken : Taken o previous lastAction action := ⟨a, ha, hin, hout⟩
      by_cases hfirst : action ∈ nf.firstActions
      · rw [if_pos hfirst]
        exact ⟨_, rfl, h.addFirst htaken hfirst⟩
      · rw [if_neg hfirst]
        exact ⟨_, rfl, h.addOther htaken hfirst⟩

/-! ### The states -/

/-- The state that the action of an instance uses. -/
def stateOf (o : Objects) (a : ActionInstance) : Option Nat :=
  (o.actions[a.action]?).bind Action.state

/-- The instances of a list whose actions use a state. -/
def usersOf (o : Objects) (instances : List ActionInstance) (list : List Nat) (s : Nat) :
    List Nat :=
  list.filter fun i ↦ (instances[i]?).bind (stateOf o) = some s

/-- The instance with index `i` after the states `l`, whose instances start at index `base`. -/
def bindTo (o : Objects) (list l : List Nat) (base i : Nat) (a : ActionInstance) : ActionInstance :=
  { a with
    stateInstance := if i ∈ list ∧ ∃ s ∈ l, stateOf o a = some s
      then (stateOf o a).map (base + l.idxOf ·)
      else a.stateInstance }

/-- What the instances and the state instances are after the states `l`. -/
structure StatesBound (o : Objects) (nfId : Nat) (list : List Nat)
    (instances : List ActionInstance) (states : List StateInstance) (l : List Nat)
    (r : List ActionInstance × List StateInstance) : Prop where
  heap : ∀ i, r.1[i]? = (instances[i]?).map (bindTo o list l states.length i)
  states : r.2 = states ++ l.map fun s ↦ ⟨s, nfId, collect (usersOf o instances list s)⟩

private theorem StatesBound.snoc {o : Objects} {nfId : Nat} {list : List Nat}
    {instances : List ActionInstance} {states : List StateInstance} {l : List Nat}
    {r : List ActionInstance × List StateInstance}
    (h : StatesBound o nfId list instances states l r) {s : Nat} (hs : s ∉ l) :
    StatesBound o nfId list instances states (l ++ [s])
      (r.1.mapIdx fun i a ↦ if i ∈ usersOf o instances list s
          then { a with stateInstance := some r.2.length } else a,
        r.2 ++ [⟨s, nfId, collect (usersOf o instances list s)⟩]) where
  heap i := by
    dsimp only
    rw [List.getElem?_mapIdx, h.heap i]
    cases ha : instances[i]? with
    | none => rfl
    | some a =>
      simp only [Option.map_some, Option.some.injEq, bindTo]
      have husers : i ∈ usersOf o instances list s ↔ i ∈ list ∧ stateOf o a = some s := by
        simp [usersOf, ha]
      have hlen : r.2.length = states.length + l.length := by
        rw [h.states, List.length_append, List.length_map]
      by_cases hi : i ∈ list
      · cases hstate : stateOf o a with
        | none => simp [husers, hi, hstate]
        | some t =>
          by_cases hts : t = s
          · subst hts
            simp [husers, hi, hstate, hs, hlen, List.idxOf_append]
          · by_cases ht : t ∈ l
            · simp [husers, hi, hstate, hts, ht, List.idxOf_append_of_mem]
            · simp [husers, hi, hstate, hts, ht]
      · simp [husers, hi]
  states := by
    rw [h.states, List.map_append, ← List.append_assoc]
    rfl

/-- The loop over the states has a result, and binds every instance of the list whose action has a
state. -/
theorem exists_addStateInstances {o : Objects} {nf : Nf} (hnf : nf.Built o) (nfId : Nat)
    {list : List Nat} {instances : List ActionInstance} (states : List StateInstance)
    (hlist : ∀ i ∈ list, ∃ a act, instances[i]? = some a ∧ o.actions[a.action]? = some act) :
    ∃ r, nf.stateList.foldlM (addStateInstance o nfId list) (instances, states) = some r ∧
      StatesBound o nfId list instances states nf.stateList r := by
  have hstart : StatesBound o nfId list instances states [] (instances, states) := by
    refine ⟨fun i ↦ ?_, (List.append_nil _).symm⟩
    cases instances[i]? <;> simp [bindTo]
  refine exists_foldlM_eq_some hstart fun l s r hpre h ↦ ?_
  have hs : s ∉ l := by
    have hnodup := hpre.sublist.nodup hnf.nodup_states
    intro hmem
    exact (List.nodup_append.mp hnodup).2.2 s hmem s (List.mem_singleton_self s) rfl
  have husers : list.filterM (m := Option) (fun i ↦ do
      let a ← r.1[i]?
      let action ← o.actions[a.action]?
      return action.state = some s) = some (usersOf o instances list s) := by
    apply filterM_eq_some
    intro i hi
    obtain ⟨a, act, ha, hact⟩ := hlist i hi
    rw [h.heap i, ha]
    show ((o.actions[a.action]?).bind fun action ↦ some (decide (action.state = some s))) = _
    rw [hact, Option.bind_some, Option.bind_some, stateOf, hact, Option.bind_some]
  refine ⟨_, ?_, h.snoc hs⟩
  unfold addStateInstance
  rw [husers]
  rfl

/-! ### The connections -/

/-- The loop over the pairs lets instance `i` depend on instance `j`, `nf_model.py:312–314`. -/
def Declares (o : Objects) (instances : List ActionInstance) (i j : Nat) : Prop :=
  ∃ a b act, instances[i]? = some a ∧ instances[j]? = some b ∧
    o.actions[a.action]? = some act ∧ b.action ∈ act.dependenciesActionList ∧ a.nfId = b.nfId

/-- What the instances are after the pairs `l`. -/
def PairsConnected (o : Objects) (instances : List ActionInstance) (l : List (Nat × Nat))
    (r : List ActionInstance) : Prop :=
  ∀ i a, instances[i]? = some a → ∃ deps, r[i]? = some { a with dependencyList := deps } ∧
    (∀ j, j ∈ deps ↔ j ∈ a.dependencyList ∨ (i, j) ∈ l ∧ Declares o instances i j) ∧
    (a.dependencyList.Nodup → deps.Nodup) ∧ ((∀ j, (i, j) ∉ l) → deps = a.dependencyList)

private theorem PairsConnected.keep {o : Objects} {instances : List ActionInstance}
    {l : List (Nat × Nat)} {r : List ActionInstance} (h : PairsConnected o instances l r)
    {p : Nat × Nat} (hkeep : ∀ b, r[p.1]? = some b → Declares o instances p.1 p.2 →
      p.2 ∈ b.dependencyList) : PairsConnected o instances (l ++ [p]) r := by
  intro i a ha
  obtain ⟨deps, hr, hmem, hnodup, hsame⟩ := h i a ha
  refine ⟨deps, hr, fun j ↦ ?_, hnodup, fun hno ↦ hsame fun j hj ↦
    hno j (List.mem_append_left _ hj)⟩
  rw [hmem, List.mem_append, List.mem_singleton]
  constructor
  · rintro (hold | ⟨hl, hdecl⟩)
    · exact .inl hold
    · exact .inr ⟨.inl hl, hdecl⟩
  · rintro (hold | ⟨hl | rfl, hdecl⟩)
    · exact .inl hold
    · exact .inr ⟨hl, hdecl⟩
    · exact (hmem j).mp (hkeep _ hr hdecl)

private theorem PairsConnected.add {o : Objects} {instances : List ActionInstance}
    {l : List (Nat × Nat)} {r : List ActionInstance} (h : PairsConnected o instances l r)
    {p : Nat × Nat} (hdecl : Declares o instances p.1 p.2)
    (hnew : ∀ b, r[p.1]? = some b → p.2 ∉ b.dependencyList) :
    PairsConnected o instances (l ++ [p])
      (r.modify p.1 fun a ↦ { a with dependencyList := a.dependencyList ++ [p.2] }) := by
  intro i a ha
  obtain ⟨deps, hr, hmem, hnodup, hsame⟩ := h i a ha
  by_cases hi : p.1 = i
  · subst hi
    refine ⟨deps ++ [p.2], by rw [List.getElem?_modify, hr]; simp, fun j ↦ ?_, fun hnd ↦ ?_,
      fun hno ↦ absurd (List.mem_append_right _ (List.mem_singleton_self _)) (hno p.2)⟩
    · rw [List.mem_append, hmem, List.mem_append, List.mem_singleton, List.mem_singleton]
      constructor
      · rintro ((hold | ⟨hl, hd⟩) | rfl)
        · exact .inl hold
        · exact .inr ⟨.inl hl, hd⟩
        · exact .inr ⟨.inr rfl, hdecl⟩
      · rintro (hold | ⟨hl | heq, hd⟩)
        · exact .inl (.inl hold)
        · exact .inl (.inr ⟨hl, hd⟩)
        · exact .inr (congrArg Prod.snd heq)
    · refine List.nodup_append.mpr ⟨hnodup hnd, List.nodup_singleton _, ?_⟩
      rintro x hx y hy rfl
      exact hnew _ hr (List.mem_singleton.mp hy ▸ hx)
  · refine ⟨deps, by rw [List.getElem?_modify, hr]; simp [hi], fun j ↦ ?_, hnodup, fun hno ↦
      hsame fun j hj ↦ hno j (List.mem_append_left _ hj)⟩
    rw [hmem, List.mem_append, List.mem_singleton]
    constructor
    · rintro (hold | ⟨hl, hd⟩)
      · exact .inl hold
      · exact .inr ⟨.inl hl, hd⟩
    · rintro (hold | ⟨hl | rfl, hd⟩)
      · exact .inl hold
      · exact .inr ⟨hl, hd⟩
      · exact absurd rfl hi

/-- The loop over the pairs of instances has a result, and makes each one depend on those whose
actions its own one depends on. -/
theorem exists_connect {o : Objects} {list : List Nat} {instances : List ActionInstance}
    (hlist : ∀ i ∈ list, ∃ a act, instances[i]? = some a ∧ o.actions[a.action]? = some act) :
    ∃ r, connect o list instances = some r ∧
      PairsConnected o instances (list ×ˢ list) r := by
  have hstart : PairsConnected o instances [] instances :=
    fun i a ha ↦ ⟨a.dependencyList, ha, fun j ↦ by simp, fun h ↦ h, fun _ ↦ rfl⟩
  refine exists_foldlM_eq_some hstart fun l p r hpre h ↦ ?_
  obtain ⟨h1, h2⟩ := List.pair_mem_product.mp (hpre.subset (by simp : p ∈ l ++ [p]))
  obtain ⟨a, act, ha, hact⟩ := hlist p.1 h1
  obtain ⟨b, -, hb, -⟩ := hlist p.2 h2
  obtain ⟨deps, hr, hmem, -⟩ := h p.1 a ha
  obtain ⟨deps', hr', -⟩ := h p.2 b hb
  have hiff : Declares o instances p.1 p.2 ↔
      b.action ∈ act.dependenciesActionList ∧ a.nfId = b.nfId := by
    constructor
    · rintro ⟨a', b', act', ha', hb', hact', hdep, hid⟩
      rw [ha, Option.some.injEq] at ha'
      rw [hb, Option.some.injEq] at hb'
      subst ha' hb'
      rw [hact, Option.some.injEq] at hact'
      subst hact'
      exact ⟨hdep, hid⟩
    · rintro ⟨hdep, hid⟩
      exact ⟨a, b, act, ha, hb, hact, hdep, hid⟩
  show ∃ r', (r[p.1]? >>= fun i1 ↦ _) = some r' ∧ _
  rw [hr, hr']
  show ∃ r', (o.actions[a.action]? >>= fun act ↦ _) = some r' ∧ _
  rw [hact]
  show ∃ r', (if b.action ∈ act.dependenciesActionList ∧ a.nfId = b.nfId ∧ p.2 ∉ deps then _
    else _) = some r' ∧ _
  by_cases hif : b.action ∈ act.dependenciesActionList ∧ a.nfId = b.nfId ∧ p.2 ∉ deps
  · rw [if_pos hif]
    refine ⟨_, rfl, h.add (hiff.mpr ⟨hif.1, hif.2.1⟩) fun c hc ↦ ?_⟩
    rw [hr, Option.some.injEq] at hc
    rw [← hc]
    exact hif.2.2
  · rw [if_neg hif]
    refine ⟨_, rfl, h.keep fun c hc hdecl ↦ ?_⟩
    rw [hr, Option.some.injEq] at hc
    rw [← hc]
    by_contra hnot
    obtain ⟨hdep, hid⟩ := hiff.mp hdecl
    exact hif ⟨hdep, hid, hnot⟩

/-! ### All loops -/

/-- What `Nf_instance` adds to a chain: the instances of `list`. -/
structure Added (o : Objects) (nf : Nf) (nfId : Nat) (lastAction : Bool) (b : Building)
    (list : List Nat) (b' : Building) : Prop where
  list_eq : b'.actionInstanceList = b.actionInstanceList ++ list
  old : ∀ i < b.instances.length, b'.instances[i]? = b.instances[i]?
  new : ∀ i ∈ list, b.instances.length ≤ i ∧ ∃ a, b'.instances[i]? = some a ∧ a.nfId = nfId ∧
    a.action ∈ nf.actionList ∧ Taken o b.lastActionInstances lastAction a.action ∧
    a.stateInstance = (stateOf o a).map (b.stateInstanceList.length + nf.stateList.idxOf ·)
  complete : ∀ action ∈ nf.actionList, Taken o b.lastActionInstances lastAction action →
    ∃ i ∈ list, ∃ a, b'.instances[i]? = some a ∧ a.action = action
  depends_iff : ∀ j ∈ list, ∀ a, b'.instances[j]? = some a → ∀ i, i ∈ a.dependencyList ↔
    a.action ∈ nf.firstActions ∧ i ∈ b.lastActionInstances ∨
    i ∈ list ∧ ∃ act c, o.actions[a.action]? = some act ∧ b'.instances[i]? = some c ∧
      c.action ∈ act.dependenciesActionList
  nodup : b.lastActionInstances.Nodup → ∀ j ∈ list, ∀ a, b'.instances[j]? = some a →
    a.dependencyList.Nodup
  states_eq : b'.stateInstanceList = b.stateInstanceList ++
    nf.stateList.map fun s ↦ ⟨s, nfId, collect (usersOf o b'.instances list s)⟩
  last_iff : ∀ i, i ∈ b'.lastActionInstances ↔ i ∈ list ∧ ∃ a, b'.instances[i]? = some a ∧
    a.action ∈ nf.lastActionsBeforePacketOut
  last_nodup : (∀ action ∈ nf.firstActions, action ∈ nf.lastActionsBeforePacketOut →
    nf.actionList.count action ≤ 1) → b'.lastActionInstances.Nodup

/-- The data of an instance that no loop changes. -/
private theorem Listed.form {o : Objects} {nf : Nf} {nfId : Nat} {old : List ActionInstance}
    {previous : List Nat} {lastAction : Bool} {l : List Nat} {r : List ActionInstance × List Nat}
    (h : Listed o nf nfId old previous lastAction l r) {i : Nat} (hi : i ∈ r.2)
    {a : ActionInstance} (ha : r.1[i]? = some a) :
    a.nfId = nfId ∧ a.stateInstance = none ∧
      a.dependencyList = if a.action ∈ nf.firstActions then previous else [] := by
  obtain ⟨new, hr, hnew⟩ := h.heap
  have hle := (h.mem i hi).1
  rw [hr, List.getElem?_append_right hle] at ha
  rcases List.mem_append.mp (List.mem_of_getElem? ha) with hfirst | hother
  · obtain ⟨action, haction, rfl⟩ := List.mem_map.mp hfirst
    exact ⟨rfl, rfl, (if_pos haction).symm⟩
  · obtain ⟨heq, hnot⟩ := hnew a hother
    rw [if_neg hnot, heq]
    exact ⟨rfl, rfl, rfl⟩

/-- The instances of a list that come before `packet_out`. -/
private def lastOf (nf : Nf) (instances : List ActionInstance) (list : List Nat) : List Nat :=
  list.filter fun i ↦ (instances[i]?).any fun a ↦ a.action ∈ nf.lastActionsBeforePacketOut

section

variable {o : Objects} {nf : Nf} {nfId base : Nat} {old : List ActionInstance}
  {previous list : List Nat} {lastAction : Bool} {heap bound instances : List ActionInstance}
  {states states' : List StateInstance}

/-- An instance of the list after the loops over the states and the pairs. -/
private theorem instance_after
    (hA : Listed o nf nfId old previous lastAction nf.actionList (heap, list))
    (hB : StatesBound o nfId list heap states nf.stateList (bound, states'))
    (hC : PairsConnected o bound (list ×ˢ list) instances) {i : Nat} (hi : i ∈ list) :
    ∃ a deps, heap[i]? = some a ∧
      instances[i]? = some { bindTo o list nf.stateList states.length i a with
        dependencyList := deps } ∧
      (∀ j, j ∈ deps ↔ a.action ∈ nf.firstActions ∧ j ∈ previous ∨
        j ∈ list ∧ Declares o bound i j) ∧ (previous.Nodup → deps.Nodup) := by
  obtain ⟨-, a, ha, -⟩ := hA.mem i hi
  have hbound := hB.heap i
  rw [ha] at hbound
  obtain ⟨deps, hget, hmem, hnd, -⟩ := hC i _ hbound
  have hdeps : a.dependencyList = if a.action ∈ nf.firstActions then previous else [] :=
    (hA.form hi ha).2.2
  refine ⟨a, deps, ha, hget, fun j ↦ ?_, fun hprev ↦ hnd ?_⟩
  · have hpair : (i, j) ∈ list ×ˢ list ↔ j ∈ list :=
      List.pair_mem_product.trans (and_iff_right hi)
    rw [hmem, hpair]
    show j ∈ a.dependencyList ∨ _ ↔ _
    rw [hdeps]
    by_cases hfirst : a.action ∈ nf.firstActions <;> simp [hfirst]
  · show a.dependencyList.Nodup
    rw [hdeps]
    split
    · exact hprev
    · exact List.nodup_nil

/-- The instances that were there before are left alone. -/
private theorem old_after
    (hA : Listed o nf nfId old previous lastAction nf.actionList (heap, list))
    (hB : StatesBound o nfId list heap states nf.stateList (bound, states'))
    (hC : PairsConnected o bound (list ×ˢ list) instances) {i : Nat} (hi : i < old.length) :
    instances[i]? = old[i]? := by
  have hnot : i ∉ list := fun hmem ↦ absurd (hA.mem i hmem).1 (Nat.not_le.mpr hi)
  obtain ⟨new, hheap, -⟩ := hA.heap
  have ha : heap[i]? = some old[i] := by
    rw [show heap = _ from hheap, List.getElem?_append_left hi, List.getElem?_eq_getElem hi]
  have hbound : bound[i]? = some old[i] := by
    rw [hB.heap i, ha, Option.map_some, bindTo, if_neg fun h ↦ hnot h.1]
  obtain ⟨deps, hget, -, -, hsame⟩ := hC i _ hbound
  rw [hget, hsame fun j hj ↦ hnot (List.pair_mem_product.mp hj).1, List.getElem?_eq_getElem hi]

/-- The list after the loops over the states and the pairs. -/
private theorem added_of_loops {b : Building} (hnf : nf.Built o)
    (hA : Listed o nf nfId b.instances b.lastActionInstances lastAction nf.actionList (heap, list))
    (hB : StatesBound o nfId list heap b.stateInstanceList nf.stateList (bound, states'))
    (hC : PairsConnected o bound (list ×ˢ list) instances) :
    Added o nf nfId lastAction b list
      ⟨instances, b.actionInstanceList ++ list, states', lastOf nf instances list⟩ where
  list_eq := rfl
  old _ hi := old_after hA hB hC hi
  new i hi := by
    obtain ⟨hle, a, ha, hmem, htaken⟩ := hA.mem i hi
    obtain ⟨a', deps, ha', hget, -⟩ := instance_after hA hB hC hi
    rw [show heap[i]? = some a from ha, Option.some.injEq] at ha'
    subst ha'
    obtain ⟨hid, hnone, -⟩ := hA.form hi ha
    refine ⟨hle, _, hget, hid, hmem, htaken, ?_⟩
    show (bindTo o list nf.stateList b.stateInstanceList.length i a).stateInstance =
      (stateOf o a).map _
    unfold bindTo
    cases hs : stateOf o a with
    | none => simp [hnone]
    | some s =>
      have hmem' : s ∈ nf.stateList := by
        obtain ⟨act, hact, hstate⟩ := Option.bind_eq_some_iff.mp hs
        exact (hnf.state_mem_iff s).mpr ⟨a.action, hmem, act, hact, hstate⟩
      simp [hi, hmem']
  complete action haction htaken := by
    obtain ⟨i, hi, a, ha, hact⟩ := hA.complete action haction htaken
    obtain ⟨a', deps, ha', hget, -⟩ := instance_after hA hB hC hi
    rw [show heap[i]? = some a from ha, Option.some.injEq] at ha'
    subst ha'
    exact ⟨i, hi, _, hget, hact⟩
  depends_iff j hj a ha i := by
    obtain ⟨c, deps, hc, hget, hmem, -⟩ := instance_after hA hB hC hj
    rw [show instances[j]? = some a from ha, Option.some.injEq] at hget
    subst hget
    refine (hmem i).trans (or_congr_right (and_congr_right fun hi ↦ ?_))
    obtain ⟨d, deps', hd, hget', -⟩ := instance_after hA hB hC hi
    have hbc := hB.heap j
    have hbd := hB.heap i
    rw [show (bound, states').1 = bound from rfl] at hbc hbd
    rw [hc] at hbc
    rw [hd] at hbd
    have hsame : c.nfId = d.nfId := (hA.form hj hc).1.trans (hA.form hi hd).1.symm
    constructor
    · rintro ⟨x, y, act, hx, hy, hact, hdep, -⟩
      rw [hbc] at hx
      rw [hbd] at hy
      cases hx
      cases hy
      exact ⟨act, _, hact, hget', hdep⟩
    · rintro ⟨act, y, hact, hy, hdep⟩
      rw [show instances[i]? = some y from hy, Option.some.injEq] at hget'
      subst hget'
      exact ⟨_, _, act, hbc, hbd, hact, hdep, hsame⟩
  nodup hprev j hj a ha := by
    obtain ⟨c, deps, -, hget, -, hnd⟩ := instance_after hA hB hC hj
    rw [show instances[j]? = some a from ha, Option.some.injEq] at hget
    subst hget
    exact hnd hprev
  states_eq := by
    have husers : ∀ s, usersOf o instances list s = usersOf o heap list s := by
      intro s
      apply List.filter_congr
      intro i hi
      obtain ⟨a, deps, ha, hget, -⟩ := instance_after hA hB hC hi
      rw [ha, hget]
      rfl
    show states' = _
    rw [show states' = _ from hB.states]
    simp only [husers]
  last_iff i := by
    show i ∈ lastOf nf instances list ↔ _
    unfold lastOf
    rw [List.mem_filter]
    refine and_congr_right fun hi ↦ ?_
    obtain ⟨a, deps, -, hget, -⟩ := instance_after hA hB hC hi
    rw [hget]
    simp
  last_nodup honce := by
    rw [List.nodup_iff_count_le_one]
    intro i
    show (lastOf nf instances list).count i ≤ 1
    by_cases hi : i ∈ lastOf nf instances list
    · obtain ⟨hmem, hlast⟩ := List.mem_filter.mp hi
      obtain ⟨a, deps, ha, hget, -⟩ := instance_after hA hB hC hmem
      have hcount := hA.count_le i a ha
      have hle : (lastOf nf instances list).count i ≤ list.count i :=
        List.filter_sublist.count_le i
      rw [hget] at hlast
      by_cases hfirst : a.action ∈ nf.firstActions
      · rw [if_pos hfirst] at hcount
        have honce' := honce a.action hfirst (of_decide_eq_true hlast)
        exact Nat.le_trans (Nat.le_trans hle hcount) honce'
      · rw [if_neg hfirst] at hcount
        exact Nat.le_trans hle hcount
    · rw [List.count_eq_zero_of_not_mem hi]
      exact Nat.zero_le 1

end

/-- `Nf_instance` raises no exception and adds the instances of a network function. -/
theorem Building.exists_addNfInstance {o : Objects} {k : Nat} {nf : Nf} (hk : o.nfs[k]? = some nf)
    (hnf : nf.Built o) (n nfId : Nat) (b : Building) :
    ∃ b' list, b.addNfInstance o n (k, nfId) = some b' ∧
      Added o nf nfId (nfId + 1 = n) b list b' := by
  obtain ⟨⟨heap, list⟩, hactions, hA⟩ := exists_addActionInstances hnf nfId b.instances
    b.lastActionInstances (decide (nfId + 1 = n))
  have hlist : ∀ i ∈ list, ∃ a act, heap[i]? = some a ∧ o.actions[a.action]? = some act := by
    intro i hi
    obtain ⟨-, a, ha, -, act, hact, -⟩ := hA.mem i hi
    exact ⟨a, act, ha, hact⟩
  obtain ⟨⟨bound, states⟩, hstates, hB⟩ :=
    exists_addStateInstances hnf nfId b.stateInstanceList hlist
  have hlist' : ∀ i ∈ list, ∃ a act, bound[i]? = some a ∧ o.actions[a.action]? = some act := by
    intro i hi
    obtain ⟨a, act, ha, hact⟩ := hlist i hi
    refine ⟨bindTo o list nf.stateList b.stateInstanceList.length i a, act, ?_, hact⟩
    rw [hB.heap, ha]
    rfl
  obtain ⟨instances, hconnect, hC⟩ := exists_connect hlist'
  have hlast : packetOutPreviousActions nf instances list = some (lastOf nf instances list) := by
    apply filterM_eq_some
    intro i hi
    obtain ⟨a, deps, -, hget, -⟩ := instance_after hA hB hC hi
    rw [hget]
    rfl
  refine ⟨_, list, ?_, added_of_loops hnf hA hB hC⟩
  unfold Building.addNfInstance
  rw [hk]
  show (List.foldlM (m := Option) (addActionInstance o nf nfId _ _ _)
    (b.instances ++ firstActionInstances nf nfId _, []) nf.actionList >>= fun r ↦ _) = _
  rw [hactions]
  show (List.foldlM (m := Option) (addStateInstance o nfId list) _ nf.stateList >>= fun r ↦ _) = _
  rw [hstates]
  show (connect o list bound >>= fun r ↦ _) = _
  rw [hconnect]
  show (packetOutPreviousActions nf instances list >>= fun r ↦ _) = _
  rw [hlast]
  rfl

end Nflambda.Chain
