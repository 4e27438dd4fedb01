import Nflambda.Base.Waiting
import Nflambda.Chain.Executions
import Nflambda.Chain.NfInstance

/-!
# Service chains as compositions of network functions

Library `Chain`. What the constructor of `Sfc`, `src/director/em/nf_model.py:192–231`, makes of a
list of network functions: which instances depend on which, and which state instances they are
bound to.
-/

namespace Nflambda.Chain

open Nflambda.Base

/-- Instance `c` of a chain is to depend on instance `a`: in one network function if its action
depends on that of `a`, and from one to the next if the action of `a` comes before `packet_out` and
that of `c` after `packet_in`. -/
def ComesBefore (o : Objects) (nfs : List Nf) (a c : ActionInstance) : Prop :=
  (a.nfId = c.nfId ∧
    ∃ act, o.actions[c.action]? = some act ∧ a.action ∈ act.dependenciesActionList) ∨
  (a.nfId + 1 = c.nfId ∧
    (∃ nf, nfs[a.nfId]? = some nf ∧ a.action ∈ nf.lastActionsBeforePacketOut) ∧
    ∃ nf, nfs[c.nfId]? = some nf ∧ c.action ∈ nf.firstActions)

/-- What holds after the instances of the network functions `nfs` have been added. -/
structure Building.Composed (o : Objects) (nfs : List Nf) (b : Building) : Prop where
  instance_of_mem : ∀ i ∈ b.actionInstanceList, ∃ a nf act, b.instances[i]? = some a ∧
    nfs[a.nfId]? = some nf ∧ o.actions[a.action]? = some act ∧ a.action ∈ nf.actionList
  depends_iff : ∀ i ∈ b.actionInstanceList, ∀ j ∈ b.actionInstanceList, ∀ a c,
    b.instances[i]? = some a → b.instances[j]? = some c →
    (i ∈ c.dependencyList ↔ ComesBefore o nfs a c)
  depends_mem : ∀ j ∈ b.actionInstanceList, ∀ c, b.instances[j]? = some c →
    ∀ i ∈ c.dependencyList, i ∈ b.actionInstanceList
  last_iff : ∀ i, i ∈ b.lastActionInstances ↔ i ∈ b.actionInstanceList ∧
    ∃ a nf, b.instances[i]? = some a ∧ a.nfId + 1 = nfs.length ∧ nfs[a.nfId]? = some nf ∧
      a.action ∈ nf.lastActionsBeforePacketOut
  bound : ∀ i ∈ b.actionInstanceList, ∀ a, b.instances[i]? = some a →
    (∀ s, stateOf o a = some s → ∃ q, a.stateInstance = some q) ∧
    ∀ q, a.stateInstance = some q ↔ ∃ si, b.stateInstanceList[q]? = some si ∧
      si.nfId = a.nfId ∧ stateOf o a = some si.state
  user_iff : ∀ (q : Nat) (si : StateInstance), b.stateInstanceList[q]? = some si →
    si.nfId < nfs.length ∧ ∀ i, i ∈ si.actionInstanceList ↔ i ∈ b.actionInstanceList ∧
      ∃ a, b.instances[i]? = some a ∧ a.nfId = si.nfId ∧ stateOf o a = some si.state

private theorem composed_nil (o : Objects) : Building.Composed o [] ⟨[], [], [], []⟩ where
  instance_of_mem _ hi := nomatch hi
  depends_iff _ hi := nomatch hi
  depends_mem _ hi := nomatch hi
  last_iff _ := iff_of_false (fun hi ↦ nomatch hi) fun hi ↦ nomatch hi.1
  bound _ hi := nomatch hi
  user_iff _ _ hq := nomatch hq

section

variable {o : Objects} {nfs : List Nf} {nf : Nf} {lastAction : Bool} {b b' : Building}
  {list : List Nat}

/-- A listed instance of one more network function is an old one or one of the new ones. -/
private theorem mem_added (h : b.Composed o nfs)
    (hadd : Added o nf nfs.length lastAction b list b') {i : Nat}
    (hi : i ∈ b'.actionInstanceList) {a : ActionInstance} (ha : b'.instances[i]? = some a) :
    (i ∈ b.actionInstanceList ∧ b.instances[i]? = some a ∧ a.nfId < nfs.length ∧ i ∉ list) ∨
      (i ∈ list ∧ i ∉ b.actionInstanceList ∧ a.nfId = nfs.length ∧ a.action ∈ nf.actionList) := by
  have hlt : ∀ k ∈ b.actionInstanceList, k < b.instances.length := by
    intro k hk
    obtain ⟨c, -, -, hc, -⟩ := h.instance_of_mem k hk
    exact (List.getElem?_eq_some_iff.mp hc).1
  rw [hadd.list_eq] at hi
  rcases List.mem_append.mp hi with hold | hnew
  · left
    have hget := hadd.old i (hlt i hold)
    obtain ⟨c, nf', -, hc, hnf', -⟩ := h.instance_of_mem i hold
    rw [ha, hc, Option.some.injEq] at hget
    subst hget
    refine ⟨hold, hc, (List.getElem?_eq_some_iff.mp hnf').1, fun hmem ↦ ?_⟩
    exact absurd (hadd.new i hmem).1 (Nat.not_le.mpr (hlt i hold))
  · right
    obtain ⟨hle, c, hc, hid, hmem, -⟩ := hadd.new i hnew
    rw [ha, Option.some.injEq] at hc
    subst hc
    exact ⟨hnew, fun hold ↦ absurd hle (Nat.not_le.mpr (hlt i hold)), hid, hmem⟩

private theorem getElem?_snoc_lt {nfs : List Nf} {nf : Nf} {k : Nat} (hk : k < nfs.length) :
    (nfs ++ [nf])[k]? = nfs[k]? := List.getElem?_append_left hk

private theorem getElem?_snoc_eq (nfs : List Nf) (nf : Nf) :
    (nfs ++ [nf])[nfs.length]? = some nf := by
  rw [List.getElem?_append_right (Nat.le_refl _), Nat.sub_self]
  rfl

/-- Among instances of the network functions before, nothing changes. -/
private theorem comesBefore_snoc {a c : ActionInstance} (ha : a.nfId < nfs.length)
    (hc : c.nfId < nfs.length) : ComesBefore o (nfs ++ [nf]) a c ↔ ComesBefore o nfs a c := by
  unfold ComesBefore
  rw [getElem?_snoc_lt ha, getElem?_snoc_lt hc]

private theorem depends_iff_snoc (h : b.Composed o nfs)
    (hadd : Added o nf nfs.length lastAction b list b') {i j : Nat}
    (hi : i ∈ b'.actionInstanceList) (hj : j ∈ b'.actionInstanceList) {a c : ActionInstance}
    (ha : b'.instances[i]? = some a) (hc : b'.instances[j]? = some c) :
    i ∈ c.dependencyList ↔ ComesBefore o (nfs ++ [nf]) a c := by
  rcases mem_added h hadd hj hc with ⟨hjold, hcold, hcid, hjnew⟩ | ⟨hjnew, hjold, hcid, -⟩
  · rcases mem_added h hadd hi ha with ⟨hiold, haold, haid, -⟩ | ⟨hinew, hiold, haid, -⟩
    · rw [comesBefore_snoc haid hcid]
      exact h.depends_iff i hiold j hjold a c haold hcold
    · -- an old instance does not depend on a new one
      refine iff_of_false (fun hmem ↦ hiold (h.depends_mem j hjold c hcold i hmem)) ?_
      rintro (⟨hid, -⟩ | ⟨hid, -⟩) <;> omega
  · rw [hadd.depends_iff j hjnew c hc i]
    rcases mem_added h hadd hi ha with ⟨hiold, haold, haid, hinew⟩ | ⟨hinew, hiold, haid, -⟩
    · constructor
      · rintro (⟨hfirst, hlast⟩ | ⟨hmem, -⟩)
        · obtain ⟨-, a', nf', ha', hlen, hnf', hin⟩ := (h.last_iff i).mp hlast
          rw [haold, Option.some.injEq] at ha'
          subst ha'
          refine .inr ⟨hlen.trans hcid.symm, ⟨nf', ?_, hin⟩, nf, ?_, hfirst⟩
          · rw [getElem?_snoc_lt haid, hnf']
          · rw [hcid, getElem?_snoc_eq]
        · exact absurd hmem hinew
      · rintro (⟨hid, -⟩ | ⟨hid, ⟨nf', hnf', hin⟩, nf'', hnf'', hfirst⟩)
        · omega
        · rw [getElem?_snoc_lt haid] at hnf'
          rw [hcid, getElem?_snoc_eq, Option.some.injEq] at hnf''
          subst hnf''
          exact .inl ⟨hfirst, (h.last_iff i).mpr ⟨hiold, a, nf', haold, hid.trans hcid, hnf', hin⟩⟩
    · constructor
      · rintro (⟨-, hlast⟩ | ⟨-, act, a', hact, ha', hdep⟩)
        · exact absurd ((h.last_iff i).mp hlast).1 hiold
        · rw [ha, Option.some.injEq] at ha'
          subst ha'
          exact .inl ⟨haid.trans hcid.symm, act, hact, hdep⟩
      · rintro (⟨-, act, hact, hdep⟩ | ⟨hid, -⟩)
        · exact .inr ⟨hinew, act, a, hact, ha, hdep⟩
        · omega

/-- The state instances of the new network function come last. -/
private theorem states_snoc (hadd : Added o nf nfs.length lastAction b list b') {q : Nat}
    {si : StateInstance} : b'.stateInstanceList[q]? = some si ↔
      b.stateInstanceList[q]? = some si ∨ b.stateInstanceList.length ≤ q ∧
        nf.stateList[q - b.stateInstanceList.length]? = some si.state ∧ si.nfId = nfs.length ∧
        si.actionInstanceList = collect (usersOf o b'.instances list si.state) := by
  rw [hadd.states_eq]
  by_cases hq : q < b.stateInstanceList.length
  · rw [List.getElem?_append_left hq]
    exact ⟨.inl, fun h ↦ h.resolve_right fun hle ↦ absurd hq (Nat.not_lt.mpr hle.1)⟩
  · rw [List.getElem?_append_right (Nat.not_lt.mp hq), List.getElem?_map,
      List.getElem?_eq_none (Nat.not_lt.mp hq), Option.map_eq_some_iff]
    constructor
    · rintro ⟨s, hs, rfl⟩
      exact .inr ⟨Nat.not_lt.mp hq, hs, rfl, rfl⟩
    · rintro (hnone | ⟨-, hs, hid, husers⟩)
      · cases hnone
      · refine ⟨si.state, hs, ?_⟩
        rw [← hid, ← husers]

private theorem bound_snoc (hnf : nf.Built o) (h : b.Composed o nfs)
    (hadd : Added o nf nfs.length lastAction b list b') {i : Nat}
    (hi : i ∈ b'.actionInstanceList) {a : ActionInstance} (ha : b'.instances[i]? = some a) :
    (∀ s, stateOf o a = some s → ∃ q, a.stateInstance = some q) ∧
    ∀ q, a.stateInstance = some q ↔ ∃ si, b'.stateInstanceList[q]? = some si ∧
      si.nfId = a.nfId ∧ stateOf o a = some si.state := by
  rcases mem_added h hadd hi ha with ⟨hold, haold, hid, -⟩ | ⟨hnew, -, hid, hmem⟩
  · obtain ⟨hsome, hiff⟩ := h.bound i hold a haold
    refine ⟨hsome, fun q ↦ (hiff q).trans ?_⟩
    constructor
    · rintro ⟨si, hsi, hrest⟩
      exact ⟨si, (states_snoc hadd).mpr (.inl hsi), hrest⟩
    · rintro ⟨si, hsi, hsid, hs⟩
      rcases (states_snoc hadd).mp hsi with hsi | ⟨-, -, hlast, -⟩
      · exact ⟨si, hsi, hsid, hs⟩
      · omega
  · obtain ⟨-, a', ha', -, -, -, hstate⟩ := hadd.new i hnew
    rw [ha, Option.some.injEq] at ha'
    subst ha'
    refine ⟨fun s hs ↦ ⟨_, by rw [hstate, hs]; rfl⟩, fun q ↦ ?_⟩
    rw [hstate, Option.map_eq_some_iff]
    constructor
    · rintro ⟨s, hs, rfl⟩
      have hin : s ∈ nf.stateList := by
        obtain ⟨act, hact, hs'⟩ := Option.bind_eq_some_iff.mp hs
        exact (hnf.state_mem_iff s).mpr ⟨a.action, hmem, act, hact, hs'⟩
      refine ⟨⟨s, nfs.length, collect (usersOf o b'.instances list s)⟩, ?_, hid.symm, hs⟩
      refine (states_snoc hadd).mpr (.inr ⟨Nat.le_add_right _ _, ?_, rfl, rfl⟩)
      rw [Nat.add_sub_cancel_left]
      exact List.getElem?_idxOf hin
    · rintro ⟨si, hsi, hsid, hs⟩
      rcases (states_snoc hadd).mp hsi with hsi | ⟨hle, hget, -, -⟩
      · have hlt := (h.user_iff q si hsi).1
        omega
      · refine ⟨si.state, hs, ?_⟩
        obtain ⟨hlt, hget⟩ := List.getElem?_eq_some_iff.mp hget
        rw [← hget, hnf.nodup_states.idxOf_getElem _ hlt]
        omega

private theorem user_iff_snoc (h : b.Composed o nfs)
    (hadd : Added o nf nfs.length lastAction b list b') {q : Nat} {si : StateInstance}
    (hq : b'.stateInstanceList[q]? = some si) :
    si.nfId < (nfs ++ [nf]).length ∧ ∀ i, i ∈ si.actionInstanceList ↔
      i ∈ b'.actionInstanceList ∧ ∃ a, b'.instances[i]? = some a ∧ a.nfId = si.nfId ∧
        stateOf o a = some si.state := by
  rw [List.length_append, List.length_singleton]
  rcases (states_snoc hadd).mp hq with hold | ⟨hle, hget, hid, husers⟩
  · obtain ⟨hlt, hiff⟩ := h.user_iff q si hold
    refine ⟨by omega, fun i ↦ (hiff i).trans ?_⟩
    constructor
    · rintro ⟨hi, a, ha, hrest⟩
      refine ⟨by rw [hadd.list_eq]; exact List.mem_append_left _ hi, a, ?_, hrest⟩
      rw [hadd.old i (List.getElem?_eq_some_iff.mp ha).1, ha]
    · rintro ⟨hi, a, ha, haid, hs⟩
      rcases mem_added h hadd hi ha with ⟨hi, haold, -, -⟩ | ⟨-, -, hnew, -⟩
      · exact ⟨hi, a, haold, haid, hs⟩
      · omega
  · refine ⟨by omega, fun i ↦ ?_⟩
    rw [husers, mem_collect_iff, usersOf, List.mem_filter]
    simp only [decide_eq_true_eq, Option.bind_eq_some_iff]
    constructor
    · rintro ⟨hi, a, ha, hs⟩
      obtain ⟨-, a', ha', haid, -⟩ := hadd.new i hi
      rw [ha, Option.some.injEq] at ha'
      subst ha'
      refine ⟨?_, a, ha, haid.trans hid.symm, hs⟩
      rw [hadd.list_eq]
      exact List.mem_append_right _ hi
    · rintro ⟨hi, a, ha, haid, hs⟩
      rcases mem_added h hadd hi ha with ⟨-, -, hlt, -⟩ | ⟨hi, -⟩
      · omega
      · exact ⟨hi, a, ha, hs⟩

/-- One more network function keeps the chain composed. -/
private theorem Building.Composed.snoc (hnf : nf.Built o) (h : b.Composed o nfs)
    (hadd : Added o nf nfs.length lastAction b list b') : b'.Composed o (nfs ++ [nf]) where
  instance_of_mem i hi := by
    rw [hadd.list_eq] at hi
    rcases List.mem_append.mp hi with hold | hnew
    · obtain ⟨a, nf', act, ha, hnf', hact, hmem⟩ := h.instance_of_mem i hold
      refine ⟨a, nf', act, ?_, ?_, hact, hmem⟩
      · rw [hadd.old i (List.getElem?_eq_some_iff.mp ha).1, ha]
      · rw [getElem?_snoc_lt (List.getElem?_eq_some_iff.mp hnf').1, hnf']
    · obtain ⟨-, a, ha, hid, hmem, ⟨act, hact, -⟩, -⟩ := hadd.new i hnew
      exact ⟨a, nf, act, ha, by rw [hid, getElem?_snoc_eq], hact, hmem⟩
  depends_iff i hi j hj a c ha hc := depends_iff_snoc h hadd hi hj ha hc
  depends_mem j hj c hc i hi := by
    rcases mem_added h hadd hj hc with ⟨hold, hcold, -, -⟩ | ⟨hnew, -⟩
    · rw [hadd.list_eq]
      exact List.mem_append_left _ (h.depends_mem j hold c hcold i hi)
    · rw [hadd.list_eq]
      rcases (hadd.depends_iff j hnew c hc i).mp hi with ⟨-, hlast⟩ | ⟨hmem, -⟩
      · exact List.mem_append_left _ ((h.last_iff i).mp hlast).1
      · exact List.mem_append_right _ hmem
  last_iff i := by
    rw [hadd.last_iff, List.length_append, List.length_singleton]
    constructor
    · rintro ⟨hi, a, ha, hin⟩
      obtain ⟨-, a', ha', hid, -⟩ := hadd.new i hi
      rw [ha, Option.some.injEq] at ha'
      subst ha'
      refine ⟨?_, a, nf, ha, by omega, by rw [hid, getElem?_snoc_eq], hin⟩
      rw [hadd.list_eq]
      exact List.mem_append_right _ hi
    · rintro ⟨hi, a, nf', ha, hid, hnf', hin⟩
      rcases mem_added h hadd hi ha with ⟨-, -, hlt, -⟩ | ⟨hi, -, hid', -⟩
      · omega
      · rw [hid', getElem?_snoc_eq, Option.some.injEq] at hnf'
        subst hnf'
        exact ⟨hi, a, ha, hin⟩
  bound i hi a ha := bound_snoc hnf h hadd hi ha
  user_iff q si hq := user_iff_snoc h hadd hq

end

/-! ### Chains -/

/-- The network function has the system actions `packet_in` and `packet_out`, and `packet_out`
depends on one of its other actions and on no system action. -/
structure Nf.Declares (o : Objects) (nf : Nf) : Prop where
  packetIn : ∃ i ∈ nf.actionList, ∃ a, o.actions[i]? = some a ∧ a.isPacketIn = true
  packetOut : ∃ i ∈ nf.actionList, ∃ a, o.actions[i]? = some a ∧ a.isPacketOut = true
  last : nf.lastActionsBeforePacketOut ≠ []
  last_system : ∀ i ∈ nf.lastActionsBeforePacketOut, ∀ a, o.actions[i]? = some a →
    a.name ∉ ["packet_in", "packet_out", "drop"]

/-- No action that follows `packet_in` and precedes `packet_out` is listed twice. -/
def Nf.ListsOnce (nf : Nf) : Prop :=
  ∀ action ∈ nf.firstActions, action ∈ nf.lastActionsBeforePacketOut →
    nf.actionList.count action ≤ 1

/-- What holds in addition after the network functions `nfs` of a chain of `n`. -/
structure Building.Spliced (o : Objects) (nfs : List Nf) (n : Nat) (b : Building) : Prop where
  taken : ∀ i ∈ b.actionInstanceList, ∀ a act, b.instances[i]? = some a →
    o.actions[a.action]? = some act →
    (act.isPacketIn = true → a.nfId = 0) ∧ (act.isPacketOut = true → a.nfId + 1 = n)
  complete : ∀ (k : Nat) (nf : Nf), nfs[k]? = some nf → ∀ action ∈ nf.actionList, ∀ act,
    o.actions[action]? = some act → (act.isPacketIn = true → k = 0) →
    (act.isPacketOut = true → k + 1 = n) →
    ∃ i ∈ b.actionInstanceList, ∃ a, b.instances[i]? = some a ∧ a.nfId = k ∧ a.action = action
  last : nfs ≠ [] → b.lastActionInstances ≠ []

private theorem isPacketIn_iff {a : Action} : a.isPacketIn = true ↔ a.name = "packet_in" :=
  decide_eq_true_iff

private theorem isPacketOut_iff {a : Action} : a.isPacketOut = true ↔ a.name = "packet_out" :=
  decide_eq_true_iff

private theorem Building.Spliced.snoc {o : Objects} {nfs : List Nf} {nf : Nf} {n : Nat}
    {b b' : Building} {list : List Nat} (hnf : nf.Built o) (hdecl : nf.Declares o)
    (hc : b.Composed o nfs) (h : b.Spliced o nfs n)
    (hadd : Added o nf nfs.length (decide (nfs.length + 1 = n)) b list b') :
    b'.Spliced o (nfs ++ [nf]) n where
  taken i hi a act ha hact := by
    rcases mem_added hc hadd hi ha with ⟨hold, haold, -⟩ | ⟨hnew, -, hid, -⟩
    · exact h.taken i hold a act haold hact
    · obtain ⟨-, a', ha', -, -, ⟨act', hact', hin, hout⟩, -⟩ := hadd.new i hnew
      rw [ha, Option.some.injEq] at ha'
      subst ha'
      rw [hact, Option.some.injEq] at hact'
      subst hact'
      constructor
      · intro hisin
        have hprev : b.lastActionInstances = [] := by
          by_contra hne
          exact hin ⟨hne, hisin⟩
        have hnil : nfs = [] := by
          by_contra hne
          exact h.last hne hprev
        rw [hid, hnil]
        rfl
      · intro hisout
        by_contra hne
        exact hout ⟨decide_eq_false (by omega), hisout⟩
  complete k nf' hk action haction act hact hin hout := by
    by_cases hlt : k < nfs.length
    · rw [getElem?_snoc_lt hlt] at hk
      obtain ⟨i, hi, a, ha, hrest⟩ := h.complete k nf' hk action haction act hact hin hout
      refine ⟨i, by rw [hadd.list_eq]; exact List.mem_append_left _ hi, a, ?_, hrest⟩
      rw [hadd.old i (List.getElem?_eq_some_iff.mp ha).1, ha]
    · have hkeq : k = nfs.length := by
        have hle := (List.getElem?_eq_some_iff.mp hk).1
        rw [List.length_append, List.length_singleton] at hle
        omega
      subst hkeq
      rw [getElem?_snoc_eq, Option.some.injEq] at hk
      subst hk
      have htaken : Taken o b.lastActionInstances (decide (nfs.length + 1 = n)) action := by
        refine ⟨act, hact, ?_, fun hlast ↦ ?_⟩
        · rintro ⟨hne, hisin⟩
          obtain ⟨i, hi⟩ := List.exists_mem_of_ne_nil _ hne
          obtain ⟨-, a, nf'', -, hid, -⟩ := (hc.last_iff i).mp hi
          have hzero := hin hisin
          omega
        · exact of_decide_eq_false hlast.1 (hout hlast.2)
      obtain ⟨i, hi, a, ha, hacteq⟩ := hadd.complete action haction htaken
      obtain ⟨-, a', ha', hid, -⟩ := hadd.new i hi
      rw [ha, Option.some.injEq] at ha'
      subst ha'
      refine ⟨i, ?_, a, ha, hid, hacteq⟩
      rw [hadd.list_eq]
      exact List.mem_append_right _ hi
  last _ := by
    obtain ⟨action, hlast⟩ := List.exists_mem_of_ne_nil _ hdecl.last
    obtain ⟨act, hact⟩ := hnf.action_mem action (hnf.last_mem action hlast)
    have hname := hdecl.last_system action hlast act hact
    simp only [List.mem_cons, not_or] at hname
    -- the last actions are no system actions, so that they have instances
    obtain ⟨i, hi, a, ha, haction⟩ := hadd.complete action (hnf.last_mem action hlast)
      ⟨act, hact, fun hin ↦ hname.1 (isPacketIn_iff.mp hin.2),
        fun hout ↦ hname.2.1 (isPacketOut_iff.mp hout.2)⟩
    exact List.ne_nil_of_mem ((hadd.last_iff i).mpr ⟨hi, a, ha, by rw [haction]; exact hlast⟩)

/-- The dependency lists repeat nothing. -/
structure Building.Simple (b : Building) : Prop where
  last : b.lastActionInstances.Nodup
  dependencies : ∀ j ∈ b.actionInstanceList, ∀ c, b.instances[j]? = some c →
    c.dependencyList.Nodup

private theorem Building.Simple.snoc {o : Objects} {nfs : List Nf} {nf : Nf} {lastAction : Bool}
    {b b' : Building} {list : List Nat} (honce : nf.ListsOnce) (hc : b.Composed o nfs)
    (h : b.Simple) (hadd : Added o nf nfs.length lastAction b list b') : b'.Simple where
  last := hadd.last_nodup honce
  dependencies j hj c hcget := by
    rcases mem_added hc hadd hj hcget with ⟨hold, hcold, -⟩ | ⟨hnew, -⟩
    · exact h.dependencies j hold c hcold
    · exact hadd.nodup h.last j hnew c hcget

/-- The constructor of `Sfc` raises no exception. -/
private theorem exists_building {o : Objects} (ho : o.Created) {nfs : List Nat} {chain : List Nf}
    (hchain : nfs.mapM (o.nfs[·]?) = some chain) :
    ∃ b, nfs.zipIdx.foldlM (Building.addNfInstance o nfs.length) ⟨[], [], [], []⟩ = some b ∧
      b.Composed o chain ∧
      ((∀ nf ∈ chain, nf.Declares o) → b.Spliced o chain chain.length) ∧
      ((∀ nf ∈ chain, nf.ListsOnce) → b.Simple) := by
  have hmap := mapM_eq_some_iff.mp hchain
  have hlen : nfs.length = chain.length := by
    have h := congrArg List.length hmap
    rwa [List.length_map, List.length_map] at h
  let P (l : List (Nat × Nat)) (b : Building) : Prop := b.Composed o (chain.take l.length) ∧
    ((∀ nf ∈ chain, nf.Declares o) → b.Spliced o (chain.take l.length) chain.length) ∧
    ((∀ nf ∈ chain, nf.ListsOnce) → b.Simple)
  have hstart : P [] ⟨[], [], [], []⟩ :=
    ⟨composed_nil o, fun _ ↦ ⟨fun _ hi ↦ (nomatch hi),
      fun _ _ hk ↦ (nomatch hk), fun h ↦ absurd List.take_zero h⟩,
      fun _ ↦ ⟨List.nodup_nil, fun _ hj ↦ (nomatch hj)⟩⟩
  have hstep : ∀ l p b, l ++ [p] <+: nfs.zipIdx → P l b →
      ∃ b', b.addNfInstance o nfs.length p = some b' ∧ P (l ++ [p]) b' := by
    rintro l ⟨k, nfId⟩ b hpre ⟨hcomp, hspl, hsim⟩
    have hget : nfs.zipIdx[l.length]? = some (k, nfId) := by
      obtain ⟨rest, hrest⟩ := hpre
      rw [← hrest, List.append_assoc, List.getElem?_append_right (Nat.le_refl _), Nat.sub_self]
      rfl
    rw [List.getElem?_zipIdx, Option.map_eq_some_iff] at hget
    obtain ⟨k', hk', heq⟩ := hget
    simp only [Nat.zero_add, Prod.mk.injEq] at heq
    obtain ⟨rfl, rfl⟩ := heq
    have hlt : l.length < chain.length := hlen ▸ (List.getElem?_eq_some_iff.mp hk').1
    have hnf : o.nfs[k']? = some chain[l.length] := by
      have h := congrArg (·[l.length]?) hmap
      simp only [List.getElem?_map, hk', Option.map_some] at h
      rwa [List.getElem?_eq_getElem hlt, Option.map_some, Option.some.injEq] at h
    have hbuilt := ho.built _ (List.mem_of_getElem? hnf)
    have hmem : chain[l.length] ∈ chain := List.getElem_mem hlt
    have htake : (chain.take l.length).length = l.length := List.length_take_of_le hlt.le
    obtain ⟨b', list, hb', hadd⟩ := b.exists_addNfInstance hnf hbuilt nfs.length l.length
    refine ⟨b', hb', ?_⟩
    simp only [P]
    rw [List.length_append, List.length_singleton, List.take_add_one,
      List.getElem?_eq_getElem hlt, Option.toList_some]
    rw [hlen] at hadd
    have hadd' : Added o chain[l.length] (chain.take l.length).length
        (decide ((chain.take l.length).length + 1 = chain.length)) b list b' := by
      rw [htake]
      exact hadd
    exact ⟨hcomp.snoc hbuilt hadd', fun hd ↦ (hspl hd).snoc hbuilt (hd _ hmem) hcomp hadd',
      fun ho ↦ (hsim ho).snoc (ho _ hmem) hcomp hadd'⟩
  obtain ⟨b, hb, hP⟩ := exists_foldlM_eq_some hstart hstep
  refine ⟨b, hb, ?_⟩
  simp only [P] at hP
  rwa [List.length_zipIdx, hlen, List.take_length] at hP

/-- Action `i` is a declared dependency of action `j` of a network function. -/
def Nf.Depends (o : Objects) (nf : Nf) (i j : Nat) : Prop :=
  i ∈ nf.actionList ∧ j ∈ nf.actionList ∧
    ∃ act, o.actions[j]? = some act ∧ i ∈ act.dependenciesActionList

/-- The chain is composed of network functions, one after the other. -/
structure Sfc.Composes (chain : List Nf) (sfc : Sfc) : Prop where
  belongs : ∀ i ∈ sfc.actionInstanceList, ∃ a nf, sfc.instances[i]? = some a ∧
    chain[a.nfId]? = some nf ∧ a.action ∈ nf.actionList
  complete : ∀ (k : Nat) (nf : Nf), chain[k]? = some nf → ∀ action ∈ nf.actionList, ∀ act,
    sfc.objects.actions[action]? = some act → (act.isPacketIn = true → k = 0) →
    (act.isPacketOut = true → k + 1 = chain.length) →
    ∃ i ∈ sfc.actionInstanceList, ∃ a, sfc.instances[i]? = some a ∧ a.nfId = k ∧
      a.action = action
  packetIn_first : ∀ i ∈ sfc.actionInstanceList, ∀ a act, sfc.instances[i]? = some a →
    sfc.objects.actions[a.action]? = some act → act.isPacketIn = true → a.nfId = 0
  packetOut_last : ∀ i ∈ sfc.actionInstanceList, ∀ a act, sfc.instances[i]? = some a →
    sfc.objects.actions[a.action]? = some act → act.isPacketOut = true →
    a.nfId + 1 = chain.length
  depends_iff : ∀ i ∈ sfc.actionInstanceList, ∀ j ∈ sfc.actionInstanceList, ∀ a c,
    sfc.instances[i]? = some a → sfc.instances[j]? = some c →
    (i ∈ c.dependencyList ↔ ComesBefore sfc.objects chain a c)
  depends_mem : ∀ j ∈ sfc.actionInstanceList, ∀ c, sfc.instances[j]? = some c →
    ∀ i ∈ c.dependencyList, i ∈ sfc.actionInstanceList
  nodup : ∀ j ∈ sfc.actionInstanceList, ∀ c, sfc.instances[j]? = some c → c.dependencyList.Nodup
  bound : ∀ i ∈ sfc.actionInstanceList, ∀ a s, sfc.instances[i]? = some a →
    stateOf sfc.objects a = some s → ∃ q si, a.stateInstance = some q ∧
      sfc.stateInstanceList[q]? = some si ∧ si.nfId = a.nfId ∧ si.state = s
  acyclic : (∀ nf ∈ chain, ∀ i, ¬ Relation.TransGen (nf.Depends sfc.objects) i i) →
    ∀ i, ¬ Relation.TransGen (fun i j ↦ j ∈ sfc.actionInstanceList ∧ sfc.Depends i j) i i

private theorem depends_cases {o : Objects} {chain : List Nf} {b : Building}
    (h : b.Composed o chain) {list : List StateInstance} {i j : Nat}
    (hj : j ∈ b.actionInstanceList)
    (hdep : (⟨o, b.instances, b.actionInstanceList, list⟩ : Sfc).Depends i j) :
    ∃ a c, b.instances[i]? = some a ∧ b.instances[j]? = some c ∧ ComesBefore o chain a c ∧
      i ∈ b.actionInstanceList := by
  obtain ⟨c, -, -, hc, -⟩ := h.instance_of_mem j hj
  have hmem : i ∈ c.dependencyList := by
    simpa [Sfc.Depends, hc] using hdep
  have hi := h.depends_mem j hj c hc i hmem
  obtain ⟨a, -, -, ha, -⟩ := h.instance_of_mem i hi
  exact ⟨a, c, ha, hc, (h.depends_iff i hi j hj a c ha hc).mp hmem, hi⟩

/-- Dependencies never lead back to an earlier network function, and within one they are those of
its actions. -/
private theorem acyclic_of_composed {o : Objects} {chain : List Nf} {b : Building}
    (h : b.Composed o chain) (list : List StateInstance)
    (hacyclic : ∀ nf ∈ chain, ∀ i, ¬ Relation.TransGen (nf.Depends o) i i) (i : Nat) :
    ¬ Relation.TransGen (fun i j ↦ j ∈ b.actionInstanceList ∧
      (⟨o, b.instances, b.actionInstanceList, list⟩ : Sfc).Depends i j) i i := by
  let sfc : Sfc := ⟨o, b.instances, b.actionInstanceList, list⟩
  have hid : ∀ {i : Nat} {a : ActionInstance}, b.instances[i]? = some a →
      sfc.nfIdOf i = a.nfId := by
    intro i a ha
    simp [sfc, Sfc.nfIdOf, ha]
  refine not_transGen_self_of_rank sfc.nfIdOf ?_ ?_
  · rintro i j ⟨hj, hdep⟩
    obtain ⟨a, c, ha, hc, hbefore, -⟩ := depends_cases h hj hdep
    rw [hid ha, hid hc]
    rcases hbefore with ⟨heq, -⟩ | ⟨heq, -⟩ <;> omega
  · intro hloop
    have hpath : ∀ {j : Nat}, Relation.TransGen (fun x y ↦ (y ∈ b.actionInstanceList ∧
        sfc.Depends x y) ∧ sfc.nfIdOf x = sfc.nfIdOf y) i j →
        ∃ a c nf, b.instances[i]? = some a ∧ b.instances[j]? = some c ∧
          chain[a.nfId]? = some nf ∧ a.nfId = c.nfId ∧
          Relation.TransGen (nf.Depends o) a.action c.action := by
      have hedge : ∀ {x y : Nat}, (y ∈ b.actionInstanceList ∧ sfc.Depends x y) ∧
          sfc.nfIdOf x = sfc.nfIdOf y → ∃ a c nf, b.instances[x]? = some a ∧
          b.instances[y]? = some c ∧ chain[a.nfId]? = some nf ∧ a.nfId = c.nfId ∧
          nf.Depends o a.action c.action := by
        rintro x y ⟨⟨hy, hdep⟩, hrank⟩
        obtain ⟨a, c, ha, hc, hbefore, hx⟩ := depends_cases h hy hdep
        rw [hid ha, hid hc] at hrank
        obtain ⟨a', nf, -, ha', hnf, -, hmem⟩ := h.instance_of_mem x hx
        obtain ⟨c', nf', -, hc', hnf', -, hmem'⟩ := h.instance_of_mem y hy
        rw [ha, Option.some.injEq] at ha'
        rw [hc, Option.some.injEq] at hc'
        subst ha' hc'
        rw [← hrank, hnf, Option.some.injEq] at hnf'
        subst hnf'
        rcases hbefore with ⟨-, act, hact, hin⟩ | ⟨hnext, -⟩
        · exact ⟨a, c, nf, ha, hc, hnf, hrank, hmem, hmem', act, hact, hin⟩
        · omega
      intro j hj
      induction hj with
      | single hxy =>
        obtain ⟨a, c, nf, ha, hc, hnf, heq, hdep⟩ := hedge hxy
        exact ⟨a, c, nf, ha, hc, hnf, heq, .single hdep⟩
      | tail _ hyz ih =>
        obtain ⟨a, c, nf, ha, hc, hnf, heq, hpath⟩ := ih
        obtain ⟨c', d, nf', hc', hd, hnf', heq', hdep⟩ := hedge hyz
        rw [hc, Option.some.injEq] at hc'
        subst hc'
        rw [← heq, hnf, Option.some.injEq] at hnf'
        subst hnf'
        exact ⟨a, d, nf, ha, hd, hnf, heq.trans heq', hpath.tail hdep⟩
    obtain ⟨a, c, nf, ha, hc, hnf, -, hself⟩ := hpath hloop
    rw [ha, Option.some.injEq] at hc
    subst hc
    exact hacyclic nf (List.mem_of_getElem? hnf) _ hself

/-- `Sfc(nf_list)` makes a composed chain of network functions whose last actions before
`packet_out` are no system actions, if no action that follows `packet_in` and precedes `packet_out`
is listed twice. -/
theorem exists_sfc_composes {o : Objects} (ho : o.Created) {nfs : List Nat} {chain : List Nf}
    (hchain : nfs.mapM (o.nfs[·]?) = some chain) (hdecl : ∀ nf ∈ chain, nf.Declares o)
    (honce : ∀ nf ∈ chain, nf.ListsOnce) :
    ∃ sfc, Sfc.new o nfs = some sfc ∧ sfc.objects = o ∧ sfc.Composes chain := by
  obtain ⟨b, hb, hcomp, hspl, hsim⟩ := exists_building ho hchain
  refine ⟨⟨o, b.instances, b.actionInstanceList, b.stateInstanceList⟩, ?_, rfl, ?_⟩
  · rw [Sfc.new, hb]
    rfl
  have hspl := hspl hdecl
  exact {
    belongs := fun i hi ↦ by
      obtain ⟨a, nf, -, ha, hnf, -, hmem⟩ := hcomp.instance_of_mem i hi
      exact ⟨a, nf, ha, hnf, hmem⟩
    complete := hspl.complete
    packetIn_first := fun i hi a act ha hact ↦ (hspl.taken i hi a act ha hact).1
    packetOut_last := fun i hi a act ha hact ↦ (hspl.taken i hi a act ha hact).2
    depends_iff := hcomp.depends_iff
    depends_mem := hcomp.depends_mem
    nodup := (hsim honce).dependencies
    bound := fun i hi a s ha hs ↦ by
      obtain ⟨hsome, hiff⟩ := hcomp.bound i hi a ha
      obtain ⟨q, hq⟩ := hsome s hs
      obtain ⟨si, hsi, hid, hstate⟩ := (hiff q).mp hq
      rw [hs, Option.some.injEq] at hstate
      exact ⟨q, si, hq, hsi, hid, hstate.symm⟩
    acyclic := fun hacyclic ↦ acyclic_of_composed hcomp b.stateInstanceList hacyclic }

/-- A chain is built from network functions that exist. -/
private theorem exists_chain_of_new {o : Objects} {nfs : List Nat} {sfc : Sfc}
    (hsfc : Sfc.new o nfs = some sfc) : ∃ chain, nfs.mapM (o.nfs[·]?) = some chain := by
  apply exists_mapM_eq_some
  intro k hk
  cases hnf : o.nfs[k]? with
  | some nf => exact ⟨nf, rfl⟩
  | none =>
    obtain ⟨n, hn⟩ := List.getElem?_of_mem hk
    have hround : ∀ b, Building.addNfInstance o nfs.length b (k, n) = none := by
      intro b
      unfold Building.addNfInstance
      rw [hnf]
      rfl
    rw [Sfc.new, foldlM_eq_none (List.mem_zipIdx_iff_getElem?.mpr hn) hround] at hsfc
    cases hsfc

/-- The references between the instances of every chain are sound. -/
theorem wellFormed_of_new {o : Objects} (ho : o.Created) {nfs : List Nat} {sfc : Sfc}
    (hsfc : Sfc.new o nfs = some sfc) : sfc.WellFormed := by
  obtain ⟨chain, hchain⟩ := exists_chain_of_new hsfc
  obtain ⟨b, hb, h, -, -⟩ := exists_building ho hchain
  rw [Sfc.new, hb] at hsfc
  cases hsfc
  have hget : ∀ i ∈ b.actionInstanceList, ∀ a, b.instances[i]? = some a →
      ∀ q, a.stateInstance = some q ↔ ∃ si, b.stateInstanceList[q]? = some si ∧
        si.nfId = a.nfId ∧ stateOf o a = some si.state :=
    fun i hi a ha ↦ (h.bound i hi a ha).2
  exact {
    instance_mem := fun i hi ↦ by
      obtain ⟨a, -, -, ha, -⟩ := h.instance_of_mem i hi
      exact ⟨a, ha⟩
    action_mem := fun i hi a ha ↦ by
      obtain ⟨a', -, act, ha', -, hact, -⟩ := h.instance_of_mem i hi
      rw [show b.instances[i]? = some a from ha, Option.some.injEq] at ha'
      subst ha'
      exact ⟨act, hact⟩
    dependency_mem := h.depends_mem
    user_iff := fun q s hq i ↦ by
      refine ((h.user_iff q s hq).2 i).trans (and_congr_right fun hi ↦ ?_)
      refine exists_congr fun a ↦ and_congr_right fun ha ↦ ?_
      rw [hget i hi a ha]
      constructor
      · rintro ⟨hid, hs⟩
        exact ⟨s, hq, hid.symm, hs⟩
      · rintro ⟨s', hq', hid, hs⟩
        rw [show b.stateInstanceList[q]? = some s from hq, Option.some.injEq] at hq'
        subst hq'
        exact ⟨hid.symm, hs⟩
    nfId_eq := fun s hs i hi a ha ↦ by
      obtain ⟨q, hq⟩ := List.getElem?_of_mem hs
      obtain ⟨-, a', ha', hid, -⟩ := ((h.user_iff q s hq).2 i).mp hi
      rw [show b.instances[i]? = some a from ha, Option.some.injEq] at ha'
      subst ha'
      exact hid
    state_mem := fun i hi a ha q hq ↦ by
      obtain ⟨si, hsi, -⟩ := (hget i hi a ha q).mp hq
      exact (List.getElem?_eq_some_iff.mp hsi).1 }

/-- Exactly the instances of actions with a state are bound to a state instance. -/
theorem stateInstance_eq_none_iff {o : Objects} (ho : o.Created) {nfs : List Nat} {sfc : Sfc}
    (hsfc : Sfc.new o nfs = some sfc) {i : Nat} (hi : i ∈ sfc.actionInstanceList)
    {a : ActionInstance} (ha : sfc.instances[i]? = some a) :
    a.stateInstance = none ↔ stateOf sfc.objects a = none := by
  obtain ⟨chain, hchain⟩ := exists_chain_of_new hsfc
  obtain ⟨b, hb, h, -, -⟩ := exists_building ho hchain
  rw [Sfc.new, hb] at hsfc
  cases hsfc
  obtain ⟨hsome, hiff⟩ := h.bound i hi a ha
  constructor
  · intro hnone
    by_contra hne
    obtain ⟨s, hs⟩ := Option.ne_none_iff_exists'.mp hne
    obtain ⟨q, hq⟩ := hsome s hs
    rw [hnone] at hq
    cases hq
  · intro hnone
    by_contra hne
    obtain ⟨q, hq⟩ := Option.ne_none_iff_exists'.mp hne
    obtain ⟨si, -, -, hs⟩ := (hiff q).mp hq
    rw [show stateOf o a = none from hnone] at hs
    cases hs

/-- An instance depends on instances of its network function and of the one before only. -/
theorem nfIdOf_of_depends {o : Objects} (ho : o.Created) {nfs : List Nat} {sfc : Sfc}
    (hsfc : Sfc.new o nfs = some sfc) {i j : Nat} (hj : j ∈ sfc.actionInstanceList)
    (hdep : sfc.Depends i j) :
    sfc.nfIdOf i = sfc.nfIdOf j ∨ sfc.nfIdOf i + 1 = sfc.nfIdOf j := by
  obtain ⟨chain, hchain⟩ := exists_chain_of_new hsfc
  obtain ⟨b, hb, h, -, -⟩ := exists_building ho hchain
  rw [Sfc.new, hb] at hsfc
  cases hsfc
  obtain ⟨a, c, ha, hc, hbefore, -⟩ := depends_cases h hj hdep
  simp only [Sfc.nfIdOf, ha, hc]
  exact hbefore.imp And.left And.left

/-- A state instance that an action uses is one of a state that exists. -/
theorem exists_state_of_new {o : Objects} (ho : o.Created) {nfs : List Nat} {sfc : Sfc}
    (hsfc : Sfc.new o nfs = some sfc) {s : StateInstance} (hs : s ∈ sfc.stateInstanceList)
    (hused : s.actionInstanceList ≠ []) : ∃ state, sfc.objects.states[s.state]? = some state := by
  obtain ⟨chain, hchain⟩ := exists_chain_of_new hsfc
  obtain ⟨b, hb, h, -, -⟩ := exists_building ho hchain
  rw [Sfc.new, hb] at hsfc
  cases hsfc
  obtain ⟨q, hq⟩ := List.getElem?_of_mem hs
  obtain ⟨i, hi⟩ := List.exists_mem_of_ne_nil _ hused
  obtain ⟨-, a, -, -, hstate⟩ := ((h.user_iff q s hq).2 i).mp hi
  obtain ⟨act, hact, hstate⟩ := Option.bind_eq_some_iff.mp hstate
  have hlt := ho.state_lt act (List.mem_of_getElem? hact) s.state hstate
  exact ⟨o.states[s.state], List.getElem?_eq_getElem hlt⟩

/-- The system actions and an action between them that uses a state. -/
def monitorActions : Objects :=
  ⟨[⟨"counter", false, 0⟩],
    [⟨0, "packet_in", false, [], none, none⟩, ⟨3, "monitor", true, [0], some 0, none⟩,
      ⟨1, "packet_out", false, [1], none, none⟩], []⟩

/-- A network function of these actions, which lists the one in between as often as given. -/
def monitorObjects (times : Nat) : Objects :=
  match monitorActions.newNf "monitor" ([0] ++ List.replicate times 1 ++ [2]) [] with
  | some r => r.1
  | none => monitorActions

private theorem monitorActions_created : monitorActions.Created := by
  refine .action (o := ⟨_, [_, _], _⟩) ⟨1, "packet_out", false, [1], none, none⟩ ?_ rfl
    (fun _ hs ↦ nomatch hs) (by decide)
  refine .action (o := ⟨_, [_], _⟩) ⟨3, "monitor", true, [0], some 0, none⟩ ?_ rfl
    (fun _ hs ↦ by cases hs; decide) (by decide)
  refine .action (o := ⟨_, [], _⟩) ⟨0, "packet_in", false, [], none, none⟩ ?_ rfl
    (fun _ hs ↦ nomatch hs) (by decide)
  exact .state ⟨"counter", false, 0⟩ .empty

/-- These objects come from constructor calls. -/
theorem monitorObjects_created {times : Nat}
    (h : (monitorActions.newNf "monitor" ([0] ++ List.replicate times 1 ++ [2]) []).isSome) :
    (monitorObjects times).Created := by
  obtain ⟨⟨o, k⟩, hnew⟩ := Option.isSome_iff_exists.mp h
  rw [monitorObjects, hnew]
  exact .nf _ _ _ k monitorActions_created hnew

private theorem monitor_declares {o : Objects} {nf : Nf} (h0 : 0 ∈ nf.actionList)
    (h2 : 2 ∈ nf.actionList) (hne : nf.lastActionsBeforePacketOut ≠ [])
    (hone : ∀ i ∈ nf.lastActionsBeforePacketOut, i = 1)
    (ho : o.actions = (monitorObjects 1).actions) : nf.Declares o where
  packetIn := ⟨0, h0, ⟨0, "packet_in", false, [], none, some 0⟩, by rw [ho]; rfl, rfl⟩
  packetOut := ⟨2, h2, ⟨1, "packet_out", false, [1], none, some 0⟩, by rw [ho]; rfl, rfl⟩
  last := hne
  last_system i hi a ha := by
    rw [hone i hi, ho] at ha
    cases ha
    decide

/-- An action that follows `packet_in` and precedes `packet_out` and is listed twice has one
instance, on which the next network function depends twice. -/
theorem monitor_twice_not_nodup : ∃ sfc chain,
    (monitorObjects 2).Created ∧
    [0, 0].mapM ((monitorObjects 2).nfs[·]?) = some chain ∧
    (∀ nf ∈ chain, nf.Declares (monitorObjects 2)) ∧
    Sfc.new (monitorObjects 2) [0, 0] = some sfc ∧
    ¬ ∀ j ∈ sfc.actionInstanceList, ∀ c, sfc.instances[j]? = some c → c.dependencyList.Nodup := by
  refine ⟨(Sfc.new (monitorObjects 2) [0, 0]).get (by decide),
    List.replicate 2 ⟨[], "monitor", [0, 1, 1, 2], [1, 1], [1, 1], [0]⟩,
    monitorObjects_created (by decide), rfl, ?_, (Option.some_get _).symm, fun h ↦ ?_⟩
  · intro nf hnf
    rw [List.eq_of_mem_replicate hnf]
    exact monitor_declares (by decide) (by decide) (by decide) (by decide) rfl
  · exact absurd (h 3 (by decide) ⟨1, 1, some 1, [0, 0]⟩ (by decide)) (by decide)

/-- A chain of the same network function twice. -/
theorem monitor_composes : ∃ sfc, Sfc.new (monitorObjects 1) [0, 0] = some sfc ∧
    sfc.objects = monitorObjects 1 ∧
    sfc.Composes (List.replicate 2 ⟨[], "monitor", [0, 1, 2], [1], [1], [0]⟩) := by
  refine exists_sfc_composes (monitorObjects_created (by decide)) rfl ?_ ?_
  · intro nf hnf
    rw [List.eq_of_mem_replicate hnf]
    exact monitor_declares (by decide) (by decide) (by decide) (by decide) rfl
  · intro nf hnf
    rw [List.eq_of_mem_replicate hnf]
    unfold Nf.ListsOnce
    decide

end Nflambda.Chain
