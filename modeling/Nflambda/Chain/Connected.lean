import Nflambda.Chain.Composed

/-!
# The connections between the executions of a chain

Library `Chain`. When the third loop of `execution_model.scaling`,
`src/director/em/em.py:52–69`, connects every execution of an action to the executions of the
actions that depend on it.
-/

namespace Nflambda.Chain

open Nflambda.Base

/-- Every execution of action instance `i` is in the dependency list of an execution of `j`, and
every execution of `j` has an execution of `i` in its dependency list. -/
structure PairConnected (em : ExecutionModel) (i j : Nat) : Prop where
  left : ∀ (k : Nat) (a : ActionInstanceExecution), em.actionInstanceExecutionList[k]? = some a →
    a.actionInstance = i →
    ∃ b ∈ em.actionInstanceExecutionList, b.actionInstance = j ∧ k ∈ b.dependencyList
  right : ∀ b ∈ em.actionInstanceExecutionList, b.actionInstance = j →
    ∃ k a, em.actionInstanceExecutionList[k]? = some a ∧ a.actionInstance = i ∧
      k ∈ b.dependencyList

/-- The executions of every two action instances of which one depends on the other are
connected. -/
def Connected (em : ExecutionModel) : Prop :=
  ∀ i ∈ em.sfc.actionInstanceList, ∀ j ∈ em.sfc.actionInstanceList, em.sfc.Depends i j →
    PairConnected em i j

/-- Executions depend on executions of the action instances that theirs depends on only. -/
def DependsAsDeclared (em : ExecutionModel) : Prop :=
  ∀ b ∈ em.actionInstanceExecutionList, ∀ k ∈ b.dependencyList,
    ∃ a, em.actionInstanceExecutionList[k]? = some a ∧
      em.sfc.Depends a.actionInstance b.actionInstance

/-- Executions with numbers below `m'` and `n'` of instances with the counts `m` and `n` are chosen
so that all of them are reached. -/
def CountsConnect (m n m' n' : Nat) : Prop :=
  (m = n ∧ m' = n') ∨ (m < n ∧ m' = 1) ∨ (n < m ∧ n' = 1)

/-- Of two action instances one of which depends on the other, the latter comes first, and their
counts are equal or one of them is 1. -/
def PlanConnects (sfc : Sfc) (plan : List Nat) : Prop :=
  ∀ i ∈ sfc.actionInstanceList, ∀ j ∈ sfc.actionInstanceList, sfc.Depends i j →
    sfc.actionInstanceList.idxOf i < sfc.actionInstanceList.idxOf j ∧
      CountsConnect (sfc.count plan i) (sfc.count plan j) (sfc.maxCount plan i)
        (sfc.maxCount plan j)

/-- The choice of executions by their numbers reaches all of them on both sides exactly when the
counts allow it. -/
private theorem countsConnect_iff {m n m' n' : Nat} (hm : 1 ≤ m) (hn : 1 ≤ n) (hm' : m ≤ m')
    (hn' : n ≤ n') :
    ((∀ x < m', ∃ y < n', if m < n then x % n = 0 else if n < m then y % m = 0 else x = y) ∧
      ∀ y < n', ∃ x < m', if m < n then x % n = 0 else if n < m then y % m = 0 else x = y) ↔
    CountsConnect m n m' n' := by
  unfold CountsConnect
  rcases Nat.lt_trichotomy m n with h | h | h
  · simp only [if_pos h]
    constructor
    · rintro ⟨hx, -⟩
      by_contra hne
      obtain ⟨y, -, hy⟩ := hx 1 (by omega)
      rw [Nat.mod_eq_of_lt (by omega)] at hy
      omega
    · intro hone
      have hm1 : m' = 1 := by omega
      refine ⟨fun x hx ↦ ⟨0, by omega, ?_⟩, fun y _ ↦ ⟨0, by omega, Nat.zero_mod n⟩⟩
      rw [show x = 0 by omega, Nat.zero_mod]
  · subst h
    simp only [Nat.lt_irrefl, if_false, true_and, false_and, or_false]
    constructor
    · rintro ⟨hx, hy⟩
      by_contra hne
      rcases Nat.lt_or_gt_of_ne hne with hlt | hlt
      · obtain ⟨x, hxlt, hxeq⟩ := hy m' hlt
        omega
      · obtain ⟨y, hylt, hyeq⟩ := hx n' hlt
        omega
    · rintro rfl
      exact ⟨fun x hx ↦ ⟨x, hx, rfl⟩, fun y hy ↦ ⟨y, hy, rfl⟩⟩
  · simp only [if_neg (Nat.lt_asymm h), if_pos h]
    constructor
    · rintro ⟨-, hy⟩
      by_contra hne
      obtain ⟨x, -, hx⟩ := hy 1 (by omega)
      rw [Nat.mod_eq_of_lt (by omega)] at hx
      omega
    · intro hone
      have hn1 : n' = 1 := by omega
      refine ⟨fun x _ ↦ ⟨0, by omega, Nat.zero_mod m⟩, fun y hy ↦ ⟨0, by omega, ?_⟩⟩
      rw [show y = 0 by omega, Nat.zero_mod]

/-- The executions of an instance and of one that depends on it are connected exactly when the
former comes first and the counts allow it. -/
theorem pairConnected_iff {sfc : Sfc} {plan : List Nat}
    (hlen : plan.length = sfc.actionInstanceList.length) (hpos : ∀ n ∈ plan, 1 ≤ n)
    {i j : Nat} (hi : i ∈ sfc.actionInstanceList) (hj : j ∈ sfc.actionInstanceList)
    (hdep : sfc.Depends i j) :
    PairConnected ⟨sfc, plan, scaledExecutions sfc plan, stateExecutions sfc plan⟩ i j ↔
      sfc.actionInstanceList.idxOf i < sfc.actionInstanceList.idxOf j ∧
        CountsConnect (sfc.count plan i) (sfc.count plan j) (sfc.maxCount plan i)
          (sfc.maxCount plan j) := by
  have hexec : ∀ {l : Nat}, l ∈ sfc.actionInstanceList → ∀ x < sfc.maxCount plan l,
      ∃ k : Nat, (executions sfc plan)[k]? = some ⟨l, sfc.nfIdOf l, x, none, [], -1⟩ := by
    intro l hl x hx
    exact List.getElem?_of_mem (mem_executions_iff.mpr ⟨l, hl, x, hx, rfl⟩)
  have hexec' : ∀ {e : ActionInstanceExecution}, e ∈ executions sfc plan →
      e.executionId < sfc.maxCount plan e.actionInstance := by
    intro e he
    obtain ⟨l, hl, x, hx, rfl⟩ := mem_executions_iff.mp he
    exact hx
  rw [← countsConnect_iff (one_le_count hlen hpos hi) (one_le_count hlen hpos hj)
    (count_le_maxCount hlen hi) (count_le_maxCount hlen hj)]
  constructor
  · intro hc
    have hleft : ∀ x < sfc.maxCount plan i, ∃ y < sfc.maxCount plan j,
        Linked sfc plan ⟨i, sfc.nfIdOf i, x, none, [], -1⟩ ⟨j, sfc.nfIdOf j, y, none, [], -1⟩ := by
      intro x hx
      obtain ⟨k, hk⟩ := hexec hi x hx
      obtain ⟨b, hb, hbj, hkb⟩ := hc.left k _ (getElem?_scaledExecutions.mpr ⟨_, hk, rfl⟩) rfl
      obtain ⟨k', hk'⟩ := List.getElem?_of_mem hb
      obtain ⟨e, he, rfl⟩ := getElem?_scaledExecutions.mp hk'
      obtain ⟨e', he', hlinked⟩ := mem_linkedTo_iff.mp hkb
      rw [hk, Option.some.injEq] at he'
      subst he'
      have hlt := hexec' (List.mem_of_getElem? he)
      have hej : e.actionInstance = j := hbj
      rw [hej] at hlt
      refine ⟨e.executionId, hlt, ?_⟩
      have hsame := hlinked
      unfold Linked at hsame ⊢
      rwa [hej] at hsame
    have hright : ∀ y < sfc.maxCount plan j, ∃ x < sfc.maxCount plan i,
        Linked sfc plan ⟨i, sfc.nfIdOf i, x, none, [], -1⟩ ⟨j, sfc.nfIdOf j, y, none, [], -1⟩ := by
      intro y hy
      obtain ⟨k, hk⟩ := hexec hj y hy
      obtain ⟨k', a, hk', hai, hmem⟩ := hc.right _
        (List.mem_of_getElem? (getElem?_scaledExecutions.mpr ⟨_, hk, rfl⟩)) rfl
      obtain ⟨e, he, hlinked⟩ := mem_linkedTo_iff.mp hmem
      obtain ⟨e', he', rfl⟩ := getElem?_scaledExecutions.mp hk'
      rw [he, Option.some.injEq] at he'
      subst he'
      have hlt := hexec' (List.mem_of_getElem? he)
      have hei : e.actionInstance = i := hai
      rw [hei] at hlt
      refine ⟨e.executionId, hlt, ?_⟩
      unfold Linked at hlinked ⊢
      rwa [hei] at hlinked
    have hone : 0 < sfc.maxCount plan i :=
      Nat.lt_of_lt_of_le (one_le_count hlen hpos hi) (count_le_maxCount hlen hi)
    obtain ⟨y, -, hlinked⟩ := hleft 0 hone
    refine ⟨hlinked.1, fun x hx ↦ ?_, fun y hy ↦ ?_⟩
    · obtain ⟨y, hy, hl⟩ := hleft x hx
      exact ⟨y, hy, hl.2.2⟩
    · obtain ⟨x, hx, hl⟩ := hright y hy
      exact ⟨x, hx, hl.2.2⟩
  · rintro ⟨hidx, hleft, hright⟩
    constructor
    · intro k a hk hai
      obtain ⟨e, he, rfl⟩ := getElem?_scaledExecutions.mp hk
      have hei : e.actionInstance = i := hai
      have hlt := hexec' (List.mem_of_getElem? he)
      rw [hei] at hlt
      obtain ⟨y, hy, hn⟩ := hleft _ hlt
      obtain ⟨k', hk'⟩ := hexec hj y hy
      refine ⟨_, List.mem_of_getElem? (getElem?_scaledExecutions.mpr ⟨_, hk', rfl⟩), rfl,
        mem_linkedTo_iff.mpr ⟨e, he, ?_⟩⟩
      unfold Linked
      rw [hei]
      exact ⟨hidx, hdep, hn⟩
    · intro b hb hbj
      obtain ⟨k, hk⟩ := List.getElem?_of_mem hb
      obtain ⟨e, he, rfl⟩ := getElem?_scaledExecutions.mp hk
      have hej : e.actionInstance = j := hbj
      have hlt := hexec' (List.mem_of_getElem? he)
      rw [hej] at hlt
      obtain ⟨x, hx, hn⟩ := hright _ hlt
      obtain ⟨k', hk'⟩ := hexec hi x hx
      refine ⟨k', _, getElem?_scaledExecutions.mpr ⟨_, hk', rfl⟩, rfl,
        mem_linkedTo_iff.mpr ⟨_, hk', ?_⟩⟩
      unfold Linked
      rw [hej]
      exact ⟨hidx, hdep, hn⟩

/-- No execution depends on one of an instance that its own does not depend on. -/
theorem dependsAsDeclared (sfc : Sfc) (plan : List Nat) :
    DependsAsDeclared ⟨sfc, plan, scaledExecutions sfc plan, stateExecutions sfc plan⟩ := by
  intro b hb k hk
  obtain ⟨k', hk'⟩ := List.getElem?_of_mem hb
  obtain ⟨e, he, rfl⟩ := getElem?_scaledExecutions.mp hk'
  obtain ⟨e', he', hlinked⟩ := mem_linkedTo_iff.mp hk
  exact ⟨_, getElem?_scaledExecutions.mpr ⟨e', he', rfl⟩, hlinked.2.1⟩

/-- `scaling` connects all executions of the instances that depend on each other, and no others,
exactly when every state is used, an instance comes before those that depend on it, and the counts
of two such instances are equal or one of them is 1. -/
theorem scaling_connects_iff {o : Objects} (ho : o.Created) {nfs : List Nat} {sfc : Sfc}
    (hsfc : Sfc.new o nfs = some sfc) {plan : List Nat}
    (hlen : plan.length = sfc.actionInstanceList.length) (hpos : ∀ n ∈ plan, 1 ≤ n) :
    (∃ em, scaling sfc plan = some em ∧ Connected em ∧ DependsAsDeclared em) ↔
      (∀ s ∈ sfc.stateInstanceList, s.actionInstanceList ≠ []) ∧ PlanConnects sfc plan := by
  have h := wellFormed_of_new ho hsfc
  constructor
  · rintro ⟨em, hem, hconn, -⟩
    have hused : ∀ s ∈ sfc.stateInstanceList, s.actionInstanceList ≠ [] := by
      intro s hs hnil
      rw [scaling_eq_none hs hnil] at hem
      cases hem
    rw [scaling_eq_some h hlen hused, Option.some.injEq] at hem
    subst hem
    refine ⟨hused, fun i hi j hj hdep ↦ ?_⟩
    exact (pairConnected_iff hlen hpos hi hj hdep).mp (hconn i hi j hj hdep)
  · rintro ⟨hused, hplan⟩
    refine ⟨_, scaling_eq_some h hlen hused, fun i hi j hj hdep ↦ ?_, dependsAsDeclared sfc plan⟩
    exact (pairConnected_iff hlen hpos hi hj hdep).mpr (hplan i hi j hj hdep)

/-- With two executions of an action and three of the one that depends on it, the second one of the
former is connected to none of the latter. -/
theorem two_three_not_connected : ∃ sfc em, (monitorObjects 1).Created ∧
    Sfc.new (monitorObjects 1) [0] = some sfc ∧ sfc.actionInstanceList.length = 3 ∧
    scaling sfc [1, 2, 3] = some em ∧ ¬ Connected em := by
  refine ⟨(Sfc.new (monitorObjects 1) [0]).get (by decide),
    (scaling ((Sfc.new (monitorObjects 1) [0]).get (by decide)) [1, 2, 3]).get (by decide),
    monitorObjects_created (by decide), (Option.some_get _).symm, by decide,
    (Option.some_get _).symm, fun h ↦ ?_⟩
  obtain ⟨b, hb, -, hmem⟩ := (h 0 (by decide) 2 (by decide) (by decide)).left 2
    ⟨0, 0, 1, some 1, [0], -1⟩ (by decide) rfl
  revert b
  decide

/-- With one execution of the first action and two of each other one, all are connected. -/
theorem one_two_two_connected : ∃ em,
    scaling ((Sfc.new (monitorObjects 1) [0]).get (by decide)) [1, 2, 2] = some em ∧
      Connected em ∧ DependsAsDeclared em := by
  refine (scaling_connects_iff (monitorObjects_created (by decide)) (Option.some_get _).symm
    (by decide) (by decide)).mpr ⟨by decide, ?_⟩
  unfold PlanConnects CountsConnect
  decide

end Nflambda.Chain
