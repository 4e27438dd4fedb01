import Mathlib.Data.List.Sort
import Nflambda.Base.Blocks
import Nflambda.Runtime.ElementSet

/-!
# Splitting a set of cores

Library `Runtime`. Source `set_split`, `src/runtime/common/set.c:123–156`, on the operations of
`ElementSet`. A set is represented by the sorted list of its members, of which popping takes the
first and inserting a larger one appends.
-/

namespace Nflambda.Runtime.ElementSet

open Nflambda.Base

/-! ### The source -/

/-- `set_size_list` after its two loops, `set.c:126–138`. -/
def setSizeList (elementNum : Int) (num : Nat) : List Int :=
  let numPerSubset := elementNum.tdiv num
  let remainder := elementNum - num * numPerSubset
  (List.range num).map fun i : Nat ↦
    if (i : Int) < remainder then numPerSubset + 1 else numPerSubset

/-- The inner loop of `set_split`, `set.c:145–151`: so many members are popped from the copy and
inserted in the subset. -/
def moveElements (limit : Nat) : Nat → ElementSet × ElementSet → Option (ElementSet × ElementSet)
  | 0, sets => some sets
  | size + 1, (setCopied, subset) => do
    let (setCopied, i) ← setPop limit setCopied
    let subset ← setInsert subset i
    moveElements limit size (setCopied, subset)

/-- The outer loop of `set_split`, `set.c:141–152`, on the sizes of the subsets. -/
def fillSubsets (limit : Nat) : List Int → ElementSet → Option (List ElementSet)
  | [], _ => some []
  | size :: sizes, setCopied => do
    let (setCopied, subset) ← moveElements limit size.toNat (setCopied, setCreate)
    let setList ← fillSubsets limit sizes setCopied
    return subset :: setList

/-- `set_split`, `set.c:123–156`: the set after the call and the subsets. A division by zero is a
fault. -/
def setSplit (limit : Nat) (set : ElementSet) (num : Nat) :
    Option (ElementSet × List ElementSet) :=
  if num = 0 then none
  else do
    let setList ← fillSubsets limit (setSizeList set.num.toInt num) (setCopy set)
    return (set, setList)

/-! ### Sets as sorted lists -/

/-- The set has these members, in increasing order, and `num` counts them. -/
structure Holds (s : ElementSet) (l : List Nat) : Prop where
  sorted : l.Pairwise (· < ·)
  mem : ∀ i, i ∈ l ↔ ∃ h : i < ELEMENT_NUM, s.element ⟨i, h⟩ = true
  num : s.num.toNat = l.length

theorem holds_members {s : ElementSet} (h : s.Counted) : Holds s s.members :=
  ⟨pairwise_members s, fun _ ↦ mem_members, h⟩

theorem Holds.members_eq {s : ElementSet} {l : List Nat} (h : Holds s l) : s.members = l :=
  (pairwise_members s).eq_of_mem_iff h.sorted fun i ↦ mem_members.trans (h.mem i).symm

theorem Holds.counted {s : ElementSet} {l : List Nat} (h : Holds s l) : s.Counted := by
  rw [Counted, h.members_eq]
  exact h.num

theorem holds_setCreate : Holds setCreate [] :=
  ⟨List.Pairwise.nil, fun i ↦ by simp [setCreate], rfl⟩

theorem Holds.length_le {s : ElementSet} {l : List Nat} (h : Holds s l) : l.length ≤ 100 := by
  rw [← h.members_eq]
  exact (List.length_filter_le _ _).trans_eq List.length_range

theorem Holds.lt {s : ElementSet} {l : List Nat} (h : Holds s l) {i : Nat} (hi : i ∈ l) :
    i < ELEMENT_NUM := ((h.mem i).mp hi).1

/-- The smallest member is where the search stops. -/
theorem Holds.skipFalse_eq {limit : Nat} {s : ElementSet} {i : Nat} {l : List Nat}
    (h : Holds s (i :: l)) (hlimit : ELEMENT_NUM ≤ limit) : skipFalse s limit 0 = some i := by
  obtain ⟨hlt, hmem⟩ := (h.mem i).mp List.mem_cons_self
  have hroom : i < 100 := hlt
  have hlimit' : 100 ≤ limit := hlimit
  apply skipFalse_eq_some_iff.mpr
  refine ⟨Nat.zero_le i, by omega, (elementAt_ne_zero_iff s hlt).mpr hmem, fun k _ hk ↦ ?_⟩
  by_contra hne
  have hklt : k < ELEMENT_NUM := Nat.lt_trans hk hlt
  have hkmem : k ∈ i :: l := (h.mem k).mpr ⟨hklt, (elementAt_ne_zero_iff s hklt).mp hne⟩
  rcases List.mem_cons.mp hkmem with rfl | hkl
  · omega
  · have hik := (List.pairwise_cons.mp h.sorted).1 k hkl
    omega

/-- A member is deleted from the front. -/
theorem Holds.setDelete {s : ElementSet} {i : Nat} {l : List Nat} (h : Holds s (i :: l)) :
    ∃ s', setDelete s i = some s' ∧ Holds s' l := by
  obtain ⟨hlt, hmem⟩ := (h.mem i).mp List.mem_cons_self
  obtain ⟨hbefore, hsorted⟩ := List.pairwise_cons.mp h.sorted
  rw [ElementSet.setDelete, dif_pos hlt, if_pos hmem]
  refine ⟨_, rfl, hsorted, fun k ↦ ?_, ?_⟩
  · constructor
    · intro hk
      have hki : k ≠ i := (hbefore k hk).ne'
      obtain ⟨hklt, hkmem⟩ := (h.mem k).mp (List.mem_cons_of_mem i hk)
      refine ⟨hklt, ?_⟩
      dsimp only
      rw [Function.update_of_ne (fun heq ↦ hki (Fin.ext_iff.mp heq))]
      exact hkmem
    · rintro ⟨hklt, hkmem⟩
      dsimp only at hkmem
      by_cases hki : k = i
      · subst hki
        rw [Function.update_self] at hkmem
        cases hkmem
      · rw [Function.update_of_ne (fun heq ↦ hki (Fin.ext_iff.mp heq))] at hkmem
        exact (List.mem_cons.mp ((h.mem k).mpr ⟨hklt, hkmem⟩)).resolve_left hki
  · have hnum := h.num
    have hlen := h.length_le
    rw [List.length_cons] at hnum hlen
    dsimp only
    rw [BitVec.toNat_sub_of_le (by rw [BitVec.le_def]; simp; omega), hnum]
    simp

/-- Popping takes the smallest member. -/
theorem Holds.setPop {limit : Nat} {s : ElementSet} {i : Nat} {l : List Nat}
    (h : Holds s (i :: l)) (hlimit : ELEMENT_NUM ≤ limit) :
    ∃ s', setPop limit s = some (s', i) ∧ Holds s' l := by
  obtain ⟨hlt, hmem⟩ := (h.mem i).mp List.mem_cons_self
  obtain ⟨s', hdelete, hholds⟩ := h.setDelete
  refine ⟨s', ?_, hholds⟩
  have hend : i ≠ 100 := Nat.ne_of_lt hlt
  have hget : setIteratorGet limit ⟨setCopy s, i⟩ = some 1#16 := by
    rw [setIteratorGet, if_pos (Nat.lt_of_lt_of_le hlt hlimit), elementAt_of_lt _ hlt]
    exact congrArg some (if_pos hmem)
  have hskip : skipFalse (setCopy s) limit 0 = some i := h.skipFalse_eq hlimit
  rw [ElementSet.setPop, setIteratorCreate, hskip, Option.map_some]
  show popFrom limit s (OBJECT_NUM + 1) ⟨setCopy s, i⟩ = _
  rw [popFrom, if_neg hend, hget]
  simp [hdelete]

/-- The set has these members, in any order, and `num` counts them. -/
structure Collects (s : ElementSet) (l : List Nat) : Prop where
  nodup : l.Nodup
  mem : ∀ i, i ∈ l ↔ ∃ h : i < ELEMENT_NUM, s.element ⟨i, h⟩ = true
  num : s.num.toNat = l.length

theorem Collects.perm {s : ElementSet} {l : List Nat} (h : Collects s l) : s.members.Perm l :=
  (List.perm_ext_iff_of_nodup ((pairwise_members s).imp Nat.ne_of_lt) h.nodup).mpr
    fun i ↦ mem_members.trans (h.mem i).symm

theorem Collects.counted {s : ElementSet} {l : List Nat} (h : Collects s l) : s.Counted :=
  h.num.trans h.perm.length_eq.symm

theorem Holds.collects {s : ElementSet} {l : List Nat} (h : Holds s l) : Collects s l :=
  ⟨h.sorted.imp Nat.ne_of_lt, h.mem, h.num⟩

/-- A new element is inserted. -/
theorem Collects.setInsert {s : ElementSet} {l : List Nat} {i : Nat} (h : Collects s l)
    (hlt : i < ELEMENT_NUM) (hnew : i ∉ l) :
    ∃ s', setInsert s i = some s' ∧ Collects s' (l ++ [i]) := by
  have hfalse : s.element ⟨i, hlt⟩ = false := by
    rw [Bool.eq_false_iff]
    intro hmem
    exact hnew ((h.mem i).mpr ⟨hlt, hmem⟩)
  rw [ElementSet.setInsert, dif_pos hlt, if_pos hfalse]
  refine ⟨_, rfl, ?_, fun k ↦ ?_, ?_⟩
  · rw [List.nodup_append]
    refine ⟨h.nodup, List.nodup_singleton i, fun k hk j hj ↦ ?_⟩
    rw [List.mem_singleton.mp hj]
    rintro rfl
    exact hnew hk
  · rw [List.mem_append, List.mem_singleton, h.mem]
    dsimp only
    by_cases hki : k = i
    · subst hki
      simp [hlt]
    · simp only [hki, or_false]
      refine exists_congr fun hk ↦ ?_
      rw [Function.update_of_ne (fun heq ↦ hki (Fin.ext_iff.mp heq))]
  · have hnum := h.num
    have hlen : l.length ≤ 100 := by
      rw [← h.perm.length_eq]
      exact (List.length_filter_le _ _).trans_eq List.length_range
    dsimp only
    rw [BitVec.toNat_add, hnum, List.length_append, List.length_singleton]
    exact Nat.mod_eq_of_lt (show l.length + 1 < 2 ^ 32 by omega)

/-- A larger element is inserted behind the others. -/
theorem Holds.setInsert {s : ElementSet} {l : List Nat} {i : Nat} (h : Holds s l)
    (hlt : i < ELEMENT_NUM) (hlarger : ∀ k ∈ l, k < i) :
    ∃ s', setInsert s i = some s' ∧ Holds s' (l ++ [i]) := by
  have hnew : i ∉ l := fun hmem ↦ Nat.lt_irrefl i (hlarger i hmem)
  obtain ⟨s', hinsert, hcollects⟩ := h.collects.setInsert hlt hnew
  refine ⟨s', hinsert, ?_, hcollects.mem, hcollects.num⟩
  rw [List.pairwise_append]
  refine ⟨h.sorted, List.pairwise_singleton .., fun k hk j hj ↦ ?_⟩
  rw [List.mem_singleton.mp hj]
  exact hlarger k hk

/-- A set from which something is popped has a member. -/
theorem exists_mem_of_setPop {limit : Nat} {s : ElementSet} {r : ElementSet × Nat}
    (h : setPop limit s = some r) : ∃ i, s.element i = true := by
  have hpop : ∀ (calls : Nat) (it : SetIterator), it.set = s →
      popFrom limit s calls it = some r → ∃ i, s.element i = true := by
    intro calls
    induction calls with
    | zero => exact fun _ _ hpop ↦ nomatch hpop
    | succ calls ih =>
      intro it hset hpop
      rw [popFrom] at hpop
      split at hpop
      · cases hpop
      · simp only [Option.bind_eq_bind, Option.bind_eq_some_iff] at hpop
        obtain ⟨v, hv, hpop⟩ := hpop
        split at hpop
        · next hone =>
          simp only [Option.bind_eq_some_iff] at hpop
          obtain ⟨s', hdelete, -⟩ := hpop
          unfold setIteratorGet at hv
          split at hv
          · rw [hone, hset] at hv
            have hlt : it.index < ELEMENT_NUM := by
              by_contra hge
              rw [ElementSet.setDelete, dif_neg hge] at hdelete
              cases hdelete
            have hne : s.elementAt it.index ≠ 0#16 := by
              rw [Option.some.inj hv]
              decide
            exact ⟨⟨it.index, hlt⟩, (elementAt_ne_zero_iff s hlt).mp hne⟩
          · cases hv
        · simp only [Option.bind_eq_some_iff] at hpop
          obtain ⟨next, hnext, hpop⟩ := hpop
          have hnextset : next.set = s := by
            unfold setIteratorNext at hnext
            split at hnext
            · rw [← Option.some.inj hnext, hset]
            · obtain ⟨j, -, rfl⟩ := Option.map_eq_some_iff.mp hnext
              exact hset
          exact ih next hnextset hpop
  simp only [ElementSet.setPop, setIteratorCreate, Option.bind_eq_bind, Option.bind_eq_some_iff,
    Option.map_eq_some_iff] at h
  obtain ⟨_, ⟨j, -, rfl⟩, hpop'⟩ := h
  exact hpop _ _ rfl hpop'

/-! ### Splitting -/

/-- The inner loop moves the smallest members. -/
theorem moveElements_eq {limit : Nat} (hlimit : ELEMENT_NUM ≤ limit) (size : Nat) :
    ∀ {s t : ElementSet} {l m : List Nat}, Holds s l → Holds t m → size ≤ l.length →
      (∀ i ∈ m, ∀ j ∈ l, i < j) →
      ∃ s' t', moveElements limit size (s, t) = some (s', t') ∧ Holds s' (l.drop size) ∧
        Holds t' (m ++ l.take size) := by
  induction size with
  | zero =>
    intro s t l m hs ht _ _
    refine ⟨s, t, rfl, hs, ?_⟩
    rw [List.take_zero, List.append_nil]
    exact ht
  | succ size ih =>
    intro s t l m hs ht hsize hbelow
    cases l with
    | nil => simp at hsize
    | cons i l =>
      obtain ⟨s₁, hpop, hs₁⟩ := hs.setPop hlimit
      obtain ⟨t₁, hinsert, ht₁⟩ :=
        ht.setInsert (hs.lt List.mem_cons_self) fun k hk ↦ hbelow k hk i List.mem_cons_self
      have hbelow' : ∀ k ∈ m ++ [i], ∀ j ∈ l, k < j := by
        intro k hk j hj
        rcases List.mem_append.mp hk with hk | hk
        · exact hbelow k hk j (List.mem_cons_of_mem i hj)
        · rw [List.mem_singleton.mp hk]
          exact (List.pairwise_cons.mp hs.sorted).1 j hj
      obtain ⟨s', t', hmove, hs', ht'⟩ := ih hs₁ ht₁ (by simpa using hsize) hbelow'
      refine ⟨s', t', ?_, hs', ?_⟩
      · rw [moveElements, hpop]
        simp only [Option.bind_eq_bind, Option.bind_some, hinsert]
        exact hmove
      · rw [List.append_assoc, List.singleton_append] at ht'
        exact ht'

/-- The outer loop cuts the members into blocks. -/
theorem fillSubsets_eq {limit : Nat} (hlimit : ELEMENT_NUM ≤ limit) (sizes : List Nat) :
    ∀ {s : ElementSet} {l : List Nat}, Holds s l → sizes.sum ≤ l.length →
      ∃ setList, fillSubsets limit (sizes.map fun size : Nat ↦ (size : Int)) s = some setList ∧
        List.Forall₂ Holds setList (blocks sizes l) := by
  induction sizes with
  | nil => exact fun _ _ ↦ ⟨[], rfl, .nil⟩
  | cons size sizes ih =>
    intro s l hs hsum
    rw [List.sum_cons] at hsum
    obtain ⟨s', t, hmove, hs', ht⟩ :=
      moveElements_eq hlimit size hs holds_setCreate (by omega) (by simp)
    obtain ⟨setList, hfill, hholds⟩ := ih hs' (by rw [List.length_drop]; omega)
    refine ⟨t :: setList, ?_, .cons ht hholds⟩
    rw [List.map_cons, fillSubsets, Int.toNat_natCast, hmove]
    simp only [Option.bind_eq_bind, Option.bind_some, hfill]
    rfl

/-- The sizes are balanced. -/
theorem setSizeList_eq (n k : Nat) :
    setSizeList n k = (balancedSizes n k).map fun size : Nat ↦ (size : Int) := by
  have hdiv : (n : Int).tdiv k = ((n / k : Nat) : Int) := by
    rw [Int.tdiv_eq_ediv_of_nonneg (by omega)]
    rfl
  have hmod : (n : Int) - k * ((n / k : Nat) : Int) = ((n % k : Nat) : Int) := by
    have hsum := Nat.div_add_mod n k
    rw [← Int.natCast_mul]
    omega
  rw [setSizeList, hdiv, hmod, balancedSizes, List.map_map]
  apply List.map_congr_left
  intro i _
  dsimp only [Function.comp]
  split <;> split <;> omega

/-- Splitting a set with sorted members `l` yields the balanced blocks of `l`. -/
theorem setSplit_eq {limit : Nat} (hlimit : ELEMENT_NUM ≤ limit) {s : ElementSet} {l : List Nat}
    (h : Holds s l) {k : Nat} (hk : 0 < k) :
    ∃ setList, setSplit limit s k = some (s, setList) ∧
      List.Forall₂ Holds setList (blocks (balancedSizes l.length k) l) := by
  have hlen := h.length_le
  have hnum : s.num.toInt = ((l.length : Nat) : Int) := by
    rw [BitVec.toInt_eq_toNat_of_lt (by rw [h.num]; omega), h.num]
  obtain ⟨setList, hfill, hholds⟩ := fillSubsets_eq hlimit (balancedSizes l.length k)
    (s := setCopy s) ⟨h.sorted, h.mem, h.num⟩ (sum_balancedSizes _ hk).le
  refine ⟨setList, ?_, hholds⟩
  rw [setSplit, if_neg (by omega), hnum, setSizeList_eq, hfill]
  rfl

theorem map_members_of_holds {setList : List ElementSet} {ls : List (List Nat)}
    (h : List.Forall₂ Holds setList ls) : setList.map members = ls := by
  induction h with
  | nil => rfl
  | cons hs _ ih => rw [List.map_cons, hs.members_eq, ih]

theorem counted_of_holds {setList : List ElementSet} {ls : List (List Nat)}
    (h : List.Forall₂ Holds setList ls) : ∀ t ∈ setList, t.Counted := by
  induction h with
  | nil => simp
  | cons hs _ ih =>
    intro t ht
    rcases List.mem_cons.mp ht with rfl | ht
    · exact hs.counted
    · exact ih t ht

theorem mem_members_fin {s : ElementSet} {i : Fin ELEMENT_NUM} :
    i.val ∈ s.members ↔ s.element i = true :=
  mem_members.trans ⟨fun ⟨_, h⟩ ↦ h, fun h ↦ ⟨i.isLt, h⟩⟩

/-- `set_split` partitions a set into `k` sets that count their members. They are disjoint and
cover the set; the members of an earlier one are smaller than those of a later one, and it has as
many of them or one more. The set itself is left as it is. No read goes behind `element`, and as
`set_pop` has no value on an empty set, it is not applied to one. -/
theorem set_split_balanced (s : ElementSet) (k : Nat) (hcounted : s.Counted) (hk : 0 < k) :
    ∃ setList, setSplit ELEMENT_NUM s k = some (s, setList) ∧
      setList.length = k ∧
      (∀ t ∈ setList, t.Counted) ∧
      (∀ i, s.element i = true ↔ ∃ t ∈ setList, t.element i = true) ∧
      setList.Pairwise (fun t u ↦ ∀ i, ¬ (t.element i = true ∧ u.element i = true)) ∧
      setList.Pairwise (fun t u ↦ ∀ i j, t.element i = true → u.element j = true → i < j) ∧
      setList.Pairwise (fun t u ↦ u.members.length ≤ t.members.length ∧
        t.members.length ≤ u.members.length + 1) ∧
      ∀ t : ElementSet, (∀ i, t.element i = false) → setPop ELEMENT_NUM t = none := by
  obtain ⟨setList, hsplit, hholds⟩ :=
    setSplit_eq (Nat.le_refl ELEMENT_NUM) (holds_members hcounted) hk
  have hmembers := map_members_of_holds hholds
  have hsum := sum_balancedSizes s.members.length hk
  have hflatten : (setList.map members).flatten = s.members := by
    rw [hmembers, flatten_blocks hsum]
  have hlengths : (setList.map members).map List.length = balancedSizes s.members.length k := by
    rw [hmembers, map_length_blocks hsum.le]
  have hsorted : (setList.map members).flatten.Pairwise (· < ·) := by
    rw [hflatten]
    exact pairwise_members s
  have hordered : setList.Pairwise fun t u ↦
      ∀ i j, t.element i = true → u.element j = true → i < j := by
    have hblocks := (List.pairwise_flatten.mp hsorted).2
    rw [List.pairwise_map] at hblocks
    apply hblocks.imp
    intro t u hlt i j hi hj
    exact hlt i.val (mem_members_fin.mpr hi) j.val (mem_members_fin.mpr hj)
  refine ⟨setList, hsplit, ?_, counted_of_holds hholds, ?_, ?_, hordered, ?_, ?_⟩
  · rw [hholds.length_eq, length_blocks, length_balancedSizes]
  · intro i
    rw [← mem_members_fin, ← hflatten, List.mem_flatten]
    constructor
    · rintro ⟨b, hb, hi⟩
      obtain ⟨t, ht, rfl⟩ := List.mem_map.mp hb
      exact ⟨t, ht, mem_members_fin.mp hi⟩
    · rintro ⟨t, ht, hi⟩
      exact ⟨t.members, List.mem_map_of_mem ht, mem_members_fin.mpr hi⟩
  · apply hordered.imp
    intro t u hlt i hboth
    exact absurd (hlt i i hboth.1 hboth.2) (Nat.lt_irrefl i.val)
  · have hsizes := pairwise_balancedSizes s.members.length k
    rw [← hlengths, List.map_map, List.pairwise_map] at hsizes
    exact hsizes
  · intro t hempty
    cases hpop : setPop ELEMENT_NUM t with
    | none => rfl
    | some r =>
      obtain ⟨i, hi⟩ := exists_mem_of_setPop hpop
      rw [hempty i] at hi
      cases hi

/-- Five cores in three sets. -/
theorem set_split_balanced_five :
    ∃ setList, setSplit ELEMENT_NUM ⟨fun i ↦ 3 ≤ i.val ∧ i.val < 8, 5#32⟩ 3 =
        some (⟨fun i ↦ 3 ≤ i.val ∧ i.val < 8, 5#32⟩, setList) ∧
      setList.length = 3 := by
  obtain ⟨setList, hsplit, hlen, -⟩ :=
    set_split_balanced ⟨fun i ↦ 3 ≤ i.val ∧ i.val < 8, 5#32⟩ 3 (by decide) (by decide)
  exact ⟨setList, hsplit, hlen⟩

end Nflambda.Runtime.ElementSet
