import Mathlib.Data.Fin.Basic
import Mathlib.Data.List.FinRange
import Mathlib.Logic.Function.Basic

/-!
# Sets of core ids and their iterators

Library `Runtime`. Source `src/runtime/common/set.c` and `set.h`. The loops that look for the next
member do not compare the index with the length of `element`. What they read behind it are the
fields that follow in `struct Set`, so that the operations below take the number of positions that
may be read: 100 for those of `element`, 104 for those of the whole object. A read behind them is a
fault.
-/

namespace Nflambda.Runtime

/-- The length of `element`, and the value of `max_size`, which `set_init` sets and nothing changes,
`set.h:9` and `set.c:49`. -/
abbrev ELEMENT_NUM : Nat := 100

/-- The size of `struct Set` in positions of `element`. -/
abbrev OBJECT_NUM : Nat := 104

/-- `struct Set`, `set.h:7–12`, without `max_size`. -/
structure ElementSet where
  element : Fin ELEMENT_NUM → Bool
  num : BitVec 32

/-- `struct Set_iterator`, `set.h:24–28`. -/
structure SetIterator where
  set : ElementSet
  index : Nat

namespace ElementSet

/-- What `element[i]` reads: a member is `true`. Behind the array lie the halves of `num` and those
of `max_size`. -/
def elementAt (s : ElementSet) (i : Nat) : BitVec 16 :=
  if h : i < ELEMENT_NUM then (if s.element ⟨i, h⟩ then 1#16 else 0#16)
  else if i = 100 then s.num.extractLsb' 0 16
  else if i = 101 then s.num.extractLsb' 16 16
  else if i = 102 then 100#16
  else 0#16

/-- `set_create`, `set.c:53–58`, with `set_init`, `set.c:43–51`. -/
def setCreate : ElementSet := ⟨fun _ ↦ false, 0#32⟩

/-- `set_reset`, `set.c:158–165`. -/
def setReset (_ : ElementSet) : ElementSet := ⟨fun _ ↦ false, 0#32⟩

/-- `set_copy`, `set.c:60–72`. -/
def setCopy (s : ElementSet) : ElementSet := ⟨fun i ↦ s.element i, s.num⟩

/-- `set_insert`, `set.c:74–81`. -/
def setInsert (s : ElementSet) (i : Nat) : Option ElementSet :=
  if h : i < ELEMENT_NUM then
    if s.element ⟨i, h⟩ = false then
      some ⟨Function.update s.element ⟨i, h⟩ true, s.num + 1#32⟩
    else some s
  else none

/-- `set_delete`, `set.c:83–91`. -/
def setDelete (s : ElementSet) (i : Nat) : Option ElementSet :=
  if h : i < ELEMENT_NUM then
    if s.element ⟨i, h⟩ = true then
      some ⟨Function.update s.element ⟨i, h⟩ false, s.num - 1#32⟩
    else some s
  else none

/-- The loops `while (set_iterator_get(set_iterator) == false)`, `set.c:8–11` and `25–28`, from an
index on with so many positions left to read. -/
def skipFalse (s : ElementSet) : Nat → Nat → Option Nat
  | 0, _ => none
  | room + 1, index =>
    if s.elementAt index = 0#16 then skipFalse s room (index + 1) else some index

variable (limit : Nat)

/-- `set_iterator_create`, `set.c:3–13`. -/
def setIteratorCreate (s : ElementSet) : Option SetIterator :=
  (skipFalse (setCopy s) limit 0).map fun index ↦ ⟨setCopy s, index⟩

/-- `set_iterator_next`, `set.c:15–31`. -/
def setIteratorNext (it : SetIterator) : Option SetIterator :=
  if it.index = 100 then some it
  else (skipFalse it.set (limit - (it.index + 1)) (it.index + 1)).map fun index ↦ { it with index }

/-- `set_iterator_get`, `set.c:33–36`. -/
def setIteratorGet (it : SetIterator) : Option (BitVec 16) :=
  if it.index < limit then some (it.set.elementAt it.index) else none

/-- `while (set_iterator->index != 100) { ...; set_iterator_next(set_iterator); }` with so many
calls of `set_iterator_next`. -/
def whileNotEnd {σ : Type} (body : Nat → σ → Option σ) : Nat → SetIterator → σ → Option σ
  | 0, _, _ => none
  | calls + 1, it, state =>
    if it.index = 100 then some state
    else do
      let state ← body it.index state
      let it ← setIteratorNext limit it
      whileNotEnd body calls it state

/-- The loop over a set, from the creation of the iterator on. Each call of `set_iterator_next`
moves the index, so that their number is bounded. -/
def forElements {σ : Type} (body : Nat → σ → Option σ) (s : ElementSet) (state : σ) : Option σ := do
  let it ← setIteratorCreate limit s
  whileNotEnd limit body (OBJECT_NUM + 1) it state

/-- The indices at which the body of such a loop is executed, in their order. -/
def visitFrom : Nat → SetIterator → Option (List Nat)
  | 0, _ => none
  | calls + 1, it =>
    if it.index = 100 then some []
    else do
      let next ← setIteratorNext limit it
      let rest ← visitFrom calls next
      return it.index :: rest

/-- The indices that the loop over a set visits. -/
def visited (s : ElementSet) : Option (List Nat) := do
  let it ← setIteratorCreate limit s
  visitFrom limit (OBJECT_NUM + 1) it

/-- The loop of `set_pop`, `set.c:110–120`. Where it ends without a member there is no value. -/
def popFrom (s : ElementSet) : Nat → SetIterator → Option (ElementSet × Nat)
  | 0, _ => none
  | calls + 1, it =>
    if it.index = 100 then none
    else do
      let v ← setIteratorGet limit it
      if v = 1#16 then
        let s ← setDelete s it.index
        return (s, it.index)
      else
        let it ← setIteratorNext limit it
        popFrom s calls it

/-- `set_pop`, `set.c:106–121`. -/
def setPop (s : ElementSet) : Option (ElementSet × Nat) := do
  let it ← setIteratorCreate limit s
  popFrom limit s (OBJECT_NUM + 1) it

/-! ### The next member -/

variable {limit}

theorem elementAt_of_lt (s : ElementSet) {i : Nat} (h : i < ELEMENT_NUM) :
    s.elementAt i = if s.element ⟨i, h⟩ then 1#16 else 0#16 := dif_pos h

theorem elementAt_ne_zero_iff (s : ElementSet) {i : Nat} (h : i < ELEMENT_NUM) :
    s.elementAt i ≠ 0#16 ↔ s.element ⟨i, h⟩ = true := by
  rw [elementAt_of_lt s h]
  split <;> simp [*]

/-- The loops stop at the first position that is not `false`. -/
theorem skipFalse_eq_some_iff {s : ElementSet} {room index j : Nat} :
    skipFalse s room index = some j ↔
      index ≤ j ∧ j < index + room ∧ s.elementAt j ≠ 0#16 ∧
        ∀ k, index ≤ k → k < j → s.elementAt k = 0#16 := by
  induction room generalizing index with
  | zero =>
    rw [skipFalse]
    constructor
    · simp
    · omega
  | succ room ih =>
    rw [skipFalse]
    by_cases hzero : s.elementAt index = 0#16
    · rw [if_pos hzero, ih]
      constructor
      · rintro ⟨hle, hlt, hj, hbefore⟩
        refine ⟨by omega, by omega, hj, fun k hk hkj ↦ ?_⟩
        rcases Nat.eq_or_lt_of_le hk with rfl | hk
        · exact hzero
        · exact hbefore k hk hkj
      · rintro ⟨hle, hlt, hj, hbefore⟩
        have hne : j ≠ index := by
          rintro rfl
          exact hj hzero
        exact ⟨by omega, by omega, hj, fun k hk ↦ hbefore k (by omega)⟩
    · rw [if_neg hzero, Option.some.injEq]
      constructor
      · rintro rfl
        exact ⟨Nat.le_refl _, by omega, hzero, fun k hk hkj ↦ by omega⟩
      · rintro ⟨hle, -, -, hbefore⟩
        by_contra hne
        exact hzero (hbefore index (Nat.le_refl _) (by omega))

/-- A position that is not `false` ends the search. -/
theorem exists_skipFalse {s : ElementSet} {room index k : Nat} (hk : index ≤ k)
    (hroom : k < index + room) (h : s.elementAt k ≠ 0#16) :
    ∃ j, skipFalse s room index = some j ∧ j ≤ k := by
  induction room generalizing index with
  | zero => omega
  | succ room ih =>
    rw [skipFalse]
    by_cases hzero : s.elementAt index = 0#16
    · rw [if_pos hzero]
      have hne : k ≠ index := by
        rintro rfl
        exact h hzero
      exact ih (by omega) (by omega)
    · rw [if_neg hzero]
      exact ⟨index, rfl, hk⟩

/-! ### Visited positions -/

/-- The members, in increasing order. -/
def members (s : ElementSet) : List Nat :=
  (List.range ELEMENT_NUM).filter fun i ↦ s.elementAt i ≠ 0#16

/-- `num` is the number of members. -/
def Counted (s : ElementSet) : Prop := s.num.toNat = s.members.length

instance decidableCounted (s : ElementSet) : Decidable s.Counted :=
  inferInstanceAs (Decidable (_ = _))

theorem mem_members {s : ElementSet} {i : Nat} :
    i ∈ s.members ↔ ∃ h : i < ELEMENT_NUM, s.element ⟨i, h⟩ = true := by
  rw [members, List.mem_filter, List.mem_range, decide_eq_true_eq]
  constructor
  · rintro ⟨h, hne⟩
    exact ⟨h, (elementAt_ne_zero_iff s h).mp hne⟩
  · rintro ⟨h, hmem⟩
    exact ⟨h, (elementAt_ne_zero_iff s h).mpr hmem⟩

theorem pairwise_members (s : ElementSet) : s.members.Pairwise (· < ·) :=
  List.pairwise_lt_range.filter _

/-- The members from a position on. -/
def membersFrom (s : ElementSet) (i : Nat) : List Nat :=
  (List.range' i (ELEMENT_NUM - i)).filter fun i ↦ s.elementAt i ≠ 0#16

theorem membersFrom_zero (s : ElementSet) : s.membersFrom 0 = s.members := by
  rw [membersFrom, members, List.range_eq_range', Nat.sub_zero]

theorem membersFrom_end (s : ElementSet) : s.membersFrom 100 = [] := rfl

theorem membersFrom_eq_cons {s : ElementSet} {i : Nat} (h : i < ELEMENT_NUM)
    (hi : s.elementAt i ≠ 0#16) : s.membersFrom i = i :: s.membersFrom (i + 1) := by
  have hlen : ELEMENT_NUM - i = ELEMENT_NUM - (i + 1) + 1 := by omega
  rw [membersFrom, hlen, List.range'_succ, List.filter_cons_of_pos (by simpa using hi), membersFrom]

/-- Positions that hold `false` are no members. -/
theorem membersFrom_of_zeros {s : ElementSet} {i : Nat} (d : Nat) (hd : i + d ≤ ELEMENT_NUM)
    (h : ∀ k, i ≤ k → k < i + d → s.elementAt k = 0#16) :
    s.membersFrom i = s.membersFrom (i + d) := by
  induction d with
  | zero => rfl
  | succ d ih =>
    rw [ih (by omega) fun k hk hkd ↦ h k hk (by omega)]
    have hzero : s.elementAt (i + d) = 0#16 := h (i + d) (by omega) (by omega)
    have hlen : ELEMENT_NUM - (i + d) = ELEMENT_NUM - (i + (d + 1)) + 1 := by omega
    rw [membersFrom, hlen, List.range'_succ, List.filter_cons_of_neg (by simpa using hzero),
      membersFrom, Nat.add_assoc]

/-- The next stop of an iterator that has not ended leaves out no member. -/
theorem membersFrom_of_skipFalse {s : ElementSet} {room i j : Nat} (hj : j ≤ ELEMENT_NUM)
    (h : skipFalse s room i = some j) : s.membersFrom i = s.membersFrom j := by
  obtain ⟨hle, -, -, hbefore⟩ := skipFalse_eq_some_iff.mp h
  have hsum : i + (j - i) = j := by omega
  rw [membersFrom_of_zeros (j - i) (by omega) fun k hk hkj ↦ hbefore k hk (by omega), hsum]

/-- A loop that ends has reached the position 100, where it read something other than `false`. -/
theorem elementAt_of_visitFrom {calls : Nat} {it : SetIterator} {is : List Nat}
    (h : visitFrom limit calls it = some is) :
    it.index = 100 ∨ (100 < limit ∧ it.set.elementAt 100 ≠ 0#16) := by
  induction calls generalizing it is with
  | zero => simp [visitFrom] at h
  | succ calls ih =>
    rw [visitFrom] at h
    split at h
    · next hend => exact .inl hend
    · next hend =>
      simp only [Option.bind_eq_bind, Option.bind_eq_some_iff, setIteratorNext, if_neg hend,
        Option.map_eq_some_iff] at h
      obtain ⟨_, ⟨j, hj, rfl⟩, rest, hrest, -⟩ := h
      obtain ⟨hle, hlt, hne, -⟩ := skipFalse_eq_some_iff.mp hj
      rcases ih hrest with hindex | hread
      · dsimp only at hindex
        subst hindex
        exact .inr ⟨by omega, hne⟩
      · exact .inr hread

/-- When the position 100 can be read and is not `false`, the loop visits the members. -/
theorem visitFrom_eq {s : ElementSet} {i calls : Nat} (hlimit : 100 < limit)
    (hread : s.elementAt 100 ≠ 0#16) (hi : i ≤ 100) (hcalls : 100 < i + calls)
    (hne : s.elementAt i ≠ 0#16) : visitFrom limit calls ⟨s, i⟩ = some (s.membersFrom i) := by
  induction calls generalizing i with
  | zero => omega
  | succ calls ih =>
    rw [visitFrom]
    split
    · next hend =>
      dsimp only at hend
      subst hend
      rw [membersFrom_end]
    · next hend =>
      dsimp only at hend
      obtain ⟨j, hj, hjle⟩ := exists_skipFalse (show i + 1 ≤ 100 by omega)
        (show 100 < i + 1 + (limit - (i + 1)) by omega) hread
      obtain ⟨hle, -, hjne, -⟩ := skipFalse_eq_some_iff.mp hj
      simp only [setIteratorNext, if_neg hend, hj, Option.map_some, Option.bind_eq_bind,
        Option.bind_some]
      rw [ih hjle (by omega) hjne, Option.bind_some,
        membersFrom_eq_cons (show i < 100 by omega) hne, membersFrom_of_skipFalse hjle hj]
      rfl

/-- The loop over a set ends exactly when it may read the position 100 and finds something other
than `false` there, and then it visits the members in increasing order. -/
theorem visited_eq (s : ElementSet) :
    visited limit s =
      if 100 < limit ∧ s.elementAt 100 ≠ 0#16 then some s.members else none := by
  rw [visited, setIteratorCreate]
  have hcopy : setCopy s = s := rfl
  rw [hcopy]
  split
  · next h =>
    obtain ⟨j, hj, hjle⟩ := exists_skipFalse (show 0 ≤ 100 by omega)
      (show 100 < 0 + limit by omega) h.2
    obtain ⟨-, -, hjne, -⟩ := skipFalse_eq_some_iff.mp hj
    rw [hj, ← membersFrom_zero, membersFrom_of_skipFalse hjle hj]
    exact visitFrom_eq h.1 h.2 hjle (show 100 < j + 105 by omega) hjne
  · next h =>
    cases hskip : skipFalse s limit 0 with
    | none => rfl
    | some i =>
      obtain ⟨-, hlt, hne, -⟩ := skipFalse_eq_some_iff.mp hskip
      cases hvisit : visitFrom limit (OBJECT_NUM + 1) ⟨s, i⟩ with
      | none => exact hvisit
      | some is =>
        exfalso
        rcases elementAt_of_visitFrom hvisit with hindex | hread
        · dsimp only at hindex
          subst hindex
          exact h ⟨by omega, hne⟩
        · exact h hread

/-- A loop over a set applies its body to the indices that it visits. -/
theorem forElements_eq {σ : Type} {body : Nat → σ → Option σ} (s : ElementSet) (state : σ) :
    forElements limit body s state =
      (visited limit s).bind fun is ↦ is.foldlM (fun state index ↦ body index state) state := by
  have hloop : ∀ (calls : Nat) (it : SetIterator) (state : σ),
      whileNotEnd limit body calls it state = (visitFrom limit calls it).bind fun is ↦
        is.foldlM (fun state index ↦ body index state) state := by
    intro calls
    induction calls with
    | zero => exact fun _ _ ↦ rfl
    | succ calls ih =>
      intro it state
      rw [whileNotEnd, visitFrom]
      split
      · rfl
      · simp only [Option.bind_eq_bind, ih]
        cases setIteratorNext limit it with
        | none => cases body it.index state <;> rfl
        | some next =>
          cases hvisit : visitFrom limit calls next with
          | none => cases hbody : body it.index state <;> simp [hvisit]
          | some rest =>
            simp only [Option.bind_some, hvisit]
            rfl
  rw [forElements, visited]
  cases setIteratorCreate limit s with
  | none => rfl
  | some it => exact hloop _ it state

/-! ### Which iterations are exact -/

/-- The loop over a set ends without a read behind the limit, and has visited each member once, in
increasing order, and nothing else. -/
def IteratesExactly (limit : Nat) (s : ElementSet) : Prop :=
  ∃ is, visited limit s = some is ∧ is.Pairwise (· < ·) ∧
    ∀ i, i ∈ is ↔ ∃ h : i < ELEMENT_NUM, s.element ⟨i, h⟩ = true

theorem iteratesExactly_iff (limit : Nat) (s : ElementSet) :
    IteratesExactly limit s ↔ 100 < limit ∧ s.elementAt 100 ≠ 0#16 := by
  unfold IteratesExactly
  rw [visited_eq]
  constructor
  · rintro ⟨is, his, -⟩
    by_contra h
    rw [if_neg h] at his
    cases his
  · intro h
    rw [if_pos h]
    exact ⟨_, rfl, pairwise_members s, fun _ ↦ mem_members⟩

/-- The number of a counted set fits the half of `num` that is read in place of a member. -/
theorem elementAt_end_of_counted {s : ElementSet} (h : s.Counted) :
    s.elementAt 100 ≠ 0#16 ↔ ∃ i, s.element i = true := by
  have hlen : s.members.length ≤ 100 :=
    (List.length_filter_le _ _).trans_eq List.length_range
  have hread : s.elementAt 100 = s.num.extractLsb' 0 16 := rfl
  have hnum : s.elementAt 100 = 0#16 ↔ s.members.length = 0 := by
    rw [hread, ← BitVec.toNat_inj, BitVec.extractLsb'_toNat, Nat.shiftRight_zero, h]
    change s.members.length % 2 ^ 16 = 0 ↔ _
    rw [Nat.mod_eq_of_lt (by omega)]
  rw [ne_eq, hnum, ← ne_eq, ← Nat.pos_iff_ne_zero, List.length_pos_iff_exists_mem]
  constructor
  · rintro ⟨i, hi⟩
    obtain ⟨hlt, hmem⟩ := mem_members.mp hi
    exact ⟨⟨i, hlt⟩, hmem⟩
  · rintro ⟨i, hi⟩
    exact ⟨i.val, mem_members.mpr ⟨i.isLt, hi⟩⟩

/-- No set is iterated without a read behind `element`: the loop stops at 100 only because it reads
the lower half of `num` there. Where reads of the other fields are let pass, the iteration is exact
if that half is not zero, which for a set whose `num` counts its members means that it is not
empty. -/
theorem set_iteration_reads_num (s : ElementSet) :
    ¬ IteratesExactly ELEMENT_NUM s ∧
      (IteratesExactly OBJECT_NUM s ↔ s.num.extractLsb' 0 16 ≠ 0#16) ∧
      (s.Counted → (IteratesExactly OBJECT_NUM s ↔ ∃ i, s.element i = true)) := by
  rw [iteratesExactly_iff, iteratesExactly_iff]
  refine ⟨fun h ↦ absurd h.1 (by decide), and_iff_right (by decide), fun hcounted ↦ ?_⟩
  rw [elementAt_end_of_counted hcounted]
  exact and_iff_right (by decide)

/-- The empty set and the set of core 3 are not iterated exactly. -/
theorem set_iteration_not_exact :
    ¬ IteratesExactly ELEMENT_NUM setCreate ∧
      ¬ IteratesExactly OBJECT_NUM setCreate ∧
      ¬ IteratesExactly ELEMENT_NUM ⟨fun i ↦ i.val = 3, 1#32⟩ := by
  rw [iteratesExactly_iff, iteratesExactly_iff, iteratesExactly_iff]
  decide

end ElementSet

end Nflambda.Runtime
