import Nflambda.Base.Transition

/-!
# Runs in rounds

Library `Base`. A fair run of finite length is a list of rounds, in each of which every party takes
its turn. Where only so many events of a run can count for progress, a run of more rounds than that
has an idle one, and what holds after an idle round says what the run has achieved.
-/

namespace Nflambda.Base

universe u v w

variable {σ : Type u} {ε : Type v} {step : σ → ε → Option σ} {Q : σ → ε → Prop}

/-- A run in two parts has a state in between. -/
theorem run_append_iff {s t : σ} {es fs : List ε} :
    run step s (es ++ fs) = some t ↔ ∃ r, run step s es = some r ∧ run step r fs = some t := by
  induction es generalizing s with
  | nil => simp [run_nil]
  | cons e es ih =>
    rw [List.cons_append, run_cons_iff]
    constructor
    · intro ⟨q, hq, h⟩
      obtain ⟨r, hr, ht⟩ := ih.mp h
      exact ⟨r, run_cons_iff.mpr ⟨q, hq, hr⟩, ht⟩
    · intro ⟨r, hr, ht⟩
      obtain ⟨q, hq, h⟩ := run_cons_iff.mp hr
      exact ⟨q, hq, ih.mpr ⟨r, h, ht⟩⟩

/-- A condition holds along a run in two parts if it holds along both. -/
theorem along_append_iff {s r : σ} {es fs : List ε} (h : run step s es = some r) :
    Along step Q s (es ++ fs) ↔ Along step Q s es ∧ Along step Q r fs := by
  induction es generalizing s with
  | nil =>
    rw [run_nil, Option.some.injEq] at h
    rw [h, List.nil_append]
    exact ⟨fun hr ↦ ⟨trivial, hr⟩, And.right⟩
  | cons e es ih =>
    obtain ⟨q, hq, hr⟩ := run_cons_iff.mp h
    simp only [List.cons_append, Along, hq, Option.some.injEq, forall_eq', ih hr, and_assoc]

/-- A condition on the events alone that holds along a run holds of all its events. -/
theorem forall_of_along {C : ε → Prop} {s t : σ} {es : List ε}
    (hC : Along step (fun _ e ↦ C e) s es) (h : run step s es = some t) : ∀ e ∈ es, C e := by
  induction es generalizing s with
  | nil => simp
  | cons e es ih =>
    obtain ⟨r, hr, ht⟩ := run_cons_iff.mp h
    exact List.forall_mem_cons.mpr ⟨hC.1, ih (hC.2 r hr) ht⟩

/-- Two conditions that hold along a run hold together. -/
theorem Along.and {Q' : σ → ε → Prop} {s : σ} {es : List ε} (h : Along step Q s es)
    (h' : Along step Q' s es) : Along step (fun s e ↦ Q s e ∧ Q' s e) s es := by
  induction es generalizing s with
  | nil => trivial
  | cons e es ih => exact ⟨⟨h.1, h'.1⟩, fun t ht ↦ ih (h.2 t ht) (h'.2 t ht)⟩

section Count

variable [∀ s e, Decidable (Q s e)]

/-- The events that count in a run are those of its two parts. -/
theorem countAlong_append {s r : σ} {es fs : List ε} (h : run step s es = some r) :
    countAlong step Q s (es ++ fs) = countAlong step Q s es + countAlong step Q r fs := by
  induction es generalizing s with
  | nil =>
    rw [run_nil, Option.some.injEq] at h
    rw [h, List.nil_append, countAlong, Nat.zero_add]
  | cons e es ih =>
    obtain ⟨q, hq, hr⟩ := run_cons_iff.mp h
    simp only [List.cons_append, countAlong, hq]
    rw [ih hr, Nat.add_assoc]

/-- Where nothing counts, no event does. -/
theorem along_of_countAlong_eq_zero {s : σ} {es : List ε} (h : countAlong step Q s es = 0) :
    Along step (fun s e ↦ ¬ Q s e) s es := by
  induction es generalizing s with
  | nil => trivial
  | cons e es ih =>
    rw [countAlong, Nat.add_eq_zero_iff] at h
    refine ⟨fun he ↦ ?_, fun t ht ↦ ih ?_⟩
    · simp [he] at h
    · simpa [ht] using h.2

/-- A condition on the events alone counts the same along every run. -/
theorem countAlong_eq_countP {C : ε → Prop} [∀ e, Decidable (C e)] {s t : σ} {es : List ε}
    (h : run step s es = some t) :
    countAlong step (fun _ e ↦ C e) s es = es.countP fun e ↦ C e := by
  induction es generalizing s with
  | nil => rfl
  | cons e es ih =>
    obtain ⟨r, hr, ht⟩ := run_cons_iff.mp h
    simp only [countAlong, hr, ih ht, List.countP_cons, decide_eq_true_eq]
    omega

/-- In a run of more rounds than events that count, some round has none. -/
theorem exists_idle_round {s t : σ} {rounds : List (List ε)}
    (h : run step s rounds.flatten = some t)
    (hc : countAlong step Q s rounds.flatten < rounds.length) :
    ∃ pre r post, rounds = pre ++ r :: post ∧ ∃ u v, run step s pre.flatten = some u ∧
      run step u r = some v ∧ run step v post.flatten = some t ∧ countAlong step Q u r = 0 := by
  induction rounds generalizing s with
  | nil => exact absurd hc (Nat.not_lt_zero _)
  | cons r rounds ih =>
    rw [List.flatten_cons] at h hc
    obtain ⟨q, hq, ht⟩ := run_append_iff.mp h
    rw [countAlong_append hq, List.length_cons] at hc
    by_cases hr : countAlong step Q s r = 0
    · exact ⟨[], r, rounds, rfl, s, q, run_nil s, hq, ht, hr⟩
    -- a round in which something counts uses up one of the events that count
    · obtain ⟨pre, r', post, heq, u, v, hu, hv, hpost, hzero⟩ := ih ht (by omega)
      refine ⟨r :: pre, r', post, by rw [heq, List.cons_append], u, v, ?_, hv, hpost, hzero⟩
      rw [List.flatten_cons, run_append hq, hu]

end Count

section Parties

variable {ι : Type w} {actor : ε → Option ι} [DecidableEq ι] {I : σ → Prop}

/-- A party that can always act can act `k` times. -/
theorem exists_turns (hI : ∀ s e t, I s → Q s e → step s e = some t → I t) {i : ι}
    (hacts : ∀ s, I s → ∃ e t, actor e = some i ∧ Q s e ∧ step s e = some t) (k : Nat) {s : σ}
    (hs : I s) : ∃ es t, Along step Q s es ∧ run step s es = some t ∧ I t ∧
      k ≤ es.countP fun e ↦ actor e = some i := by
  induction k generalizing s with
  | zero => exact ⟨[], s, trivial, rfl, hs, Nat.zero_le _⟩
  | succ k ih =>
    obtain ⟨e, r, hactor, hQ, hr⟩ := hacts s hs
    obtain ⟨es, t, hes, ht, hIt, hk⟩ := ih (hI s e r hs hQ hr)
    refine ⟨e :: es, t, ⟨hQ, fun r' hr' ↦ ?_⟩, run_cons_iff.mpr ⟨r, hr, ht⟩, hIt, ?_⟩
    · rw [hr, Option.some.injEq] at hr'
      exact hr' ▸ hes
    · rw [List.countP_cons_of_pos (by simpa using hactor)]
      omega

/-- Where every one of some parties can always act, each of them can act `k` times. -/
theorem exists_round (hI : ∀ s e t, I s → Q s e → step s e = some t → I t) (parties : List ι)
    (hacts : ∀ s, I s → ∀ i ∈ parties, ∃ e t, actor e = some i ∧ Q s e ∧ step s e = some t)
    (k : Nat) {s : σ} (hs : I s) : ∃ es t, Along step Q s es ∧ run step s es = some t ∧ I t ∧
      ∀ i ∈ parties, k ≤ es.countP fun e ↦ actor e = some i := by
  induction parties generalizing s with
  | nil => exact ⟨[], s, trivial, rfl, hs, by simp⟩
  | cons i parties ih =>
    obtain ⟨es, r, hes, hr, hIr, hk⟩ :=
      exists_turns hI (fun s hs ↦ hacts s hs i List.mem_cons_self) k hs
    obtain ⟨fs, t, hfs, ht, hIt, hk'⟩ :=
      ih (fun s hs j hj ↦ hacts s hs j (List.mem_cons_of_mem i hj)) hIr
    refine ⟨es ++ fs, t, (along_append_iff hr).mpr ⟨hes, hfs⟩, run_append_iff.mpr ⟨r, hr, ht⟩,
      hIt, fun j hj ↦ ?_⟩
    rw [List.countP_append]
    rcases List.mem_cons.mp hj with rfl | hj
    · omega
    · have hj' := hk' j hj
      omega

/-- Where every one of some parties can always act, there are runs of any number of rounds. -/
theorem exists_rounds (hI : ∀ s e t, I s → Q s e → step s e = some t → I t) (parties : List ι)
    (hacts : ∀ s, I s → ∀ i ∈ parties, ∃ e t, actor e = some i ∧ Q s e ∧ step s e = some t)
    (k m : Nat) {s : σ} (hs : I s) : ∃ (rounds : List (List ε)) (t : σ), rounds.length = m ∧
      Along step Q s rounds.flatten ∧ run step s rounds.flatten = some t ∧ I t ∧
      ∀ r ∈ rounds, ∀ i ∈ parties, k ≤ r.countP fun e ↦ actor e = some i := by
  induction m generalizing s with
  | zero => exact ⟨[], s, rfl, trivial, rfl, hs, by simp⟩
  | succ m ih =>
    obtain ⟨es, r, hes, hr, hIr, hk⟩ := exists_round hI parties hacts k hs
    obtain ⟨rounds, t, hlen, hQ, ht, hIt, hk'⟩ := ih hIr
    refine ⟨es :: rounds, t, by rw [List.length_cons, hlen], ?_, ?_, hIt, fun r hr ↦ ?_⟩
    · rw [List.flatten_cons]
      exact (along_append_iff hr).mpr ⟨hes, hQ⟩
    · rw [List.flatten_cons]
      exact run_append_iff.mpr ⟨r, hr, ht⟩
    · rcases List.mem_cons.mp hr with rfl | hr
      · exact hk
      · exact hk' r hr

end Parties

end Nflambda.Base
