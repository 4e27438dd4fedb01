/-!
# Runs of a partial step function

Library `Base`. A machine is a step function that is undefined where an event
is not enabled. A run folds the step over a list of events; the rules below
carry a property, or a property of every step, along a whole run.
-/

namespace Nflambda.Base

universe u v w

variable {σ : Type u} {ε : Type v}

/-- Fold a partial step over a list of events; an event that is not enabled stops the run. -/
def run (step : σ → ε → Option σ) : σ → List ε → Option σ
  | s, [] => some s
  | s, e :: es => (step s e).bind (fun t ↦ run step t es)

/-- States that some run from `s` ends in. -/
def Reachable (step : σ → ε → Option σ) (s t : σ) : Prop :=
  ∃ es, run step s es = some t

/-- Some run of events with a property leads from the first state to the second. -/
def ReachableBy (step : σ → ε → Option σ) (C : ε → Prop) (s t : σ) : Prop :=
  ∃ es, (∀ e ∈ es, C e) ∧ run step s es = some t

/-- Every state of the run, the first and the last included, has the property. -/
def Visits (step : σ → ε → Option σ) (P : σ → Prop) : σ → List ε → Prop
  | s, [] => P s
  | s, e :: es => P s ∧ ∀ t, step s e = some t → Visits step P t es

/-- Every event of the run meets the condition in the state in which it is taken. -/
def Along (step : σ → ε → Option σ) (Q : σ → ε → Prop) : σ → List ε → Prop
  | _, [] => True
  | s, e :: es => Q s e ∧ ∀ t, step s e = some t → Along step Q t es

variable {step : σ → ε → Option σ} {P : σ → Prop} {Q : σ → ε → Prop}

/-- Whether every event of a run meets a decidable condition can be computed. -/
instance decidableAlong [∀ s e, Decidable (Q s e)] :
    (s : σ) → (es : List ε) → Decidable (Along step Q s es)
  | _, [] => isTrue trivial
  | s, e :: es =>
    match he : step s e with
    | none => decidable_of_iff (Q s e) (by simp [Along, he])
    | some t =>
      letI := decidableAlong t es
      decidable_of_iff (Q s e ∧ Along step Q t es) (by simp [Along, he])

/-- The empty run stays where it is. -/
theorem run_nil (s : σ) : run step s [] = some s := rfl

/-- A run that starts with an event takes that step first. -/
theorem run_cons_iff {s t : σ} {e : ε} {es : List ε} :
    run step s (e :: es) = some t ↔ ∃ r, step s e = some r ∧ run step r es = some t := by
  simp [run, Option.bind_eq_some_iff]

/-- Runs compose: the second part starts where the first one ends. -/
theorem run_append {s r : σ} {es fs : List ε} (h : run step s es = some r) :
    run step s (es ++ fs) = run step r fs := by
  induction es generalizing s with
  | nil =>
    rw [run_nil, Option.some.injEq] at h
    rw [h, List.nil_append]
  | cons e es ih =>
    obtain ⟨q, hq, hr⟩ := run_cons_iff.mp h
    rw [List.cons_append, run, hq, Option.bind_some]
    exact ih hr

/-- One more enabled event extends a run. -/
theorem run_snoc {s r t : σ} {es : List ε} {e : ε} (h : run step s es = some r)
    (he : step r e = some t) : run step s (es ++ [e]) = some t := by
  rw [run_append h, run, he, Option.bind_some, run_nil]

/-- A state reaches itself. -/
theorem Reachable.refl (s : σ) : Reachable step s s := ⟨[], rfl⟩

/-- One enabled event after a reachable state is reachable. -/
theorem Reachable.tail {s r t : σ} {e : ε} (h : Reachable step s r) (he : step r e = some t) :
    Reachable step s t := by
  obtain ⟨es, hes⟩ := h
  exact ⟨es ++ [e], run_snoc hes he⟩

/-- Reachability composes. -/
theorem Reachable.trans {s r t : σ} (h : Reachable step s r) (h' : Reachable step r t) :
    Reachable step s t := by
  obtain ⟨es, hes⟩ := h
  obtain ⟨fs, hfs⟩ := h'
  exact ⟨es ++ fs, by rw [run_append hes, hfs]⟩

/-- A state reaches itself without events. -/
theorem ReachableBy.refl (C : ε → Prop) (s : σ) : ReachableBy step C s s := ⟨[], by simp, rfl⟩

/-- One enabled event with the property goes on. -/
theorem ReachableBy.tail {C : ε → Prop} {s r t : σ} {e : ε} (h : ReachableBy step C s r)
    (hC : C e) (he : step r e = some t) : ReachableBy step C s t := by
  obtain ⟨es, hes, hr⟩ := h
  refine ⟨es ++ [e], fun e' he' ↦ ?_, run_snoc hr he⟩
  rcases List.mem_append.mp he' with he' | he'
  · exact hes e' he'
  · exact List.mem_singleton.mp he' ▸ hC

/-- Runs of events with the property compose. -/
theorem ReachableBy.trans {C : ε → Prop} {s r t : σ} (h : ReachableBy step C s r)
    (h' : ReachableBy step C r t) : ReachableBy step C s t := by
  obtain ⟨es, hes, hr⟩ := h
  obtain ⟨fs, hfs, ht⟩ := h'
  refine ⟨es ++ fs, fun e he ↦ ?_, by rw [run_append hr, ht]⟩
  exact (List.mem_append.mp he).elim (hes e) (hfs e)

/-- A property that every step preserves holds at the end of every run from a state that has it. -/
theorem run_invariant (hstep : ∀ s e t, P s → step s e = some t → P t)
    {s t : σ} {es : List ε} (h0 : P s) (h : run step s es = some t) : P t := by
  induction es generalizing s with
  | nil =>
    rw [run_nil, Option.some.injEq] at h
    rwa [← h]
  | cons e es ih =>
    obtain ⟨r, hr, ht⟩ := run_cons_iff.mp h
    exact ih (hstep s e r h0 hr) ht

/-- The invariant rule on reachable states. -/
theorem Reachable.invariant (hstep : ∀ s e t, P s → step s e = some t → P t)
    {s t : σ} (h0 : P s) (h : Reachable step s t) : P t := by
  obtain ⟨es, hes⟩ := h
  exact run_invariant hstep h0 hes

/-- The invariant rule for runs whose events meet a condition: the condition may be used at
every step. -/
theorem run_invariant_along (hstep : ∀ s e t, P s → Q s e → step s e = some t → P t)
    {s t : σ} {es : List ε} (h0 : P s) (hq : Along step Q s es) (h : run step s es = some t) :
    P t := by
  induction es generalizing s with
  | nil =>
    rw [run_nil, Option.some.injEq] at h
    rwa [← h]
  | cons e es ih =>
    obtain ⟨r, hr, ht⟩ := run_cons_iff.mp h
    exact ih (hstep s e r h0 hq.1 hr) (hq.2 r hr) ht

/-- A condition on the events alone holds along every run of such events. -/
theorem along_of_forall {C : ε → Prop} {es : List ε} (h : ∀ e ∈ es, C e) (s : σ) :
    Along step (fun _ e ↦ C e) s es := by
  induction es generalizing s with
  | nil => trivial
  | cons e es ih =>
    exact ⟨h e List.mem_cons_self, fun t _ ↦ ih (fun e' he' ↦ h e' (List.mem_cons_of_mem e he')) t⟩

/-- A property that an invariant implies holds in every state of a run of events that keep the
invariant. -/
theorem visits_of_invariant {I : σ → Prop} {C : ε → Prop}
    (hstep : ∀ s e t, I s → C e → step s e = some t → I t) (hI : ∀ s, I s → P s) {s : σ}
    (h0 : I s) {es : List ε} (h : ∀ e ∈ es, C e) : Visits step P s es := by
  induction es generalizing s with
  | nil => exact hI s h0
  | cons e es ih =>
    refine ⟨hI s h0, fun t ht ↦ ?_⟩
    exact ih (hstep s e t h0 (h e List.mem_cons_self) ht) fun e' he' ↦
      h e' (List.mem_cons_of_mem e he')

/-- Two conditions on events that agree wherever an invariant holds agree along every run. -/
theorem along_congr {I : σ → Prop} {Q' : σ → ε → Prop}
    (hI : ∀ s e t, I s → step s e = some t → I t) (hQ : ∀ s e, I s → (Q s e ↔ Q' s e))
    {s : σ} (h0 : I s) (es : List ε) : Along step Q s es ↔ Along step Q' s es := by
  induction es generalizing s with
  | nil => exact Iff.rfl
  | cons e es ih =>
    refine and_congr (hQ s e h0) (forall_congr' fun t ↦ ?_)
    exact imp_congr_right fun ht ↦ ih (hI s e t h0 ht)

/-- A condition holds along a run exactly when it holds of each event in the state that the events
before it lead to. -/
theorem along_iff_run {s : σ} {es : List ε} :
    Along step Q s es ↔
      ∀ pre e post t, es = pre ++ e :: post → run step s pre = some t → Q t e := by
  induction es generalizing s with
  | nil =>
    refine iff_of_true trivial fun pre e post t hes ↦ ?_
    exact absurd hes (by simp)
  | cons e es ih =>
    constructor
    · rintro ⟨he, hes⟩ pre e' post t heq hrun
      cases pre with
      | nil =>
        rw [List.nil_append, List.cons.injEq] at heq
        rw [run_nil, Option.some.injEq] at hrun
        exact heq.1 ▸ hrun ▸ he
      | cons d pre =>
        rw [List.cons_append, List.cons.injEq] at heq
        obtain ⟨rfl, rfl⟩ := heq
        obtain ⟨r, hr, ht⟩ := run_cons_iff.mp hrun
        exact ih.mp (hes r hr) pre e' post t rfl ht
    · intro h
      refine ⟨h [] e es s rfl (run_nil s), fun r hr ↦ ih.mpr fun pre e' post t heq hrun ↦ ?_⟩
      exact h (e :: pre) e' post t (heq ▸ rfl) (run_cons_iff.mpr ⟨r, hr, hrun⟩)

/-- What a run makes of an abstraction of the state is the fold over the events, where that is so
for every single step. -/
theorem run_foldl {γ : Type w} {g : σ → γ} {f : γ → ε → γ} {I : σ → Prop}
    (hI : ∀ s e t, I s → step s e = some t → I t)
    (hstep : ∀ s e t, I s → step s e = some t → g t = f (g s) e) {s t : σ} {es : List ε}
    (h0 : I s) (h : run step s es = some t) : g t = es.foldl f (g s) := by
  induction es generalizing s with
  | nil =>
    rw [run_nil, Option.some.injEq] at h
    rw [h, List.foldl_nil]
  | cons e es ih =>
    obtain ⟨r, hr, ht⟩ := run_cons_iff.mp h
    rw [List.foldl_cons, ih (hI s e r h0 hr) ht, hstep s e r h0 hr]

/-- A property of every state of a run holds of the last one. -/
theorem Visits.last {s t : σ} {es : List ε} (h : Visits step P s es)
    (hrun : run step s es = some t) : P t := by
  induction es generalizing s with
  | nil =>
    rw [run_nil, Option.some.injEq] at hrun
    exact hrun ▸ h
  | cons e es ih =>
    obtain ⟨r, hr, ht⟩ := run_cons_iff.mp hrun
    exact ih (h.2 r hr) ht

/-- Along a run, a property of the states that holds of the first state holds of all of them
exactly when the condition holds of every event, if that is so for each single step. -/
theorem visits_iff_along {I : σ → Prop} (hI : ∀ s e t, I s → step s e = some t → I t)
    (hstep : ∀ s e t, I s → P s → step s e = some t → (P t ↔ Q s e))
    (hoff : ∀ s e, I s → step s e = none → Q s e)
    {s : σ} (h0 : I s) (hp : P s) (es : List ε) :
    Visits step P s es ↔ Along step Q s es := by
  induction es generalizing s with
  | nil => exact ⟨fun _ ↦ trivial, fun _ ↦ hp⟩
  | cons e es ih =>
    cases he : step s e with
    | none => simp [Visits, Along, he, hp, hoff s e h0 he]
    | some t =>
      have hpt := hstep s e t h0 hp he
      constructor
      · rintro ⟨-, hv⟩
        have hvt := hv t he
        have ht : P t := by
          cases es with
          | nil => exact hvt
          | cons f fs => exact hvt.1
        refine ⟨hpt.mp ht, fun r hr ↦ ?_⟩
        rw [he, Option.some.injEq] at hr
        subst hr
        exact (ih (hI s e t h0 he) ht).mp hvt
      · rintro ⟨hq, ha⟩
        refine ⟨hp, fun r hr ↦ ?_⟩
        rw [he, Option.some.injEq] at hr
        subst hr
        exact (ih (hI s e t h0 he) (hpt.mpr hq)).mpr (ha t he)

/-- A condition that implies another one wherever an event is taken. -/
theorem Along.mono {Q' : σ → ε → Prop} (hQ : ∀ s e, Q s e → Q' s e) {s : σ} {es : List ε}
    (h : Along step Q s es) : Along step Q' s es := by
  induction es generalizing s with
  | nil => trivial
  | cons e es ih => exact ⟨hQ s e h.1, fun t ht ↦ ih (h.2 t ht)⟩

/-- How many events of a run have a property in the state in which they are taken. -/
def countAlong (step : σ → ε → Option σ) (Q : σ → ε → Prop) [∀ s e, Decidable (Q s e)] :
    σ → List ε → Nat
  | _, [] => 0
  | s, e :: es =>
    (if Q s e then 1 else 0) + (match step s e with
      | some t => countAlong step Q t es
      | none => 0)

/-- Events that lower a potential are at most as many as the potential and its supply allow, along
a run whose other events only raise it with the supply. -/
theorem countAlong_le [∀ s e, Decidable (Q s e)] {I : σ → Prop} {C : σ → ε → Prop} (Φ A : σ → Nat)
    (hI : ∀ s e t, I s → C s e → step s e = some t → I t)
    (hstep : ∀ s e t, I s → C s e → step s e = some t →
      (if Q s e then 1 else 0) + Φ t + A s ≤ Φ s + A t)
    {s t : σ} {es : List ε} (h0 : I s) (hC : Along step C s es) (h : run step s es = some t) :
    countAlong step Q s es + Φ t + A s ≤ Φ s + A t := by
  induction es generalizing s with
  | nil =>
    rw [run_nil, Option.some.injEq] at h
    rw [h, countAlong]
    omega
  | cons e es ih =>
    obtain ⟨r, hr, ht⟩ := run_cons_iff.mp h
    have h1 := hstep s e r h0 hC.1 hr
    have h2 := ih (hI s e r h0 hC.1 hr) (hC.2 r hr) ht
    simp only [countAlong, hr]
    omega

/-- An invariant that counts events. -/
theorem run_invariant_count [∀ s e, Decidable (Q s e)] {P : Nat → σ → Prop}
    (hstep : ∀ n s e t, P n s → step s e = some t → P (n + if Q s e then 1 else 0) t) {n : Nat}
    {s t : σ} {es : List ε} (h0 : P n s) (h : run step s es = some t) :
    P (n + countAlong step Q s es) t := by
  induction es generalizing n s with
  | nil =>
    rw [run_nil, Option.some.injEq] at h
    rw [← h]
    exact h0
  | cons e es ih =>
    obtain ⟨r, hr, ht⟩ := run_cons_iff.mp h
    have h1 := ih (hstep n s e r h0 hr) ht
    simp only [countAlong, hr]
    rwa [← Nat.add_assoc]

/-- Where every event lowers a potential, a run is no longer than the potential allows. -/
theorem run_length_le {Φ : σ → Nat} (hstep : ∀ s e t, step s e = some t → Φ t < Φ s) {s t : σ}
    {es : List ε} (h : run step s es = some t) : es.length + Φ t ≤ Φ s := by
  induction es generalizing s with
  | nil =>
    rw [run_nil, Option.some.injEq] at h
    rw [h, List.length_nil]
    omega
  | cons e es ih =>
    obtain ⟨r, hr, ht⟩ := run_cons_iff.mp h
    have h1 := hstep s e r hr
    have h2 := ih ht
    rw [List.length_cons]
    omega

end Nflambda.Base
