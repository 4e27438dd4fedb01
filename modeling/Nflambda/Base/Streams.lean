import Mathlib.Data.List.Basic

/-!
# Frames on a stream

Library `Base`. A machine reads a stream symbol by symbol, in pieces of any length, and the stream
consists of frames. If the machine only keeps what it has read of a frame until the frame is
complete, reading the pieces is executing the frames one after the other.
-/

namespace Nflambda.Base

universe u

variable {α β γ ε σ ρ : Type u}

/-! ### Reading -/

/-- A machine that reads one symbol after the other and writes its output. -/
def feed (δ : σ → α → Except ε (σ × List β)) : σ → List α → Except ε (σ × List β)
  | s, [] => .ok (s, [])
  | s, a :: rest => δ s a >>= fun p ↦ (feed δ p.1 rest).map fun q ↦ (q.1, p.2 ++ q.2)

/-- The requests `xs`, one after the other, with what each of them is answered. -/
def runAll (exec : ρ → γ → Except ε (ρ × List β)) : ρ → List γ → Except ε (ρ × List (List β))
  | r, [] => .ok (r, [])
  | r, x :: xs => exec r x >>= fun p ↦ (runAll exec p.1 xs).map fun q ↦ (q.1, p.2 :: q.2)

variable {δ : σ → α → Except ε (σ × List β)} {exec : ρ → γ → Except ε (ρ × List β)}

/-- Nothing is read. -/
@[simp] theorem feed_nil (s : σ) : feed δ s [] = .ok (s, []) := rfl

/-- No request. -/
@[simp] theorem runAll_nil (r : ρ) : runAll exec r [] = .ok (r, []) := rfl

private theorem map_nil_append (x : Except ε (σ × List β)) :
    x.map (fun q ↦ (q.1, [] ++ q.2)) = x := by
  cases x with
  | error e => rfl
  | ok p => rfl

/-- A stream may be read in two pieces. -/
theorem feed_append (s : σ) (a b : List α) :
    feed δ s (a ++ b) =
      feed δ s a >>= fun p ↦ (feed δ p.1 b).map fun q ↦ (q.1, p.2 ++ q.2) := by
  induction a generalizing s with
  | nil => exact (map_nil_append _).symm
  | cons x a ih =>
    rw [List.cons_append, feed, feed]
    cases δ s x with
    | error e => rfl
    | ok p =>
      show (feed δ p.1 (a ++ b)).map _ = (feed δ p.1 a).map _ >>= _
      rw [ih p.1]
      cases feed δ p.1 a with
      | error e => rfl
      | ok q =>
        show ((feed δ q.1 b).map _).map _ = (feed δ q.1 b).map _
        cases feed δ q.1 b with
        | error e => rfl
        | ok r => exact congrArg (fun l ↦ Except.ok (r.1, l)) (List.append_assoc ..).symm

/-- More requests are executed where the first ones end. -/
theorem runAll_append (r : ρ) (xs ys : List γ) :
    runAll exec r (xs ++ ys) =
      runAll exec r xs >>= fun p ↦ (runAll exec p.1 ys).map fun q ↦ (q.1, p.2 ++ q.2) := by
  induction xs generalizing r with
  | nil => exact (map_nil_append _).symm
  | cons x xs ih =>
    rw [List.cons_append, runAll, runAll]
    cases exec r x with
    | error e => rfl
    | ok p =>
      show (runAll exec p.1 (xs ++ ys)).map _ = (runAll exec p.1 xs).map _ >>= _
      rw [ih p.1]
      cases runAll exec p.1 xs with
      | error e => rfl
      | ok q =>
        show ((runAll exec q.1 ys).map _).map _ = (runAll exec q.1 ys).map _
        cases runAll exec q.1 ys with
        | error e => rfl
        | ok t => rfl

/-- Every request has an answer. -/
theorem length_of_runAll {r r' : ρ} {xs : List γ} {answers : List (List β)}
    (h : runAll exec r xs = .ok (r', answers)) : answers.length = xs.length := by
  induction xs generalizing r answers with
  | nil =>
    cases h
    rfl
  | cons x xs ih =>
    rw [runAll] at h
    cases hx : exec r x with
    | error e =>
      rw [hx] at h
      cases h
    | ok p =>
      rw [hx] at h
      change (runAll exec p.1 xs).map _ = _ at h
      cases hxs : runAll exec p.1 xs with
      | error e =>
        rw [hxs] at h
        cases h
      | ok q =>
        rw [hxs] at h
        cases h
        rw [List.length_cons, List.length_cons, ih hxs]

/-- Requests that cannot fail are all executed. -/
theorem exists_runAll {xs : List γ} (h : ∀ x ∈ xs, ∀ r, ∃ p, exec r x = .ok p) (r : ρ) :
    ∃ p, runAll exec r xs = .ok p := by
  induction xs generalizing r with
  | nil => exact ⟨_, rfl⟩
  | cons x xs ih =>
    obtain ⟨p, hp⟩ := h x List.mem_cons_self r
    obtain ⟨q, hq⟩ := ih (fun y hy ↦ h y (List.mem_cons_of_mem x hy)) p.1
    refine ⟨(q.1, p.2 :: q.2), ?_⟩
    rw [runAll, hp]
    show (runAll exec p.1 xs).map _ = _
    rw [hq]
    rfl

/-! ### Frames -/

/-- How a machine reads the frames of requests: `hold r p` is its state when it has read `p` of a
frame and rests in `r` otherwise. -/
structure Framed (δ : σ → α → Except ε (σ × List β)) (exec : ρ → γ → Except ε (ρ × List β))
    (hold : ρ → List α → σ) (frame : γ → List α) (Fits : γ → Prop) : Prop where
  nonempty : ∀ x, Fits x → frame x ≠ []
  part : ∀ r x p t, Fits x → frame x = p ++ t → t ≠ [] → feed δ (hold r []) p = .ok (hold r p, [])
  whole : ∀ r x, Fits x →
    feed δ (hold r []) (frame x) = (exec r x).map fun q ↦ (hold q.1 [], q.2)

/-- `p` is what has been read of the first frame, and not all of it. -/
def Partly (frame : γ → List α) (xs : List γ) (p : List α) : Prop :=
  ∀ x ∈ xs.head?, p.length < (frame x).length

variable {hold : ρ → List α → σ} {frame : γ → List α} {Fits : γ → Prop}

/-- The rest of a frame is read as if the frame were read at once. -/
theorem Framed.feed_rest (h : Framed δ exec hold frame Fits) {r : ρ} {x : γ} (hx : Fits x)
    {p t : List α} (hp : frame x = p ++ t) (ht : t ≠ []) :
    feed δ (hold r p) t = (exec r x).map fun q ↦ (hold q.1 [], q.2) := by
  rw [← h.whole r x hx, hp, feed_append, h.part r x p t hx hp ht]
  exact (map_nil_append _).symm

/-- Requests that stand for others are framed like them. -/
theorem Framed.comap {γ' : Type u} (h : Framed δ exec hold frame Fits) (f : γ' → γ) :
    Framed δ (fun r x ↦ exec r (f x)) hold (fun x ↦ frame (f x)) (fun x ↦ Fits (f x)) where
  nonempty x := h.nonempty (f x)
  part r x := h.part r (f x)
  whole r x := h.whole r (f x)

/-- Nothing of a stream of frames has been read. -/
theorem Framed.partly_nil (h : Framed δ exec hold frame Fits) {xs : List γ}
    (hxs : ∀ x ∈ xs, Fits x) : Partly frame xs [] := by
  intro x hx
  exact List.length_pos_of_ne_nil (h.nonempty x (hxs x (List.mem_of_mem_head? hx)))

/-- A piece of the stream completes the frames of some requests, which are executed, and a part of
the next frame is kept. -/
theorem Framed.feed_piece (h : Framed δ exec hold frame Fits) {r : ρ} {xs : List γ}
    (hxs : ∀ x ∈ xs, Fits x) {p a b : List α} (hstream : xs.flatMap frame = p ++ (a ++ b))
    (hpart : Partly frame xs p) :
    ∃ done rest p', xs = done ++ rest ∧ rest.flatMap frame = p' ++ b ∧ Partly frame rest p' ∧
      feed δ (hold r p) a = (runAll exec r done).map fun q ↦ (hold q.1 p', q.2.flatten) := by
  induction xs generalizing r p a with
  | nil =>
    obtain ⟨rfl, hab⟩ := List.append_eq_nil_iff.mp hstream.symm
    obtain ⟨rfl, rfl⟩ := List.append_eq_nil_iff.mp hab
    exact ⟨[], [], [], rfl, rfl, hpart, rfl⟩
  | cons x xs ih =>
    have hx := hxs x List.mem_cons_self
    have hrest : ∀ y ∈ xs, Fits y := fun y hy ↦ hxs y (List.mem_cons_of_mem x hy)
    have hlt : p.length < (frame x).length := hpart x rfl
    rw [List.flatMap_cons] at hstream
    -- what has been read is the start of the frame
    obtain ⟨t, ht⟩ : p <+: frame x :=
      List.prefix_of_prefix_length_le ⟨a ++ b, hstream.symm⟩ ⟨_, rfl⟩ (by omega)
    have htne : t ≠ [] := by
      rintro rfl
      rw [List.append_nil] at ht
      rw [ht] at hlt
      omega
    rw [← ht, List.append_assoc, List.append_cancel_left_eq] at hstream
    by_cases hle : t.length ≤ a.length
    · -- the piece completes the frame
      obtain ⟨u, rfl⟩ : t <+: a :=
        List.prefix_of_prefix_length_le ⟨_, hstream⟩ ⟨b, rfl⟩ hle
      rw [List.append_assoc, List.append_cancel_left_eq] at hstream
      rw [feed_append, h.feed_rest hx ht.symm htne]
      cases hexec : exec r x with
      | error e =>
        obtain ⟨done, rest, p', rfl, hflat, hpart', -⟩ :=
          ih (r := r) (p := []) (a := u) hrest hstream (h.partly_nil hrest)
        refine ⟨x :: done, rest, p', rfl, hflat, hpart', ?_⟩
        rw [runAll, hexec]
        rfl
      | ok q =>
        obtain ⟨done, rest, p', rfl, hflat, hpart', hfeed⟩ :=
          ih (r := q.1) (p := []) (a := u) hrest hstream (h.partly_nil hrest)
        refine ⟨x :: done, rest, p', rfl, hflat, hpart', ?_⟩
        show (feed δ (hold q.1 []) u).map _ = _
        rw [hfeed, runAll, hexec]
        show _ = ((runAll exec q.1 done).map _).map _
        cases runAll exec q.1 done with
        | error e => rfl
        | ok s => rfl
    · -- the piece ends in the frame
      obtain ⟨u, rfl⟩ : a <+: t :=
        List.prefix_of_prefix_length_le ⟨b, rfl⟩ ⟨_, hstream⟩ (by omega)
      rw [List.append_assoc, List.append_cancel_left_eq] at hstream
      refine ⟨[], x :: xs, p ++ a, rfl, ?_, ?_, ?_⟩
      · rw [List.flatMap_cons, ← ht, ← hstream, List.append_assoc, List.append_assoc,
          List.append_assoc]
      · rintro y ⟨⟩
        rw [← ht]
        simp only [List.length_append] at hle ⊢
        omega
      · have hune : u ≠ [] := by
          rintro rfl
          simp at hle
        have hfeed := h.part r x (p ++ a) u hx (by rw [← ht, List.append_assoc]) hune
        rw [feed_append, h.part r x p (a ++ u) hx ht.symm htne] at hfeed
        rw [runAll_nil]
        exact (map_nil_append _).symm.trans hfeed

/-! ### Sources -/

variable {ι : Type*} [DecidableEq ι]

/-- What one source has contributed to a merged sequence. -/
def shareOf (i : ι) (merged : List (ι × α)) : List α :=
  (merged.filter fun x ↦ x.1 = i).map Prod.snd

/-- Nobody has contributed anything. -/
@[simp] theorem shareOf_nil (i : ι) : shareOf i ([] : List (ι × α)) = [] := rfl

/-- The share of a source grows with the sequence. -/
@[simp] theorem shareOf_append (i : ι) (m n : List (ι × α)) :
    shareOf i (m ++ n) = shareOf i m ++ shareOf i n := by
  rw [shareOf, List.filter_append, List.map_append, shareOf, shareOf]

/-- The elements of a share. -/
theorem mem_shareOf {i : ι} {m : List (ι × α)} {x : α} : x ∈ shareOf i m ↔ (i, x) ∈ m := by
  simp [shareOf]

/-- A contribution counts for its source. -/
theorem shareOf_map_self (i : ι) (xs : List α) : shareOf i (xs.map (Prod.mk i)) = xs := by
  induction xs with
  | nil => rfl
  | cons x xs ih =>
    rw [shareOf, List.map_cons, List.filter_cons_of_pos (by simp), List.map_cons, ← shareOf, ih]

/-- And for no other one. -/
theorem shareOf_map_of_ne {i j : ι} (h : j ≠ i) (xs : List α) :
    shareOf i (xs.map (Prod.mk j)) = [] := by
  induction xs with
  | nil => rfl
  | cons x xs ih =>
    rw [shareOf, List.map_cons, List.filter_cons_of_neg (by simpa using h), ← shareOf, ih]

/-- The answers to further requests of one source. -/
theorem shareOf_zip_append {γ : Type u} {m : List (ι × γ)} {answers : List α}
    (h : answers.length = m.length) (i : ι) {xs : List γ} {new : List α}
    (hnew : new.length = xs.length) (j : ι) :
    shareOf j (((m ++ xs.map (Prod.mk i)).map Prod.fst).zip (answers ++ new)) =
      shareOf j ((m.map Prod.fst).zip answers) ++ if i = j then new else [] := by
  have hzip : ((xs.map (Prod.mk i)).map Prod.fst).zip new = new.map (Prod.mk i) := by
    clear h
    induction xs generalizing new with
    | nil =>
      rw [List.length_eq_zero_iff.mp hnew]
      rfl
    | cons x xs ih =>
      obtain ⟨a, new, rfl⟩ := List.exists_cons_of_length_eq_add_one hnew
      simpa using ih (by simpa using hnew)
  rw [List.map_append, List.zip_append (by rw [List.length_map, h]), hzip, shareOf_append]
  split
  · next hij => rw [← hij, shareOf_map_self]
  · next hij => rw [shareOf_map_of_ne hij]

end Nflambda.Base
