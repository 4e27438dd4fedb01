import Mathlib.Data.Fintype.Card
import Mathlib.Data.Fintype.Prod
import Nflambda.Deploy.Effect

/-!
# Buckets that are served

Library `Deploy`. A deployment assigns ranges of RSS buckets to the executions of
`packet_in`: the redirection table of the NIC sends the packets of a bucket to
the queue of a worker, and the worker looks their first action up by the bucket.
-/

namespace Nflambda.Deploy

open Nflambda.Base Nflambda.Runtime Nflambda.Director

variable {H : Type}

/-- The range of buckets of a `packet_in` execution: its worker, and the entries that the
packets of the range may start with. -/
structure BucketRange where
  start : Int
  num : Int
  core : Core
  next : List Int
  deriving DecidableEq, Repr

/-- A bucket belongs to a range. -/
def BucketRange.Covers (r : BucketRange) (b : Fin RSS_I_TABLE_SIZE) : Prop :=
  r.start ≤ b.val ∧ (b.val : Int) < r.start + r.num

/-- The configuration serves bucket `b` by the range `r`: `b` goes to the queue of the range's
worker and of no other worker that is launched, and this worker knows its first action. -/
structure ServedBy (c : Config H) (r : BucketRange) (b : Fin RSS_I_TABLE_SIZE) : Prop where
  covers : r.Covers b
  queue : c.retaConf b = (c.workerList r.core).queueId
  only : ∀ w : Core, w.val % 2 = 1 → (c.workerList w).queueId = c.retaConf b → w = r.core
  first : (c.workerList r.core).buckets b ∈ r.next
  isSet : 0 ≤ (c.workerList r.core).buckets b

/-- Every bucket belongs to exactly one range, by which it is served. -/
def Served (ranges : List BucketRange) (c : Config H) : Prop :=
  ∀ b, ∃ (i : Nat) (r : BucketRange), ranges[i]? = some r ∧ ServedBy c r b ∧
    ∀ (j : Nat) (r' : BucketRange), ranges[j]? = some r' → r'.Covers b → j = i

/-! ### Too few buckets -/

/-- Ranges of at most `m` buckets cover the table only if there are enough of them. -/
theorem size_le_of_covers {ranges : List BucketRange} {m : Nat}
    (hnum : ∀ r ∈ ranges, r.num ≤ m)
    (hcover : ∀ b, ∃ (i : Nat) (r : BucketRange), ranges[i]? = some r ∧ r.Covers b) :
    RSS_I_TABLE_SIZE ≤ ranges.length * m := by
  choose i r hr hc using hcover
  have hi (b : Fin RSS_I_TABLE_SIZE) : i b < ranges.length :=
    (List.getElem?_eq_some_iff.mp (hr b)).1
  have hoff (b : Fin RSS_I_TABLE_SIZE) : ((b.val : Int) - (r b).start).toNat < m := by
    have h1 := hnum (r b) (List.mem_of_getElem? (hr b))
    obtain ⟨h2, h3⟩ := hc b
    omega
  have hinj : Function.Injective fun b ↦
      ((⟨i b, hi b⟩, ⟨((b.val : Int) - (r b).start).toNat, hoff b⟩) :
        Fin ranges.length × Fin m) := by
    intro b b' h
    simp only [Prod.mk.injEq, Fin.mk.injEq] at h
    obtain ⟨hij, hval⟩ := h
    have hrr : r b = r b' := by
      have h1 := hr b
      rw [hij, hr b'] at h1
      exact (Option.some.inj h1).symm
    have h2 := (hc b).1
    have h3 := (hc b').1
    rw [hrr] at h2 hval
    apply Fin.ext
    omega
  have hcard := Fintype.card_le_of_injective _ hinj
  simpa using hcard

/-- Ranges of `m` buckets that follow each other cover every bucket once, if there are enough of
them. -/
theorem covers_once {n m : Nat} {range : Nat → BucketRange}
    (hrange : ∀ i, i < n → (range i).start = ((i * m : Nat) : Int) ∧ (range i).num = m)
    (hsize : n * m = RSS_I_TABLE_SIZE) (b : Fin RSS_I_TABLE_SIZE) :
    ∃ (i : Nat) (r : BucketRange), ((List.range n).map range)[i]? = some r ∧ r.Covers b ∧
      ∀ (j : Nat) (r' : BucketRange), ((List.range n).map range)[j]? = some r' →
        r'.Covers b → j = i := by
  have hget {j : Nat} {r : BucketRange} (h : ((List.range n).map range)[j]? = some r) :
      j < n ∧ r = range j := by
    obtain ⟨hj, hr⟩ := List.getElem?_eq_some_iff.mp h
    rw [List.length_map, List.length_range] at hj
    rw [List.getElem_map, List.getElem_range] at hr
    exact ⟨hj, hr.symm⟩
  have hb : b.val < n * m := by
    rw [hsize]
    exact b.isLt
  have hm : 0 < m := Nat.pos_of_ne_zero (by rintro rfl; omega)
  have hi : b.val / m < n := Nat.div_lt_of_lt_mul (by rw [Nat.mul_comm]; exact hb)
  have hlow : b.val / m * m ≤ b.val := Nat.div_mul_le_self b.val m
  have hhigh : b.val < b.val / m * m + m := Nat.lt_div_mul_add hm
  refine ⟨b.val / m, range (b.val / m), ?_, ?_, ?_⟩
  · rw [List.getElem?_map, List.getElem?_range hi]
    rfl
  · obtain ⟨hs, hn⟩ := hrange _ hi
    unfold BucketRange.Covers
    rw [hs, hn]
    omega
  · intro j r' hj hc
    obtain ⟨hjn, rfl⟩ := hget hj
    obtain ⟨hs, hn⟩ := hrange j hjn
    unfold BucketRange.Covers at hc
    rw [hs, hn] at hc
    symm
    apply Nat.div_eq_of_lt_le
    · omega
    · rw [Nat.succ_mul]
      omega

/-! ### Commands that serve the buckets -/

/-- The requests are those for the given ranges, in any order. -/
structure Deals (ranges : List BucketRange) (rs : List Request) : Prop where
  reta : ∀ (s n : Int) (w : Core) (a : Int), .configureRssReta s n w a ∈ rs →
    ∃ r ∈ ranges, r.start = s ∧ r.num = n ∧ r.core = w
  retaOf : ∀ r ∈ ranges, ∃ a, .configureRssReta r.start r.num r.core a ∈ rs
  first : ∀ (w : Core) (a s n : Int), .workerFirstAction w a s n ∈ rs →
    ∃ r ∈ ranges, r.start = s ∧ r.num = n ∧ r.core = w ∧ a ∈ r.next
  firstOf : ∀ r ∈ ranges, ∃ a, .workerFirstAction r.core a r.start r.num ∈ rs

/-- Requests for ranges that cover every bucket once serve every bucket. -/
theorem served_of_deals {ranges : List BucketRange} {rs : List Request} {c : Config H}
    (h : Deals ranges rs)
    (hcover : ∀ b, ∃ (i : Nat) (r : BucketRange), ranges[i]? = some r ∧ r.Covers b ∧
      ∀ (j : Nat) (r' : BucketRange), ranges[j]? = some r' → r'.Covers b → j = i)
    (hset : ∀ r ∈ ranges, ∀ a ∈ r.next, 0 ≤ a)
    (hodd : ∀ r ∈ ranges, r.core.val % 2 = 1)
    (hqueue : ∀ v w : Core, v.val % 2 = 1 → w.val % 2 = 1 →
      (c.workerList v).queueId = (c.workerList w).queueId → v = w) :
    Served ranges (meantBy rs c) := by
  intro b
  obtain ⟨i, r, hr, hc, hone⟩ := hcover b
  have hmem := List.mem_of_getElem? hr
  have hsame : ∀ r' ∈ ranges, r'.Covers b → r' = r := by
    intro r' hr' hc'
    obtain ⟨j, hj⟩ := List.mem_iff_getElem?.mp hr'
    have hji := hone j r' hj hc'
    rw [hji, hr] at hj
    exact (Option.some.inj hj).symm
  have hreta : (meantBy rs c).retaConf b = (c.workerList r.core).queueId := by
    rw [retaConf_meantBy, lastWrite_reta_eq (v := (c.workerList r.core).queueId)]
    · rfl
    · obtain ⟨a, ha⟩ := h.retaOf r hmem
      exact ⟨_, _, _, a, ha, hc.1, hc.2, rfl⟩
    · intro s n w a hs h1 h2
      obtain ⟨r', hr', rfl, rfl, rfl⟩ := h.reta s n w a hs
      rw [hsame r' hr' ⟨h1, h2⟩]
  have hfirst : ((meantBy rs c).workerList r.core).buckets b ∈ r.next := by
    rw [buckets_meantBy]
    cases hw : lastWrite (Request.bucket r.core b) rs with
    | none =>
      obtain ⟨a, ha⟩ := h.firstOf r hmem
      have hnone := (lastWrite_eq_none_iff _ _).mp hw _ ha
      rw [Request.bucket, if_pos ⟨rfl, hc.1, hc.2⟩] at hnone
      cases hnone
    | some v =>
      obtain ⟨q, hq, hv⟩ := exists_of_lastWrite_eq_some hw
      cases q with
      | workerFirstAction w a s n =>
        rw [Request.bucket] at hv
        split at hv
        · next hb =>
          obtain ⟨hwr, h1, h2⟩ := hb
          obtain ⟨r', hr', rfl, rfl, -, ha⟩ := h.first w a s n hq
          rw [hsame r' hr' ⟨h1, h2⟩] at ha
          rw [← Option.some.inj hv]
          exact ha
        · cases hv
      | _ => cases hv
  refine ⟨i, r, hr, ⟨hc, ?_, ?_, hfirst, hset r hmem _ hfirst⟩, hone⟩
  · rw [hreta, queueId_meantBy]
  · intro w hw hq
    rw [hreta, queueId_meantBy] at hq
    exact hqueue w r.core hw (hodd r hmem) hq

end Nflambda.Deploy
