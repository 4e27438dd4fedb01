import Mathlib.Data.Int.Log
import Mathlib.Data.Nat.Cast.Order.Field
import Mathlib.Data.Rat.Floor
import Mathlib.Tactic.Linarith
import Mathlib.Tactic.NormNum
import Mathlib.Tactic.Positivity
import Mathlib.Tactic.FieldSimp
import Mathlib.Tactic.Ring

/-!
# Binary64 numbers

Library `Base`. Non-negative binary64 numbers as rationals: rounding to nearest,
ties to even, and the shortest decimal text that reads back as the number, as
Python prints a `float`. Overflow is left out.
-/

namespace Nflambda.Base

/-- The integer nearest to a rational, the even one of two that are equally near. -/
def roundEven (x : ℚ) : Int :=
  if x - ⌊x⌋ < 1 / 2 ∨ x - ⌊x⌋ = 1 / 2 ∧ ⌊x⌋ % 2 = 0 then ⌊x⌋ else ⌊x⌋ + 1

/-- The distance of the binary64 numbers around a positive rational. -/
def spacing (x : ℚ) : ℚ := 2 ^ max (Int.log 2 x - 52) (-1074)

/-- The binary64 number nearest to a rational. -/
def toBinary64 (x : ℚ) : ℚ := roundEven (x / spacing x) * spacing x

/-! ### Rounding -/

/-- Rounding moves a rational by at most one half. -/
theorem abs_roundEven_sub_le (x : ℚ) : |(roundEven x : ℚ) - x| ≤ 1 / 2 := by
  have h1 := Int.floor_le x
  have h2 := Int.lt_floor_add_one x
  rw [abs_le]
  unfold roundEven
  split
  · next h =>
    rcases h with h | h
    · constructor <;> linarith
    · constructor <;> linarith [h.1]
  · next h =>
    have hge : 1 / 2 ≤ x - ⌊x⌋ := by
      by_contra hlt
      exact h (Or.inl (lt_of_not_ge hlt))
    push_cast
    constructor <;> linarith

/-- Integers are not moved. -/
theorem roundEven_intCast (i : Int) : roundEven (i : ℚ) = i := by
  unfold roundEven
  rw [Int.floor_intCast, sub_self, if_pos (Or.inl (by norm_num))]

private theorem spacing_pos (x : ℚ) : 0 < spacing x := by
  unfold spacing
  exact zpow_pos (by norm_num) _

/-- A rational is moved by at most half of the distance of the numbers around it. -/
theorem abs_toBinary64_sub_le (x : ℚ) : |toBinary64 x - x| ≤ spacing x / 2 := by
  have hs := spacing_pos x
  have h := abs_roundEven_sub_le (x / spacing x)
  have hx : toBinary64 x - x = (roundEven (x / spacing x) - x / spacing x) * spacing x := by
    unfold toBinary64
    field_simp
  rw [hx, abs_mul, abs_of_pos hs]
  calc |(roundEven (x / spacing x) : ℚ) - x / spacing x| * spacing x
      ≤ 1 / 2 * spacing x := mul_le_mul_of_nonneg_right h hs.le
    _ = spacing x / 2 := by ring

/-- The numbers below a power of two lie close together. -/
theorem spacing_le {x : ℚ} {k : Nat} (hx : 0 < x) (h : x < 2 ^ (k + 1)) :
    spacing x ≤ 2 ^ ((k : Int) - 52) := by
  have hlog : Int.log 2 x < (k : Int) + 1 := by
    rw [← Int.lt_zpow_iff_log_lt (by decide) hx]
    exact_mod_cast h
  unfold spacing
  apply zpow_le_zpow_right₀ (by norm_num)
  omega

/-- Natural numbers of at most 53 bits are not moved. -/
theorem toBinary64_natCast {k : Nat} (hk : k < 2 ^ 53) : toBinary64 (k : ℚ) = k := by
  have hlog : Nat.log 2 k < 53 := Nat.log_lt_of_lt_pow' (by decide) hk
  have hs : spacing (k : ℚ) * 2 ^ (52 - Nat.log 2 k) = 1 := by
    have he : max ((Nat.log 2 k : Int) - 52) (-1074) = -((52 - Nat.log 2 k : Nat) : Int) := by
      omega
    unfold spacing
    rw [Int.log_natCast, he, zpow_neg, zpow_natCast]
    field_simp
  have hpos := spacing_pos (k : ℚ)
  have hdiv : (k : ℚ) / spacing k = ((k * 2 ^ (52 - Nat.log 2 k) : Nat) : Int) := by
    rw [div_eq_iff hpos.ne']
    push_cast
    rw [mul_assoc, mul_comm _ (spacing (k : ℚ)), hs, mul_one]
  unfold toBinary64
  rw [hdiv, roundEven_intCast]
  push_cast
  rw [mul_assoc, mul_comm _ (spacing (k : ℚ)), hs, mul_one]

private theorem div_add_le {m n : Nat} (hn : 0 < n) :
    (m : ℚ) / n + 1 / (m + 1) ≤ ((m / n : Nat) : ℚ) + 1 := by
  have hn' : (0 : ℚ) < n := by exact_mod_cast hn
  have hm' : (0 : ℚ) < (m : ℚ) + 1 := by positivity
  by_cases h : n ≤ m + 1
  · have hlt : m + 1 ≤ n * (m / n + 1) := Nat.lt_mul_div_succ m hn
    have hcast : (m : ℚ) + 1 ≤ n * (((m / n : Nat) : ℚ) + 1) := by exact_mod_cast hlt
    calc (m : ℚ) / n + 1 / (m + 1)
        ≤ (m : ℚ) / n + 1 / n :=
          add_le_add_right (one_div_le_one_div_of_le hn' (by exact_mod_cast h)) _
      _ = ((m : ℚ) + 1) / n := by ring
      _ ≤ ((m / n : Nat) : ℚ) + 1 := by
          rw [div_le_iff₀ hn', mul_comm]
          exact hcast
  · have hle : (m : ℚ) / n ≤ m / (m + 1) :=
      div_le_div_of_nonneg_left (by positivity) hm' (by exact_mod_cast (by omega : m + 1 ≤ n))
    calc (m : ℚ) / n + 1 / (m + 1) ≤ m / (m + 1) + 1 / (m + 1) := add_le_add_left hle _
      _ = 1 := by rw [← add_div, div_self hm'.ne']
      _ ≤ ((m / n : Nat) : ℚ) + 1 := le_add_of_nonneg_left (by positivity)

/-- A quotient of natural numbers is never rounded up to the next integer. -/
theorem floor_toBinary64_div_le {m n : Nat} (hn : 0 < n) (hm : 0 < m) (hm' : m < 2 ^ 10) :
    ⌊toBinary64 ((m : ℚ) / n)⌋ ≤ ((m / n : Nat) : Int) := by
  have hn' : (0 : ℚ) < n := by exact_mod_cast hn
  have hx : 0 < (m : ℚ) / n := div_pos (by exact_mod_cast hm) hn'
  have hle : (m : ℚ) / n ≤ m := div_le_self (by positivity) (by exact_mod_cast hn)
  have hlt : (m : ℚ) / n < 2 ^ (9 + 1) := lt_of_le_of_lt hle (by exact_mod_cast hm')
  have herr : |toBinary64 ((m : ℚ) / n) - (m : ℚ) / n| ≤ 2 ^ (((9 : Nat) : Int) - 52) / 2 :=
    (abs_toBinary64_sub_le _).trans
      (div_le_div_of_nonneg_right (spacing_le hx hlt) (by norm_num))
  have hsmall : (2 : ℚ) ^ (((9 : Nat) : Int) - 52) / 2 < 1 / (m + 1) := by
    have hm1 : (m : ℚ) + 1 ≤ 2 ^ 10 := by exact_mod_cast hm'
    calc (2 : ℚ) ^ (((9 : Nat) : Int) - 52) / 2 < 1 / 2 ^ 10 := by norm_num
      _ ≤ 1 / (m + 1) := one_div_le_one_div_of_le (by positivity) hm1
  have hgap := div_add_le (m := m) hn
  generalize m / n = k at hgap ⊢
  rw [abs_le] at herr
  rw [← Int.lt_add_one_iff, Int.floor_lt, Int.cast_add, Int.cast_natCast, Int.cast_one]
  linarith [herr.2]

/-! ### Decimal text -/

/-- The multiple of `unit` nearest to `x`. -/
def nearest (x unit : ℚ) : ℚ := roundEven (x / unit) * unit

/-- The nearest multiple of `unit` on the other side of `x`. -/
def otherNearest (x unit : ℚ) : ℚ :=
  if nearest x unit ≤ x then nearest x unit + unit else nearest x unit - unit

/-- The shortest decimal with more than `i` digits that is rounded to `x`, and its number of
digits after the first one. -/
def shortestFrom (x : ℚ) : Nat → Nat → ℚ × Nat
  | 0, i => (x, i)
  | fuel + 1, i =>
    let unit := 10 ^ (Int.log 10 x - i)
    if toBinary64 (nearest x unit) = x then (nearest x unit, i)
    else if toBinary64 (otherNearest x unit) = x then (otherNearest x unit, i)
    else shortestFrom x fuel (i + 1)

/-- The last `count` decimal digits of a number. -/
def lastDigits (count n : Nat) : List Char :=
  (List.range count).reverse.map fun i ↦ Nat.digitChar (n / 10 ^ i % 10)

/-- The text that Python prints for a non-negative binary64 number. Seventeen digits always
suffice. -/
def binary64Repr (x : ℚ) : String :=
  if x = 0 then "0.0"
  else
    let (c, digits) := shortestFrom x 17 0
    let e := Int.log 10 c
    if -4 ≤ e ∧ e < 16 then
      let count := (max ((digits : Int) - e) 1).toNat
      let n := ⌊c * 10 ^ count⌋.toNat
      String.ofList (Nat.toDigits 10 (n / 10 ^ count) ++ '.' :: lastDigits count n)
    else
      let n := ⌊c * 10 ^ ((digits : Int) - e)⌋.toNat
      let fraction := if digits = 0 then [] else '.' :: lastDigits digits n
      let exponent := lastDigits (max 2 (Nat.log 10 e.natAbs + 1)) e.natAbs
      String.ofList (Nat.toDigits 10 (n / 10 ^ digits) ++ fraction ++
        'e' :: (if e < 0 then '-' else '+') :: exponent)

/-- The characters of a printed number: digits, a point, an exponent mark and signs. -/
def IsNumberChar (c : Char) : Prop := c.isDigit = true ∨ c ∈ ['.', 'e', '-', '+']

instance (c : Char) : Decidable (IsNumberChar c) :=
  inferInstanceAs (Decidable (c.isDigit = true ∨ c ∈ ['.', 'e', '-', '+']))

private theorem isNumberChar_toDigits {n : Nat} {c : Char} (h : c ∈ Nat.toDigits 10 n) :
    IsNumberChar c :=
  .inl (Nat.isDigit_of_mem_toDigits (by decide) (by decide) h)

private theorem isNumberChar_lastDigits {count n : Nat} {c : Char} (h : c ∈ lastDigits count n) :
    IsNumberChar c := by
  obtain ⟨i, -, rfl⟩ := List.mem_map.mp h
  left
  rw [Nat.isDigit_digitChar, decide_eq_true_eq]
  exact Nat.mod_lt _ (by decide)

/-- A binary64 number is printed with these characters. -/
theorem isNumberChar_binary64Repr (x : ℚ) : ∀ c ∈ (binary64Repr x).toList, IsNumberChar c := by
  have hmark {c : Char} (h : c ∈ ['.', 'e', '-', '+']) : IsNumberChar c := .inr h
  intro c hc
  unfold binary64Repr at hc
  split at hc
  · have hzero : "0.0".toList = ['0', '.', '0'] := rfl
    rw [hzero] at hc
    simp only [List.mem_cons, List.not_mem_nil, or_false] at hc
    rcases hc with rfl | rfl | rfl
    · exact .inl rfl
    · exact hmark (by decide)
    · exact .inl rfl
  · dsimp only at hc
    split at hc
    · rw [String.toList_ofList] at hc
      rcases List.mem_append.mp hc with h | h
      · exact isNumberChar_toDigits h
      · rcases List.mem_cons.mp h with rfl | h
        · exact hmark (by decide)
        · exact isNumberChar_lastDigits h
    · rw [String.toList_ofList] at hc
      rcases List.mem_append.mp hc with h | h
      · rcases List.mem_append.mp h with h | h
        · exact isNumberChar_toDigits h
        · split at h
          · cases h
          · rcases List.mem_cons.mp h with rfl | h
            · exact hmark (by decide)
            · exact isNumberChar_lastDigits h
      · rcases List.mem_cons.mp h with rfl | h
        · exact hmark (by decide)
        · rcases List.mem_cons.mp h with rfl | h
          · split <;> exact hmark (by decide)
          · exact isNumberChar_lastDigits h

/-! ### The text of a natural number -/

/-- A decimal that reads back as a natural number and is a natural number itself is equal
to it. -/
private theorem eq_of_toBinary64_eq {c : ℚ} {k m : Nat} (hc : c = m) (hm : m < 2 ^ 53)
    (h : toBinary64 c = k) : c = k := by
  rw [hc, toBinary64_natCast hm] at h
  rw [hc, h]

private theorem exists_nearest {k j : Nat} (hj : 10 ^ j ≤ k) :
    ∃ m m' : Nat, nearest (k : ℚ) (10 ^ j) = m ∧ otherNearest (k : ℚ) (10 ^ j) = m' ∧
      m ≤ 2 * k ∧ m' ≤ 3 * k := by
  have hpos : (0 : ℚ) < 10 ^ j := by positivity
  have hone : (1 : ℚ) ≤ (k : ℚ) / 10 ^ j := by
    rw [one_le_div hpos]
    exact_mod_cast hj
  have hround := abs_le.mp (abs_roundEven_sub_le ((k : ℚ) / 10 ^ j))
  obtain ⟨r, hr⟩ : ∃ r : Nat, roundEven ((k : ℚ) / 10 ^ j) = ((r + 1 : Nat) : Int) := by
    have h : (0 : ℚ) < roundEven ((k : ℚ) / 10 ^ j) := by linarith [hround.1]
    have h' : 0 < roundEven ((k : ℚ) / 10 ^ j) := by exact_mod_cast h
    exact ⟨(roundEven ((k : ℚ) / 10 ^ j) - 1).toNat, by omega⟩
  have hnear : nearest (k : ℚ) (10 ^ j) = (((r + 1) * 10 ^ j : Nat) : ℚ) := by
    rw [nearest, hr]
    push_cast
    ring
  have hle : (r + 1) * 10 ^ j ≤ 2 * k := by
    have h : ((r + 1 : Nat) : ℚ) ≤ 2 * ((k : ℚ) / 10 ^ j) := by
      have h2 := hround.2
      rw [hr, Int.cast_natCast] at h2
      linarith
    have h' : ((r + 1 : Nat) : ℚ) * 10 ^ j ≤ 2 * k := by
      calc ((r + 1 : Nat) : ℚ) * 10 ^ j ≤ 2 * ((k : ℚ) / 10 ^ j) * 10 ^ j :=
            mul_le_mul_of_nonneg_right h hpos.le
        _ = 2 * k := by field_simp
    exact_mod_cast h'
  by_cases hside : nearest (k : ℚ) (10 ^ j) ≤ k
  · refine ⟨(r + 1) * 10 ^ j, (r + 1) * 10 ^ j + 10 ^ j, hnear, ?_, hle, by omega⟩
    rw [otherNearest, if_pos hside, hnear]
    push_cast
    ring
  · refine ⟨(r + 1) * 10 ^ j, r * 10 ^ j, hnear, ?_, hle, ?_⟩
    · rw [otherNearest, if_neg hside, hnear]
      push_cast
      ring
    · have hr' : r * 10 ^ j ≤ (r + 1) * 10 ^ j := Nat.mul_le_mul_right _ (Nat.le_succ r)
      omega

/-- The shortest decimal of a natural number is the number itself. -/
private theorem shortestFrom_natCast {k : Nat} (hk0 : 0 < k) (hk : k < 2 ^ 50) (fuel i : Nat)
    (hi : i ≤ Nat.log 10 k) (hf : Nat.log 10 k - i < fuel) :
    ∃ i', i' ≤ Nat.log 10 k ∧ shortestFrom (k : ℚ) fuel i = ((k : ℚ), i') := by
  induction fuel generalizing i with
  | zero => omega
  | succ fuel ih =>
    have hunit : (10 : ℚ) ^ (Int.log 10 (k : ℚ) - i) = 10 ^ (Nat.log 10 k - i) := by
      rw [Int.log_natCast, ← Nat.cast_sub hi, zpow_natCast]
    obtain ⟨m, m', hm, hm', hle, hle'⟩ := exists_nearest (k := k) (j := Nat.log 10 k - i)
      ((Nat.pow_le_pow_right (by decide) (Nat.sub_le _ _)).trans (Nat.pow_log_le_self 10 hk0.ne'))
    unfold shortestFrom
    rw [hunit]
    dsimp only
    split
    · next h =>
      rw [eq_of_toBinary64_eq hm (by omega) h]
      exact ⟨i, hi, rfl⟩
    · next hne =>
      split
      · next h =>
        rw [eq_of_toBinary64_eq hm' (by omega) h]
        exact ⟨i, hi, rfl⟩
      · have hlt : i ≠ Nat.log 10 k := by
          rintro rfl
          apply hne
          have hnear : nearest (k : ℚ) (10 ^ (Nat.log 10 k - Nat.log 10 k)) = k := by
            rw [nearest, Nat.sub_self, pow_zero, div_one, mul_one]
            exact_mod_cast roundEven_intCast k
          rw [hnear, toBinary64_natCast (by omega)]
        exact ih (i + 1) (by omega) (by omega)

/-- A natural number is printed with one decimal. -/
theorem binary64Repr_natCast {k : Nat} (hk0 : 0 < k) (hk : k < 2 ^ 50) :
    binary64Repr (k : ℚ) = String.ofList (Nat.toDigits 10 k ++ ['.', '0']) := by
  have hne : (k : ℚ) ≠ 0 := by exact_mod_cast hk0.ne'
  have hlog : Nat.log 10 k < 16 := by
    apply Nat.log_lt_of_lt_pow' (by decide)
    exact hk.trans (by norm_num)
  obtain ⟨i, hi, hs⟩ := shortestFrom_natCast hk0 hk 17 0 (Nat.zero_le _) (by omega)
  have hcount : (max ((i : Int) - (Nat.log 10 k : Int)) 1).toNat = 1 := by omega
  have hfloor : ⌊(k : ℚ) * 10 ^ 1⌋.toNat = k * 10 := by
    have h : (k : ℚ) * 10 ^ 1 = ((k * 10 : Nat) : ℚ) := by push_cast; ring
    rw [h, Int.floor_natCast, Int.toNat_natCast]
  unfold binary64Repr
  rw [if_neg hne, hs]
  dsimp only
  rw [Int.log_natCast, if_pos (by omega), hcount, hfloor, pow_one,
    Nat.mul_div_cancel _ (by decide)]
  have hlast : lastDigits 1 (k * 10) = ['0'] := by
    simp only [lastDigits, List.range_one, List.reverse_singleton, List.map_singleton, pow_zero,
      Nat.div_one, Nat.mul_mod_left]
    rfl
  rw [hlast]

/-! ### Numbers of moderate size -/

/-- The distance of the numbers around a positive rational, relative to it. -/
theorem spacing_le_mul {x : ℚ} (hx : 0 < x) :
    spacing x ≤ x * 2 ^ (-52 : Int) + 2 ^ (-52 : Int) := by
  have hlog : (2 : ℚ) ^ (Int.log 2 x - 52) ≤ x * 2 ^ (-52 : Int) := by
    rw [sub_eq_add_neg, zpow_add₀ (by norm_num)]
    exact mul_le_mul_of_nonneg_right (Int.zpow_log_le_self (by decide) hx) (by positivity)
  have hmin : (2 : ℚ) ^ (-1074 : Int) ≤ 2 ^ (-52 : Int) :=
    zpow_le_zpow_right₀ (by norm_num) (by decide)
  unfold spacing
  rcases max_cases (Int.log 2 x - 52) (-1074) with ⟨h, -⟩ | ⟨h, -⟩
  · rw [h]
    exact hlog.trans (le_add_of_nonneg_right (by positivity))
  · rw [h]
    exact hmin.trans (le_add_of_nonneg_left (by positivity))

/-- Only positive rationals are rounded to a positive number. -/
theorem pos_of_toBinary64_pos {c : ℚ} (h : 0 < toBinary64 c) : 0 < c := by
  by_contra hc
  have hs := spacing_pos c
  have hle : c / spacing c ≤ 0 := div_nonpos_of_nonpos_of_nonneg (not_lt.mp hc) hs.le
  have hround := (abs_le.mp (abs_roundEven_sub_le (c / spacing c))).2
  have hlt : (roundEven (c / spacing c) : ℚ) < 1 := by linarith
  have hzero : roundEven (c / spacing c) ≤ 0 := by
    have hlt' : roundEven (c / spacing c) < 1 := by exact_mod_cast hlt
    omega
  have hcast : (roundEven (c / spacing c) : ℚ) ≤ 0 := by exact_mod_cast hzero
  exact absurd h (not_lt.mpr (mul_nonpos_of_nonpos_of_nonneg hcast hs.le))

/-- A rational that is rounded to a number that is neither large nor zero is close to it. -/
theorem near_of_toBinary64_eq {c x : ℚ} (h : toBinary64 c = x) (hx0 : 0 < x) (hx : x < 1000) :
    |c - x| ≤ 2 ^ (-40 : Int) := by
  have hc : 0 < c := pos_of_toBinary64_pos (h ▸ hx0)
  have hdist := (abs_toBinary64_sub_le c).trans
    (div_le_div_of_nonneg_right (spacing_le_mul hc) (by norm_num))
  rw [h] at hdist
  have hbounds := abs_le.mp hdist
  norm_num at hbounds ⊢
  rw [abs_le]
  constructor <;> linarith [hbounds.1, hbounds.2]

/-- The shortest decimal is rounded to the number, or is the number. -/
theorem shortestFrom_spec (x : ℚ) (fuel i : Nat) : (shortestFrom x fuel i).2 ≤ i + fuel ∧
    ((shortestFrom x fuel i).1 = x ∨ toBinary64 (shortestFrom x fuel i).1 = x) := by
  induction fuel generalizing i with
  | zero => exact ⟨Nat.le_refl i, .inl rfl⟩
  | succ fuel ih =>
    unfold shortestFrom
    dsimp only
    split
    · next h => exact ⟨Nat.le_add_right i _, .inr h⟩
    · split
      · next h => exact ⟨Nat.le_add_right i _, .inr h⟩
      · obtain ⟨hle, hspec⟩ := ih (i + 1)
        exact ⟨by omega, hspec⟩

/-- The digits before the point are those of the integer part. -/
private theorem cast_floor_div_le {c : ℚ} (hc : 0 ≤ c) (count : Nat) :
    ((⌊c * 10 ^ count⌋.toNat / 10 ^ count : Nat) : ℚ) ≤ c := by
  have hpow : (0 : ℚ) < 10 ^ count := by positivity
  have hfloor : ((⌊c * 10 ^ count⌋.toNat : Nat) : ℚ) ≤ c * 10 ^ count := by
    have hnonneg : 0 ≤ ⌊c * 10 ^ count⌋ := Int.floor_nonneg.mpr (by positivity)
    have hcast : ((⌊c * 10 ^ count⌋.toNat : Nat) : ℚ) = (⌊c * 10 ^ count⌋ : ℚ) := by
      exact_mod_cast Int.toNat_of_nonneg hnonneg
    rw [hcast]
    exact Int.floor_le _
  calc ((⌊c * 10 ^ count⌋.toNat / 10 ^ count : Nat) : ℚ)
      ≤ (⌊c * 10 ^ count⌋.toNat : ℚ) / ((10 ^ count : Nat) : ℚ) := Nat.cast_div_le
    _ ≤ c * 10 ^ count / 10 ^ count := by
        push_cast
        exact div_le_div_of_nonneg_right hfloor hpow.le
    _ = c := by field_simp

/-- In scientific notation one digit stands before the point. -/
private theorem leading_lt_ten (c : ℚ) (digits : Nat) :
    ⌊c * 10 ^ ((digits : Int) - Int.log 10 c)⌋.toNat / 10 ^ digits < 10 := by
  have hlt : c * 10 ^ ((digits : Int) - Int.log 10 c) < 10 ^ (digits + 1) := by
    have hlog : c < ((10 : Nat) : ℚ) ^ (Int.log 10 c + 1) :=
      Int.lt_zpow_succ_log_self (by decide) c
    calc c * 10 ^ ((digits : Int) - Int.log 10 c)
        < 10 ^ (Int.log 10 c + 1) * 10 ^ ((digits : Int) - Int.log 10 c) :=
          mul_lt_mul_of_pos_right (by exact_mod_cast hlog) (zpow_pos (by norm_num) _)
      _ = 10 ^ (digits + 1) := by
          rw [← zpow_add₀ (by norm_num), ← zpow_natCast]
          congr 1
          push_cast
          ring
  have hfloor : ⌊c * 10 ^ ((digits : Int) - Int.log 10 c)⌋ < ((10 ^ (digits + 1) : Nat) : Int) := by
    rw [Int.floor_lt]
    exact_mod_cast hlt
  rw [Nat.div_lt_iff_lt_mul (by positivity), ← pow_succ']
  have hpos : 0 < 10 ^ (digits + 1) := by positivity
  omega

/-- The text of a number of moderate size: digits of a number that is close to it, or one digit and
an exponent. -/
theorem exists_binary64Repr {x : ℚ} (hlow : 2 ^ (-30 : Int) ≤ x) (hhigh : x < 1000) :
    ∃ (k : Nat) (rest : List Char) (c : ℚ),
      binary64Repr x = String.ofList (Nat.toDigits 10 k ++ rest) ∧
      (∀ y ∈ rest.head?, y.isDigit = false) ∧ rest.length ≤ 50 ∧ |c - x| ≤ 2 ^ (-40 : Int) ∧
      ((k : ℚ) ≤ c ∨ k < 10 ∧ c < 1 / 1000) := by
  have hx0 : 0 < x := lt_of_lt_of_le (by positivity) hlow
  obtain ⟨hdigits, hspec⟩ := shortestFrom_spec x 17 0
  generalize hs : shortestFrom x 17 0 = s at hdigits hspec
  obtain ⟨c, digits⟩ := s
  dsimp only at hdigits hspec
  have hnear : |c - x| ≤ 2 ^ (-40 : Int) := by
    rcases hspec with rfl | h
    · rw [sub_self, abs_zero]
      positivity
    · exact near_of_toBinary64_eq h hx0 hhigh
  have hbounds := abs_le.mp hnear
  norm_num at hbounds hlow
  have hc : 0 < c := by linarith
  have hlength : ∀ count m, (lastDigits count m).length = count := by
    intro count m
    simp [lastDigits]
  unfold binary64Repr
  rw [if_neg hx0.ne', hs]
  dsimp only
  split
  · next he =>
    refine ⟨_, _, c, rfl, by simp, ?_, hnear, .inl (cast_floor_div_le hc.le _)⟩
    rw [List.length_cons, hlength]
    omega
  · next he =>
    have hlog : Int.log 10 c < -4 := by
      have hlt : Int.log 10 c < 16 := by
        rw [← Int.lt_zpow_iff_log_lt (by decide) hc]
        norm_num
        linarith
      omega
    have hlow' : -10 ≤ Int.log 10 c := by
      rw [← Int.zpow_le_iff_le_log (by decide) hc]
      norm_num
      linarith
    have hsmall : c < 1 / 1000 := by
      have hlt := (Int.lt_zpow_iff_log_lt (by decide) hc).mpr hlog
      norm_num at hlt
      linarith
    refine ⟨_, _, c, by rw [List.append_assoc], ?_, ?_, hnear,
      .inr ⟨leading_lt_ten c digits, hsmall⟩⟩
    · split <;> simp
    · have hexp : max 2 (Nat.log 10 (Int.log 10 c).natAbs + 1) ≤ 11 := by
        have hle := Nat.log_le_self 10 (Int.log 10 c).natAbs
        omega
      split
      · simp only [List.length_append, List.length_cons, List.length_nil, hlength]
        omega
      · simp only [List.length_append, List.length_cons, hlength]
        omega

end Nflambda.Base
