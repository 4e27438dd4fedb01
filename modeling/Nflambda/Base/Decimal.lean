import Mathlib.Algebra.Order.Ring.Nat
import Mathlib.Data.List.TakeWhile
import Mathlib.Data.String.Defs

/-!
# Decimal texts of integers

Library `Base`. How an integer is printed in base ten: a run of digits, with a
minus sign in front of it if the integer is negative.
-/

namespace Nflambda.Base

/-- The characters of an integer in base ten. -/
def decimalChars (i : Int) : List Char :=
  if i < 0 then '-' :: Nat.toDigits 10 i.natAbs else Nat.toDigits 10 i.natAbs

/-- Printing an integer gives these characters. -/
theorem toList_toString_int (i : Int) : (toString i).toList = decimalChars i := by
  cases i with
  | ofNat n =>
    have hs : toString (Int.ofNat n) = n.repr := rfl
    have hn : ¬ Int.ofNat n < 0 := by
      have h0 := Int.natCast_nonneg n
      simp only [Int.ofNat_eq_natCast]
      omega
    rw [hs, Nat.toList_repr, decimalChars, if_neg hn]
    rfl
  | negSucc n =>
    have hs : toString (Int.negSucc n) = "-" ++ (n + 1).repr := rfl
    have hn : Int.negSucc n < 0 := Int.negSucc_lt_zero n
    rw [hs, String.toList_append, Nat.toList_repr, decimalChars, if_pos hn]
    rfl

/-- A printed number has at least one character. -/
theorem decimalChars_ne_nil (i : Int) : decimalChars i ≠ [] := by
  unfold decimalChars
  split
  · simp
  · exact Nat.toDigits_ne_nil

/-- A printed number consists of digits and at most a sign. -/
theorem isDigit_or_minus_of_mem {i : Int} {c : Char} (h : c ∈ decimalChars i) :
    c.isDigit = true ∨ c = '-' := by
  unfold decimalChars at h
  split at h
  · rcases List.mem_cons.mp h with rfl | h
    · exact .inr rfl
    · exact .inl (Nat.isDigit_of_mem_toDigits (by decide) (by decide) h)
  · exact .inl (Nat.isDigit_of_mem_toDigits (by decide) (by decide) h)

/-- A property of the digits and the sign holds of every character of a printed number. -/
theorem forall_mem_decimalChars {P : Char → Prop} (hd : ∀ c, c.isDigit = true → P c)
    (hm : P '-') (i : Int) : ∀ c ∈ decimalChars i, P c := by
  intro c hc
  rcases isDigit_or_minus_of_mem hc with h | rfl
  · exact hd c h
  · exact hm

/-- A printed natural number starts with a digit. -/
theorem exists_digit_cons (n : Nat) :
    ∃ c rest, Nat.toDigits 10 n = c :: rest ∧ c.isDigit = true := by
  cases h : Nat.toDigits 10 n with
  | nil => exact absurd h Nat.toDigits_ne_nil
  | cons c rest =>
    have hc : c ∈ Nat.toDigits 10 n := by
      rw [h]
      exact List.mem_cons_self
    exact ⟨c, rest, rfl, Nat.isDigit_of_mem_toDigits (by decide) (by decide) hc⟩

/-- Natural numbers are printed differently. -/
theorem toString_natCast_inj {m n : Nat} (h : toString (m : Int) = toString (n : Int)) : m = n := by
  have hchars (k : Nat) : (toString (k : Int)).toList = Nat.toDigits 10 k := by
    rw [toList_toString_int, decimalChars, if_neg (by omega), Int.natAbs_natCast]
  have hdigits : Nat.toDigits 10 m = Nat.toDigits 10 n := by rw [← hchars, ← hchars, h]
  calc m = Nat.ofDigitChars 10 (Nat.toDigits 10 m) 0 := Nat.ofDigitChars_ten_toDigits.symm
    _ = Nat.ofDigitChars 10 (Nat.toDigits 10 n) 0 := by rw [hdigits]
    _ = n := Nat.ofDigitChars_ten_toDigits

/-- A printed number of `k` digits has at most `k + 1` characters. -/
theorem length_decimalChars_le {i : Int} {k : Nat} (hk : 0 < k) (h : i.natAbs < 10 ^ k) :
    (decimalChars i).length ≤ k + 1 := by
  have hl : (Nat.toDigits 10 i.natAbs).length ≤ k :=
    (Nat.length_toDigits_le_iff (by decide) hk).mpr h
  unfold decimalChars
  split
  · rw [List.length_cons]
    omega
  · omega

end Nflambda.Base
