/-
# `LineCalc.Proofs.Double.Truncation` — doubles without their fractions

A double is made a whole number by shifting its mantissa and clamping what is left.  In terms of
the number it stands for this is rounding toward zero, and then going to the nearest number
in range (`toInt64_eq`).  Division of whole numbers rounds the same way (`truncate_div`).
-/
import Mathlib
import LineCalc.Double

namespace LineCalc

/-! ## Rounding toward zero -/

/-- A number without its fraction: the next whole number toward zero. -/
def truncate (q : ℚ) : ℤ := if 0 ≤ q then ⌊q⌋ else ⌈q⌉

theorem truncate_of_nonneg {q : ℚ} (h : 0 ≤ q) : truncate q = ⌊q⌋ := if_pos h

theorem truncate_neg (q : ℚ) : truncate (-q) = -truncate q := by
  rcases lt_trichotomy q 0 with hq | rfl | hq
  · rw [truncate, truncate, if_pos (neg_nonneg.mpr hq.le), if_neg hq.not_ge, Int.floor_neg]
  · simp [truncate]
  · rw [truncate, truncate, if_neg (neg_lt_zero.mpr hq).not_ge, if_pos hq.le, Int.ceil_neg]

theorem truncate_natCast_div (m n : ℕ) : truncate (m / n : ℚ) = (m / n : ℕ) := by
  rw [truncate_of_nonneg (div_nonneg m.cast_nonneg n.cast_nonneg)]
  exact Rat.floor_natCast_div_natCast m n

theorem truncate_div (a b : ℤ) : truncate (a / b : ℚ) = a.tdiv b := by
  have hnat (m n : ℕ) : truncate ((m : ℤ) / (n : ℤ) : ℚ) = (m : ℤ).tdiv n := by
    rw [Int.cast_natCast, Int.cast_natCast, truncate_natCast_div]
    rfl
  obtain ⟨m, rfl | rfl⟩ := a.eq_nat_or_neg <;> obtain ⟨n, rfl | rfl⟩ := b.eq_nat_or_neg
  · exact hnat m n
  · rw [Int.tdiv_neg, Int.cast_neg, div_neg, truncate_neg, hnat]
  · rw [Int.neg_tdiv, Int.cast_neg, neg_div, truncate_neg, hnat]
  · rw [Int.neg_tdiv, Int.tdiv_neg, neg_neg, Int.cast_neg, Int.cast_neg, neg_div_neg_eq, hnat]

namespace Double

/-! ## Doubles -/

/-- The number that a sign, a mantissa and a power of two stand for. -/
def rational (minus : Bool) (m : ℕ) (e : ℤ) : ℚ := (if minus then -1 else 1) * (m * 2 ^ e)

/-- A double rounded toward zero and then to the nearest number of 64 bits; zero for a double that
is no number. -/
def wholePart (x : Float) : ℤ :=
  match parts x with
  | .notANumber => 0
  | .infinity s => if isMinus s then -2 ^ 63 else 2 ^ 63 - 1
  | .zero _ => 0
  | .finite s m e _ => max (-2 ^ 63) (min (2 ^ 63 - 1) (truncate (rational (isMinus s) m e)))

theorem scale_eq (m : ℕ) (e : ℤ) : truncate (m * 2 ^ e : ℚ) = scale m e := by
  cases e with
  | ofNat k =>
      have hpower : (m * 2 ^ (Int.ofNat k) : ℚ) = ((m * 2 ^ k : ℕ) : ℚ) / (1 : ℕ) := by
        push_cast
        simp
      rw [hpower, truncate_natCast_div, Nat.div_one, scale, Nat.shiftLeft_eq]
  | negSucc k =>
      have hpower : (m * 2 ^ (Int.negSucc k) : ℚ) = (m : ℚ) / (2 ^ (k + 1) : ℕ) := by
        rw [zpow_negSucc]
        push_cast
        rfl
      rw [hpower, truncate_natCast_div, scale, Nat.shiftRight_eq_div_pow]

theorem truncate_rational (minus : Bool) (m : ℕ) (e : ℤ) :
    truncate (rational minus m e) = signed minus (scale m e) := by
  cases minus with
  | false => simpa [rational, signed] using scale_eq m e
  | true => simpa [rational, signed, truncate_neg] using scale_eq m e

theorem toInt_clamp (n : ℤ) : (clamp n).toInt = max (-2 ^ 63) (min (2 ^ 63 - 1) n) := by
  unfold clamp
  rw [Int64.toInt_minValue, Int64.toInt_maxValue]
  split
  next hlow =>
    rw [Int64.toInt_minValue]
    omega
  next hlow =>
    split
    next hhigh =>
      rw [Int64.toInt_maxValue]
      omega
    next hhigh =>
      rw [Int64.toInt_ofInt_of_le (by omega) (by omega)]
      omega

/-- A double loses its fraction and goes to the nearest number in range. -/
theorem toInt64_eq (x : Float) : (toInt64 x).toInt = wholePart x := by
  unfold toInt64 wholePart
  cases parts x with
  | notANumber => rfl
  | infinity s => cases s <;> rfl
  | zero s => rfl
  | finite s m e hm =>
      show _ = max (-2 ^ 63) (min (2 ^ 63 - 1) (truncate (rational (isMinus s) m e)))
      rw [truncate_rational]
      exact toInt_clamp _

theorem wholePart_eq_zero_iff {y : Float} : wholePart y = 0 ↔ toInt64 y = 0 := by
  rw [← toInt64_eq, ← Int64.toInt_zero, Int64.toInt_inj]

theorem abs_wholePart_le (y : Float) : |wholePart y| ≤ 2 ^ 63 := by
  have hlow := Int64.le_toInt (toInt64 y)
  have hhigh := Int64.toInt_lt (toInt64 y)
  rw [toInt64_eq] at hlow hhigh
  exact abs_le.mpr ⟨hlow, hhigh.le⟩

end Double

end LineCalc
