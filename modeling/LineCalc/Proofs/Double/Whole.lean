/-
# `LineCalc.Proofs.Double.Whole` — whole numbers as doubles

A whole number of up to fifty-three bits is its own mantissa, shifted up until it has all of them;
nothing is rounded away on the way into a double (`round_eq`).  So whole numbers up to `2 ^ 53`
in magnitude are doubles exactly (`number?_ofInt64`), and they are what is left of these
without their fractions (`wholePart_ofInt64`).
-/
import LineCalc.Proofs.Double.Number

namespace LineCalc.Double

open Float.Model (Format totalExponent)
open Float.Model.UnpackedFloat (Sign pack unpack ofNat roundWithAccuracy shiftToTargetExponent
  shiftToExponent decreaseExponent ExtendedMantissa)

/-! ## Rounding what needs none -/

theorem targetExponent_eq (m : ℕ) (e : ℤ) :
    Format.binary64.targetExponent (totalExponent m e) = max (m.log2 + e - 52) (-1074) := by
  show max ((m.log2 : ℤ) + 1 + e - 53) (-1074) = _
  congr 1
  omega

section
variable {m : ℕ} {e : ℤ} (hm : 0 < m) (h : Fits m e)
include h

theorem shiftToTargetExponent_of_fits :
    shiftToTargetExponent .binary64 m e .exact = (⟨m, false, false⟩, e) := by
  obtain ⟨hmantissa, hleast, -, -⟩ := h
  have hlog : m.log2 < 53 := by
    rcases Nat.eq_zero_or_pos m with rfl | hm
    · decide
    · exact (Nat.log2_lt hm.ne').mpr hmantissa
  -- the exponent is not below its target, so no bit is shifted out
  have hshift : (Format.binary64.targetExponent (totalExponent m e) - e).toNat = 0 := by
    rw [targetExponent_eq]
    omega
  show shiftToExponent m e .exact _ = _
  unfold shiftToExponent
  simp only [hshift, Nat.cast_zero, add_zero]
  rfl

theorem roundWithAccuracy_of_fits (s : Sign) :
    roundWithAccuracy .binary64 s m e .exact = .finite s m e hm := by
  have hrounded : (⟨m, false, false⟩ : ExtendedMantissa).roundedMantissa = m := rfl
  unfold roundWithAccuracy
  simp only [shiftToTargetExponent_of_fits h, hrounded]
  rw [dif_neg hm.ne']

end

/-! ## Numbers of up to fifty-three bits -/

section
variable {n : ℕ} (hn : 0 < n) (hlt : n < 2 ^ 53)
include hn hlt

theorem fits_shiftLeft : Fits (n <<< (52 - n.log2)) (-(52 - n.log2 : ℕ)) := by
  have hlog : n.log2 < 53 := (Nat.log2_lt hn.ne').mpr hlt
  have hlow : 2 ^ n.log2 * 2 ^ (52 - n.log2) ≤ n * 2 ^ (52 - n.log2) :=
    Nat.mul_le_mul_right _ (Nat.log2_self_le hn.ne')
  have hhigh : n * 2 ^ (52 - n.log2) < 2 ^ (n.log2 + 1) * 2 ^ (52 - n.log2) :=
    Nat.mul_lt_mul_of_pos_right Nat.lt_log2_self (Nat.two_pow_pos _)
  rw [← pow_add, show n.log2 + (52 - n.log2) = 52 by omega] at hlow
  rw [← pow_add, show n.log2 + 1 + (52 - n.log2) = 53 by omega] at hhigh
  rw [Nat.shiftLeft_eq]
  exact ⟨hhigh, by omega, by omega, Or.inl hlow⟩

theorem round_eq (s : Sign) : ∃ k hpos, Fits (n <<< k) (-(k : ℤ)) ∧
    Float.Model.UnpackedFloat.round .binary64 s n 0 = .finite s (n <<< k) (-k) hpos := by
  have hfits := fits_shiftLeft hn hlt
  have hpos : 0 < n <<< (52 - n.log2) := by
    rw [Nat.shiftLeft_eq]
    positivity
  refine ⟨52 - n.log2, hpos, hfits, ?_⟩
  rw [← roundWithAccuracy_of_fits hpos hfits s]
  have hlog : n.log2 < 53 := (Nat.log2_lt hn.ne').mpr hlt
  have hshift : (0 - Format.binary64.targetExponent (totalExponent n 0)).toNat
      = 52 - n.log2 := by
    rw [targetExponent_eq]
    omega
  show roundWithAccuracy .binary64 s (n <<< (0 - _ : ℤ).toNat) (0 - (0 - _ : ℤ).toNat) .exact = _
  rw [hshift, zero_sub]

theorem number?_ofNat : Parts.number? (unpack .binary64 (pack .binary64 (ofNat .binary64 n)))
    = some (n : ℚ) := by
  obtain ⟨k, hpos, hfits, hround⟩ := round_eq hn hlt .positive
  have hof : ofNat .binary64 n = Float.Model.UnpackedFloat.round .binary64 .positive n 0 := by
    show Float.Model.UnpackedFloat.normalize .binary64 n 0 .positive = _
    unfold Float.Model.UnpackedFloat.normalize
    rw [compare_gt_iff_gt.mpr (by omega)]
    rfl
  rw [hof, hround, unpack_pack_finite _ _ hfits]
  show some (rational (isMinus .positive) _ _) = _
  rw [rational_positive, Nat.shiftLeft_eq, zpow_neg]
  push_cast
  rw [zpow_natCast, mul_inv_cancel_right₀ (by positivity)]

end

/-- Whole numbers up to `2 ^ 53` are doubles exactly.  This last one has a bit more than a mantissa,
but the bit is zero. -/
theorem number?_toFloat {n : UInt64} (h : n.toNat ≤ 2 ^ 53) :
    number? n.toFloat = some (n.toNat : ℚ) := by
  rcases h.lt_or_eq with hlt | heq
  · rcases Nat.eq_zero_or_pos n.toNat with hzero | hpos
    · obtain rfl : n = 0 := UInt64.toNat_inj.mp hzero
      rfl
    · exact number?_ofNat hpos hlt
  · obtain rfl : n = 9007199254740992 := UInt64.toNat_inj.mp heq
    decide +kernel

theorem number?_ofInt64 {n : Int64} (h : |n.toInt| ≤ 2 ^ 53) :
    number? (ofInt64 n) = some (n.toInt : ℚ) := by
  have hnatAbs : n.toInt.natAbs ≤ 2 ^ 53 := by
    rw [Int.abs_eq_natAbs] at h
    exact_mod_cast h
  have htoNat : n.toInt.natAbs.toUInt64.toNat = n.toInt.natAbs :=
    UInt64.toNat_ofNat_of_lt' (hnatAbs.trans_lt (by decide))
  have hmagnitude : number? n.toInt.natAbs.toUInt64.toFloat = some ((|n.toInt| : ℤ) : ℚ) := by
    rw [number?_toFloat (by rwa [htoNat]), htoNat, Nat.cast_natAbs]
  show number? (if n < 0 then -_ else _) = _
  by_cases hneg : n < 0
  · have hsign : n.toInt < 0 := Int64.lt_iff_toInt_lt.mp hneg
    rw [if_pos hneg, number?_neg, hmagnitude, abs_of_neg hsign, Option.map_some, Int.cast_neg,
      neg_neg]
  · have hsign : 0 ≤ n.toInt := not_lt.mp fun h => hneg (Int64.lt_iff_toInt_lt.mpr h)
    rw [if_neg hneg, hmagnitude, abs_of_nonneg hsign]

/-! ## The way back -/

theorem truncate_intCast (n : ℤ) : truncate (n : ℚ) = n := by
  rw [truncate, Int.floor_intCast, Int.ceil_intCast, ite_self]

theorem wholePart_ofInt64 {n : Int64} (h : |n.toInt| ≤ 2 ^ 53) :
    wholePart (ofInt64 n) = n.toInt := by
  rw [wholePart_of_number (number?_ofInt64 h), truncate_intCast]
  have hlow := Int64.le_toInt n
  have hhigh := Int64.toInt_lt n
  omega

end LineCalc.Double
