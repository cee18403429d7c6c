/-
# `LineCalc.Proofs.Double.Number` — the numbers that doubles stand for

A double that is neither infinite nor no number stands for a rational number (`number?`), and this
is what its order and its sign are about: doubles are compared as the numbers they stand for
(`compare_eq`), and negation is that of the number (`number?_neg`).

Doubles are compared by their exponents first and their mantissas second.  That this is the order
of the numbers rests on every double being written in one way: its mantissa has all of its bits
unless its exponent is the least one (`Fits`).  Packing such parts into bits and taking them
apart again loses nothing (`unpack_pack`).
-/
import LineCalc.Proofs.Double.Truncation

namespace LineCalc.Double

open Float.Model (Format)
open Float.Model.UnpackedFloat (Sign pack unpack packComponents unpackMantissa_packComponents
  unpackExponent_packComponents unpackSign_packComponents)

/-! ## Parts of doubles -/

/-- `Fits m e`: a double can have the mantissa `m` and the exponent `e`.  Mantissas are of
fifty-three bits, and only those of the least exponent may be smaller. -/
structure Fits (m : ℕ) (e : ℤ) : Prop where
  mantissa_lt : m < 2 ^ 53
  least_le : -1074 ≤ e
  le_most : e ≤ 971
  full : 2 ^ 52 ≤ m ∨ e = -1074

/-- Whether parts are those of a double. -/
def Parts.Canonical : Parts → Prop
  | .notANumber | .infinity _ | .zero _ => True
  | .finite _ m e _ => Fits m e

theorem toNat_implicit (b : BitVec 52) : (1#1 ++ b).toNat = 2 ^ 52 + b.toNat := by
  rw [BitVec.toNat_append, ← Nat.shiftLeft_add_eq_or_of_lt b.isLt]
  rfl

theorem canonical_unpack (b : BitVec 64) : Parts.Canonical (unpack .binary64 b) := by
  unfold unpack
  extract_lets mantissa exponent e sign s
  have hmantissa : mantissa.toNat < 2 ^ 52 := mantissa.isLt
  have hexponent : exponent.toNat < 2 ^ 11 := exponent.isLt
  have he : e = exponent.toNat - 1075 := rfl
  split
  next => split <;> trivial
  next hones =>
    have hones : exponent.toNat ≠ 2047 := fun h => hones (BitVec.eq_of_toNat_eq h)
    split
    next hzero =>
      have hzero : exponent.toNat = 0 := congrArg BitVec.toNat hzero
      split
      next => trivial
      next => constructor <;> omega
    next hzero =>
      have hzero : exponent.toNat ≠ 0 := fun h => hzero (BitVec.eq_of_toNat_eq h)
      show Fits (1#1 ++ mantissa).toNat e
      rw [toNat_implicit]
      constructor <;> omega

theorem canonical_parts (x : Float) : (parts x).Canonical := canonical_unpack _

/-! ## Packing -/

theorem ne_zero_of_toNat {k n : ℕ} {b : BitVec k} (h : b.toNat = n) (hn : 0 < n) : b ≠ 0#k := by
  rintro rfl
  rw [BitVec.toNat_zero] at h
  omega

theorem ne_ones_of_toNat {n : ℕ} {b : BitVec 11} (h : b.toNat = n) (hn : n < 2047) :
    b ≠ -1#11 := by
  rintro rfl
  change 2047 = n at h
  omega

/-- An exponent between the least and the most goes with a mantissa that has all of its bits, the
first of which is left out. -/
theorem unpack_normal (s : Sign) {exponent : BitVec 11} {mantissa : BitVec 52} {m : ℕ} {e : ℤ}
    (hm : 0 < m) (hzero : exponent ≠ 0#11) (hones : exponent ≠ -1#11)
    (hmantissa : 2 ^ 52 + mantissa.toNat = m) (hexponent : (exponent.toNat : ℤ) = e + 1075) :
    unpack .binary64 (packComponents .binary64 s exponent mantissa) = .finite s m e hm := by
  unfold unpack
  simp only [unpackMantissa_packComponents, unpackExponent_packComponents,
    unpackSign_packComponents, Sign.ofBitVec_toBitVec]
  rw [if_neg hones, if_neg hzero]
  congr 1
  · rw [toNat_implicit, hmantissa]
  · show (exponent.toNat : ℤ) - 1075 = e
    omega

theorem unpack_subnormal (s : Sign) {mantissa : BitVec 52} {m : ℕ} (hm : 0 < m)
    (hmantissa : mantissa.toNat = m) :
    unpack .binary64 (packComponents .binary64 s 0#11 mantissa) = .finite s m (-1074) hm := by
  unfold unpack
  simp only [unpackMantissa_packComponents, unpackExponent_packComponents,
    unpackSign_packComponents, Sign.ofBitVec_toBitVec]
  rw [if_neg (by decide), if_pos trivial, dif_neg (ne_zero_of_toNat hmantissa hm)]
  congr 1

theorem unpack_pack_finite (s : Sign) {m : ℕ} {e : ℤ} (hm : 0 < m) (h : Fits m e) :
    unpack .binary64 (pack .binary64 (.finite s m e hm)) = .finite s m e hm := by
  obtain ⟨hmantissa, hleast, hmost, hfull⟩ := h
  unfold pack
  extract_lets bits biased
  have hbits : bits = m.log2 := rfl
  have hbiased : biased = (e + 1023 + 52).toNat := rfl
  have hall : Format.binary64.mantissaBits = 53 := rfl
  have htoNat : (BitVec.ofNat 11 biased).toNat = biased := by
    rw [BitVec.toNat_ofNat, Nat.mod_eq_of_lt (by omega)]
  have hexponent : ((BitVec.ofNat 11 biased).toNat : ℤ) = e + 1075 := by omega
  rw [if_neg (show ¬ 2 ^ 11 ≤ biased + 1 by omega)]
  -- whether the mantissa has all of its bits is read off the exponent that is stored
  by_cases hnormal : 2 ^ 52 ≤ m
  · have hlog : m.log2 = 52 := (Nat.log2_eq_iff hm.ne').mpr ⟨hnormal, hmantissa⟩
    rw [if_pos (by omega)]
    refine unpack_normal s hm (ne_zero_of_toNat htoNat (by omega))
      (ne_ones_of_toNat htoNat (by omega)) ?_ hexponent
    rw [BitVec.toNat_ofNat]
    omega
  · obtain rfl : e = -1074 := hfull.resolve_left hnormal
    have hlog : m.log2 < 52 := (Nat.log2_lt hm.ne').mpr (not_le.mp hnormal)
    rw [if_neg (by omega)]
    refine unpack_subnormal s hm ?_
    rw [BitVec.toNat_ofNat]
    omega

/-- The parts of a double come back from its bits. -/
theorem unpack_pack {u : Parts} (h : u.Canonical) :
    unpack .binary64 (pack .binary64 u) = u := by
  cases u with
  | notANumber => exact Float.Model.UnpackedFloat.unpack_packedNaN
  | infinity s => cases s <;> rfl
  | zero s => exact Float.Model.UnpackedFloat.unpack_packedZero
  | finite s m e hm => exact unpack_pack_finite s hm h

/-! ## The number of a double -/

/-- The number that parts stand for, if they are not those of an infinity or of no number. -/
def Parts.number? : Parts → Option ℚ
  | .notANumber | .infinity _ => none
  | .zero _ => some 0
  | .finite s m e _ => some (rational (isMinus s) m e)

/-- The number that a double stands for, if it is neither infinite nor no number. -/
def number? (x : Float) : Option ℚ := (parts x).number?

/-- Without its fraction a double is its number rounded toward zero, if that is in range. -/
theorem wholePart_of_number {x : Float} {q : ℚ} (h : number? x = some q) :
    wholePart x = max (-2 ^ 63) (min (2 ^ 63 - 1) (truncate q)) := by
  unfold number? at h
  unfold wholePart
  cases hparts : parts x with
  | notANumber | infinity s =>
      rw [hparts] at h
      exact nomatch h
  | zero s =>
      rw [hparts] at h
      obtain rfl := Option.some.inj h
      rfl
  | finite s m e hm =>
      rw [hparts] at h
      obtain rfl := Option.some.inj h
      rfl

/-! ## Negation -/

theorem rational_not (minus : Bool) (m : ℕ) (e : ℤ) :
    rational (!minus) m e = -rational minus m e := by
  cases minus <;> simp [rational]

theorem isMinus_neg (s : Sign) : isMinus (-s) = !isMinus s := by
  cases s <;> rfl

theorem canonical_neg {u : Parts} (h : u.Canonical) : Parts.Canonical u.neg := by
  cases u <;> exact h

theorem number?_neg_parts (u : Parts) : Parts.number? u.neg = u.number?.map (-·) := by
  cases u with
  | notANumber => rfl
  | infinity s => rfl
  | zero s => simp [Parts.number?, Float.Model.UnpackedFloat.neg]
  | finite s m e hm =>
      show some (rational (isMinus (-s)) m e) = some (-rational (isMinus s) m e)
      rw [isMinus_neg, rational_not]

theorem number?_neg (x : Float) : number? (-x) = (number? x).map (-·) := by
  have hparts : parts (-x) = (parts x).neg := unpack_pack (canonical_neg (canonical_parts x))
  rw [number?, hparts, number?_neg_parts]
  rfl

/-! ## Comparison -/

section
variable {m m' : ℕ} {e e' : ℤ}

theorem magnitude_lt_of_exponent_lt (h : Fits m e) (h' : Fits m' e') (he : e < e') :
    (m * 2 ^ e : ℚ) < m' * 2 ^ e' := by
  obtain ⟨hmantissa, hleast, -, -⟩ := h
  -- the greater exponent is not the least one, so its mantissa has all of its bits
  have hfull : 2 ^ 52 ≤ m' := h'.full.resolve_right (by omega)
  calc (m * 2 ^ e : ℚ) < 2 ^ 53 * 2 ^ e := by
        gcongr
        exact_mod_cast hmantissa
    _ = 2 ^ 52 * 2 ^ (e + 1) := by
        rw [zpow_add_one₀ two_ne_zero]
        ring
    _ ≤ m' * 2 ^ e' := by
        gcongr
        · exact_mod_cast hfull
        · exact one_le_two
        · exact he

theorem compare_magnitude (h : Fits m e) (h' : Fits m' e') :
    (compare e e').then (compare m m') = compare (m * 2 ^ e : ℚ) (m' * 2 ^ e') := by
  rcases lt_trichotomy e e' with he | rfl | he
  · rw [compare_lt_iff_lt.mpr he, compare_lt_iff_lt.mpr (magnitude_lt_of_exponent_lt h h' he)]
    rfl
  · have hmono : StrictMono fun k : ℕ => (k * 2 ^ e : ℚ) := by
      intro k l hkl
      exact mul_lt_mul_of_pos_right (Nat.cast_lt.mpr hkl) (zpow_pos two_pos e)
    rw [compare_eq_iff_eq.mpr rfl, ← cmp_eq_compare (m * 2 ^ e : ℚ), hmono.cmp_map_eq m m',
      cmp_eq_compare]
    rfl
  · rw [compare_gt_iff_gt.mpr he, compare_gt_iff_gt.mpr (magnitude_lt_of_exponent_lt h' h he)]
    rfl

end

theorem compare_neg_neg (p q : ℚ) : compare (-p) (-q) = (compare p q).swap := by
  have hanti : StrictAnti fun r : ℚ => -r := fun _ _ h => neg_lt_neg h
  rw [← cmp_eq_compare, ← cmp_eq_compare, cmp_swap]
  exact hanti.cmp_map_eq p q

/-! The sign of parts is that of the number, so numbers of different signs, and zero, are compared
without a look at the exponents. -/

section
variable {m : ℕ} (e : ℤ)

theorem rational_positive : rational (isMinus .positive) m e = m * 2 ^ e := by
  simp [rational, isMinus]

theorem rational_negative : rational (isMinus .negative) m e = -(m * 2 ^ e) := by
  simp [rational, isMinus]

theorem rational_positive_pos (hm : 0 < m) : 0 < rational (isMinus .positive) m e := by
  rw [rational_positive]
  positivity

theorem rational_negative_neg (hm : 0 < m) : rational (isMinus .negative) m e < 0 := by
  rw [rational_negative, neg_lt_zero]
  positivity

end

theorem compare_finite (s s' : Sign) {m m' : ℕ} {e e' : ℤ} (hm : 0 < m) (hm' : 0 < m')
    (h : Fits m e) (h' : Fits m' e') :
    Float.Model.UnpackedFloat.compare (.finite s m e hm) (.finite s' m' e' hm')
      = some (compare (rational (isMinus s) m e) (rational (isMinus s') m' e')) := by
  cases s with
  | positive =>
      cases s' with
      | positive =>
          rw [rational_positive, rational_positive, ← compare_magnitude h h']
          rfl
      | negative =>
          rw [compare_gt_iff_gt.mpr
            ((rational_negative_neg e' hm').trans (rational_positive_pos e hm))]
          rfl
  | negative =>
      cases s' with
      | positive =>
          rw [compare_lt_iff_lt.mpr
            ((rational_negative_neg e hm).trans (rational_positive_pos e' hm'))]
          rfl
      | negative =>
          rw [rational_negative, rational_negative, compare_neg_neg, ← compare_magnitude h h']
          rfl

/-- Parts are compared as the numbers they stand for. -/
theorem compare_parts {u v : Parts} (hu : u.Canonical) (hv : v.Canonical) {p q : ℚ}
    (hp : u.number? = some p) (hq : v.number? = some q) : u.compare v = some (compare p q) := by
  cases u with
  | notANumber | infinity s => exact nomatch hp
  | zero s =>
      obtain rfl := Option.some.inj hp
      cases v with
      | notANumber | infinity t => exact nomatch hq
      | zero t =>
          obtain rfl := Option.some.inj hq
          rfl
      | finite t m e hm =>
          obtain rfl := Option.some.inj hq
          cases t with
          | positive =>
              rw [compare_lt_iff_lt.mpr (rational_positive_pos e hm)]
              rfl
          | negative =>
              rw [compare_gt_iff_gt.mpr (rational_negative_neg e hm)]
              rfl
  | finite s m e hm =>
      obtain rfl := Option.some.inj hp
      cases v with
      | notANumber | infinity t => exact nomatch hq
      | zero t =>
          obtain rfl := Option.some.inj hq
          cases s with
          | positive =>
              rw [compare_gt_iff_gt.mpr (rational_positive_pos e hm)]
              rfl
          | negative =>
              rw [compare_lt_iff_lt.mpr (rational_negative_neg e hm)]
              rfl
      | finite t m' e' hm' =>
          obtain rfl := Option.some.inj hq
          exact compare_finite s t hm hm' hu hv

section
variable {x y : Float} {p q : ℚ} (hx : number? x = some p) (hy : number? y = some q)
include hx hy

theorem compare_eq : (parts x).compare (parts y) = some (compare p q) :=
  compare_parts (canonical_parts x) (canonical_parts y) hx hy

theorem lt_iff : x < y ↔ p < q := by
  have hparts : x < y ↔ (parts x).lt (parts y) = true := decide_eq_true_iff
  rw [hparts, Float.Model.UnpackedFloat.lt, compare_eq hx hy, beq_iff_eq, Option.some.injEq,
    compare_lt_iff_lt]

theorem le_iff : x ≤ y ↔ p ≤ q := by
  have hparts : x ≤ y ↔ (parts x).le (parts y) = true := decide_eq_true_iff
  rw [hparts, Float.Model.UnpackedFloat.le, compare_eq hx hy, Option.any_some,
    ← Ordering.ne_gt_iff_isLE]
  exact compare_le_iff_le

theorem beq_iff : (x == y) = true ↔ p = q := by
  have hparts : (x == y) = (parts x).beq (parts y) := rfl
  rw [hparts, Float.Model.UnpackedFloat.beq, compare_eq hx hy, beq_iff_eq, Option.some.injEq,
    compare_eq_iff_eq]

end

end LineCalc.Double
