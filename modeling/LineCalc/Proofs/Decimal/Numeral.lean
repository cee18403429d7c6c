/-
# `LineCalc.Proofs.Decimal.Numeral` — which digits and points spell a number

The readers of numbers know signs, exponents and words for infinity.  Of texts that are made of
digits they take all as whole numbers, as long as the value fits into 64 bits
(`int64?_eq_some_iff`), and of texts that begin with a digit and go on with digits and points
they take as doubles those with at most one point (`double?_isSome_iff`).
-/
import LineCalc.Decimal.Numeral
import LineCalc.Proofs.Token.Scan

namespace LineCalc.Decimal

open Token (isNumeral)

def digitValue (c : Char) : ℕ := c.toNat - '0'.toNat

/-- The sum of the digits of a text, each times its power of ten; the last digit counts once. -/
def digitSum (text : String) : ℕ := Nat.ofDigits 10 (text.toList.reverse.map digitValue)

theorem value_eq_digitSum (text : String) : value text.toList = digitSum text := by
  rw [value, digitSum, Nat.ofDigitChars_eq_foldl, Nat.ofDigits_eq_foldr, List.foldr_map,
    List.foldr_reverse]
  simp [digitValue, Nat.add_comm]

section
variable {c : Char} {cs : List Char} {text : String}

theorem splitSign_of_isDigit (hc : c.isDigit = true) : splitSign (c :: cs) = (false, c :: cs) := by
  unfold splitSign
  split
  next h =>
    obtain ⟨rfl, -⟩ := List.cons.inj h
    exact nomatch hc
  next h =>
    obtain ⟨rfl, -⟩ := List.cons.inj h
    exact nomatch hc
  next => rfl

/-! ## Whole numbers -/

theorem integer?_of_digits (hne : cs ≠ []) (hcs : ∀ d ∈ cs, d.isDigit = true) :
    integer? cs = some (value cs : Int) := by
  obtain ⟨d, ds, rfl⟩ := List.exists_cons_of_ne_nil hne
  have hnatural : natural? (d :: ds) = some (value (d :: ds)) :=
    if_pos ⟨hne, List.all_eq_true.mpr hcs⟩
  rw [integer?, splitSign_of_isDigit (hcs d List.mem_cons_self)]
  simp only [hnatural]
  rfl

theorem int64?_of_digits (hne : text.toList ≠ []) (hdigits : ∀ d ∈ text.toList, d.isDigit = true) :
    int64? text = if value text.toList ≤ 2 ^ 63 - 1
      then some (Int64.ofInt (value text.toList)) else none := by
  have hrange : (Int64.minValue.toInt ≤ (value text.toList : Int) ∧
      (value text.toList : Int) ≤ Int64.maxValue.toInt) ↔ value text.toList ≤ 2 ^ 63 - 1 := by
    simp only [Int64.toInt_minValue, Int64.toInt_maxValue]
    omega
  simp only [int64?, integer?_of_digits hne hdigits, hrange]

/-- Digits spell a whole number exactly if their value fits, and then it is their value. -/
theorem int64?_eq_some_iff (hne : text.toList ≠ [])
    (hdigits : ∀ d ∈ text.toList, d.isDigit = true) {n : Int64} :
    int64? text = some n ↔ value text.toList ≤ 2 ^ 63 - 1 ∧ n.toInt = value text.toList := by
  rw [int64?_of_digits hne hdigits]
  by_cases hfits : value text.toList ≤ 2 ^ 63 - 1
  · have htoInt : (Int64.ofInt (value text.toList)).toInt = value text.toList :=
      Int64.toInt_ofInt_of_le (by omega) (by omega)
    rw [if_pos hfits, Option.some.injEq, ← Int64.toInt_inj, htoInt, eq_comm]
    exact (and_iff_right hfits).symm
  · rw [if_neg hfits]
    exact iff_of_false nofun fun h => hfits h.1

theorem int64?_eq_none_iff (hne : text.toList ≠ [])
    (hdigits : ∀ d ∈ text.toList, d.isDigit = true) :
    int64? text = none ↔ 2 ^ 63 - 1 < value text.toList := by
  rw [int64?_of_digits hne hdigits]
  by_cases hfits : value text.toList ≤ 2 ^ 63 - 1
  · rw [if_pos hfits]
    exact iff_of_false nofun (Nat.not_lt.mpr hfits)
  · rw [if_neg hfits]
    exact iff_of_true rfl (Nat.lt_of_not_le hfits)

/-! ## Doubles -/

theorem dropWhile_isDigit_cases (hcs : ∀ d ∈ cs, isNumeral d = true) :
    (cs.dropWhile Char.isDigit = [] ∧ cs.count '.' = 0) ∨
      ∃ more, cs.dropWhile Char.isDigit = '.' :: more ∧ cs.count '.' = more.count '.' + 1 ∧
        ∀ d ∈ more, isNumeral d = true := by
  have hsplit : cs.takeWhile Char.isDigit ++ cs.dropWhile Char.isDigit = cs :=
    List.takeWhile_append_dropWhile
  have hcount : cs.count '.' = (cs.dropWhile Char.isDigit).count '.' := by
    have hnone : (cs.takeWhile Char.isDigit).count '.' = 0 :=
      List.count_eq_zero.mpr fun hmem => nomatch List.mem_takeWhile_imp hmem
    conv => lhs; rw [← hsplit, List.count_append, hnone, Nat.zero_add]
  have hsub : ∀ d ∈ cs.dropWhile Char.isDigit, isNumeral d = true :=
    fun d hd => hcs d (List.dropWhile_subset _ hd)
  cases hrest : cs.dropWhile Char.isDigit with
  | nil =>
      rw [hrest] at hcount
      exact Or.inl ⟨rfl, hcount⟩
  | cons d more =>
      have hstop := Token.not_head?_dropWhile Char.isDigit cs
      rw [hrest] at hcount hsub hstop
      -- a numeral that is no digit is a point
      obtain rfl : d = '.' := by
        rcases Bool.or_eq_true_iff.mp (hsub d List.mem_cons_self) with hdigit | hpoint
        · exact nomatch hdigit.symm.trans (hstop d rfl)
        · exact eq_of_beq hpoint
      rw [List.count_cons_self] at hcount
      exact Or.inr ⟨more, rfl, hcount, fun d hd => hsub d (List.mem_cons_of_mem _ hd)⟩

theorem exponent?_isSome_iff (hcs : ∀ d ∈ cs, isNumeral d = true) :
    (exponent? (cs.dropWhile Char.isDigit)).isSome = true ↔ cs.count '.' = 0 := by
  rcases dropWhile_isDigit_cases hcs with ⟨hrest, hcount⟩ | ⟨more, hrest, hcount, -⟩
  · rw [hrest, hcount]
    exact iff_of_true rfl rfl
  · have hpoint : exponent? ('.' :: more) = none := rfl
    rw [hrest, hpoint, hcount]
    exact iff_of_false nofun (Nat.succ_ne_zero _)

theorem decimal?_isSome_iff (hc : c.isDigit = true) (hcs : ∀ d ∈ cs, isNumeral d = true) :
    (decimal? (c :: cs)).isSome = true ↔ (c :: cs).count '.' ≤ 1 := by
  have hall : ∀ d ∈ c :: cs, isNumeral d = true :=
    List.forall_mem_cons.mpr ⟨Bool.or_eq_true_iff.mpr (Or.inl hc), hcs⟩
  have hwhole : ((c :: cs).takeWhile Char.isDigit).isEmpty = false := by
    rw [List.takeWhile_cons_of_pos hc]
    rfl
  rw [decimal?, hwhole]
  rcases dropWhile_isDigit_cases hall with ⟨hrest, hcount⟩ | ⟨more, hrest, hcount, hmore⟩
  · rw [hrest, hcount]
    exact iff_of_true rfl (Nat.zero_le 1)
  · have hexponent := exponent?_isSome_iff hmore
    rw [hrest, hcount]
    simp only [splitFraction, Bool.false_and, Bool.false_eq_true, if_false, Option.isSome_map]
    rw [hexponent]
    omega

theorem unsignedDouble?_of_isDigit (hc : c.isDigit = true) :
    unsignedDouble? (c :: cs) = (decimal? (c :: cs)).map fun (m, k) => nearestDouble m k := by
  -- the words for infinity and for no number begin with a letter
  have hletter : ∀ {d : Char} {ds : List Char},
      (c :: cs).map Char.toLower = d :: ds → d.isAlpha = false := by
    intro d ds h
    obtain ⟨rfl, -⟩ := List.cons.inj h
    rw [Char.isAlpha_toLower_eq_isAlpha]
    refine Bool.eq_false_iff.mpr fun halpha => ?_
    have hdigit := Token.isDigit_of_isWordStart (Bool.or_eq_true_iff.mpr (Or.inl halpha))
    exact nomatch hc.symm.trans hdigit
  have hword : ∀ {word : String}, String.ofList ((c :: cs).map Char.toLower) = word →
      (c :: cs).map Char.toLower = word.toList :=
    fun h => String.toList_ofList.symm.trans (congrArg String.toList h)
  unfold unsignedDouble?
  split
  next h => exact nomatch hletter (hword h)
  next h => exact nomatch hletter (hword h)
  next h => exact nomatch hletter (hword h)
  next => rfl

/-- Digits and points, a digit first, spell a double exactly if they have at most one point. -/
theorem double?_isSome_iff (hhead : text.toList.head?.any Char.isDigit = true)
    (hcs : ∀ d ∈ text.toList, isNumeral d = true) :
    (double? text).isSome = true ↔ text.toList.count '.' ≤ 1 := by
  cases htext : text.toList with
  | nil =>
      rw [htext] at hhead
      exact nomatch hhead
  | cons c cs =>
      rw [htext] at hhead hcs
      have hc : c.isDigit = true := hhead
      rw [double?, htext, splitSign_of_isDigit hc]
      simp only [unsignedDouble?_of_isDigit hc, Option.isSome_map]
      exact decimal?_isSome_iff hc (List.forall_mem_cons.mp hcs).2

end

end LineCalc.Decimal
