/-
# `LineCalc.Proofs.Expr.Exactness` — whole numbers by way of doubles

Operators see whole numbers only as doubles.  Up to `2 ^ 53` in magnitude nothing is lost on the way
there: doubles are related as the numbers they stand for (`Relation.holdsFloat_eq`), and the
remainder of two doubles is that of what is left of them without their fractions.  So the
results are those for the whole numbers themselves.

Beyond this bound two whole numbers can go to one double.  Their remainder is then zero, and every
relation gives the same answer for the two in either order, which is wrong for one of the
orders (`Relation.not_exact_of_same`).  The first number to which this happens is the next
one (`integers_exact`).
-/
import LineCalc.Proofs.Double.Whole
import LineCalc.Proofs.Expr.Relation
import LineCalc.Proofs.Expr.Remainder

namespace LineCalc

open Double (number? ofInt64 wholePart toInt64)

/-! ## Relations between doubles -/

theorem Relation.holdsFloat_eq {x y : Float} {p q : ℚ} (hx : number? x = some p)
    (hy : number? y = some q) (r : Relation) : r.holdsFloat x y = decide (r.Holds p q) := by
  have hbeq : (x == y) = decide (p = q) := by
    rw [Bool.eq_iff_iff, decide_eq_true_eq]
    exact Double.beq_iff hx hy
  cases r with
  | equal => exact hbeq
  | notEqual => exact (congrArg Bool.not hbeq).trans decide_not.symm
  | greater => exact decide_eq_decide.mpr (Double.lt_iff hy hx)
  | greaterEqual => exact decide_eq_decide.mpr (Double.le_iff hy hx)
  | less => exact decide_eq_decide.mpr (Double.lt_iff hx hy)
  | lessEqual => exact decide_eq_decide.mpr (Double.le_iff hx hy)

/-! ## Exact results -/

/-- A relation decides between two whole numbers of 64 bits as it does without bounds. -/
def Relation.ExactFor (r : Relation) (a b : Int64) : Prop :=
  (BinaryOp.relate r).apply (.int a) (.int b)
    = .ok (.bool (decide (r.Holds a.toInt b.toInt)))

/-- The remainder of two whole numbers of 64 bits is what it is without bounds: what the quotient
rounded toward zero leaves, or a failure if the divisor is zero. -/
def RemainderExactFor (a b : Int64) : Prop :=
  (b = 0 → BinaryOp.rem.apply (.int a) (.int b) = .error .divisionByZero) ∧
  (b ≠ 0 → ∃ n : Int64, BinaryOp.rem.apply (.int a) (.int b) = .ok (.int n) ∧
    n.toInt = a.toInt.tmod b.toInt)

/-- Relations and remainders of whole numbers up to a bound in magnitude are exact. -/
def ExactUpTo (bound : ℤ) : Prop :=
  ∀ a b : Int64, |a.toInt| ≤ bound → |b.toInt| ≤ bound →
    (∀ r : Relation, r.ExactFor a b) ∧ RemainderExactFor a b

section
variable {a b : Int64}

theorem Relation.exactFor_iff {p q : ℚ} (ha : number? (ofInt64 a) = some p)
    (hb : number? (ofInt64 b) = some q) (r : Relation) :
    r.ExactFor a b ↔ (r.Holds p q ↔ r.Holds a.toInt b.toInt) := by
  have happly : (BinaryOp.relate r).apply (.int a) (.int b)
      = .ok (.bool (decide (r.Holds p q))) := by
    rw [← r.holdsFloat_eq ha hb]
    rfl
  rw [ExactFor, happly, Except.ok.injEq, Value.bool.injEq, decide_eq_decide]

theorem apply_rem_int (a b : Int64) : BinaryOp.rem.apply (.int a) (.int b)
    = if wholePart (ofInt64 b) = 0 then .error .divisionByZero
      else .ok (.int (toInt64 (ofInt64 a) % toInt64 (ofInt64 b))) :=
  BinaryOp.remainder_of_numeric rfl rfl

theorem Relation.exactFor_of_le (ha : |a.toInt| ≤ 2 ^ 53) (hb : |b.toInt| ≤ 2 ^ 53)
    (r : Relation) : r.ExactFor a b := by
  rw [exactFor_iff (Double.number?_ofInt64 ha) (Double.number?_ofInt64 hb)]
  exact r.holds_iff_of_strictMono Int.cast_strictMono a.toInt b.toInt

theorem remainderExactFor_of_le (ha : |a.toInt| ≤ 2 ^ 53) (hb : |b.toInt| ≤ 2 ^ 53) :
    RemainderExactFor a b := by
  have hzero : wholePart (ofInt64 b) = 0 ↔ b = 0 := by
    rw [Double.wholePart_ofInt64 hb, ← Int64.toInt_zero, Int64.toInt_inj]
  refine ⟨fun h => ?_, fun h => ?_⟩
  · rw [apply_rem_int, if_pos (hzero.mpr h)]
  · rw [apply_rem_int, if_neg (mt hzero.mp h)]
    refine ⟨_, rfl, ?_⟩
    rw [BinaryOp.toInt_remainder, Double.wholePart_ofInt64 ha, Double.wholePart_ofInt64 hb]

/-! ## Two whole numbers in one double -/

/-- Every relation fails for them in one of the two orders. -/
theorem Relation.not_exact_of_same {p : ℚ} (ha : number? (ofInt64 a) = some p)
    (hb : number? (ofInt64 b) = some p) (hne : a ≠ b) (r : Relation) :
    ¬ r.ExactFor a b ∨ ¬ r.ExactFor b a := by
  have hne : a.toInt ≠ b.toInt := mt Int64.toInt_inj.mp hne
  rw [exactFor_iff ha hb, exactFor_iff hb ha, ← not_and_or]
  rintro ⟨hab, hba⟩
  exact not_holds_iff_self hne p r ⟨hab.symm, hba.symm⟩

theorem not_remainderExactFor_of_same {p : ℚ} (ha : number? (ofInt64 a) = some p)
    (hb : number? (ofInt64 b) = some p) (hzero : b ≠ 0) (hrem : a.toInt.tmod b.toInt ≠ 0) :
    ¬ RemainderExactFor a b := by
  have hwhole : wholePart (ofInt64 a) = wholePart (ofInt64 b) := by
    rw [Double.wholePart_of_number ha, Double.wholePart_of_number hb]
  rintro ⟨-, hexact⟩
  obtain ⟨n, hn, htoInt⟩ := hexact hzero
  rw [apply_rem_int] at hn
  split at hn
  next => exact nomatch hn
  next =>
    obtain rfl := Value.int.inj (Except.ok.inj hn)
    rw [BinaryOp.toInt_remainder, hwhole, Int.tmod_self] at htoInt
    exact hrem htoInt.symm

end

/-- Up to `2 ^ 53` in magnitude whole numbers are related, and their remainder is taken, as if they
were not turned into doubles; and this is the greatest such bound.  The next number and `2 ^ 53`
itself go to one double: every relation fails between them in one of the two orders, and so does
the remainder. -/
theorem integers_exact :
    IsGreatest {bound | ExactUpTo bound} (2 ^ 53) ∧
    let a : Int64 := 2 ^ 53 + 1
    let b : Int64 := 2 ^ 53
    (∀ r : Relation, ¬ r.ExactFor a b ∨ ¬ r.ExactFor b a) ∧ ¬ RemainderExactFor a b := by
  -- it lies halfway between two doubles, and the lower one has the even mantissa
  have ha : number? (ofInt64 (2 ^ 53 + 1)) = some (2 ^ 53) := by decide +kernel
  have hb : number? (ofInt64 (2 ^ 53)) = some (2 ^ 53) := by decide +kernel
  have hfails := Relation.not_exact_of_same ha hb (by decide)
  refine ⟨⟨?_, ?_⟩, hfails, not_remainderExactFor_of_same ha hb (by decide) (by decide)⟩
  · intro a b ha hb
    exact ⟨Relation.exactFor_of_le ha hb, remainderExactFor_of_le ha hb⟩
  · intro bound hexact
    by_contra hlarge
    have hmagnitudeA : |(2 ^ 53 + 1 : Int64).toInt| = 2 ^ 53 + 1 := by decide +kernel
    have hmagnitudeB : |(2 ^ 53 : Int64).toInt| = 2 ^ 53 := by decide +kernel
    have hboundA : |(2 ^ 53 + 1 : Int64).toInt| ≤ bound := by omega
    have hboundB : |(2 ^ 53 : Int64).toInt| ≤ bound := by omega
    rcases hfails .equal with hab | hba
    · exact hab ((hexact _ _ hboundA hboundB).1 .equal)
    · exact hba ((hexact _ _ hboundB hboundA).1 .equal)

/-- The least and nearly the greatest of these numbers, of which neither is lost. -/
theorem integers_exact_of_least :
    let a : Int64 := -2 ^ 53
    let b : Int64 := 2 ^ 53 - 1
    |a.toInt| ≤ 2 ^ 53 ∧ |b.toInt| ≤ 2 ^ 53 ∧
      (BinaryOp.relate .less).apply (.int a) (.int b) = .ok (.bool true) ∧
      (∃ n : Int64, BinaryOp.rem.apply (.int a) (.int b) = .ok (.int n) ∧ n.toInt = -1) ∧
      BinaryOp.rem.apply (.int a) (.int 0) = .error .divisionByZero := by
  intro a b
  have ha : |a.toInt| ≤ 2 ^ 53 := by decide +kernel
  have hb : |b.toInt| ≤ 2 ^ 53 := by decide +kernel
  obtain ⟨⟨hexact, -⟩, -⟩ := integers_exact
  obtain ⟨hrelation, -, hremainder⟩ := hexact a b ha hb
  obtain ⟨n, hn, htoInt⟩ := hremainder (by decide)
  have htmod : a.toInt.tmod b.toInt = -1 := by decide +kernel
  obtain ⟨-, hzero, -⟩ := hexact a 0 ha (by decide)
  exact ⟨ha, hb, hrelation .less, ⟨n, hn, htoInt.trans htmod⟩, hzero rfl⟩

end LineCalc
