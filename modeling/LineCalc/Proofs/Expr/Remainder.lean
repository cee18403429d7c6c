/-
# `LineCalc.Proofs.Expr.Remainder` — laws of the remainder

The operands of a remainder are numbers without their fractions, `a` and `b`.  The quotient of
these is rounded toward zero, and the remainder is what is missing: it is smaller than `b`
and never of the other sign than `a`.  All of this is said in whole numbers without bounds, so
it also holds where the quotient itself would not fit into 64 bits (`remainder_laws`).

A remainder is never the least number of 64 bits, as its divisor would have to be larger
still.  Nor is a literal of digits, which has no sign; and nothing else gives a whole number.
-/
import LineCalc.Proofs.Double.Truncation
import LineCalc.Proofs.Decimal.Numeral
import LineCalc.Proofs.Expr.Failure

namespace LineCalc

open Double (toInt64 wholePart toInt64_eq wholePart_eq_zero_iff abs_wholePart_le)

/-! ## Two numbers -/

theorem abs_tmod_lt (a : ℤ) {b : ℤ} (hb : b ≠ 0) : |a.tmod b| < |b| := by
  rw [Int.abs_eq_natAbs, Int.abs_eq_natAbs, Int.natAbs_tmod, Int.ofNat_lt]
  exact Nat.mod_lt _ (Int.natAbs_pos.mpr hb)

theorem tmod_eq_zero_or_sign_eq (a b : ℤ) : a.tmod b = 0 ∨ (a.tmod b).sign = a.sign := by
  rw [Int.sign_tmod]
  by_cases hdvd : b ∣ a
  · exact Or.inl (Int.tmod_eq_zero_of_dvd hdvd)
  · exact Or.inr (if_neg hdvd)

namespace BinaryOp

theorem remainder_of_numeric {v w : Value} {x y : Float} (hv : v.numeric = some x)
    (hw : w.numeric = some y) :
    remainder v w = if wholePart y = 0 then .error .divisionByZero
      else .ok (.int (toInt64 x % toInt64 y)) := by
  simp only [remainder, Value.number_eq_ok_iff.mpr hv, Value.number_eq_ok_iff.mpr hw,
    wholePart_eq_zero_iff]
  rfl

theorem toInt_remainder (x y : Float) :
    (toInt64 x % toInt64 y).toInt = (wholePart x).tmod (wholePart y) := by
  rw [Int64.toInt_mod, toInt64_eq, toInt64_eq]

end BinaryOp

/-! ## Expressions whose value is a whole number -/

theorem UnaryOp.ty?_ne_int (op : UnaryOp) (τ : Ty) : op.ty? τ ≠ some .int := by
  cases op <;> cases τ <;> exact nofun

theorem BinaryOp.eq_rem_of_ty? {op : BinaryOp} {σ τ : Ty} (h : op.ty? σ τ = some .int) :
    op = rem := by
  cases op with
  | rem => rfl
  | relate r | compute a => cases σ <;> cases τ <;> exact nomatch h

/-- Only integer literals and remainders are of the type of whole numbers. -/
theorem Expr.cases_of_ty?_int {e : Expr} (h : e.ty? = some .int) :
    (∃ lexeme, e = literal (.integer lexeme)) ∨ ∃ left right, e = binary left .rem right := by
  cases e with
  | literal l =>
      cases l with
      | integer lexeme => exact Or.inl ⟨lexeme, rfl⟩
      | float lexeme | string text | bool b => exact nomatch h
  | group e =>
      obtain ⟨τ, -, hgrouped⟩ := Option.map_eq_some_iff.mp h
      cases τ <;> exact nomatch hgrouped
  | unary op e =>
      obtain ⟨τ, -, hop⟩ := Option.bind_eq_some_iff.mp h
      exact absurd hop (op.ty?_ne_int τ)
  | binary left op right =>
      obtain ⟨σ, -, hright⟩ := Option.bind_eq_some_iff.mp h
      obtain ⟨τ, -, hop⟩ := Option.bind_eq_some_iff.mp hright
      obtain rfl := BinaryOp.eq_rem_of_ty? hop
      exact Or.inr ⟨left, right, rfl⟩

theorem minValue_lt_of_toInt {n : Int64} (h : -2 ^ 63 < n.toInt) : Int64.minValue < n := by
  rw [Int64.lt_iff_toInt_lt, Int64.toInt_minValue]
  exact h

theorem minValue_lt_of_digits {lexeme : String} {n : Int64}
    (hdigits : ∀ c ∈ lexeme.toList, c.isDigit = true) (h : Decimal.int64? lexeme = some n) :
    Int64.minValue < n := by
  by_cases hne : lexeme.toList = []
  · obtain rfl : lexeme = "" := String.toList_inj.mp hne
    exact nomatch h
  · obtain ⟨-, hvalue⟩ := (Decimal.int64?_eq_some_iff hne hdigits).mp h
    exact minValue_lt_of_toInt (by omega)

/-- A remainder is smaller than its divisor, and so it is not the least number. -/
theorem minValue_lt_of_remainder {v w : Value} {n : Int64}
    (h : BinaryOp.remainder v w = .ok (.int n)) : Int64.minValue < n := by
  obtain ⟨x, hx, hright⟩ := bind_eq_ok_iff.mp h
  obtain ⟨y, hy, -⟩ := bind_eq_ok_iff.mp hright
  rw [BinaryOp.remainder_of_numeric (Value.number_eq_ok_iff.mp hx)
    (Value.number_eq_ok_iff.mp hy)] at h
  split at h
  next => exact nomatch h
  next hzero =>
    obtain rfl : toInt64 x % toInt64 y = n := by injection h with h; injection h
    refine minValue_lt_of_toInt ?_
    rw [BinaryOp.toInt_remainder]
    have hlt : |(wholePart x).tmod (wholePart y)| < 2 ^ 63 :=
      (abs_tmod_lt _ hzero).trans_le (abs_wholePart_le y)
    exact (abs_lt.mp hlt).1

/-- The whole number that an expression evaluates to is not the least one, if integers are written
in digits only. -/
theorem Expr.minValue_lt_of_eval {e : Expr} {n : Int64}
    (hdigits : ∀ lexeme, .integer lexeme ∈ e.literals → ∀ c ∈ lexeme.toList, c.isDigit = true)
    (h : e.eval = .ok (.int n)) : Int64.minValue < n := by
  have hsuits := e.eval_suits
  rw [h] at hsuits
  rcases cases_of_ty?_int hsuits.ty_eq with ⟨lexeme, rfl⟩ | ⟨left, right, rfl⟩
  · refine minValue_lt_of_digits (hdigits lexeme (List.mem_singleton.mpr rfl)) ?_
    exact Literal.eval_integer_eq_ok_iff.mp h
  · obtain ⟨v, -, hright⟩ := bind_eq_ok_iff.mp h
    obtain ⟨w, -, hrem⟩ := bind_eq_ok_iff.mp hright
    exact minValue_lt_of_remainder hrem

/-! ## The laws -/

/-- A remainder of two numbers fails exactly if the right one is zero without its fraction.  If not,
it is what the quotient rounded toward zero leaves of the left one: smaller than the right one,
and zero or of the sign of the left one.  For the least number and minus one, whose quotient
is out of range, that is zero.

No expression whose integers are written in digits evaluates to the least number. -/
theorem remainder_laws :
    (∀ v w x y, v.numeric = some x → w.numeric = some y →
      let a := wholePart x
      let b := wholePart y
      (BinaryOp.rem.apply v w = .error .divisionByZero ↔ b = 0) ∧
      (b ≠ 0 → ∃ r : Int64, BinaryOp.rem.apply v w = .ok (.int r) ∧
        (∃ q : ℤ, q = truncate (a / b : ℚ) ∧ a = b * q + r.toInt) ∧ |r.toInt| < |b| ∧
        (r.toInt = 0 ∨ r.toInt.sign = a.sign)) ∧
      (a = -2 ^ 63 → b = -1 → BinaryOp.rem.apply v w = .ok (.int 0))) ∧
    ∀ e n, (∀ lexeme, .integer lexeme ∈ Expr.literals e → ∀ c ∈ lexeme.toList, c.isDigit) →
      e.eval = .ok (.int n) → Int64.minValue < n := by
  refine ⟨fun v w x y hv hw => ?_, fun e n hdigits h => e.minValue_lt_of_eval hdigits h⟩
  intro a b
  have happly : BinaryOp.rem.apply v w = if b = 0 then .error .divisionByZero
      else .ok (.int (toInt64 x % toInt64 y)) := BinaryOp.remainder_of_numeric hv hw
  have htoInt : (toInt64 x % toInt64 y).toInt = a.tmod b := BinaryOp.toInt_remainder x y
  rw [happly]
  refine ⟨?_, fun hb => ?_, fun ha hb => ?_⟩
  · by_cases hb : b = 0
    · rw [if_pos hb]
      exact iff_of_true rfl hb
    · rw [if_neg hb]
      exact iff_of_false nofun hb
  · rw [if_neg hb]
    refine ⟨_, rfl, ⟨a.tdiv b, (truncate_div a b).symm, ?_⟩, ?_, ?_⟩
    · rw [htoInt, Int.mul_tdiv_add_tmod]
    · rw [htoInt]
      exact abs_tmod_lt a hb
    · rw [htoInt]
      exact tmod_eq_zero_or_sign_eq a b
  · have hzero : toInt64 x % toInt64 y = 0 := by
      rw [← Int64.toInt_inj, htoInt, ha, hb]
      rfl
    rw [hzero, if_neg (by omega)]

/-- The least number by minus one, and seven by minus two. -/
theorem remainder_laws_of_least :
    let v : Value := .int Int64.minValue
    let w : Value := .int (-1)
    let x := Double.ofInt64 Int64.minValue
    let y := Double.ofInt64 (-1)
    let e : Expr :=
      .binary (.literal (.integer "7")) .rem (.unary .negate (.literal (.integer "2")))
    v.numeric = some x ∧ w.numeric = some y ∧ wholePart x = -2 ^ 63 ∧ wholePart y = -1 ∧
      BinaryOp.rem.apply v w = .ok (.int 0) ∧
      (∃ r : Int64, BinaryOp.rem.apply v w = .ok (.int r) ∧ |r.toInt| < |wholePart y|) ∧
      (∀ lexeme, .integer lexeme ∈ e.literals → ∀ c ∈ lexeme.toList, c.isDigit) ∧
      e.eval = .ok (.int 1) ∧ Int64.minValue < 1 := by
  intro v w x y e
  have hx : wholePart x = -2 ^ 63 := (toInt64_eq x).symm.trans (by decide +kernel)
  have hy : wholePart y = -1 := (toInt64_eq y).symm.trans (by decide +kernel)
  have hdigits : ∀ lexeme, .integer lexeme ∈ e.literals → ∀ c ∈ lexeme.toList, c.isDigit := by
    intro lexeme hmem
    rcases List.mem_pair.mp hmem with h | h
    · obtain rfl := Literal.integer.inj h
      exact List.all_eq_true.mp rfl
    · obtain rfl := Literal.integer.inj h
      exact List.all_eq_true.mp rfl
  have heval : e.eval = .ok (.int 1) := rfl
  obtain ⟨hlaws, hleast⟩ := remainder_laws
  obtain ⟨-, hrest, hzero⟩ := hlaws v w x y rfl rfl
  obtain ⟨r, hr, -, hlt, -⟩ := hrest (hy ▸ by decide)
  exact ⟨rfl, rfl, hx, hy, hzero hx hy, ⟨r, hr, hlt⟩, hdigits, heval, hleast e 1 hdigits heval⟩

end LineCalc
