/-
# `LineCalc.Proofs.Line.ReadBack` — printed values read back

The written form of a value is itself a line.  For a truth value, a number without a sign and a
string without quotes it is that of one literal, and a literal alone is a line of its own
value (`parse_literal`).  A number with a sign is read as a negation, which is a double; and
the magnitude of the least number does not fit into 64 bits, so that one does not come back at
all (`run_render`).
-/
import LineCalc.Proofs.Line.Blanks
import LineCalc.Proofs.Line.Numbers

namespace LineCalc

/-! ## Lines of one literal -/

theorem parse_of_layout {source : String} {body : List Token} {e : Expr}
    (hlayout : Token.Layout source.toList body) (hyield : body.map Token.terminal = e.yield)
    (hconformant : e.Conformant) (hheight : e.height ≤ 256) :
    ∃ ts, Token.scan source = .ok ts ∧ parse ts = .ok e := by
  obtain ⟨us, place, hscan, hunplaced⟩ := Token.scan_of_layout hlayout
  refine ⟨_, hscan, (parse_eq_ok_iff_of_scan hscan).mpr ⟨hconformant, hheight, ?_⟩⟩
  refine isSentence_iff_terminals.mpr ⟨[], Or.inl rfl, ?_⟩
  rw [List.map_append, Token.map_terminal_of_unplaced hunplaced, hyield, List.append_nil]
  rfl

theorem Token.Item.Fits.layout {kind : Token.Kind} {lexeme : String} {text rest : List Char}
    {ts : List Token} (h : (Token.Item.token kind lexeme).Fits text rest)
    (hrest : Token.Layout rest ts) (p : Position) :
    Token.Layout (text ++ rest) (⟨kind, lexeme, p⟩ :: ts) := by
  cases h with
  | token hadmits hwrites hend => exact .token hadmits hwrites hend hrest

namespace Literal

variable {l : Literal}

theorem exists_layout (hl : l.Spelled) :
    ∃ t, Token.Layout l.render.toList [t] ∧ t.terminal = l.terminal := by
  have hfits : l.item.Fits l.render.toList [] := fits hl (fun c hc => nomatch hc)
  rw [← List.append_nil l.render.toList]
  cases l with
  | integer lexeme | float lexeme | string text | bool b =>
      exact ⟨_, hfits.layout .nil .start, rfl⟩

theorem parse_literal (hl : l.Spelled) :
    ∃ ts, Token.scan l.render = .ok ts ∧ parse ts = .ok (.literal l) := by
  obtain ⟨t, hlayout, hterminal⟩ := exists_layout hl
  exact parse_of_layout hlayout (congrArg (fun x => [x]) hterminal) trivial (Nat.zero_le _)

theorem parse_negated (hl : l.Spelled) :
    ∃ ts, Token.scan ("-" ++ l.render) = .ok ts ∧
      parse ts = .ok (.unary .negate (.literal l)) := by
  obtain ⟨t, hlayout, hterminal⟩ := exists_layout hl
  have hminus : (Token.Item.token .minus "-").Fits ['-'] l.render.toList :=
    .token rfl rfl (fun _ _ => rfl)
  have hsigned : Token.Layout ("-" ++ l.render).toList [⟨.minus, "-", .start⟩, t] := by
    rw [String.toList_append]
    exact hminus.layout hlayout .start
  refine parse_of_layout hsigned ?_ ⟨trivial, Nat.le_refl _⟩ (show 1 ≤ 256 by decide)
  exact congrArg (fun x => [Terminal.sign .minus, x]) hterminal

theorem spelled_ofNat (n : Nat) : (integer (Decimal.ofNat n)).Spelled := by
  show _ ≠ _ ∧ _
  rw [Decimal.ofNat, String.toList_ofList]
  exact ⟨Nat.toDigits_ne_nil,
    fun c hc => Nat.isDigit_of_mem_toDigits (by decide) (by decide) hc⟩

end Literal

/-! ## Printed values -/

/-- The values that are printed as one literal of their own sort. -/
def Value.IsLiteral : Value → Prop
  | bool _ => True
  | int n => 0 ≤ n
  | string text => '"' ∉ text.toList
  | float _ => False

theorem int64?_ofNat {n : Int64} {k : Nat} (h : n.toInt = k) :
    Decimal.int64? (Decimal.ofNat k) = some n := by
  have hspelled := Literal.spelled_ofNat k
  have hvalue : Decimal.value (Decimal.ofNat k).toList = k := by
    rw [Decimal.ofNat, String.toList_ofList, Decimal.value_digits]
  rw [Decimal.int64?_eq_some_iff hspelled.1 hspelled.2, hvalue]
  have hlt := n.toInt_lt
  exact ⟨by omega, h⟩

/-- A value that is printed as a literal is printed as one that evaluates to it. -/
theorem Value.IsLiteral.exists_literal {v : Value} (h : v.IsLiteral) :
    ∃ l : Literal, l.Spelled ∧ v.render = l.render ∧ l.eval = .ok v := by
  cases v with
  | float x => exact nomatch h
  | int n =>
      have hnonneg : 0 ≤ n.toInt := Int64.le_iff_toInt_le.mp h
      obtain ⟨k, hk⟩ := Int.eq_ofNat_of_zero_le hnonneg
      refine ⟨.integer (Decimal.ofNat k), Literal.spelled_ofNat k, ?_,
        Literal.eval_integer_eq_ok_iff.mpr (int64?_ofNat hk)⟩
      show Decimal.ofInt n.toInt = _
      rw [hk]
      rfl
  | string text => exact ⟨.string text, h, rfl, rfl⟩
  | bool b => exact ⟨.bool b, trivial, rfl, rfl⟩

theorem Value.render_of_neg {n : Int64} (h : n < 0) :
    (Value.int n).render = "-" ++ (Literal.integer (Decimal.ofNat n.toInt.natAbs)).render := by
  have hneg : n.toInt < 0 := Int64.lt_iff_toInt_lt.mp h
  obtain ⟨k, hk⟩ := Int.eq_negSucc_of_lt_zero hneg
  show Decimal.ofInt n.toInt = "-" ++ Decimal.ofNat n.toInt.natAbs
  rw [hk]
  rfl

theorem run_negated {n m : Int64} (hneg : n < 0) (hm : m.toInt = n.toInt.natAbs) :
    run (Value.int n).render = .ok (.float (-Double.ofInt64 m)) := by
  obtain ⟨ts, hscan, hparse⟩ := Literal.parse_negated (Literal.spelled_ofNat n.toInt.natAbs)
  rw [Value.render_of_neg hneg]
  refine run_eq_ok_iff.mpr ⟨ts, _, hscan, hparse, ?_⟩
  exact bind_eq_ok_iff.mpr ⟨.int m, Literal.eval_integer_of_some (int64?_ofNat hm), rfl⟩

/-- A truth value, a number without a sign and a string without quotes are read back from their
written forms.  A negative number is read as the negation of a double, that of its magnitude,
but for the least one, whose magnitude is malformed. -/
theorem run_render :
    (∀ v : Value, v.IsLiteral → run v.render = .ok v) ∧
    (∀ n : Int64, Int64.minValue < n → n < 0 → ∃ m : Int64, m.toInt = |n.toInt| ∧
      run (Value.int n).render = .ok (.float (-Double.ofInt64 m))) ∧
    run (Value.int Int64.minValue).render
      = .error (.eval (.malformedNumber "9223372036854775808")) := by
  refine ⟨fun v hv => ?_, fun n hmin hneg => ?_, ?_⟩
  · obtain ⟨l, hspelled, hrender, heval⟩ := hv.exists_literal
    obtain ⟨ts, hscan, hparse⟩ := Literal.parse_literal hspelled
    rw [hrender]
    exact run_eq_ok_iff.mpr ⟨ts, _, hscan, hparse, heval⟩
  · have hlow : -2 ^ 63 < n.toInt := Int64.lt_iff_toInt_lt.mp hmin
    have hhigh : n.toInt < 0 := Int64.lt_iff_toInt_lt.mp hneg
    have hm : (Int64.ofInt n.toInt.natAbs).toInt = n.toInt.natAbs :=
      Int64.toInt_ofInt_of_le (by omega) (by omega)
    exact ⟨_, hm.trans (Int.abs_eq_natAbs _).symm, run_negated hneg hm⟩
  · have hspelled := Literal.spelled_ofNat (2 ^ 63)
    have hmalformed : Decimal.int64? (Decimal.ofNat (2 ^ 63)) = none := by
      rw [Decimal.int64?_eq_none_iff hspelled.1 hspelled.2, Decimal.ofNat,
        String.toList_ofList, Decimal.value_digits]
      decide
    obtain ⟨ts, hscan, hparse⟩ := Literal.parse_negated hspelled
    refine run_eq_eval_error_iff.mpr ⟨ts, _, hscan, hparse, ?_⟩
    exact bind_eq_error_iff.mpr (Or.inl (Literal.eval_integer_of_none hmalformed))

/-- A string over two lines with a character of two bytes, and minus seven. -/
theorem run_render_of_lines :
    let v : Value := .string "é\n&"
    let n : Int64 := -7
    v.IsLiteral ∧ run v.render = .ok v ∧ Int64.minValue < n ∧ n < 0 ∧
      ∃ m : Int64, m.toInt = |n.toInt| ∧ run "-7" = .ok (.float (-Double.ofInt64 m)) := by
  intro v n
  have hv : v.IsLiteral := by
    show '"' ∉ "é\n&".toList
    decide
  have hmin : Int64.minValue < n := by decide
  have hneg : n < 0 := by decide
  obtain ⟨hliterals, hnegatives, -⟩ := run_render
  exact ⟨hv, hliterals v hv, hmin, hneg, hnegatives n hmin hneg⟩

end LineCalc
