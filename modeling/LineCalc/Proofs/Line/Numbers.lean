/-
# `LineCalc.Proofs.Line.Numbers` — number literals are read exactly

What the scanner lets into a number is less than the readers of numbers know: no sign, no
exponent and no word, only digits and points.  So an integer is read to the sum of its digits
as long as that fits into 64 bits, whatever zeros it begins with, and a float is read exactly
if it has one point.  No other number of a line is ever reported as malformed
(`numbers_read`).
-/
import LineCalc.Proofs.Decimal.Numeral
import LineCalc.Proofs.Expr.Failure
import LineCalc.Proofs.Expr.Rendering
import LineCalc.Proofs.Line.Stages

namespace LineCalc

open Decimal (digitSum)

/-! ## Literals as they are scanned -/

namespace Literal

variable {lexeme : String}

theorem eval_integer_eq_error_iff :
    (integer lexeme).eval = .error (.malformedNumber lexeme) ↔ Decimal.int64? lexeme = none := by
  cases hread : Decimal.int64? lexeme with
  | none => exact iff_of_true (eval_integer_of_none hread) rfl
  | some m =>
      rw [eval_integer_of_some hread]
      exact iff_of_false nofun nofun

theorem eval_float_eq_ok_iff :
    (∃ x, (float lexeme).eval = .ok (.float x)) ↔ (Decimal.double? lexeme).isSome = true := by
  cases hread : Decimal.double? lexeme with
  | none =>
      rw [eval_float_of_none hread]
      exact iff_of_false (fun ⟨x, hx⟩ => nomatch hx) nofun
  | some y => exact iff_of_true ⟨y, eval_float_of_some hread⟩ rfl

theorem eval_float_eq_error_iff :
    (float lexeme).eval = .error (.malformedNumber lexeme) ↔
      ¬ (Decimal.double? lexeme).isSome = true := by
  cases hread : Decimal.double? lexeme with
  | none => exact iff_of_true (eval_float_of_none hread) nofun
  | some y =>
      rw [eval_float_of_some hread]
      exact iff_of_false nofun (fun h => h rfl)

end Literal

namespace Token.Kind.Admits

variable {lexeme : String}

theorem int64?_eq_some_iff (h : Kind.integer.Admits lexeme) {n : Int64} :
    Decimal.int64? lexeme = some n ↔ digitSum lexeme ≤ 2 ^ 63 - 1 ∧ n.toInt = digitSum lexeme := by
  rw [Decimal.int64?_eq_some_iff h.1 h.2, Decimal.value_eq_digitSum]

theorem int64?_eq_none_iff (h : Kind.integer.Admits lexeme) :
    Decimal.int64? lexeme = none ↔ 2 ^ 63 - 1 < digitSum lexeme := by
  rw [Decimal.int64?_eq_none_iff h.1 h.2, Decimal.value_eq_digitSum]

/-- The lexeme of a float has a point, so having at most one is having one. -/
theorem double?_isSome_iff (h : Kind.float.Admits lexeme) :
    (Decimal.double? lexeme).isSome = true ↔ lexeme.toList.count '.' = 1 := by
  obtain ⟨hhead, hnumerals, hpoint⟩ := h
  have hpos : 0 < lexeme.toList.count '.' := List.count_pos_iff.mpr hpoint
  rw [Decimal.double?_isSome_iff hhead hnumerals]
  omega

end Token.Kind.Admits

namespace Literal

variable {lexeme : String}

theorem integer_read (h : Token.Kind.integer.Admits lexeme) :
    ((∃ n : Int64, n.toInt = digitSum lexeme ∧ (integer lexeme).eval = .ok (.int n)) ↔
        digitSum lexeme ≤ 2 ^ 63 - 1) ∧
      ((integer lexeme).eval = .error (.malformedNumber lexeme) ↔
        2 ^ 63 - 1 < digitSum lexeme) := by
  refine ⟨⟨?_, fun hfits => ?_⟩, eval_integer_eq_error_iff.trans h.int64?_eq_none_iff⟩
  · rintro ⟨n, -, heval⟩
    exact (h.int64?_eq_some_iff.mp (eval_integer_eq_ok_iff.mp heval)).1
  · have hn : (Int64.ofInt (digitSum lexeme)).toInt = digitSum lexeme :=
      Int64.toInt_ofInt_of_le (by omega) (by omega)
    exact ⟨_, hn, eval_integer_eq_ok_iff.mpr (h.int64?_eq_some_iff.mpr ⟨hfits, hn⟩)⟩

theorem float_read (h : Token.Kind.float.Admits lexeme) :
    ((∃ x, (float lexeme).eval = .ok (.float x)) ↔ lexeme.toList.count '.' = 1) ∧
      ((float lexeme).eval = .error (.malformedNumber lexeme) ↔
        lexeme.toList.count '.' ≠ 1) :=
  ⟨eval_float_eq_ok_iff.trans h.double?_isSome_iff,
    eval_float_eq_error_iff.trans (not_congr h.double?_isSome_iff)⟩

end Literal

/-! ## Lines -/

section
variable {source lexeme : String} {ts : List Token} {tree : Expr}

theorem malformed_token (hscan : Token.scan source = .ok ts) (hparse : parse ts = .ok tree)
    (heval : tree.eval = .error (.malformedNumber lexeme)) :
    ∃ t ∈ ts, t.lexeme = lexeme ∧ (t.kind = .integer ∧ 2 ^ 63 - 1 < digitSum lexeme ∨
      t.kind = .float ∧ 2 ≤ lexeme.toList.count '.') := by
  have hspelled := spelled_of_parse hscan hparse
  rcases Expr.malformed_of_eval heval with ⟨hmem, hnone⟩ | ⟨hmem, hnone⟩
  · have hadmits : Token.Kind.integer.Admits lexeme := hspelled _ hmem
    obtain ⟨t, ht, hkind, hlexeme⟩ := Parser.exists_token_of_literal hparse hmem rfl
    exact ⟨t, ht, hlexeme, Or.inl ⟨hkind, hadmits.int64?_eq_none_iff.mp hnone⟩⟩
  · have hadmits : Token.Kind.float.Admits lexeme := hspelled _ hmem
    obtain ⟨t, ht, hkind, hlexeme⟩ := Parser.exists_token_of_literal hparse hmem rfl
    refine ⟨t, ht, hlexeme, Or.inr ⟨hkind, ?_⟩⟩
    have hpos : 0 < lexeme.toList.count '.' := List.count_pos_iff.mpr hadmits.2.2
    have hne : lexeme.toList.count '.' ≠ 1 := by
      rw [Ne, ← hadmits.double?_isSome_iff, hnone]
      exact nofun
    omega

/-- The number literals of a parsed text are read exactly: an integer, which is written in digits
only, to their sum if that is at most the greatest number of 64 bits, and a float if it has one
point.  All others are malformed, and a line reports no other number as such. -/
theorem numbers_read (source : String) :
    (∀ ts tree, Token.scan source = .ok ts → parse ts = .ok tree →
      (∀ lexeme, .integer lexeme ∈ tree.literals →
        (∀ c ∈ lexeme.toList, c.isDigit) ∧
        ((∃ n : Int64, n.toInt = digitSum lexeme ∧
          (Literal.integer lexeme).eval = .ok (.int n)) ↔ digitSum lexeme ≤ 2 ^ 63 - 1) ∧
        ((Literal.integer lexeme).eval = .error (.malformedNumber lexeme) ↔
          2 ^ 63 - 1 < digitSum lexeme)) ∧
      ∀ lexeme, .float lexeme ∈ tree.literals →
        ((∃ x, (Literal.float lexeme).eval = .ok (.float x)) ↔
          lexeme.toList.count '.' = 1) ∧
        ((Literal.float lexeme).eval = .error (.malformedNumber lexeme) ↔
          lexeme.toList.count '.' ≠ 1)) ∧
    ∀ lexeme, run source = .error (.eval (.malformedNumber lexeme)) →
      ∃ ts, Token.scan source = .ok ts ∧ ∃ t ∈ ts, t.lexeme = lexeme ∧
        (t.kind = .integer ∧ 2 ^ 63 - 1 < digitSum lexeme ∨
          t.kind = .float ∧ 2 ≤ lexeme.toList.count '.') := by
  constructor
  · intro ts tree hscan hparse
    have hspelled := spelled_of_parse hscan hparse
    refine ⟨fun lexeme hmem => ?_, fun lexeme hmem => ?_⟩
    · have hadmits : Token.Kind.integer.Admits lexeme := hspelled _ hmem
      exact ⟨hadmits.2, Literal.integer_read hadmits⟩
    · exact Literal.float_read (hspelled _ hmem)
  · intro lexeme hrun
    obtain ⟨ts, tree, hscan, hparse, heval⟩ := run_eq_eval_error_iff.mp hrun
    exact ⟨ts, hscan, malformed_token hscan hparse heval⟩

/-- An integer with zeros in front, and a float with two points. -/
theorem numbers_read_of_two_points :
    let source := "007 + 1.."
    let tree : Expr := .binary (.literal (.integer "007")) (.compute .add) (.literal (.float "1.."))
    ∃ ts, Token.scan source = .ok ts ∧ parse ts = .ok tree ∧
      (.integer "007" ∈ tree.literals ∧ digitSum "007" = 7 ∧
        ∃ n : Int64, n.toInt = digitSum "007" ∧ (Literal.integer "007").eval = .ok (.int n)) ∧
      (.float "1.." ∈ tree.literals ∧
        (Literal.float "1..").eval = .error (.malformedNumber "1..")) ∧
      run source = .error (.eval (.malformedNumber "1..")) ∧
      ∃ t ∈ ts, t.lexeme = "1.." := by
  intro source tree
  let ts : List Token :=
    [⟨.integer, "007", .start⟩, ⟨.plus, "+", ⟨1, 5⟩⟩, ⟨.float, "1..", ⟨1, 7⟩⟩, .endAt ⟨1, 10⟩]
  have hscan : Token.scan source = .ok ts := by decide +kernel
  have hparse : parse ts = .ok tree := rfl
  have hinteger : .integer "007" ∈ tree.literals := List.mem_cons_self
  have hfloat : .float "1.." ∈ tree.literals := List.mem_cons_of_mem _ List.mem_cons_self
  have hrun : run source = .error (.eval (.malformedNumber "1..")) :=
    run_eq_eval_error_iff.mpr ⟨ts, tree, hscan, hparse, rfl⟩
  obtain ⟨hread, hmalformed⟩ := numbers_read source
  obtain ⟨hintegers, hfloats⟩ := hread ts tree hscan hparse
  obtain ⟨-, hvalue, -⟩ := hintegers "007" hinteger
  obtain ⟨-, herror⟩ := hfloats "1.." hfloat
  obtain ⟨us, hus, t, ht, hlexeme, -⟩ := hmalformed "1.." hrun
  obtain rfl : ts = us := Except.ok.inj (hscan.symm.trans hus)
  exact ⟨ts, hscan, hparse, ⟨hinteger, rfl, hvalue.mpr (by decide +kernel)⟩,
    ⟨hfloat, herror.mpr (by decide +kernel)⟩, hrun, t, ht, hlexeme⟩

end

end LineCalc
