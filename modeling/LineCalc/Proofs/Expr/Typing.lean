/-
# `LineCalc.Proofs.Expr.Typing` — the types of expressions

Every value is of one of four types.  Which of them an expression evaluates to is read off
its operators and the sorts of its literals (`Expr.ty?`); no lexeme and no operand plays a
part in it.  An expression without a type has no value, and one with a type has no value
only if a number literal is malformed or a remainder is taken by zero.

The types decide nothing in the evaluator: it computes first and asks each value for its
numeric projection.  That the two agree is one relation between results and types
(`Suits`), which every operator keeps and which passes through sequencing (`Suits.bind`).
-/
import LineCalc.Expr.Eval

namespace LineCalc

/-! ## Types -/

inductive Ty where
  | float | int | string | bool
deriving DecidableEq, Repr

def Value.ty : Value → Ty
  | float _ => .float
  | int _ => .int
  | string _ => .string
  | bool _ => .bool

def Literal.ty : Literal → Ty
  | integer _ => .int
  | float _ => .float
  | string _ => .string
  | bool _ => .bool

/-- The type of a grouping: whatever is no string becomes a double. -/
def Ty.grouped : Ty → Ty
  | string => string
  | float | int | bool => float

theorem Ty.grouped_eq_string_iff {τ : Ty} : τ.grouped = .string ↔ τ = .string := by
  cases τ <;> simp [grouped]

/-- The type of what a unary operator gives; no unary operator takes a string. -/
def UnaryOp.ty? : UnaryOp → Ty → Option Ty
  | _, .string => none
  | negate, _ => some .float
  | not, _ => some .bool

/-- The type of what a binary operator gives.  Two strings can be related to each other, and no
operator takes a string in any other way. -/
def BinaryOp.ty? : BinaryOp → Ty → Ty → Option Ty
  | relate _, .string, .string => some .bool
  | _, .string, _ => none
  | _, _, .string => none
  | relate _, _, _ => some .bool
  | compute _, _, _ => some .float
  | rem, _, _ => some .int

/-- The type of an expression, if it is well typed. -/
def Expr.ty? : Expr → Option Ty
  | literal l => some l.ty
  | group e => e.ty?.map Ty.grouped
  | unary op e => e.ty?.bind op.ty?
  | binary left op right => left.ty?.bind fun σ => right.ty?.bind fun τ => op.ty? σ τ

/-! ## Results that suit a type -/

/-- Whether an error blames an operand for having no numeric projection. -/
def EvalError.IsNotNumeric : EvalError → Prop
  | notNumeric _ _ => True
  | malformedNumber _ | divisionByZero => False

/-- `Suits r τ`: the result `r` is one that an expression with the type `τ` can have.  Without a
type it is an error, and with a type it is a value of that type or an error that blames no
operand. -/
inductive Suits : Except EvalError Value → Option Ty → Prop
  | value (v : Value) : Suits (.ok v) (some v.ty)
  | failure {e : EvalError} (τ : Option Ty) : ¬ e.IsNotNumeric → Suits (.error e) τ
  | untyped (e : EvalError) : Suits (.error e) none

namespace Suits

variable {r : Except EvalError Value} {τ : Option Ty}

theorem bind {f : Value → Except EvalError Value} {g : Ty → Option Ty} (h : Suits r τ)
    (hf : ∀ v, Suits (f v) (g v.ty)) : Suits (r >>= f) (τ.bind g) := by
  cases h with
  | value v => exact hf v
  | failure τ he => exact .failure _ he
  | untyped e => exact .untyped e

theorem map {f : Value → Value} {g : Ty → Ty} (h : Suits r τ)
    (hf : ∀ v, (f v).ty = g v.ty) : Suits (r.map f) (τ.map g) := by
  cases h with
  | value v =>
      show Suits (.ok (f v)) (some (g v.ty))
      rw [← hf v]
      exact .value (f v)
  | failure τ he => exact .failure _ he
  | untyped e => exact .untyped e

theorem ty_eq {v : Value} (h : Suits (.ok v) τ) : τ = some v.ty := by
  cases h with
  | value v => rfl

theorem exists_error (h : Suits r none) : ∃ e, r = .error e := by
  cases h with
  | failure τ he => exact ⟨_, rfl⟩
  | untyped e => exact ⟨e, rfl⟩

theorem not_isNotNumeric {σ : Ty} {e : EvalError} (h : Suits (.error e) (some σ)) :
    ¬ e.IsNotNumeric := by
  cases h with
  | failure τ he => exact he

end Suits

/-! ## Operators -/

theorem Value.normalize_ty (v : Value) : v.normalize.ty = v.ty.grouped := by
  cases v <;> rfl

theorem Value.numeric_eq_none_iff {v : Value} : v.numeric = none ↔ v.ty = .string := by
  cases v <;> simp [numeric, ty]

theorem Value.number_of_numeric {v : Value} (h : v.ty ≠ .string) (o : Operator) :
    ∃ x, v.number o = .ok x := by
  cases hx : v.numeric with
  | none => exact absurd (numeric_eq_none_iff.mp hx) h
  | some x => exact ⟨x, by rw [number, hx]⟩

theorem Value.number_of_string {v : Value} (h : v.ty = .string) (o : Operator) :
    v.number o = .error (.notNumeric v o) := by
  rw [number, numeric_eq_none_iff.mpr h]

/-- Two operands that must both be numbers: the result suits the type it has for numbers, unless
one operand is a string. -/
theorem suits_numbers {o : Operator} {f : Float → Float → Except EvalError Value} {τ : Ty}
    (left right : Value) (hf : ∀ x y, Suits (f x y) (some τ)) :
    Suits (do f (← left.number o) (← right.number o))
      (if left.ty = .string ∨ right.ty = .string then none else some τ) := by
  by_cases hleft : left.ty = .string
  · rw [if_pos (Or.inl hleft), Value.number_of_string hleft]
    exact .untyped _
  · obtain ⟨x, hx⟩ := Value.number_of_numeric hleft o
    rw [hx]
    by_cases hright : right.ty = .string
    · rw [if_pos (Or.inr hright), Value.number_of_string hright]
      exact .untyped _
    · obtain ⟨y, hy⟩ := Value.number_of_numeric hright o
      rw [if_neg (not_or.mpr ⟨hleft, hright⟩), hy]
      exact hf x y

theorem UnaryOp.apply_suits (op : UnaryOp) (v : Value) : Suits (op.apply v) (op.ty? v.ty) := by
  by_cases hv : v.ty = .string
  · rw [apply, Value.number_of_string hv, hv]
    exact .untyped _
  · obtain ⟨x, hx⟩ := Value.number_of_numeric hv (.unary op)
    rw [apply, hx]
    cases op with
    | negate =>
        have hty : UnaryOp.negate.ty? v.ty = some .float := by
          cases v <;> first | rfl | exact absurd rfl hv
        rw [hty]
        exact .value (.float (-x))
    | not =>
        have hty : UnaryOp.not.ty? v.ty = some .bool := by
          cases v <;> first | rfl | exact absurd rfl hv
        rw [hty]
        exact .value (.bool (x == 0))

namespace BinaryOp

theorem relation_of_not_strings {left right : Value} (r : Relation)
    (h : ¬ (left.ty = .string ∧ right.ty = .string)) :
    relation r left right = do
      let x ← left.number (.binary (relate r))
      let y ← right.number (.binary (relate r))
      return .bool (r.holdsFloat x y) := by
  cases left <;> cases right <;> first | rfl | exact absurd ⟨rfl, rfl⟩ h

theorem arithmetic_suits (a : Arithmetic) (left right : Value) :
    Suits (arithmetic a left right) ((compute a).ty? left.ty right.ty) := by
  have hty : (compute a).ty? left.ty right.ty
      = if left.ty = .string ∨ right.ty = .string then none else some .float := by
    cases left <;> cases right <;> rfl
  rw [hty]
  refine suits_numbers left right fun x y => ?_
  exact .value (.float (a.apply x y))

theorem remainder_suits (left right : Value) :
    Suits (remainder left right) (rem.ty? left.ty right.ty) := by
  have hty : rem.ty? left.ty right.ty
      = if left.ty = .string ∨ right.ty = .string then none else some .int := by
    cases left <;> cases right <;> rfl
  rw [hty]
  refine suits_numbers left right fun x y => ?_
  by_cases hzero : Double.toInt64 y = 0
  · rw [if_pos hzero]
    exact .failure _ id
  · rw [if_neg hzero]
    exact .value (.int (Double.toInt64 x % Double.toInt64 y))

theorem relation_suits (r : Relation) (left right : Value) :
    Suits (relation r left right) ((relate r).ty? left.ty right.ty) := by
  by_cases hstrings : left.ty = .string ∧ right.ty = .string
  · cases left <;> cases right <;> first | exact .value (.bool _) | simp [Value.ty] at hstrings
  · have hty : (relate r).ty? left.ty right.ty
        = if left.ty = .string ∨ right.ty = .string then none else some .bool := by
      cases left <;> cases right <;> first | rfl | exact absurd ⟨rfl, rfl⟩ hstrings
    rw [relation_of_not_strings r hstrings, hty]
    refine suits_numbers left right fun x y => ?_
    exact .value (.bool (r.holdsFloat x y))

theorem apply_suits (op : BinaryOp) (left right : Value) :
    Suits (op.apply left right) (op.ty? left.ty right.ty) := by
  cases op with
  | relate r => exact relation_suits r left right
  | compute a => exact arithmetic_suits a left right
  | rem => exact remainder_suits left right

end BinaryOp

/-! ## Expressions -/

namespace Literal

variable {lexeme : String}

theorem eval_integer_of_some {n : Int64} (h : Decimal.int64? lexeme = some n) :
    (integer lexeme).eval = .ok (.int n) := by
  simp only [eval, h]

theorem eval_integer_of_none (h : Decimal.int64? lexeme = none) :
    (integer lexeme).eval = .error (.malformedNumber lexeme) := by
  simp only [eval, h]

theorem eval_float_of_some {x : Float} (h : Decimal.double? lexeme = some x) :
    (float lexeme).eval = .ok (.float x) := by
  simp only [eval, h]

theorem eval_float_of_none (h : Decimal.double? lexeme = none) :
    (float lexeme).eval = .error (.malformedNumber lexeme) := by
  simp only [eval, h]

theorem eval_suits (l : Literal) : Suits l.eval (some l.ty) := by
  cases l with
  | integer lexeme =>
      cases hn : Decimal.int64? lexeme with
      | none =>
          rw [eval_integer_of_none hn]
          exact .failure _ id
      | some n =>
          rw [eval_integer_of_some hn]
          exact .value (.int n)
  | float lexeme =>
      cases hx : Decimal.double? lexeme with
      | none =>
          rw [eval_float_of_none hx]
          exact .failure _ id
      | some x =>
          rw [eval_float_of_some hx]
          exact .value (.float x)
  | string text => exact .value (.string text)
  | bool b => exact .value (.bool b)

end Literal

theorem Expr.eval_suits (e : Expr) : Suits e.eval e.ty? := by
  induction e with
  | literal l => exact l.eval_suits
  | group e ih => exact ih.map Value.normalize_ty
  | unary op e ih => exact ih.bind op.apply_suits
  | binary left op right ihl ihr =>
      refine ihl.bind fun v => ?_
      refine ihr.bind fun w => ?_
      exact op.apply_suits v w

/-- The types are sound and complete for evaluation: a value is of its expression's type, a well
typed expression blames no operand, and an expression without a type has no value. -/
theorem Expr.eval_typed (e : Expr) :
    (∀ v, e.eval = .ok v → e.ty? = some v.ty) ∧
    (∀ τ, e.ty? = some τ → ∀ operand operator, e.eval ≠ .error (.notNumeric operand operator)) ∧
    (e.ty? = none → ∃ err, e.eval = .error err) := by
  have hsuits := e.eval_suits
  refine ⟨?_, ?_, ?_⟩
  · intro v hv
    rw [hv] at hsuits
    exact hsuits.ty_eq
  · intro τ hty operand operator herr
    rw [hty, herr] at hsuits
    exact hsuits.not_isNotNumeric trivial
  · intro hty
    rw [hty] at hsuits
    exact hsuits.exists_error

/-- Two strings may be related, one of them in a grouping, but a string and a number may not be
added. -/
theorem Expr.eval_typed_of_strings :
    let a : Expr := .literal (.string "a")
    let related : Expr := .binary (.group a) (.relate .less) (.literal (.string "b"))
    let added : Expr := .binary a (.compute .add) (.literal (.integer "1"))
    related.eval = .ok (.bool true) ∧ related.ty? = some .bool ∧
      (∀ operand operator, related.eval ≠ .error (.notNumeric operand operator)) ∧
      added.ty? = none ∧ ∃ err, added.eval = .error err := by
  intro a related added
  have heval : related.eval = .ok (.bool true) := by
    show Except.ok (Value.bool (decide ("a" < "b"))) = _
    rw [decide_eq_true (by decide)]
  have hty : added.ty? = none := rfl
  obtain ⟨hvalue, hnumeric, -⟩ := eval_typed related
  obtain ⟨-, -, huntyped⟩ := eval_typed added
  exact ⟨heval, hvalue _ heval, hnumeric _ (hvalue _ heval), hty, huntyped hty⟩

end LineCalc
