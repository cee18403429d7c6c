/-
# `LineCalc.Proofs.Expr.Grouping` — groupings are transparent under operators

A grouping turns the number in it into a double, so the value of `(3)` is not that of `3`.
No operator can tell the two apart: operators see a value through its numeric projection
alone, or else it is a string, which a grouping leaves as it is.  So an operator gives the
same for normalized operands (`UnaryOp.apply_normalize`, `BinaryOp.apply_normalize`), down
to the operand that an error names, and all groupings may be taken out of its operands.

At the root the values do differ, but only by what the outermost grouping does to them.
That relation, equality of results up to `Value.normalize`, is what the induction over
trees carries.
-/
import LineCalc.Proofs.Expr.Typing

namespace LineCalc

/-- The tree without its groupings. -/
def Expr.strip : Expr → Expr
  | literal l => literal l
  | group e => e.strip
  | unary op e => unary op e.strip
  | binary left op right => binary left.strip op right.strip

/-! ## Normalized operands -/

namespace Value

theorem normalize_of_numeric {v : Value} {x : Float} (h : v.numeric = some x) :
    v.normalize = .float x := by
  rw [normalize, h]

theorem normalize_of_string {v : Value} (h : v.ty = .string) : v.normalize = v := by
  rw [normalize, numeric_eq_none_iff.mpr h]

theorem normalize_normalize (v : Value) : v.normalize.normalize = v.normalize := by
  cases hx : v.numeric with
  | none =>
      have hv : v.normalize = v := normalize_of_string (numeric_eq_none_iff.mp hx)
      rw [hv, hv]
  | some x =>
      rw [normalize_of_numeric hx]
      rfl

/-- The numeric projection of a normalized operand is that of the operand, and so is the error
where there is none. -/
theorem number_normalize (v : Value) (o : Operator) : v.normalize.number o = v.number o := by
  cases hx : v.numeric with
  | none => rw [normalize_of_string (numeric_eq_none_iff.mp hx)]
  | some x =>
      rw [normalize_of_numeric hx, number, number, hx]
      rfl

end Value

theorem UnaryOp.apply_normalize (op : UnaryOp) (v : Value) :
    op.apply v.normalize = op.apply v := by
  rw [apply, apply, Value.number_normalize]

namespace BinaryOp

theorem relation_normalize (r : Relation) (left right : Value) :
    relation r left.normalize right.normalize = relation r left right := by
  by_cases h : left.ty = .string ∧ right.ty = .string
  · rw [Value.normalize_of_string h.1, Value.normalize_of_string h.2]
  · have hnormal : ¬ (left.normalize.ty = .string ∧ right.normalize.ty = .string) := by
      rw [Value.normalize_ty, Value.normalize_ty, Ty.grouped_eq_string_iff,
        Ty.grouped_eq_string_iff]
      exact h
    rw [relation_of_not_strings r hnormal, relation_of_not_strings r h,
      Value.number_normalize, Value.number_normalize]

theorem apply_normalize (op : BinaryOp) (left right : Value) :
    op.apply left.normalize right.normalize = op.apply left right := by
  cases op with
  | relate r => exact relation_normalize r left right
  | compute a =>
      simp only [apply, arithmetic, Value.number_normalize]
  | rem =>
      simp only [apply, remainder, Value.number_normalize]

end BinaryOp

/-! ## Results up to normalization -/

/-- `Alike r s`: two results are the same once their values are normalized. -/
def Alike (r s : Except EvalError Value) : Prop := r.map Value.normalize = s.map Value.normalize

namespace Alike

variable {r s : Except EvalError Value}

theorem cases (h : Alike r s) :
    (∃ e, r = .error e ∧ s = .error e) ∨
      ∃ v w, r = .ok v ∧ s = .ok w ∧ v.normalize = w.normalize := by
  cases r with
  | error e =>
      cases s with
      | error e' =>
          obtain rfl : e = e' := Except.error.inj h
          exact Or.inl ⟨e, rfl, rfl⟩
      | ok w => exact nomatch h
  | ok v =>
      cases s with
      | error e' => exact nomatch h
      | ok w => exact Or.inr ⟨v, w, rfl, rfl, Except.ok.inj h⟩

/-- What cannot tell a value from its normalized form gives the same for results that are alike. -/
theorem bind_eq {f g : Value → Except EvalError Value} (h : Alike r s)
    (hfg : ∀ v w, v.normalize = w.normalize → f v = g w) : r >>= f = s >>= g := by
  rcases h.cases with ⟨e, rfl, rfl⟩ | ⟨v, w, rfl, rfl, hvw⟩
  · rfl
  · exact hfg v w hvw

theorem of_map_normalize (h : Alike r s) : Alike (r.map Value.normalize) s := by
  rcases h.cases with ⟨e, rfl, rfl⟩ | ⟨v, w, rfl, rfl, hvw⟩
  · rfl
  · show Except.ok v.normalize.normalize = Except.ok w.normalize
    rw [Value.normalize_normalize, hvw]

end Alike

/-! ## Expressions -/

namespace Expr

theorem eval_unary_of_alike {e e' : Expr} (op : UnaryOp) (h : Alike e.eval e'.eval) :
    (unary op e).eval = (unary op e').eval := by
  refine h.bind_eq fun v w hvw => ?_
  rw [← op.apply_normalize v, hvw, op.apply_normalize w]

theorem eval_binary_of_alike {left left' right right' : Expr} (op : BinaryOp)
    (hleft : Alike left.eval left'.eval) (hright : Alike right.eval right'.eval) :
    (binary left op right).eval = (binary left' op right').eval := by
  refine hleft.bind_eq fun v v' hv => ?_
  refine hright.bind_eq fun w w' hw => ?_
  rw [← op.apply_normalize v w, hv, hw, op.apply_normalize v' w']

/-- Taking out the groupings changes a result at most by normalization. -/
theorem alike_strip (e : Expr) : Alike e.eval e.strip.eval := by
  induction e with
  | literal l => rfl
  | group e ih => exact ih.of_map_normalize
  | unary op e ih => exact congrArg _ (eval_unary_of_alike op ih)
  | binary left op right ihl ihr => exact congrArg _ (eval_binary_of_alike op ihl ihr)

/-- An expression evaluates as it does without its groupings, to the same value or the same error;
where the whole is a grouping, a value is the normalized one. -/
theorem eval_strip (e : Expr) :
    match e with
    | literal _ | unary _ _ | binary _ _ _ => e.eval = e.strip.eval
    | group _ => e.eval = e.strip.eval.map Value.normalize := by
  cases e with
  | literal l => rfl
  | unary op e => exact eval_unary_of_alike op e.alike_strip
  | binary left op right =>
      exact eval_binary_of_alike op left.alike_strip right.alike_strip
  | group e => exact e.alike_strip

end Expr

end LineCalc
