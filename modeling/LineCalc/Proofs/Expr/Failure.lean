/-
# `LineCalc.Proofs.Expr.Failure` — the first failure is the failure

Each node fails for reasons of its own, told from the values of its operands: a number literal
because of its text, an operator because of an operand that is a string, or of a divisor that
is zero once its fraction is dropped (`Expr.Raises`).  A node over an operand that fails has
no failure of its own.

An expression takes over the failure of the first subexpression that has one, in the order
in which evaluation leaves them: operands before the node over them, left before right
(`Expr.postorder`).  Everything in front of that subexpression has a value
(`Expr.eval_eq_error_iff`).
-/
import LineCalc.Proofs.Provenance

namespace LineCalc

/-! ## What a node fails with -/

/-- `l.Raises x`: the literal is a number whose text spells none of its sort. -/
inductive Literal.Raises : Literal → EvalError → Prop
  | integer {lexeme : String} :
      Decimal.int64? lexeme = none → Raises (integer lexeme) (.malformedNumber lexeme)
  | float {lexeme : String} :
      Decimal.double? lexeme = none → Raises (float lexeme) (.malformedNumber lexeme)

/-- `op.Raises v x`: the operand of a unary operator is a string, and it is blamed. -/
inductive UnaryOp.Raises (op : UnaryOp) : Value → EvalError → Prop
  | string (text : String) :
      Raises op (.string text) (.notNumeric (.string text) (.unary op))

/-- `op.Raises v w x`: why a binary operator fails on the values of its operands.  One that computes
blames a string on its left, or else one on its right; a remainder of two numbers blames a
divisor that is zero without its fraction; and a relation blames a string that is related to a
number. -/
inductive BinaryOp.Raises : BinaryOp → Value → Value → EvalError → Prop
  | left {op : BinaryOp} {text : String} (w : Value) : (∀ r, op ≠ relate r) →
      Raises op (.string text) w (.notNumeric (.string text) (.binary op))
  | right {op : BinaryOp} {v : Value} {text : String} : (∀ r, op ≠ relate r) → v.ty ≠ .string →
      Raises op v (.string text) (.notNumeric (.string text) (.binary op))
  | zero {v w : Value} {x y : Float} : v.numeric = some x → w.numeric = some y →
      Double.toInt64 y = 0 → Raises rem v w .divisionByZero
  | leftRelated {r : Relation} {text : String} {w : Value} : w.ty ≠ .string →
      Raises (relate r) (.string text) w (.notNumeric (.string text) (.binary (relate r)))
  | rightRelated {r : Relation} {v : Value} {text : String} : v.ty ≠ .string →
      Raises (relate r) v (.string text) (.notNumeric (.string text) (.binary (relate r)))

namespace Expr

/-- `f.Raises x`: the operands of `f` have values, and on these its root fails with `x`.  A grouping
never does. -/
def Raises : Expr → EvalError → Prop
  | literal l, x => l.Raises x
  | group _, _ => False
  | unary op e, x => ∃ v, e.eval = .ok v ∧ op.Raises v x
  | binary left op right, x =>
      ∃ v w, left.eval = .ok v ∧ right.eval = .ok w ∧ op.Raises v w x

/-- The subexpressions of a tree, operands before the node over them and left before right. -/
def postorder : Expr → List Expr
  | literal l => [literal l]
  | group e => e.postorder ++ [group e]
  | unary op e => e.postorder ++ [unary op e]
  | binary left op right => left.postorder ++ (right.postorder ++ [binary left op right])

def operator? : Expr → Option Operator
  | literal _ | group _ => none
  | unary op _ => some (.unary op)
  | binary _ op _ => some (.binary op)

end Expr

/-! ## Results of one step -/

section
variable {ε α β : Type}

theorem bind_eq_error_iff {r : Except ε α} {f : α → Except ε β} {x : ε} :
    (r >>= f) = .error x ↔ r = .error x ∨ ∃ a, r = .ok a ∧ f a = .error x := by
  cases r with
  | error e =>
      show Except.error e = Except.error x ↔ _
      simp
  | ok a =>
      show f a = .error x ↔ _
      simp

theorem bind_eq_ok_iff {r : Except ε α} {f : α → Except ε β} {b : β} :
    (r >>= f) = .ok b ↔ ∃ a, r = .ok a ∧ f a = .ok b := by
  cases r with
  | error e =>
      show Except.error e = Except.ok b ↔ _
      simp
  | ok a =>
      show f a = .ok b ↔ _
      simp

theorem map_eq_error_iff {r : Except ε α} {f : α → β} {x : ε} :
    r.map f = .error x ↔ r = .error x := by
  cases r <;> simp [Except.map]

theorem map_eq_ok_iff {r : Except ε α} {f : α → β} {b : β} :
    r.map f = .ok b ↔ ∃ a, r = .ok a ∧ f a = b := by
  cases r <;> simp [Except.map]

end

section
variable {x : EvalError}

theorem Literal.eval_integer_eq_ok_iff {lexeme : String} {n : Int64} :
    (integer lexeme).eval = .ok (.int n) ↔ Decimal.int64? lexeme = some n := by
  cases hread : Decimal.int64? lexeme with
  | none =>
      rw [eval_integer_of_none hread]
      exact iff_of_false nofun nofun
  | some m =>
      rw [eval_integer_of_some hread]
      simp

theorem Literal.eval_eq_error_iff {l : Literal} : l.eval = .error x ↔ l.Raises x := by
  constructor
  · intro h
    cases l with
    | integer lexeme =>
        cases hread : Decimal.int64? lexeme with
        | some n =>
            rw [eval_integer_of_some hread] at h
            exact nomatch h
        | none =>
            rw [eval_integer_of_none hread] at h
            obtain rfl := Except.error.inj h
            exact .integer hread
    | float lexeme =>
        cases hread : Decimal.double? lexeme with
        | some y =>
            rw [eval_float_of_some hread] at h
            exact nomatch h
        | none =>
            rw [eval_float_of_none hread] at h
            obtain rfl := Except.error.inj h
            exact .float hread
    | string text | bool b => exact nomatch h
  · intro h
    cases h with
    | integer hread => exact eval_integer_of_none hread
    | float hread => exact eval_float_of_none hread

theorem Value.number_eq_ok_iff {v : Value} {o : Operator} {y : Float} :
    v.number o = .ok y ↔ v.numeric = some y := by
  cases v <;> simp [number, numeric]

theorem Value.exists_of_ty_string {v : Value} (h : v.ty = .string) : ∃ text, v = .string text := by
  cases v with
  | string text => exact ⟨text, rfl⟩
  | float y | int n | bool b => exact nomatch h

theorem Value.ty_ne_string_of_number {v : Value} {o : Operator} {y : Float}
    (h : v.number o = .ok y) : v.ty ≠ .string := by
  intro hstring
  rw [number_of_string hstring] at h
  exact nomatch h

theorem Value.number_eq_error_iff {v : Value} {o : Operator} :
    v.number o = .error x ↔ ∃ text, v = .string text ∧ x = .notNumeric (.string text) o := by
  cases v <;> simp [number, numeric, eq_comm]

theorem UnaryOp.apply_eq_error_iff {op : UnaryOp} {v : Value} :
    op.apply v = .error x ↔ op.Raises v x := by
  constructor
  · intro h
    rcases bind_eq_error_iff.mp h with hnumber | ⟨y, -, hnever⟩
    · obtain ⟨text, rfl, rfl⟩ := Value.number_eq_error_iff.mp hnumber
      exact .string text
    · cases op <;> exact nomatch hnever
  · rintro ⟨text⟩
    rfl

namespace BinaryOp

/-- Two operands that must both be numbers: the left one is blamed, or else the right one, or else
the step after them fails. -/
theorem numbers_eq_error_iff {o : Operator} {f : Float → Float → Except EvalError Value}
    {v w : Value} :
    (do f (← v.number o) (← w.number o)) = .error x ↔
      (∃ text, v = .string text ∧ x = .notNumeric (.string text) o) ∨
      (v.ty ≠ .string ∧ ∃ text, w = .string text ∧ x = .notNumeric (.string text) o) ∨
      ∃ y z, v.numeric = some y ∧ w.numeric = some z ∧ f y z = .error x := by
  constructor
  · intro h
    rcases bind_eq_error_iff.mp h with hleft | ⟨y, hy, h⟩
    · exact Or.inl (Value.number_eq_error_iff.mp hleft)
    rcases bind_eq_error_iff.mp h with hright | ⟨z, hz, h⟩
    · exact Or.inr (Or.inl ⟨Value.ty_ne_string_of_number hy, Value.number_eq_error_iff.mp hright⟩)
    · exact Or.inr (Or.inr
        ⟨y, z, Value.number_eq_ok_iff.mp hy, Value.number_eq_ok_iff.mp hz, h⟩)
  · rintro (⟨text, rfl, rfl⟩ | ⟨hv, text, rfl, rfl⟩ | ⟨y, z, hy, hz, h⟩)
    · rfl
    · obtain ⟨y, hy⟩ := Value.number_of_numeric hv o
      rw [hy]
      rfl
    · rw [Value.number_eq_ok_iff.mpr hy, Value.number_eq_ok_iff.mpr hz]
      exact h

theorem relation_eq_error_iff {r : Relation} {v w : Value} :
    relation r v w = .error x ↔ (relate r).Raises v w x := by
  by_cases hstrings : v.ty = .string ∧ w.ty = .string
  · refine iff_of_false ?_ ?_
    · intro h
      obtain ⟨a, rfl⟩ := Value.exists_of_ty_string hstrings.1
      obtain ⟨b, rfl⟩ := Value.exists_of_ty_string hstrings.2
      exact nomatch h
    · rintro (⟨-, hop⟩ | ⟨hop, -⟩ | _ | hw | hv)
      · exact hop r rfl
      · exact hop r rfl
      · exact hw hstrings.2
      · exact hv hstrings.1
  · rw [relation_of_not_strings r hstrings, numbers_eq_error_iff]
    constructor
    · rintro (⟨text, rfl, rfl⟩ | ⟨hv, text, rfl, rfl⟩ | ⟨y, z, -, -, hnever⟩)
      · exact .leftRelated fun hw => hstrings ⟨rfl, hw⟩
      · exact .rightRelated hv
      · exact nomatch hnever
    · rintro (⟨-, hop⟩ | ⟨hop, -⟩ | _ | hw | hv)
      · exact absurd rfl (hop r)
      · exact absurd rfl (hop r)
      · exact Or.inl ⟨_, rfl, rfl⟩
      · exact Or.inr (Or.inl ⟨hv, _, rfl, rfl⟩)

theorem arithmetic_eq_error_iff {a : Arithmetic} {v w : Value} :
    arithmetic a v w = .error x ↔ (compute a).Raises v w x := by
  unfold arithmetic
  rw [numbers_eq_error_iff]
  constructor
  · rintro (⟨text, rfl, rfl⟩ | ⟨hv, text, rfl, rfl⟩ | ⟨y, z, -, -, hnever⟩)
    · exact .left w nofun
    · exact .right nofun hv
    · exact nomatch hnever
  · rintro (_ | ⟨-, hv⟩)
    · exact Or.inl ⟨_, rfl, rfl⟩
    · exact Or.inr (Or.inl ⟨hv, _, rfl, rfl⟩)

theorem remainder_eq_error_iff {v w : Value} :
    remainder v w = .error x ↔ rem.Raises v w x := by
  unfold remainder
  rw [numbers_eq_error_iff]
  constructor
  · rintro (⟨text, rfl, rfl⟩ | ⟨hv, text, rfl, rfl⟩ | ⟨y, z, hy, hz, h⟩)
    · exact .left w nofun
    · exact .right nofun hv
    · split at h
      next hzero =>
        obtain rfl := Except.error.inj h
        exact .zero hy hz hzero
      next => exact nomatch h
  · rintro (_ | ⟨-, hv⟩ | ⟨hy, hz, hzero⟩)
    · exact Or.inl ⟨_, rfl, rfl⟩
    · exact Or.inr (Or.inl ⟨hv, _, rfl, rfl⟩)
    · exact Or.inr (Or.inr ⟨_, _, hy, hz, if_pos hzero⟩)

theorem apply_eq_error_iff {op : BinaryOp} {v w : Value} :
    op.apply v w = .error x ↔ op.Raises v w x := by
  cases op with
  | relate r => exact relation_eq_error_iff
  | compute a => exact arithmetic_eq_error_iff
  | rem => exact remainder_eq_error_iff

end BinaryOp

end

/-! ## Expressions -/

namespace Expr

variable {x : EvalError}

theorem eval_group_eq_error_iff {e : Expr} : (group e).eval = .error x ↔ e.eval = .error x :=
  map_eq_error_iff

theorem eval_unary_eq_error_iff {op : UnaryOp} {e : Expr} :
    (unary op e).eval = .error x ↔ e.eval = .error x ∨ (unary op e).Raises x := by
  refine bind_eq_error_iff.trans (or_congr_right ?_)
  exact exists_congr fun v => and_congr_right fun _ => UnaryOp.apply_eq_error_iff

theorem eval_binary_eq_error_iff {left right : Expr} {op : BinaryOp} :
    (binary left op right).eval = .error x ↔
      left.eval = .error x ∨ (∃ v, left.eval = .ok v) ∧
        (right.eval = .error x ∨ (binary left op right).Raises x) := by
  constructor
  · intro h
    rcases bind_eq_error_iff.mp h with hleft | ⟨v, hv, h⟩
    · exact Or.inl hleft
    rcases bind_eq_error_iff.mp h with hright | ⟨w, hw, h⟩
    · exact Or.inr ⟨⟨v, hv⟩, Or.inl hright⟩
    · exact Or.inr ⟨⟨v, hv⟩, Or.inr ⟨v, w, hv, hw, BinaryOp.apply_eq_error_iff.mp h⟩⟩
  · rintro (hleft | ⟨⟨v, hv⟩, hright | ⟨v', w, hv', hw, hop⟩⟩)
    · exact bind_eq_error_iff.mpr (Or.inl hleft)
    · exact bind_eq_error_iff.mpr (Or.inr ⟨v, hv, bind_eq_error_iff.mpr (Or.inl hright)⟩)
    · exact bind_eq_error_iff.mpr (Or.inr ⟨v', hv',
        bind_eq_error_iff.mpr (Or.inr ⟨w, hw, BinaryOp.apply_eq_error_iff.mpr hop⟩)⟩)

def AllHaveValues (es : List Expr) : Prop := ∀ g ∈ es, ∃ v, g.eval = .ok v

theorem allHaveValues_append {es fs : List Expr} :
    AllHaveValues (es ++ fs) ↔ AllHaveValues es ∧ AllHaveValues fs :=
  List.forall_mem_append

theorem mem_postorder_self (e : Expr) : e ∈ e.postorder := by
  cases e <;> simp [postorder]

theorem allHaveValues_postorder_iff {e : Expr} :
    AllHaveValues e.postorder ↔ ∃ v, e.eval = .ok v := by
  constructor
  · intro h
    exact h e e.mem_postorder_self
  · rintro ⟨v, hv⟩
    have hsingle : ∀ {f : Expr} {w : Value}, f.eval = .ok w → AllHaveValues [f] :=
      fun hw => List.forall_mem_singleton.mpr ⟨_, hw⟩
    induction e generalizing v with
    | literal l => exact hsingle hv
    | group e ih =>
        obtain ⟨w, hw, -⟩ := map_eq_ok_iff.mp hv
        exact allHaveValues_append.mpr ⟨ih w hw, hsingle hv⟩
    | unary op e ih =>
        obtain ⟨w, hw, -⟩ := bind_eq_ok_iff.mp hv
        exact allHaveValues_append.mpr ⟨ih w hw, hsingle hv⟩
    | binary left op right ihl ihr =>
        obtain ⟨w, hw, hright⟩ := bind_eq_ok_iff.mp hv
        obtain ⟨w', hw', -⟩ := bind_eq_ok_iff.mp hright
        exact allHaveValues_append.mpr
          ⟨ihl w hw, allHaveValues_append.mpr ⟨ihr w' hw', hsingle hv⟩⟩

/-- `FailsFirst es x`: the trees of the list have values up to one that raises `x`. -/
def FailsFirst (es : List Expr) (x : EvalError) : Prop :=
  ∃ before f after, es = before ++ f :: after ∧ AllHaveValues before ∧ f.Raises x

theorem failsFirst_singleton {e : Expr} : FailsFirst [e] x ↔ e.Raises x := by
  constructor
  · rintro ⟨before, f, after, hsplit, -, hf⟩
    rcases List.singleton_eq_append_iff.mp hsplit with ⟨-, hcons⟩ | ⟨-, hnil⟩
    · obtain ⟨rfl, -⟩ := List.cons.inj hcons
      exact hf
    · exact nomatch hnil
  · intro h
    exact ⟨[], e, [], rfl, List.forall_mem_nil _, h⟩

theorem failsFirst_append {es fs : List Expr} :
    FailsFirst (es ++ fs) x ↔ FailsFirst es x ∨ AllHaveValues es ∧ FailsFirst fs x := by
  constructor
  · rintro ⟨before, f, after, hsplit, hbefore, hf⟩
    rcases List.append_eq_append_iff.mp hsplit with ⟨before', rfl, rfl⟩ | ⟨rest, rfl, hrest⟩
    · obtain ⟨hes, hbefore⟩ := allHaveValues_append.mp hbefore
      exact Or.inr ⟨hes, before', f, after, rfl, hbefore, hf⟩
    · cases rest with
      | nil =>
          rw [List.append_nil]
          exact Or.inr ⟨hbefore, [], f, after, hrest.symm, List.forall_mem_nil _, hf⟩
      | cons g rest =>
          obtain ⟨rfl, -⟩ := List.cons.inj hrest
          exact Or.inl ⟨before, f, rest, rfl, hbefore, hf⟩
  · rintro (⟨before, f, after, rfl, hbefore, hf⟩ | ⟨hes, before, f, after, rfl, hbefore, hf⟩)
    · exact ⟨before, f, after ++ fs, by simp, hbefore, hf⟩
    · exact ⟨es ++ before, f, after, by simp, allHaveValues_append.mpr ⟨hes, hbefore⟩, hf⟩

/-- An expression fails as the first of its subexpressions that raises an error. -/
theorem eval_eq_error_iff {e : Expr} : e.eval = .error x ↔ FailsFirst e.postorder x := by
  induction e with
  | literal l =>
      rw [postorder, failsFirst_singleton]
      exact Literal.eval_eq_error_iff
  | group e ih =>
      rw [eval_group_eq_error_iff, ih, postorder, failsFirst_append, failsFirst_singleton]
      exact (or_iff_left fun h => h.2).symm
  | unary op e ih =>
      rw [eval_unary_eq_error_iff, ih, postorder, failsFirst_append, failsFirst_singleton,
        allHaveValues_postorder_iff]
      refine or_congr_right ⟨fun h => ⟨?_, h⟩, And.right⟩
      obtain ⟨v, hv, -⟩ := h
      exact ⟨v, hv⟩
  | binary left op right ihl ihr =>
      rw [eval_binary_eq_error_iff, ihl, ihr, postorder, failsFirst_append, failsFirst_append,
        failsFirst_singleton, allHaveValues_postorder_iff, allHaveValues_postorder_iff]
      refine or_congr_right (and_congr_right fun _ => or_congr_right ⟨fun h => ⟨?_, h⟩, And.right⟩)
      obtain ⟨-, w, -, hw, -⟩ := h
      exact ⟨w, hw⟩

theorem Raises.names {f : Expr} {operand : Value} {operator : Operator}
    (h : f.Raises (.notNumeric operand operator)) :
    (∃ text, operand = .string text) ∧ f.operator? = some operator := by
  cases f with
  | literal l => exact nomatch h
  | group e => exact nomatch h
  | unary op e =>
      obtain ⟨v, -, ⟨text⟩⟩ := h
      exact ⟨⟨text, rfl⟩, rfl⟩
  | binary left op right =>
      obtain ⟨v, w, -, -, hop⟩ := h
      cases hop with
      | left | right | leftRelated | rightRelated => exact ⟨⟨_, rfl⟩, rfl⟩

theorem Raises.malformed {f : Expr} {lexeme : String} (h : f.Raises (.malformedNumber lexeme)) :
    (f = literal (.integer lexeme) ∧ Decimal.int64? lexeme = none) ∨
      f = literal (.float lexeme) ∧ Decimal.double? lexeme = none := by
  cases f with
  | literal l =>
      cases h with
      | integer hnone => exact Or.inl ⟨rfl, hnone⟩
      | float hnone => exact Or.inr ⟨rfl, hnone⟩
  | group e => exact nomatch h
  | unary op e =>
      obtain ⟨v, -, hop⟩ := h
      exact nomatch hop
  | binary left op right =>
      obtain ⟨v, w, -, -, hop⟩ := h
      exact nomatch hop

theorem mem_literals_of_mem_postorder {e : Expr} {l : Literal} (h : literal l ∈ e.postorder) :
    l ∈ e.literals := by
  induction e with
  | literal l' =>
      obtain rfl := literal.inj (List.mem_singleton.mp h)
      exact List.mem_singleton.mpr rfl
  | group e ih =>
      rcases List.mem_append.mp h with hoperand | hroot
      · exact ih hoperand
      · exact nomatch List.mem_singleton.mp hroot
  | unary op e ih =>
      rcases List.mem_append.mp h with hoperand | hroot
      · exact ih hoperand
      · exact nomatch List.mem_singleton.mp hroot
  | binary left op right ihl ihr =>
      rcases List.mem_append.mp h with hleft | hrest
      · exact List.mem_append_left _ (ihl hleft)
      rcases List.mem_append.mp hrest with hright | hroot
      · exact List.mem_append_right _ (ihr hright)
      · exact nomatch List.mem_singleton.mp hroot

theorem malformed_of_eval {e : Expr} {lexeme : String}
    (h : e.eval = .error (.malformedNumber lexeme)) :
    (.integer lexeme ∈ e.literals ∧ Decimal.int64? lexeme = none) ∨
      .float lexeme ∈ e.literals ∧ Decimal.double? lexeme = none := by
  obtain ⟨before, f, after, hpostorder, -, hf⟩ := eval_eq_error_iff.mp h
  have hmem : f ∈ e.postorder := by
    rw [hpostorder]
    exact List.mem_append_right _ List.mem_cons_self
  rcases hf.malformed with ⟨rfl, hnone⟩ | ⟨rfl, hnone⟩
  · exact Or.inl ⟨mem_literals_of_mem_postorder hmem, hnone⟩
  · exact Or.inr ⟨mem_literals_of_mem_postorder hmem, hnone⟩

/-- An expression fails as the first of its subexpressions in postorder that raises an error while
everything in front of it has a value.  An operand that is blamed is one of the strings written
in the expression, and it is blamed by one of its operators. -/
theorem eval_fails_first (e : Expr) (x : EvalError) :
    (e.eval = .error x ↔ ∃ before f after, e.postorder = before ++ f :: after ∧
      (∀ g ∈ before, ∃ v, g.eval = .ok v) ∧ f.Raises x) ∧
    ∀ operand operator, e.eval = .error (.notNumeric operand operator) →
      (∃ text, operand = .string text ∧ .string text ∈ e.literals) ∧
      ∃ f ∈ e.postorder, f.operator? = some operator := by
  refine ⟨eval_eq_error_iff, fun operand operator h => ?_⟩
  obtain ⟨before, f, after, hpostorder, -, hf⟩ := eval_eq_error_iff.mp h
  obtain ⟨⟨text, rfl⟩, hoperator⟩ := hf.names
  refine ⟨⟨text, rfl, error_isFrom h⟩, f, ?_, hoperator⟩
  rw [hpostorder]
  exact List.mem_append_right _ List.mem_cons_self

/-- A string is added, and the sum is compared with a malformed number: the string is blamed. -/
theorem eval_fails_first_of_two_faults :
    let sum : Expr := .binary (.literal (.bool true)) (.compute .add) (.literal (.string "a"))
    let e : Expr := .binary sum (.relate .less) (.literal (.float "1.2.3"))
    let x : EvalError := .notNumeric (.string "a") (.binary (.compute .add))
    e.eval = .error x ∧
      (∃ before f after, e.postorder = before ++ f :: after ∧
        (∀ g ∈ before, ∃ v, g.eval = .ok v) ∧ f.Raises x) ∧
      (∃ text, Value.string "a" = .string text ∧ .string text ∈ e.literals) ∧
      ∃ f ∈ e.postorder, f.operator? = some (.binary (.compute .add)) := by
  intro sum e x
  have heval : e.eval = .error x := rfl
  obtain ⟨hfirst, hnames⟩ := eval_fails_first e x
  exact ⟨heval, hfirst.mp heval, hnames _ _ heval⟩

end Expr

end LineCalc
