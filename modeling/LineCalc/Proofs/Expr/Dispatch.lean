/-
# `LineCalc.Proofs.Expr.Dispatch` — operators sent where they are computed

The evaluator once more, with two steps that are not defined everywhere.  A relation is
decided by a function that is handed any binary operator and relies on it to be a relation.  The
remainder of two whole numbers is taken by a function that relies on the right one to be
other than zero.  Which operator comes to the first is decided where the operands have been
evaluated, and the zero is looked for before the second, so no expression ends in a breach
(`Dispatch.evaluate_eq`).
-/
import LineCalc.Expr.Eval
import LineCalc.Proofs.Walk

namespace LineCalc.Dispatch

/-- What the evaluator is not prepared for. -/
inductive Breach where
  /-- An operator is to be decided as a relation and is none. -/
  | notRelational (op : BinaryOp)
  /-- A remainder is to be taken by zero. -/
  | zeroDivisor
deriving DecidableEq, Repr

/-- The result of an evaluation that may end in a breach. -/
abbrev Evaluation (α : Type) := Except (Stop EvalError Breach) α

/-! ## The partial steps -/

/-- Decides an operator between two operands as a relation. -/
def relate {α : Type} (holds : Relation → α → α → Bool) (op : BinaryOp) (a b : α) :
    Evaluation Bool :=
  match op with
  | .relate r => .ok (holds r a b)
  | op => .error (.breach (.notRelational op))

def remInt (a b : Int64) : Evaluation Int64 :=
  if b = 0 then .error (.breach .zeroDivisor) else .ok (a % b)

/-! ## The evaluator around them -/

def number (op : BinaryOp) (v : Value) : Evaluation Float :=
  unbroken Breach (v.number (.binary op))

def arithmetic (op : BinaryOp) (f : Float → Float → Float) (left right : Value) :
    Evaluation Value := do
  let x ← number op left
  let y ← number op right
  return .float (f x y)

def remainder (left right : Value) : Evaluation Value := do
  let x ← number .rem left
  let y ← number .rem right
  if Double.toInt64 y = 0 then .error (.error .divisionByZero)
  else return .int (← remInt (Double.toInt64 x) (Double.toInt64 y))

/-- Compares two values: strings with each other, and all else as numbers. -/
def compare (op : BinaryOp) : Value → Value → Evaluation Value
  | .string a, .string b => do return .bool (← relate Relation.holdsString op a b)
  | left, right => do
      let x ← number op left
      let y ← number op right
      return .bool (← relate Relation.holdsFloat op x y)

def apply (op : BinaryOp) (left right : Value) : Evaluation Value :=
  match op with
  | .compute .add => arithmetic op (· + ·) left right
  | .compute .sub => arithmetic op (· - ·) left right
  | .compute .mul => arithmetic op (· * ·) left right
  | .compute .div => arithmetic op (· / ·) left right
  | .rem => remainder left right
  | .relate .equal | .relate .notEqual | .relate .greater | .relate .greaterEqual
  | .relate .less | .relate .lessEqual => compare op left right

def evaluate : Expr → Evaluation Value
  | .literal l => unbroken Breach l.eval
  | .group e => (evaluate e).map Value.normalize
  | .unary op e => do unbroken Breach (op.apply (← evaluate e))
  | .binary left op right => do
      let x ← evaluate left
      let y ← evaluate right
      apply op x y

/-! ## No expression ends in a breach -/

theorem arithmetic_eq (a : Arithmetic) (left right : Value) :
    arithmetic (.compute a) a.apply left right
      = unbroken Breach (BinaryOp.arithmetic a left right) :=
  unbroken_bind fun _ => unbroken_bind fun _ => rfl

theorem remainder_eq (left right : Value) :
    remainder left right = unbroken Breach (BinaryOp.remainder left right) := by
  refine unbroken_bind fun x => unbroken_bind fun y => ?_
  split
  next => rfl
  next hzero =>
    -- the zero was looked for before, so the remainder is not taken by it
    rw [remInt, if_neg hzero]
    rfl

theorem compare_eq (r : Relation) (left right : Value) :
    compare (.relate r) left right = unbroken Breach (BinaryOp.relation r left right) := by
  have hnumbers (v w : Value) :
      (do let x ← number (.relate r) v
          let y ← number (.relate r) w
          return .bool (← relate Relation.holdsFloat (.relate r) x y) : Evaluation Value)
        = unbroken Breach (do
            let x ← v.number (.binary (.relate r))
            let y ← w.number (.binary (.relate r))
            return .bool (r.holdsFloat x y)) :=
    unbroken_bind fun _ => unbroken_bind fun _ => rfl
  cases left with
  | string a =>
      cases right with
      | string b => rfl
      | _ => exact hnumbers _ _
  | _ => exact hnumbers _ _

theorem apply_eq (op : BinaryOp) (left right : Value) :
    apply op left right = unbroken Breach (op.apply left right) := by
  cases op with
  | relate r => cases r <;> exact compare_eq _ left right
  | compute a => cases a <;> exact arithmetic_eq _ left right
  | rem => exact remainder_eq left right

/-- Every expression has the value, or the error, that it has where no step is partial. -/
theorem evaluate_eq (e : Expr) : evaluate e = unbroken Breach e.eval := by
  induction e with
  | literal l => rfl
  | group e ih =>
      rw [evaluate, Expr.eval, ih]
      exact unbroken_map _ _
  | unary op e ih =>
      rw [evaluate, Expr.eval, ih]
      exact unbroken_bind fun _ => rfl
  | binary left op right ihl ihr =>
      rw [evaluate, Expr.eval, ihl, ihr]
      exact unbroken_bind fun x => unbroken_bind fun y => apply_eq op x y

end LineCalc.Dispatch
