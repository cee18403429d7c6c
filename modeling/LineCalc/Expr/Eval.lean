/-
# `LineCalc.Expr.Eval` — the value of an expression

Operands are evaluated from left to right, and the first failure is the failure of the
whole.  Strings take part in relations only, and only with each other; everywhere else
an operand must have a numeric projection.  Arithmetic gives doubles, the remainder a
whole number, and a grouping turns a number into a double.
-/
import LineCalc.Value
import LineCalc.Decimal.Numeral

namespace LineCalc

/-- Why an expression has no value. -/
inductive EvalError where
  /-- The operand has no numeric projection, and the operator needs one. -/
  | notNumeric (operand : Value) (operator : Operator)
  /-- The lexeme of a number literal spells no number in range. -/
  | malformedNumber (lexeme : String)
  /-- The right operand of a remainder is zero once its fraction is dropped. -/
  | divisionByZero
deriving Repr, Inhabited

def EvalError.message : EvalError → String
  | notNumeric operand operator =>
      "Operand " ++ operand.render ++ " of operator \"" ++ operator.symbol ++ "\" is not numeric."
  | malformedNumber lexeme => "Number literal \"" ++ lexeme ++ "\" is malformed."
  | divisionByZero => "Division by zero."

/-- The numeric projection of an operand, which the operator needs. -/
def Value.number (operator : Operator) (v : Value) : Except EvalError Float :=
  match v.numeric with
  | some x => .ok x
  | none => .error (.notNumeric v operator)

/-- A number as a double; a string stays what it is. -/
def Value.normalize (v : Value) : Value :=
  match v.numeric with
  | some x => .float x
  | none => v

def Arithmetic.apply : Arithmetic → Float → Float → Float
  | add, x, y => x + y
  | sub, x, y => x - y
  | mul, x, y => x * y
  | div, x, y => x / y

/-- Whether a relation holds between two doubles; none but inequality holds for a double that is
no number. -/
def Relation.holdsFloat : Relation → Float → Float → Bool
  | equal, x, y => x == y
  | notEqual, x, y => x != y
  | greater, x, y => decide (y < x)
  | greaterEqual, x, y => decide (y ≤ x)
  | less, x, y => decide (x < y)
  | lessEqual, x, y => decide (x ≤ y)

/-- Whether a relation holds between two strings, which are ordered by their characters. -/
def Relation.holdsString : Relation → String → String → Bool
  | equal, a, b => a == b
  | notEqual, a, b => a != b
  | greater, a, b => decide (b < a)
  | greaterEqual, a, b => !decide (a < b)
  | less, a, b => decide (a < b)
  | lessEqual, a, b => !decide (b < a)

namespace UnaryOp

def apply (op : UnaryOp) (v : Value) : Except EvalError Value := do
  let x ← v.number (.unary op)
  match op with
  | negate => return .float (-x)
  | not => return .bool (x == 0)

end UnaryOp

namespace BinaryOp

def relation (r : Relation) : Value → Value → Except EvalError Value
  | .string a, .string b => .ok (.bool (r.holdsString a b))
  | left, right => do
      let x ← left.number (.binary (relate r))
      let y ← right.number (.binary (relate r))
      return .bool (r.holdsFloat x y)

def arithmetic (a : Arithmetic) (left right : Value) : Except EvalError Value := do
  let x ← left.number (.binary (compute a))
  let y ← right.number (.binary (compute a))
  return .float (a.apply x y)

/-- The remainder of two values: both lose their fractions, and the result takes the sign of the
left one. -/
def remainder (left right : Value) : Except EvalError Value := do
  let x ← left.number (.binary rem)
  let y ← right.number (.binary rem)
  if Double.toInt64 y = 0 then .error .divisionByZero
  else return .int (Double.toInt64 x % Double.toInt64 y)

def apply : BinaryOp → Value → Value → Except EvalError Value
  | relate r => relation r
  | compute a => arithmetic a
  | rem => remainder

end BinaryOp

def Literal.eval : Literal → Except EvalError Value
  | integer lexeme =>
      match Decimal.int64? lexeme with
      | some n => .ok (.int n)
      | none => .error (.malformedNumber lexeme)
  | float lexeme =>
      match Decimal.double? lexeme with
      | some x => .ok (.float x)
      | none => .error (.malformedNumber lexeme)
  | string text => .ok (.string text)
  | bool b => .ok (.bool b)

def Expr.eval : Expr → Except EvalError Value
  | literal l => l.eval
  | group e => e.eval.map Value.normalize
  | unary op e => do op.apply (← e.eval)
  | binary left op right => do
      let x ← left.eval
      let y ← right.eval
      op.apply x y

end LineCalc
